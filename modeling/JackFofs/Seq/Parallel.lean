import JackFofs.Lib.Superposition
import JackFofs.Seq.Banks
import JackFofs.Seq.Fairness

/-!
# Parallel synthesis

The path of the sound: a cycle hands the events of its slot to the fof banks of the DSP clients in
turn, every DSP client renders its bank, and the mixer gets what they render on each channel, because
`manager_connect_clients` connects output port `c` of every DSP client to input port `c` of the mixer,
and JACK adds up what comes in at a port.

What libfofs does with one fof is a parameter (`Voice`). A bank may refuse a fof. Those it has taken go
on independently of each other. Then, as long as none is refused, it does not matter how many DSP
clients there are: in every cycle all of them together render the same fofs, in the same state and at
the same frame (`parallel_mix`). What these sound like together is left to libfofs and JACK, which add
up floating-point samples in an order of their own.
-/

namespace JackFofs
open Runs Superposition

variable {α V : Type}

/-- What libfofs does with one fof: `takes` says whether `fof_add_v` adds it to a bank that plays some
    fofs already, `start` is its state then, and `next` its state after a block, if it is still playing.
    All three may depend on the frame time of the bank. -/
structure Voice (α V : Type) where
  takes : (timeI : Nat) → (voices : Multiset V) → (timeUs : Nat) → (argv : α) → Bool
  start : (timeI timeUs : Nat) → (argv : α) → V
  next : (timeI nframes : Nat) → V → Option V

/-- The server with the fofs that are playing on the bank of each DSP client. -/
structure Player (α V : Type) where
  sys : Sys α
  bank : Nat → Multiset V

/-- Nothing is playing at first. -/
def Player.init (setup : Setup) (q : FofQueue α) : Player α V := ⟨Sys.init setup q, fun _ => 0⟩

/-- `dsp_client_add`, for all calls of a cycle: the banks, and the number of fofs that are refused. -/
def dspClientAdds (voice : Voice α V) (timeI : Nat → Nat) (bank : Nat → Multiset V) :
    List (DspAdd α) → (Nat → Multiset V) × Nat
  | [] => (bank, 0)
  | d :: adds =>
    if voice.takes (timeI d.dsp) (bank d.dsp) d.timeUs d.argv then
      dspClientAdds voice timeI
        (Function.update bank d.dsp (voice.start (timeI d.dsp) d.timeUs d.argv ::ₘ bank d.dsp)) adds
    else
      let (bank, refused) := dspClientAdds voice timeI bank adds
      (bank, refused + 1)

/-- The result of an operation: what it answers, or the frame of a cycle, the number of fofs that the
    banks refuse in it, and the fofs that the DSP clients render for the mixer. -/
inductive Played (α V : Type) where
  | answered (out : Out α)
  | played (n refused : Nat) (voices : Multiset V)

/-- A result without the sound. -/
def Played.silent : Played α V → Played α V
  | .answered out => .answered out
  | .played n _ _ => .played n 0 0

/-- No fof is refused. -/
def Played.AllTaken : Played α V → Prop
  | .answered _ => True
  | .played _ refused _ => refused = 0

instance : DecidablePred (Played.AllTaken (α := α) (V := V))
  | .answered _ => isTrue trivial
  | .played _ _ _ => inferInstanceAs (Decidable (_ = _))

/-- One operation of the server with its sound. A cycle comes with the run of the DSP clients and the
    mixer. -/
def playOp (voice : Voice α V) (fuel : Nat) (s : Player α V) :
    Op α → Option (Played α V × Player α V)
  | .cycle nframes jack => do
    let (ctrl, q, out) ← ctrlClientProcessCb fuel nframes jack s.sys.ctrl s.sys.q
    let (bank, refused) := dspClientAdds voice ctrl.dspTimeI s.bank out.adds
    return (.played out.n refused (together ctrl.nClients bank),
      { sys := { s.sys with
          ctrl := dspClientProcess (fun t nframes => u64 (t + nframes)) ctrl nframes, q := q }
        bank := fun i => (bank i).filterMap (voice.next (ctrl.dspTimeI i) nframes) })
  | op => do
    let (out, sys) ← exec fuel s.sys op
    return (.answered out, { s with sys := sys })

/-! ## Two controllers -/

/-- Two controllers that differ at most in their DSP clients. -/
structure Alike (ctrl ctrl1 : CtrlClient) : Prop where
  clockSource : ctrl1.clockSource = ctrl.clockSource
  transportFrame : ctrl1.transportFrame = ctrl.transportFrame
  transportState : ctrl1.transportState = ctrl.transportState
  syncronized : ctrl1.syncronized = ctrl.syncronized

/-- The data that a call of `dsp_client_add` passes. -/
def DspAdd.data (d : DspAdd α) : Nat × α := (d.timeUs, d.argv)

section Alike

variable {ctrl ctrl1 ctrl' : CtrlClient} {q q' : FofQueue α} {fuel nframes m n : Nat}
  {transportState : TransportState} {out : CycleOut α}

lemma changeMode_alike {clockSource : Int} (alike : Alike ctrl ctrl1)
    (e : changeMode fuel ctrl q clockSource = some (ctrl', q')) :
    ∃ ctrl1', changeMode fuel ctrl1 q clockSource = some (ctrl1', q') ∧ Alike ctrl' ctrl1' := by
  rw [changeMode] at e ⊢
  rw [alike.clockSource]
  split at e
  case isTrue ne =>
    obtain ⟨q1, flush, e⟩ := Option.bind_eq_some_iff.1 e
    cases e
    rw [if_pos ne, flush]
    exact ⟨_, rfl, rfl, alike.transportFrame, alike.transportState, rfl⟩
  case isFalse same =>
    cases e
    rw [if_neg same]
    exact ⟨ctrl1, rfl, alike⟩

lemma followTransport_alike (alike : Alike ctrl ctrl1)
    (e : followTransport fuel ctrl q nframes m transportState = some (ctrl', q')) :
    ∃ ctrl1', followTransport fuel ctrl1 q nframes m transportState = some (ctrl1', q') ∧
      Alike ctrl' ctrl1' := by
  have jump : ctrlTransportDiscontinuity ctrl1 nframes transportState m =
      ctrlTransportDiscontinuity ctrl nframes transportState m := by
    rw [ctrlTransportDiscontinuity, ctrlTransportDiscontinuity, alike.clockSource, alike.syncronized,
      alike.transportState, alike.transportFrame]
  rw [followTransport] at e ⊢
  rw [jump]
  split at e
  case isTrue jumped =>
    obtain ⟨q1, flush, e⟩ := Option.bind_eq_some_iff.1 e
    cases e
    rw [if_pos jumped, flush]
    exact ⟨_, rfl, alike.clockSource, alike.transportFrame, alike.transportState, rfl⟩
  case isFalse smooth =>
    cases e
    rw [if_neg smooth]
    exact ⟨ctrl1, rfl, alike⟩

lemma publish_alike (alike : Alike ctrl ctrl1)
    (e : publish ctrl q nframes m transportState = (ctrl', q', n)) :
    ∃ ctrl1', publish ctrl1 q nframes m transportState = (ctrl1', q', n) ∧ Alike ctrl' ctrl1' := by
  rw [publish_ctrl] at e ⊢
  cases e
  rw [alike.clockSource]
  exact ⟨_, rfl, rfl, rfl, rfl, rfl⟩

/-- The loop makes the same calls for other DSP clients. -/
lemma distribute_alike {fofs : Addr → Fof α} {nClients i i' : Nat}
    {fof lastFof lastFof' : Option Addr} {adds : List (DspAdd α)} (nClients1 j : Nat)
    (e : distribute fofs nClients fuel fof i lastFof = some (i', lastFof', adds)) :
    ∃ j' adds1, distribute fofs nClients1 fuel fof j lastFof = some (j', lastFof', adds1) ∧
      adds1.map DspAdd.data = adds.map DspAdd.data := by
  induction fuel generalizing fof i j lastFof adds with
  | zero =>
    cases fof with
    | none =>
      cases e
      exact ⟨j, [], rfl, rfl⟩
    | some fof => cases e
  | succ fuel ih =>
    cases fof with
    | none =>
      cases e
      exact ⟨j, [], rfl, rfl⟩
    | some fof =>
      rw [distribute] at e ⊢
      obtain ⟨⟨i1, lastFof1, adds1⟩, e1, e⟩ := Option.bind_eq_some_iff.1 e
      cases e
      obtain ⟨j', adds1', e1', data⟩ := ih ((j + 1) % nClients1) e1
      rw [e1']
      exact ⟨j', _, rfl, congrArg (_ :: ·) data⟩

lemma consumeSlot_alike (alike : Alike ctrl ctrl1)
    (e : consumeSlot fuel ctrl q n = some (ctrl', q', out)) :
    ∃ ctrl1' out1, consumeSlot fuel ctrl1 q n = some (ctrl1', q', out1) ∧ Alike ctrl' ctrl1' ∧
      out1.n = out.n ∧ out1.adds.map DspAdd.data = out.adds.map DspAdd.data := by
  rw [consumeSlot, fofQueueTakeSlot] at e ⊢
  generalize q.slot (slotOfFrame q n) = fof, q.setSlot (slotOfFrame q n) none = r at e ⊢
  obtain ⟨⟨i, lastFof, adds⟩, dist, e⟩ := Option.bind_eq_some_iff.1 e
  obtain ⟨j, adds1, dist1, data⟩ := distribute_alike ctrl1.nClients ctrl1.lastDsp dist
  have len : adds1.length = adds.length := by
    rw [← List.length_map DspAdd.data, data, List.length_map]
  have alike' : Alike { ctrl with lastDsp := i } { ctrl1 with lastDsp := j } :=
    ⟨alike.clockSource, alike.transportFrame, alike.transportState, alike.syncronized⟩
  refine ⟨{ ctrl1 with lastDsp := j }, ⟨n, adds1⟩, ?_⟩
  simp only [dist1, len, Option.bind_eq_bind, Option.bind_some]
  dsimp only at e
  split at e
  case h_1 first last =>
    obtain ⟨q1, free, e⟩ := Option.bind_eq_some_iff.1 e
    cases e
    rw [free]
    exact ⟨rfl, alike', rfl, data⟩
  case h_2 open_end =>
    cases e
    refine ⟨?_, alike', rfl, data⟩
    cases fof with
    | none => rfl
    | some first =>
      cases lastFof with
      | none => rfl
      | some last => exact absurd rfl (open_end first last rfl)

/-- A whole cycle makes the same calls of `dsp_client_add` up to the DSP clients they are made to. -/
lemma ctrlClientProcessCb_alike {jack : JackReading} (alike : Alike ctrl ctrl1)
    (e : ctrlClientProcessCb fuel nframes jack ctrl q = some (ctrl', q', out)) :
    ∃ ctrl1' out1, ctrlClientProcessCb fuel nframes jack ctrl1 q = some (ctrl1', q', out1) ∧
      Alike ctrl' ctrl1' ∧ out1.n = out.n ∧
      out1.adds.map DspAdd.data = out.adds.map DspAdd.data := by
  obtain ⟨m, transportState, ctrla, qa, ctrlb, qb, ctrlc, qc, n, stamp, mode, jump, pub, consume⟩ :=
    ctrlClientProcessCb_parts e
  obtain ⟨ctrl1a, mode1, alikea⟩ := changeMode_alike alike mode
  obtain ⟨ctrl1b, jump1, alikeb⟩ := followTransport_alike alikea jump
  obtain ⟨ctrl1c, pub1, alikec⟩ := publish_alike alikeb pub
  obtain ⟨ctrl1', out1, consume1, alike', en, data⟩ := consumeSlot_alike alikec consume
  refine ⟨ctrl1', out1, ?_, alike', en, data⟩
  simp only [ctrlClientProcessCb, stamp, mode1, jump1, pub1, consume1, Option.bind_eq_bind,
    Option.bind_some]

end Alike

/-! ## The banks of a period -/

section Banks

variable {voice : Voice α V} {timeI : Nat → Nat} {n t : Nat} {bank : Nat → Multiset V}

/-- The fofs that calls of `dsp_client_add` with the given data start on banks at frame time `t`. -/
def startVoices (voice : Voice α V) (t : Nat) (data : List (Nat × α)) : Multiset V :=
  data.map fun d => voice.start t d.1 d.2

/-- To all banks together it does not matter which one a call goes to, as long as none refuses. -/
lemma dspClientAdds_together {adds : List (DspAdd α)} (dsps : ∀ d ∈ adds, d.dsp < n)
    (times : ∀ i, i < n → timeI i = t) (taken : (dspClientAdds voice timeI bank adds).2 = 0) :
    together n (dspClientAdds voice timeI bank adds).1 =
      startVoices voice t (adds.map DspAdd.data) + together n bank := by
  induction adds generalizing bank with
  | nil => exact (zero_add _).symm
  | cons d adds ih =>
    have lt : d.dsp < n := dsps d List.mem_cons_self
    rw [dspClientAdds] at taken ⊢
    split at taken
    case isFalse => cases taken
    case isTrue takes =>
      rw [if_pos takes, ih (fun d mem => dsps d (List.mem_cons_of_mem _ mem)) taken,
        ← Multiset.singleton_add, together_update lt, times d.dsp lt, add_left_comm, ← add_assoc]
      rfl

end Banks

/-! ## Two servers -/

section Servers

variable {setup setup' : Setup} {s s' r r' : Player α V} {fuel : Nat} {voice : Voice α V} {op : Op α}
  {played played' : Played α V}

/-- The state of a server between two operations. -/
structure PlayerInv (setup : Setup) (s : Player α V) : Prop where
  sys : ∃ L, SysInv setup s.sys L
  banks : Banks s.sys.ctrl s.sys.q.nextFrame

lemma playerInv_init (ok : SetupOk setup) (q : FofQueue α) :
    PlayerInv setup (Player.init (V := V) setup q) :=
  ⟨⟨_, sysInv_init ok q⟩, fun synced => absurd synced Bool.false_ne_true⟩

/-- In a cycle all calls go to DSP clients that exist, and all banks are at the frame of the cycle. -/
lemma PlayerInv.cycle (inv : PlayerInv setup s) {nframes : Nat} {jack : JackReading}
    {ctrl : CtrlClient} {q : FofQueue α} {out : CycleOut α}
    (e : ctrlClientProcessCb fuel nframes jack s.sys.ctrl s.sys.q = some (ctrl, q, out)) :
    ctrl.nClients = setup.nClients ∧ (∀ d ∈ out.adds, d.dsp < setup.nClients) ∧
      ∀ i, i < setup.nClients → ctrl.dspTimeI i = out.n := by
  obtain ⟨L, sys⟩ := inv.sys
  obtain ⟨nClients, times, -⟩ := ctrlClientProcessCb_banks e inv.banks
  obtain ⟨-, -, dsps⟩ := ctrlClientProcessCb_dealt sys.lastDsp e
  have same : ctrl.nClients = setup.nClients := nClients.trans sys.nClients
  refine ⟨same, fun d mem => ?_, fun i lt => times i (same.symm ▸ lt)⟩
  have mem : d.dsp ∈ out.adds.map (·.dsp) := List.mem_map_of_mem mem
  rw [dsps] at mem
  rw [← sys.nClients]
  exact RoundRobin.lt_of_mem_deal sys.lastDsp mem

/-- The sound of a server does not influence the rest of it. -/
lemma playOp_of_period (voice : Voice α V) {rendered : Rendered} {sys : Sys α}
    (e : period (fun t nframes => u64 (t + nframes)) fuel s.sys op = some (rendered, sys)) :
    ∃ played bank, playOp voice fuel s op = some (played, ⟨sys, bank⟩) := by
  cases op with
  | cycle nframes jack =>
    obtain ⟨⟨ctrl, q, out⟩, cb, e⟩ := Option.bind_eq_some_iff.1 e
    cases e
    simp only [playOp, cb, Option.bind_eq_bind, Option.bind_some]
    exact ⟨_, _, rfl⟩
  | add timeUs argv =>
    cases e
    exact ⟨_, _, rfl⟩
  | flush =>
    obtain ⟨⟨out, sys1⟩, ex, e⟩ := Option.bind_eq_some_iff.1 e
    cases e
    simp only [playOp, ex, Option.bind_eq_bind, Option.bind_some]
    exact ⟨_, _, rfl⟩
  | storeClockSource clockSource =>
    cases e
    exact ⟨_, _, rfl⟩

/-- Every operation ends and keeps the invariant. -/
lemma PlayerInv.step (ok : SetupOk setup) (enough : setup.nMaxFofs ≤ fuel) (inv : PlayerInv setup s)
    (voice : Voice α V) (op : Op α) :
    ∃ played s', playOp voice fuel s op = some (played, s') ∧ PlayerInv setup s' := by
  obtain ⟨L, sys⟩ := inv.sys
  obtain ⟨rendered, sys', e, sys', banks', -⟩ :=
    period_total ok enough (fun _ _ => rfl) sys inv.banks op
  obtain ⟨played, bank, e⟩ := playOp_of_period voice e
  exact ⟨played, _, e, sys', banks'⟩

/-- So does every run. -/
lemma playOp_total (ok : SetupOk setup) (enough : setup.nMaxFofs ≤ fuel) (voice : Voice α V)
    (q : FofQueue α) (ops : List (Op α)) :
    ∃ log s, execAll (playOp voice fuel) (Player.init setup q) ops = some (log, s) := by
  have total : ∃ log s, execAll (playOp voice fuel) (Player.init setup q) ops = some (log, s) ∧
      PlayerInv setup s :=
    execAll_total (PlayerInv setup) (fun inv _ => inv.step ok enough voice _) (playerInv_init ok q)
  obtain ⟨log, s, e, -⟩ := total
  exact ⟨log, s, e⟩

/-- Two servers with the same queue, and controllers that differ at most in their DSP clients. -/
structure Sim (setup setup' : Setup) (s s' : Player α V) : Prop where
  inv : PlayerInv setup s
  inv' : PlayerInv setup' s'
  q : s'.sys.q = s.sys.q
  alike : Alike s.sys.ctrl s'.sys.ctrl

/-- What two servers have in common after an operation: all that is not sound, and as long as no fof is
    refused, the sound and the fofs that play on. -/
structure SimStep (setup setup' : Setup) (s s' r r' : Player α V) (played played' : Played α V) :
    Prop where
  sim : Sim setup setup' r r'
  silent : played'.silent = played.silent
  sound : together setup'.nClients s'.bank = together setup.nClients s.bank → played.AllTaken →
    played'.AllTaken → played' = played ∧
      together setup'.nClients r'.bank = together setup.nClients r.bank

/-- A cycle renders the same on both servers. -/
lemma Sim.cycle (sim : Sim setup setup' s s') {nframes : Nat} {jack : JackReading}
    (inv : PlayerInv setup r) (inv' : PlayerInv setup' r')
    (e : playOp voice fuel s (.cycle nframes jack) = some (played, r))
    (e' : playOp voice fuel s' (.cycle nframes jack) = some (played', r')) :
    SimStep setup setup' s s' r r' played played' := by
  obtain ⟨⟨ctrl, q, out⟩, cb, e⟩ := Option.bind_eq_some_iff.1 e
  cases e
  obtain ⟨ctrl', out', cb', alike', en, data⟩ := ctrlClientProcessCb_alike sim.alike cb
  rw [← sim.q] at cb'
  rw [playOp, cb'] at e'
  cases e'
  obtain ⟨nClients, dsps, times⟩ := sim.inv.cycle cb
  obtain ⟨nClients', dsps', times'⟩ := sim.inv'.cycle cb'
  rw [en] at times'
  refine ⟨⟨inv, inv', rfl, ⟨alike'.1, alike'.2, alike'.3, alike'.4⟩⟩, ?_, fun same taken taken' => ?_⟩
  · exact congrArg (Played.played · 0 0) en
  have bank : together setup'.nClients (dspClientAdds voice ctrl'.dspTimeI s'.bank out'.adds).1 =
      together setup.nClients (dspClientAdds voice ctrl.dspTimeI s.bank out.adds).1 := by
    rw [dspClientAdds_together dsps times taken, dspClientAdds_together dsps' times' taken', data, same]
  constructor
  · have taken : (dspClientAdds voice ctrl.dspTimeI s.bank out.adds).2 = 0 := taken
    have taken' : (dspClientAdds voice ctrl'.dspTimeI s'.bank out'.adds).2 = 0 := taken'
    show Played.played _ _ _ = Played.played _ _ _
    rw [nClients, nClients', bank, en, taken, taken']
  · have next (i : Nat) (lt : i < setup.nClients) :
        voice.next (ctrl.dspTimeI i) nframes = voice.next out.n nframes := by rw [times i lt]
    have next' (i : Nat) (lt : i < setup'.nClients) :
        voice.next (ctrl'.dspTimeI i) nframes = voice.next out.n nframes := by rw [times' i lt]
    exact (together_filterMap next').trans ((congrArg _ bank).trans (together_filterMap next).symm)

/-- So does every operation. -/
lemma Sim.step (ok : SetupOk setup) (ok' : SetupOk setup') (enough : setup.nMaxFofs ≤ fuel)
    (enough' : setup'.nMaxFofs ≤ fuel) (sim : Sim setup setup' s s')
    (e : playOp voice fuel s op = some (played, r))
    (e' : playOp voice fuel s' op = some (played', r')) :
    SimStep setup setup' s s' r r' played played' := by
  obtain ⟨_, _, e1, inv⟩ := sim.inv.step ok enough voice op
  cases e.symm.trans e1
  obtain ⟨_, _, e1, inv'⟩ := sim.inv'.step ok' enough' voice op
  cases e'.symm.trans e1
  cases op with
  | cycle nframes jack => exact sim.cycle inv inv' e e'
  | add timeUs argv =>
    cases e
    cases e'
    have answer : (.answered (.added (fofQueueAdd s'.sys.q timeUs argv).1) : Played α V) =
        .answered (.added (fofQueueAdd s.sys.q timeUs argv).1) := by rw [sim.q]
    exact ⟨⟨inv, inv', congrArg (fun q => (fofQueueAdd q timeUs argv).2) sim.q, sim.alike⟩, answer,
      fun same _ _ => ⟨answer, same⟩⟩
  | flush =>
    obtain ⟨⟨answer, sys⟩, ex, e⟩ := Option.bind_eq_some_iff.1 e
    obtain ⟨q, flush, ex⟩ := Option.bind_eq_some_iff.1 ex
    cases ex
    cases e
    have other : playOp voice fuel s' .flush =
        some (.answered .done, { s' with sys := { s'.sys with q := q } }) := by
      simp only [playOp, exec, sim.q, flush, Option.bind_eq_bind, Option.bind_some, Option.pure_def]
    cases e'.symm.trans other
    exact ⟨⟨inv, inv', rfl, sim.alike⟩, rfl, fun same _ _ => ⟨rfl, same⟩⟩
  | storeClockSource clockSource =>
    cases e
    cases e'
    exact ⟨⟨inv, inv', congrArg (fun q => { q with clockSource := clockSource }) sim.q, sim.alike⟩, rfl,
      fun same _ _ => ⟨rfl, same⟩⟩

end Servers

/-- The numbers of DSP clients of a server that stays inside of its arrays. -/
structure ClientsOk (nClients : Nat) : Prop where
  pos : 1 ≤ nClients
  few : nClients ≤ maxDspClients

/-- The number of DSP clients does not matter. Two servers that differ in it answer the same in every
    run, and their cycles have the same frames. If no bank refuses a fof in either of them, the DSP
    clients of both render the same fofs in every cycle. -/
theorem parallel_mix (setup : Setup) (nMaxFofs : 1 ≤ setup.nMaxFofs) (nSlots : 1 ≤ setup.nSlots)
    (nClients : ClientsOk setup.nClients) (n : Nat) (other : ClientsOk n) (fuel : Nat)
    (enough : setup.nMaxFofs ≤ fuel) (voice : Voice α V) (q : FofQueue α) (ops : List (Op α)) :
    ∃ log s log' s', execAll (playOp voice fuel) (Player.init setup q) ops = some (log, s) ∧
      execAll (playOp voice fuel) (Player.init { setup with nClients := n } q) ops = some (log', s') ∧
      (log'.map fun x => x.out.silent) = (log.map fun x => x.out.silent) ∧
      ((∀ x ∈ log, x.out.AllTaken) → (∀ x ∈ log', x.out.AllTaken) →
        log'.map Entry.out = log.map Entry.out) := by
  have ok : SetupOk setup := ⟨nMaxFofs, nSlots, nClients.pos⟩
  have ok' : SetupOk { setup with nClients := n } := ⟨nMaxFofs, nSlots, other.pos⟩
  obtain ⟨log, s, e⟩ := playOp_total ok enough voice q ops
  obtain ⟨log', s', e'⟩ := playOp_total ok' enough voice q ops
  have init : Sim setup { setup with nClients := n } (Player.init (V := V) setup q)
      (Player.init { setup with nClients := n } q) :=
    ⟨playerInv_init ok q, playerInv_init ok' q, rfl, ⟨rfl, rfl, rfl, rfl⟩⟩
  obtain ⟨run, eops⟩ := run_of_execAll e
  obtain ⟨run', eops'⟩ := run_of_execAll e'
  refine ⟨log, s, log', s', e, e', ?_, fun taken taken' => ?_⟩
  · refine run.sim (Sim setup { setup with nClients := n }) (fun _ => True) Played.silent
      (fun sim e e' _ _ => ?_) run' (eops'.trans eops.symm) (fun _ _ => trivial) (fun _ _ => trivial) init
    have step := sim.step ok ok' enough enough e e'
    exact ⟨step.silent, step.sim⟩
  · refine run.sim (fun s s' => Sim setup { setup with nClients := n } s s' ∧
        together n s'.bank = together setup.nClients s.bank) Played.AllTaken id
      (fun sim e e' taken taken' => ?_) run' (eops'.trans eops.symm) taken taken'
      ⟨init, together_empty.trans together_empty.symm⟩
    have step := sim.1.step ok ok' enough enough e e'
    obtain ⟨same, bank⟩ := step.sound sim.2 taken taken'
    exact ⟨same, step.sim, bank⟩

/-- A fof that plays for one block, on a bank that has room for one more. -/
def click (room : Nat) : Voice Nat Nat where
  takes := fun _ voices _ _ => voices.card < room
  start := fun _ _ argv => argv
  next := fun _ _ _ => none

/-- Two events in one slot, for two DSP clients or for one. Both servers render both. -/
theorem parallel_mix_two : ∃ log s log' s',
    execAll (playOp (click 2) 3) (Player.init ⟨1, 2, 3, 2, 1000000, 64⟩ (.zero 0))
      [.add 5 7, .add 6 8, .cycle 64 ⟨0, .stopped, 5⟩] = some (log, s) ∧
    execAll (playOp (click 2) 3) (Player.init ⟨1, 1, 3, 2, 1000000, 64⟩ (.zero 0))
      [.add 5 7, .add 6 8, .cycle 64 ⟨0, .stopped, 5⟩] = some (log', s') ∧
    (log'.map Entry.out)[2]? = some (.played 0 0 {8, 7}) := by
  obtain ⟨log, s, log', s', e, e', -, same⟩ := parallel_mix ⟨1, 2, 3, 2, 1000000, 64⟩ (by decide)
    (by decide) ⟨by decide, by decide⟩ 1 ⟨by decide, by decide⟩ 3 (by decide) (click 2) (.zero 0)
    [.add 5 7, .add 6 8, .cycle 64 ⟨0, .stopped, 5⟩]
  refine ⟨log, s, log', s', e, e', ?_⟩
  cases Option.some.inj (e.symm.trans rfl)
  cases Option.some.inj (e'.symm.trans rfl)
  rw [same (by decide) (by decide)]
  rfl

end JackFofs
