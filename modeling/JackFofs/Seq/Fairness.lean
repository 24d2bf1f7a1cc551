import JackFofs.Lib.RoundRobin
import JackFofs.Seq.Events

/-!
# The load of the DSP clients

A cycle deals the list it took to the DSP clients in turn and leaves in `last_dsp` who is next, so
the cycles of a run together are one deal. Nothing is asked of the lists: a cycle that comes to an
end deals whatever it found in the slot.
-/

namespace JackFofs
open RoundRobin Runs

variable {α : Type} {fuel : Nat}

/-- The loop over a list deals it, from the DSP client that is next. -/
lemma distribute_deal {fofs : Addr → Fof α} {nClients i i' : Nat} {fof lastFof lastFof' : Option Addr}
    {adds : List (DspAdd α)} (lt : i < nClients)
    (e : distribute fofs nClients fuel fof i lastFof = some (i', lastFof', adds)) :
    i' = (i + adds.length) % nClients ∧ adds.map (·.dsp) = deal nClients i adds.length := by
  induction fuel generalizing fof i lastFof adds with
  | zero =>
    cases fof with
    | none =>
      cases e
      exact ⟨(Nat.mod_eq_of_lt lt).symm, rfl⟩
    | some fof => cases e
  | succ fuel ih =>
    cases fof with
    | none =>
      cases e
      exact ⟨(Nat.mod_eq_of_lt lt).symm, rfl⟩
    | some fof =>
      rw [distribute] at e
      obtain ⟨⟨i1, lastFof1, adds1⟩, e1, e⟩ := Option.bind_eq_some_iff.1 e
      cases e
      obtain ⟨next, dealt⟩ := ih (Nat.mod_lt _ (Nat.zero_lt_of_lt lt)) e1
      refine ⟨?_, ?_⟩
      · rw [next, Nat.mod_add_mod, List.length_cons, Nat.add_assoc, Nat.add_comm 1]
      · rw [List.map_cons, dealt, List.length_cons, deal]

/-- What a cycle does to the turns: it deals its events, starting with the DSP client that is next. -/
structure Dealt (ctrl ctrl' : CtrlClient) (dsps : List Nat) : Prop where
  nClients : ctrl'.nClients = ctrl.nClients
  lastDsp : ctrl'.lastDsp = (ctrl.lastDsp + dsps.length) % ctrl.nClients
  dsps : dsps = deal ctrl.nClients ctrl.lastDsp dsps.length

lemma consumeSlot_dealt {ctrl ctrl' : CtrlClient} {q q' : FofQueue α} {n : Nat} {out : CycleOut α}
    (lt : ctrl.lastDsp < ctrl.nClients) (e : consumeSlot fuel ctrl q n = some (ctrl', q', out)) :
    Dealt ctrl ctrl' (out.adds.map (·.dsp)) := by
  rw [consumeSlot, fofQueueTakeSlot] at e
  obtain ⟨⟨i, lastFof, adds⟩, dist, e⟩ := Option.bind_eq_some_iff.1 e
  obtain ⟨next, dealt⟩ := distribute_deal lt dist
  have dealt' : Dealt ctrl { ctrl with lastDsp := i } (adds.map (·.dsp)) := by
    refine ⟨rfl, ?_, ?_⟩ <;> rw [List.length_map]
    · exact next
    · exact dealt
  dsimp only at e
  split at e
  · obtain ⟨q1, -, e⟩ := Option.bind_eq_some_iff.1 e
    cases e
    exact dealt'
  · cases e
    exact dealt'

/-- Following a change of the clock source does not touch the turns. -/
lemma changeMode_turns {ctrl ctrl' : CtrlClient} {q q' : FofQueue α} {clockSource : Int}
    (e : changeMode fuel ctrl q clockSource = some (ctrl', q')) :
    ctrl'.nClients = ctrl.nClients ∧ ctrl'.lastDsp = ctrl.lastDsp := by
  obtain ⟨-, rfl⟩ | ⟨-, rfl, -⟩ := changeMode_cases e
  · exact ⟨rfl, rfl⟩
  · exact ⟨rfl, rfl⟩

/-- Neither does following a jump of the transport. -/
lemma followTransport_turns {ctrl ctrl' : CtrlClient} {q q' : FofQueue α} {nframes m : Nat}
    {transportState : TransportState}
    (e : followTransport fuel ctrl q nframes m transportState = some (ctrl', q')) :
    ctrl'.nClients = ctrl.nClients ∧ ctrl'.lastDsp = ctrl.lastDsp := by
  obtain ⟨-, rfl⟩ | ⟨rfl, -⟩ := followTransport_cases e
  · exact ⟨rfl, rfl⟩
  · exact ⟨rfl, rfl⟩

lemma ctrlClientProcessCb_dealt {ctrl ctrl' : CtrlClient} {q q' : FofQueue α} {nframes : Nat}
    {jack : JackReading} {out : CycleOut α} (lt : ctrl.lastDsp < ctrl.nClients)
    (e : ctrlClientProcessCb fuel nframes jack ctrl q = some (ctrl', q', out)) :
    Dealt ctrl ctrl' (out.adds.map (·.dsp)) := by
  obtain ⟨m, transportState, ctrl1, q1, ctrl2, q2, ctrl3, q3, n, -, mode, jump, pub, consume⟩ :=
    ctrlClientProcessCb_parts e
  obtain ⟨n1, i1⟩ := changeMode_turns mode
  obtain ⟨n2, i2⟩ := followTransport_turns jump
  rw [publish_ctrl] at pub
  cases pub
  have dealt := consumeSlot_dealt (by rwa [i2, i1, n2, n1]) consume
  obtain ⟨nClients, lastDsp, dsps⟩ := dealt
  dsimp only at nClients lastDsp dsps
  rw [n2, n1] at nClients lastDsp dsps
  rw [i2, i1] at lastDsp dsps
  exact ⟨nClients, lastDsp, dsps⟩

/-- Every operation of the server deals the events it hands over. -/
lemma exec_dealt {s s' : Sys α} {op : Op α} {out : Out α} (lt : s.ctrl.lastDsp < s.ctrl.nClients)
    (e : exec fuel s op = some (out, s')) :
    Dealt s.ctrl s'.ctrl ((handedBy out).map (·.dsp)) := by
  have idle : Dealt s.ctrl s.ctrl [] := ⟨rfl, (Nat.mod_eq_of_lt lt).symm, rfl⟩
  cases op with
  | add timeUs argv =>
    cases e
    exact idle
  | flush =>
    rw [exec] at e
    obtain ⟨q, -, e⟩ := Option.bind_eq_some_iff.1 e
    cases e
    exact idle
  | storeClockSource clockSource =>
    cases e
    exact idle
  | cycle nframes jack =>
    rw [exec] at e
    obtain ⟨⟨ctrl, q, cout⟩, e1, e⟩ := Option.bind_eq_some_iff.1 e
    cases e
    have dealt := ctrlClientProcessCb_dealt lt e1
    have same : (cout.adds.map (·.handed s.tag)).map (·.dsp) = cout.adds.map (·.dsp) := by
      rw [List.map_map]
      rfl
    rw [handedBy, same]
    exact dealt

/-- The events that a run has handed over, in order. -/
def handedIn (log : List (LogEntry α)) : List (Handed α) := log.flatMap fun x => handedBy x.out

/-- The turns of a run: all its cycles together are one deal that starts with DSP client `0`. -/
structure Turns (n : Nat) (log : List (LogEntry α)) (s : Sys α) : Prop where
  nClients : s.ctrl.nClients = n
  lastDsp : s.ctrl.lastDsp = (handedIn log).length % n
  dsps : (handedIn log).map (·.dsp) = deal n 0 (handedIn log).length

lemma Turns.step {n : Nat} {log : List (LogEntry α)} {x : LogEntry α} {s' : Sys α} (pos : 1 ≤ n)
    (turns : Turns n log x.pre) (e : exec fuel x.pre x.op = some (x.out, s')) :
    Turns n (log ++ [x]) s' := by
  have lt : x.pre.ctrl.lastDsp < x.pre.ctrl.nClients := by
    rw [turns.lastDsp, turns.nClients]
    exact Nat.mod_lt _ pos
  obtain ⟨nClients, last, dsps⟩ := exec_dealt lt e
  rw [turns.nClients] at nClients last dsps
  rw [turns.lastDsp, List.length_map] at last dsps
  have handed : handedIn (log ++ [x]) = handedIn log ++ handedBy x.out := by
    simp [handedIn]
  refine ⟨nClients, ?_, ?_⟩
  · rw [last, handed, List.length_append, Nat.mod_add_mod]
  · rw [handed, List.map_append, List.length_append, turns.dsps, dsps]
    have app := deal_append (n := n) (i := 0) (k := (handedIn log).length)
      (m := (handedBy x.out).length) pos
    rw [Nat.zero_add] at app
    exact app

/-- In every run `last_dsp` is the number of events handed over, modulo `n_clients`. They only go to
    the `n_clients` DSP clients, and no DSP client gets more than one event more than another. -/
theorem dsp_round_robin (setup : Setup) (nMaxFofs : 1 ≤ setup.nMaxFofs) (nSlots : 1 ≤ setup.nSlots)
    (nClients : 1 ≤ setup.nClients) (fuel : Nat) (enough : setup.nMaxFofs ≤ fuel) (q : FofQueue α)
    (ops : List (Op α)) :
    ∃ log s', execAll (exec fuel) (Sys.init setup q) ops = some (log, s') ∧
      s'.ctrl.lastDsp = (handedIn log).length % setup.nClients ∧
      (∀ h ∈ handedIn log, h.dsp < setup.nClients) ∧
      ∀ i j, i < setup.nClients → j < setup.nClients →
        ((handedIn log).map (·.dsp)).count i ≤ ((handedIn log).map (·.dsp)).count j + 1 := by
  obtain ⟨log, s', e, -⟩ := run_total ⟨nMaxFofs, nSlots, nClients⟩ enough q ops
  have init : Turns setup.nClients [] (Sys.init setup q) := ⟨rfl, (Nat.zero_mod _).symm, rfl⟩
  have turns : Turns setup.nClients log s' :=
    (run_of_execAll e).1.inv_log (Turns setup.nClients) (fun _ turns e => turns.step nClients e) init
  refine ⟨log, s', e, turns.lastDsp, fun h mem => ?_, fun i j lti ltj => ?_⟩
  · have mem : h.dsp ∈ (handedIn log).map (·.dsp) := List.mem_map_of_mem mem
    rw [turns.dsps] at mem
    exact lt_of_mem_deal nClients mem
  · rw [turns.dsps]
    exact count_deal_le lti ltj

/-- Two DSP clients, two events in one slot and a cycle that takes it. -/
theorem dsp_round_robin_two : ∃ log s',
    execAll (exec 3) (Sys.init ⟨1, 2, 3, 2, 1000000, 64⟩ (.zero 0))
      [.add 5 7, .add 6 8, .cycle 64 ⟨0, .stopped, 5⟩] = some (log, s') ∧
      s'.ctrl.lastDsp = (handedIn log).length % 2 ∧
      ((handedIn log).map (·.dsp)).count 0 ≤ ((handedIn log).map (·.dsp)).count 1 + 1 := by
  obtain ⟨log, s', e, last, -, fair⟩ := dsp_round_robin ⟨1, 2, 3, 2, 1000000, 64⟩ (by decide)
    (by decide) (by decide) 3 (by decide) (.zero 0) [.add 5 7, .add 6 8, .cycle 64 ⟨0, .stopped, 5⟩]
  exact ⟨log, s', e, last, fair 0 1 (by decide) (by decide)⟩

end JackFofs
