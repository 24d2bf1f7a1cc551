import JackFofs.Lib.Wheel
import JackFofs.Offline.Process
import JackFofs.Seq.FrameClock
import JackFofs.Seq.Parallel

/-!
# Online and offline

The repository renders fofs in two ways. The server keeps an event in the ring of slots until its
block comes, hands it to one of several fof banks, and mixes the banks. An offline job adds it to a
single bank at once, however far ahead it is.

On the JACK frame clock with periods of `buffer_size` the ring is a wheel whose entries are in time
(`Timed`), so the two ways differ in when a fof gets to a bank, but not in what is heard of it: a fof
in a bank of libfofs is silent until its start frame comes. `online_offline` says that the offline job
renders, block by block, the fofs that the DSP clients of the server render, and only silent ones
besides. What the fofs of a block sound like together is left to libfofs and JACK, which add up
floating-point samples in an order of their own.
-/

namespace JackFofs
open Linked Runs Superposition Wheel

variable {α V S Bank : Type}

/-! ## What libfofs does -/

/-- What a fof plays in a block of `nframes` frames, by channel and frame. -/
abbrev Render (V S : Type) : Type := (timeI nframes : Nat) → V → (chanFrame : Nat × Nat) → S

/-- A fof that plays nothing in a block. -/
def Silent [Zero S] (render : Render V S) (timeI nframes : Nat) (v : V) : Prop :=
  ∀ chan frame, frame < nframes → render timeI nframes v (chan, frame) = 0

/-- A fof that is added ahead of its start frame waits for it and plays nothing before. -/
structure Voice.Waits [Zero S] (voice : Voice α V) (render : Render V S) (sampleRate : Nat) : Prop where
  silent : ∀ {t nframes timeUs argv}, t + nframes ≤ jfofsTimeToNframes timeUs sampleRate →
    Silent render t nframes (voice.start t timeUs argv)
  next : ∀ {t nframes timeUs argv}, t + nframes ≤ jfofsTimeToNframes timeUs sampleRate →
    voice.next t nframes (voice.start t timeUs argv) = some (voice.start (t + nframes) timeUs argv)

/-- The fof banks of a library do with each fof what `voice` says: `plays bank t voices` means that a
    bank made for `sampleRate` and `mode` is at frame time `t` and plays `voices`. A bank takes a fof
    when `fof_add_v` answers zero. -/
structure Plays (lib : Library Bank S α) (voice : Voice α V) (sampleRate mode : Int)
    (plays : Bank → Nat → Multiset V → Prop) : Prop where
  new : ∀ {nPreallocateFofs blockSize bank},
    lib.fofNewBank sampleRate mode nPreallocateFofs blockSize = some bank → plays bank 0 0
  add : ∀ {bank t voices} (timeUs : Nat) (argv : α), plays bank t voices →
    (lib.fofAddV bank timeUs argv).1 = 0 →
      plays (lib.fofAddV bank timeUs argv).2 t (voice.start t timeUs argv ::ₘ voices)
  next : ∀ {bank t voices} (nframes : Nat) (chBuf : Nat → Nat → S), plays bank t voices →
    plays (lib.fofNext bank nframes chBuf).1 (u64 (t + nframes))
      (voices.filterMap (voice.next t nframes))

section Waiting

variable [Zero S] {voice : Voice α V} {render : Render V S} {sampleRate t nframes : Nat}
  {l : List (Nat × α)}

/-- Fofs that wait are silent. -/
lemma startVoices_silent (waits : voice.Waits render sampleRate)
    (later : ∀ d ∈ l, t + nframes ≤ jfofsTimeToNframes d.1 sampleRate) :
    ∀ v ∈ startVoices voice t l, Silent render t nframes v := by
  intro v mem
  rw [startVoices, Multiset.mem_coe, List.mem_map] at mem
  obtain ⟨d, mem, rfl⟩ := mem
  exact waits.silent (later d mem)

/-- After a block they are as if they had been added then. -/
lemma startVoices_next (waits : voice.Waits render sampleRate)
    (later : ∀ d ∈ l, t + nframes ≤ jfofsTimeToNframes d.1 sampleRate) :
    (startVoices voice t l).filterMap (voice.next t nframes) =
      startVoices voice (u64 (t + nframes)) l := by
  have next (d : Nat × α) (mem : d ∈ l) : voice.next t nframes (voice.start t d.1 d.2) =
      some (voice.start (u64 (t + nframes)) d.1 d.2) := by
    have lt := jfofsTimeToNframes_lt d.1 sampleRate
    have le := later d mem
    rw [waits.next le, u64_of_lt (by omega)]
  rw [startVoices, startVoices, Multiset.filterMap_coe, List.filterMap_map, ← List.filterMap_eq_map]
  exact congrArg _ (List.filterMap_congr next)

end Waiting

/-! ## The queue as a wheel -/

/-- The data of the events in a slot. -/
def waitingIn (q : FofQueue α) (L : Place → List Addr) (j : Nat) : List (Nat × α) :=
  (L (.slot j)).map q.payload

/-- The start frame of an event. -/
def Setup.startFrame (setup : Setup) (d : Nat × α) : Nat :=
  jfofsTimeToNframes d.1 setup.sampleRate

section Wheel

variable {setup : Setup} {s s' : Sys α} {L L' : Place → List Addr} {fuel j : Nat}

/-- The queue as a wheel on time. -/
def OnWheel (setup : Setup) (q : FofQueue α) (L : Place → List Addr) : Prop :=
  Timed setup.nSlots setup.maxBufferSize q.nextFrame setup.startFrame (waitingIn q L)

/-- A slot that a call of `fof_queue_add` leaves alone keeps its data. -/
lemma waitingIn_added (added : Added s s' L L') (same : L' (.slot j) = L (.slot j)) :
    waitingIn s'.q L' j = waitingIn s.q L j := by
  rw [waitingIn, waitingIn, same]
  exact List.map_congr_left fun c mem => (added.stays (slot_ne_free j) mem).2.2

/-- A call of `fof_queue_add` adds its event to the wheel if it succeeds, and nothing otherwise. -/
lemma exec_add_wheel (ring : RingSetup setup) (two_le : 2 ≤ setup.maxBufferSize) (fuel : Nat)
    (inv : SysInv setup s L) (timeUs : Nat) (argv : α) {t : Nat}
    (et : t = setup.startFrame (timeUs, argv)) :
    ∃ status s' L', exec fuel s (.add timeUs argv) = some (.added status, s') ∧
      SysInv setup s' L' ∧ Added s s' L L' ∧
      ((status ≠ .success ∧ waitingIn s'.q L' = waitingIn s.q L) ∨
        (status = .success ∧ s.q.nextFrame ≤ t ∧
          (t - s.q.nextFrame) / setup.maxBufferSize < setup.nSlots ∧
          waitingIn s'.q L' = Function.update (waitingIn s.q L)
            (setup.slotFor t s.q.nextFrame)
            ((timeUs, argv) :: waitingIn s.q L (setup.slotFor t s.q.nextFrame)))) := by
  obtain ⟨status, s', L', e, inv', added, success⟩ :=
    exec_add fuel inv ring.ok.nSlots timeUs argv et
  refine ⟨status, s', L', e, inv', added, ?_⟩
  have et' : t = jfofsTimeToNframes timeUs s.q.sampleRate := by
    rw [inv.sampleRate]
    exact et
  have pos : 1 ≤ s.q.nSlots := inv.nSlots ▸ ring.ok.nSlots
  obtain ⟨-, add⟩ | ⟨c, l, q', -, -, payload, -, exits⟩ :=
    fofQueueAdd_cases inv.holds pos timeUs argv et'
  · rw [exec, add] at e
    cases e
    cases inv'.holds.unique inv.holds
    exact .inl ⟨by decide, rfl⟩
  obtain ⟨-, add, hd'⟩ | ⟨-, -, add, hd'⟩ | ⟨j, ej, -, le, inside, add, hd'⟩ := exits
  · rw [exec, add] at e
    cases e
    cases inv'.holds.unique hd'
    exact .inl ⟨by decide, funext fun j => waitingIn_added added rfl⟩
  · rw [exec, add] at e
    cases e
    cases inv'.holds.unique hd'
    refine .inl ⟨by decide, funext fun j => waitingIn_added added ?_⟩
    exact moved_of_ne (slot_ne_free j) Place.noConfusion
  rw [exec, add] at e
  cases e
  cases inv'.holds.unique hd'
  have lt : t < 2 ^ 32 := et ▸ jfofsTimeToNframes_lt timeUs setup.sampleRate
  have small : (t - s.q.nextFrame) / setup.maxBufferSize < 2 ^ 31 := by
    have le : (t - s.q.nextFrame) / setup.maxBufferSize ≤ (t - s.q.nextFrame) / 2 :=
      Nat.div_le_div_left two_le (by decide)
    omega
  rw [slotIndex, inv.bufferSize] at ej inside
  rw [toInt32_of_lt small, inv.nSlots] at inside
  rw [targetSlot_eq (inv.ringOk ring) inv.cacheOk _ (by omega), inv.bufferSize, inv.nSlots] at ej
  have slot : setup.slotFor t s.q.nextFrame = j := ej.symm
  rw [slot]
  refine .inr ⟨rfl, le, by omega, funext fun i => ?_⟩
  by_cases ei : i = j
  · subst ei
    have new : q'.payload c = (timeUs, argv) := (congrFun payload c).trans (Function.update_self ..)
    have old : (L (.slot i)).map q'.payload = (L (.slot i)).map s.q.payload :=
      List.map_congr_left fun x mem => (added.stays (slot_ne_free i) mem).2.2
    rw [Function.update_self, waitingIn, moved_dst, List.nil_append, List.singleton_append,
      List.map_cons, new, old]
    rfl
  · rw [Function.update_of_ne ei]
    apply waitingIn_added added
    exact moved_of_ne (slot_ne_free i) fun e => ei (Place.slot.inj e)

/-- The data of the calls that deal a list. -/
lemma roundRobin_data {payload : Addr → Nat × α} {nClients i : Nat} {l : List Addr} :
    (roundRobin payload nClients i l).map DspAdd.data = l.map payload := by
  induction l generalizing i with
  | nil => rfl
  | cons c l ih => rw [roundRobin, List.map_cons, List.map_cons, ih, DspAdd.data]

/-- What a cycle on the frame clock does to the wheel: it turns it and hands over what it takes. -/
structure Turned (setup : Setup) (nframes : Nat) (s : Sys α) (L : Place → List Addr)
    (ctrl' : CtrlClient) (q' : FofQueue α) (out : CycleOut α) (L' : Place → List Addr) : Prop where
  inv : SysInv setup { s with ctrl := ctrl', q := q' } L'
  clock : OnFrameClock { s with ctrl := ctrl', q := q' }
  n : out.n = s.q.nextFrame
  nextFrame : q'.nextFrame = u64 (s.q.nextFrame + nframes)
  data : out.adds.map DspAdd.data =
    waitingIn s.q L (s.q.nextFrame / setup.maxBufferSize % setup.nSlots)
  waiting : waitingIn q' L' = Function.update (waitingIn s.q L)
    (s.q.nextFrame / setup.maxBufferSize % setup.nSlots) []

lemma cycle_wheel (ring : RingSetup setup) (enough : setup.nMaxFofs ≤ fuel) (inv : SysInv setup s L)
    (clock : OnFrameClock s) (nframes : Nat) (jack : JackReading) :
    ∃ ctrl' q' out L', ctrlClientProcessCb fuel nframes jack s.ctrl s.q = some (ctrl', q', out) ∧
      Turned setup nframes s L ctrl' q' out L' := by
  have enough : (List.range setup.nMaxFofs).length ≤ fuel := by
    rw [List.length_range]
    exact enough
  have pos : 1 ≤ s.q.nSlots := inv.nSlots ▸ ring.ok.nSlots
  obtain ⟨ctrl', q', out, e, cycled⟩ := ctrlClientProcessCb_quiet inv.holds pos enough inv.lastDsp
    (clock.quiet nframes jack)
  have inv' := inv.cycled rfl (SameClock.refl s.q) id (fun _ mem => mem) cycled
  have off : ¬ jfofsClockUsesTransport s.ctrl.clockSource = true := by
    rw [clock.noTransport]
    exact Bool.false_ne_true
  have n := cycled.n
  have nextFrame := cycled.nextFrame
  rw [if_neg off] at n nextFrame
  have adds := cycled.adds
  rw [n, slotOfFrame_eq (inv.ringOk ring), inv.bufferSize, inv.nSlots] at adds inv'
  refine ⟨ctrl', q', out, _, e, inv', clock.congr cycled.clockSource cycled.queue.clockSource, n,
    nextFrame, ?_, ?_⟩
  · rw [adds, roundRobin_data]
    rfl
  · funext j
    by_cases ej : j = s.q.nextFrame / setup.maxBufferSize % setup.nSlots
    · subst ej
      rw [Function.update_self, waitingIn, released_self (slot_ne_free _), List.map_nil]
    · have ne : Place.slot j ≠ .slot (s.q.nextFrame / setup.maxBufferSize % setup.nSlots) :=
        fun e => ej (Place.slot.inj e)
      rw [Function.update_of_ne ej, waitingIn, waitingIn, released_of_ne (slot_ne_free j) ne,
        cycled.payload]

end Wheel

/-! ## The two renderings -/

section Renders

variable {setup : Setup} {voice : Voice α V} {render : Render V S} {lib : Library Bank S α} {mode : Int}
  {plays : Bank → Nat → Multiset V → Prop} {s s' : Player α V} {job job' : OfflineJob Bank S}
  {L : Place → List Addr} {fuel : Nat}

/-- The fofs that wait in the queue, as a bank at frame time `t` would start them. -/
def waitingVoices (voice : Voice α V) (nSlots t : Nat) (slots : Nat → List (Nat × α)) : Multiset V :=
  together nSlots fun j => startVoices voice t (slots j)

/-- The job plays what the server plays and what waits in its queue. -/
structure Renders (setup : Setup) (voice : Voice α V) (plays : Bank → Nat → Multiset V → Prop)
    (s : Player α V) (L : Place → List Addr) (job : OfflineJob Bank S) : Prop where
  sys : SysInv setup s.sys L
  banks : Banks s.sys.ctrl s.sys.q.nextFrame
  clock : OnFrameClock s.sys
  wheel : OnWheel setup s.sys.q L
  bank : plays job.fofBank s.sys.q.nextFrame
    (waitingVoices voice setup.nSlots s.sys.q.nextFrame (waitingIn s.sys.q L) +
      together setup.nClients s.bank)
  blockSize : job.blockSize = setup.maxBufferSize

/-- The calls that an offline job gets for an operation of the server: the events it accepts, and a
    block for every cycle. -/
def offlineCalls (x : Entry (Player α V) (Op α) (Played α V)) : List (OfflineOp α) :=
  match x.op, x.out with
  | .add timeUs argv, .answered (.added .success) => [.add timeUs argv]
  | .cycle _ _, _ => [.process]
  | _, _ => []

/-- What the DSP clients rendered in a run, cycle by cycle, with the frames of the cycles. -/
def cycles (log : List (Entry (Player α V) (Op α) (Played α V))) : List (Nat × Multiset V) :=
  log.filterMap fun x =>
    match x.out with
    | .played n _ voices => some (n, voices)
    | .answered _ => none

/-- The banks of a job in the calls of `jfofs_offline_process` of a run. -/
def processed (log : List (Entry (OfflineJob Bank S) (OfflineOp α) OfflineOut)) : List Bank :=
  log.filterMap fun x =>
    match x.op with
    | .add .. => none
    | .process => some x.pre.fofBank

/-- `jfofs_offline_add` answers that the bank has taken the fof. -/
def OfflineOut.Taken : OfflineOut → Prop
  | .added status => status = 0
  | .processed _ => True

instance : DecidablePred OfflineOut.Taken
  | .added _ => inferInstanceAs (Decidable (_ = _))
  | .processed _ => isTrue trivial

/-- The bank of a job is at the frame of a cycle, and plays the fofs that the DSP clients render in it,
    and others that are silent. -/
def SameFofs [Zero S] (render : Render V S) (plays : Bank → Nat → Multiset V → Prop) (nframes : Nat)
    (cycle : Nat × Multiset V) (bank : Bank) : Prop :=
  ∃ waiting, plays bank cycle.1 (cycle.2 + waiting) ∧ ∀ v ∈ waiting, Silent render cycle.1 nframes v

/-- The job rendered what the DSP clients did, block by block. -/
def SameSound [Zero S] (render : Render V S) (plays : Bank → Nat → Multiset V → Prop) (nframes : Nat)
    (log : List (Entry (Player α V) (Op α) (Played α V)))
    (log' : List (Entry (OfflineJob Bank S) (OfflineOp α) OfflineOut)) : Prop :=
  List.Forall₂ (SameFofs render plays nframes) (cycles log) (processed log')

lemma SameSound.append [Zero S] {nframes : Nat} {l1 l2 : List (Entry (Player α V) (Op α) (Played α V))}
    {l1' l2' : List (Entry (OfflineJob Bank S) (OfflineOp α) OfflineOut)}
    (same : SameSound render plays nframes l1 l1') (same' : SameSound render plays nframes l2 l2') :
    SameSound render plays nframes (l1 ++ l2) (l1' ++ l2') := by
  rw [SameSound, cycles, List.filterMap_append, processed, List.filterMap_append]
  exact List.rel_append same same'

/-! ### The bank of a job -/

lemma jfofsOfflineProcess_bank (job : OfflineJob Bank S) :
    (jfofsOfflineProcess lib job).2.fofBank =
      (lib.fofNext job.fofBank job.blockSize job.chBuf).1 := by
  rw [jfofsOfflineProcess]
  dsimp only
  split <;> rfl

section Slots

variable {nSlots t j : Nat} {slots : Nat → List (Nat × α)}

lemma waitingVoices_add (lt : j < nSlots) (d : Nat × α) :
    waitingVoices voice nSlots t (Function.update slots j (d :: slots j)) =
      voice.start t d.1 d.2 ::ₘ waitingVoices voice nSlots t slots := by
  rw [← Multiset.singleton_add, waitingVoices, waitingVoices, ← together_update lt]
  congr 1
  funext i
  rw [Function.apply_update (fun _ => startVoices voice t)]
  rfl

lemma waitingVoices_take (lt : j < nSlots) :
    waitingVoices voice nSlots t slots = startVoices voice t (slots j) +
      waitingVoices voice nSlots t (Function.update slots j []) := by
  rw [waitingVoices, waitingVoices, ← together_take lt]
  congr 2
  funext i
  rw [Function.apply_update (fun _ => startVoices voice t)]
  rfl

variable [Zero S] {sampleRate nframes : Nat}

/-- A wheel whose events all come later is silent, -/
lemma waitingVoices_silent (waits : voice.Waits render sampleRate)
    (later : ∀ {j d}, d ∈ slots j → t + nframes ≤ jfofsTimeToNframes d.1 sampleRate) :
    ∀ v ∈ waitingVoices voice nSlots t slots, Silent render t nframes v := by
  intro v mem
  obtain ⟨j, -, mem⟩ := mem_together.1 mem
  exact startVoices_silent waits (fun d mem => later mem) v mem

/-- and goes on as if its events had been added a block later. -/
lemma waitingVoices_next (waits : voice.Waits render sampleRate)
    (later : ∀ {j d}, d ∈ slots j → t + nframes ≤ jfofsTimeToNframes d.1 sampleRate) :
    (waitingVoices voice nSlots t slots).filterMap (voice.next t nframes) =
      waitingVoices voice nSlots (u64 (t + nframes)) slots := by
  rw [waitingVoices, ← together_filterMap fun _ _ => rfl, waitingVoices]
  congr 1
  funext j
  exact startVoices_next waits fun d mem => later mem

end Slots

/-! ### Steps -/

variable [Zero S] {out : Played α V} {l : List (Entry (OfflineJob Bank S) (OfflineOp α) OfflineOut)}

/-- A call of `fof_queue_add` and, if it succeeds, of `jfofs_offline_add`. -/
lemma Renders.add (ring : RingSetup setup) (two_le : 2 ≤ setup.maxBufferSize)
    (sounds : Plays lib voice setup.sampleRate mode plays) (ren : Renders setup voice plays s L job)
    {timeUs : Nat} {argv : α} (e : playOp voice fuel s (.add timeUs argv) = some (out, s'))
    (run : Run (execOffline lib) job l job') (calls : l.map Entry.op = offlineCalls ⟨s, .add timeUs argv, out⟩)
    (taken : ∀ y ∈ l, y.out.Taken) :
    (∃ L', Renders setup voice plays s' L' job') ∧
      SameSound render plays setup.maxBufferSize [⟨s, .add timeUs argv, out⟩] l := by
  obtain ⟨status, sys', L', add, inv', added, wheel⟩ :=
    exec_add_wheel ring two_le fuel ren.sys timeUs argv rfl
  have play : playOp voice fuel s (.add timeUs argv) =
      some (.answered (.added status), { s with sys := sys' }) := by
    simp only [playOp, add, Option.bind_eq_bind, Option.bind_some, Option.pure_def]
  cases play.symm.trans e
  have next := added.clock.nextFrame
  have clock := ren.clock.congr (congrArg _ added.ctrl) added.clock.clockSource
  have banks : Banks sys'.ctrl sys'.q.nextFrame := by
    rw [added.ctrl, next]
    exact ren.banks
  have bank := ren.bank
  rw [← next] at bank
  have on := ren.wheel
  rw [OnWheel, ← next] at on
  obtain ⟨fails, same⟩ | ⟨rfl, le, near, new⟩ := wheel
  · have none : l = [] := by
      rw [← List.map_eq_nil_iff, calls]
      cases status <;> first | rfl | exact absurd rfl fails
    subst none
    cases run with
    | nil =>
    refine ⟨⟨L', inv', banks, clock, ?_, ?_, ren.blockSize⟩, .nil⟩
    · rw [OnWheel, same]
      exact on
    · rw [same]
      exact bank
  · have calls : l.map Entry.op = [.add timeUs argv] := calls
    cases run with
    | nil => cases calls
    | @cons _ job1 _ op out l e1 run =>
    obtain ⟨eop, none⟩ := List.cons.inj calls
    cases (eop : op = .add timeUs argv)
    cases List.map_eq_nil_iff.1 none
    cases run with
    | nil =>
    cases e1
    have zero : (lib.fofAddV job.fofBank timeUs argv).1 = 0 := taken _ List.mem_cons_self
    refine ⟨⟨L', inv', banks, clock, ?_, ?_, ren.blockSize⟩, .nil⟩
    · rw [OnWheel, new, ← next]
      rw [← next] at le near
      exact on.insert le near
    · have lt : setup.slotFor (setup.startFrame (timeUs, argv)) sys'.q.nextFrame < setup.nSlots :=
        Nat.mod_lt _ ring.ok.nSlots
      rw [new, ← next, waitingVoices_add lt, Multiset.cons_add]
      exact sounds.add timeUs argv bank zero

/-- A cycle and a call of `jfofs_offline_process`. -/
lemma Renders.cycle (ring : RingSetup setup) (enough : setup.nMaxFofs ≤ fuel)
    (waits : voice.Waits render setup.sampleRate)
    (sounds : Plays lib voice setup.sampleRate mode plays) (ren : Renders setup voice plays s L job)
    {jack : JackReading} (e : playOp voice fuel s (.cycle setup.maxBufferSize jack) = some (out, s'))
    (run : Run (execOffline lib) job l job') (calls : l.map Entry.op = [.process])
    (taken : out.AllTaken) :
    (∃ L', Renders setup voice plays s' L' job') ∧
      SameSound render plays setup.maxBufferSize [⟨s, .cycle setup.maxBufferSize jack, out⟩] l := by
  -- the job renders one block
  cases run with
  | nil => cases calls
  | @cons _ job1 _ op answer l e1 run =>
  obtain ⟨eop, none⟩ := List.cons.inj calls
  cases (eop : op = .process)
  cases List.map_eq_nil_iff.1 none
  cases run with
  | nil =>
  have process : job' = (jfofsOfflineProcess lib job).2 := by
    cases e1
    rfl
  have inv : PlayerInv setup s := ⟨⟨L, ren.sys⟩, ren.banks⟩
  obtain ⟨_, _, e2, inv'⟩ := inv.step ring.ok enough voice (.cycle setup.maxBufferSize jack)
  cases e.symm.trans e2
  obtain ⟨ctrl, q, cycled, L', cb, turned⟩ := cycle_wheel ring enough ren.sys ren.clock
    setup.maxBufferSize jack
  rw [playOp, cb] at e
  cases e
  obtain ⟨nClients, dsps, times⟩ := inv.cycle cb
  rw [turned.n] at times
  have bank : together setup.nClients (dspClientAdds voice ctrl.dspTimeI s.bank cycled.adds).1 = _ :=
    dspClientAdds_together dsps times taken
  rw [turned.data] at bank
  -- of the fofs in the queue the cycle starts those of its slot, and the others come later
  have lt : s.sys.q.nextFrame / setup.maxBufferSize % setup.nSlots < setup.nSlots :=
    Nat.mod_lt _ ring.ok.nSlots
  have take : waitingVoices voice setup.nSlots s.sys.q.nextFrame (waitingIn s.sys.q L) = _ :=
    waitingVoices_take lt
  have on := ren.wheel.turn ring.bufferSize_pos
  rw [← turned.waiting] at take on
  have later {j : Nat} {d : Nat × α} (mem : d ∈ waitingIn q L' j) :
      s.sys.q.nextFrame + setup.maxBufferSize ≤ jfofsTimeToNframes d.1 setup.sampleRate :=
    on.le mem
  have playing := ren.bank
  rw [take, add_right_comm, ← bank] at playing
  refine ⟨⟨L', turned.inv.render _ _, inv'.banks, turned.clock.congr rfl rfl, ?_, ?_, ?_⟩, .cons ?_ .nil⟩
  · rw [OnWheel, turned.nextFrame]
    refine on.congr fun mem => u64_of_lt ?_
    exact Nat.lt_trans (Nat.lt_of_le_of_lt (later mem) (jfofsTimeToNframes_lt ..)) (by decide)
  · have next := sounds.next setup.maxBufferSize job.chBuf playing
    have same (i : Nat) (lt : i < setup.nClients) :
        voice.next (ctrl.dspTimeI i) setup.maxBufferSize =
          voice.next s.sys.q.nextFrame setup.maxBufferSize := by
      rw [times i lt]
    rw [Multiset.filterMap_add, waitingVoices_next waits later, ← together_filterMap same,
      ← turned.nextFrame, add_comm] at next
    rw [process, jfofsOfflineProcess_bank, ren.blockSize]
    exact next
  · exact (execOffline_sizes e1).1.trans ren.blockSize
  · have silent : ∀ v ∈ waitingVoices voice setup.nSlots s.sys.q.nextFrame (waitingIn q L'),
        Silent render s.sys.q.nextFrame setup.maxBufferSize v := waitingVoices_silent waits later
    rw [← turned.n, ← nClients] at playing
    rw [← turned.n] at silent
    exact ⟨_, playing, silent⟩

end Renders

end JackFofs
