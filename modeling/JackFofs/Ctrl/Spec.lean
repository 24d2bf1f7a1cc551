import JackFofs.Ctrl.Basic
import JackFofs.Queue.Spec

/-!
# What a cycle does to the lists

The specification of one cycle of the controller run alone. A cycle that neither changes the clock
nor sees the transport jump (`ctrlClientProcessCb_quiet`) publishes its frame, hands the list of one
slot to the DSP clients in turn, each cell once (`roundRobin`), and moves it to the free list. Any
other cycle empties all lists first.
-/

namespace JackFofs
open Linked

variable {α : Type} {q q' : FofQueue α} {cells : List Addr} {L : Place → List Addr}

/-- The calls of `dsp_client_add` for a list of cells, from DSP client `i` on. -/
def roundRobin (payload : Addr → Nat × α) (nClients : Nat) : Nat → List Addr → List (DspAdd α)
  | _, [] => []
  | i, fof :: l =>
    ⟨i, fof, (payload fof).1, (payload fof).2⟩ :: roundRobin payload nClients ((i + 1) % nClients) l

/-- The distribution loop walks the whole list and hands out each cell once. -/
lemma distribute_eq {nClients fuel i : Nat} {fof : Option Addr} {l : List Addr}
    (sg : Seg q.next fof l none) (len : l.length ≤ fuel) (lt : i < nClients)
    (lastFof : Option Addr) :
    distribute q.fof nClients fuel fof i lastFof =
      some ((i + l.length) % nClients, l.getLast?.or lastFof,
        roundRobin q.payload nClients i l) := by
  induction l generalizing fof fuel i lastFof with
  | nil =>
    rw [Seg.nil_iff] at sg
    subst sg
    rw [List.length_nil, Nat.add_zero, Nat.mod_eq_of_lt lt]
    cases fuel <;> rfl
  | cons c l ih =>
    rw [Seg.cons_iff] at sg
    obtain ⟨rfl, sg⟩ := sg
    cases fuel with
    | zero => exact absurd len (Nat.not_succ_le_zero _)
    | succ fuel =>
      have pos : 0 < nClients := Nat.zero_lt_of_lt lt
      have ih := ih sg (Nat.le_of_succ_le_succ len) (Nat.mod_lt (i + 1) pos) (some c)
      rw [FofQueue.next] at ih
      rw [distribute, ih]
      have idx : ((i + 1) % nClients + l.length) % nClients = (i + (l.length + 1)) % nClients := by
        rw [Nat.mod_add_mod]
        congr 1
        omega
      have last : l.getLast?.or (some c) = (c :: l).getLast?.or lastFof := by
        rw [List.getLast?_cons]
        cases l.getLast? <;> rfl
      simp only [Option.bind_eq_bind, Option.bind_some, Option.pure_def, idx, last,
        List.length_cons]
      rfl

/-- Consuming the slot of frame `n` hands its list to the DSP clients and gives its cells back. -/
lemma consumeSlot_spec {fuel : Nat} {ctrl : CtrlClient} (hd : Holds q cells L) (pos : 1 ≤ q.nSlots)
    (enough : cells.length ≤ fuel) (lt : ctrl.lastDsp < ctrl.nClients) (n : Nat) :
    ∃ q', consumeSlot fuel ctrl q n =
        some ({ ctrl with
          lastDsp := (ctrl.lastDsp + (L (.slot (slotOfFrame q n))).length) % ctrl.nClients }, q',
          ⟨n, roundRobin q.payload ctrl.nClients ctrl.lastDsp (L (.slot (slotOfFrame q n)))⟩) ∧
      Holds q' cells (released L (.slot (slotOfFrame q n))) ∧ SameClock q q' ∧
      q'.payload = q.payload ∧ (CacheOk q → CacheOk q') := by
  have has : q.Has (.slot (slotOfFrame q n)) := slotOfFrame_lt_nSlots pos n
  rw [consumeSlot]
  generalize slotOfFrame q n = j at has ⊢
  have nf := slot_ne_free j
  have sg := hd.list has
  have len := Nat.le_trans (hd.length_le (.slot j)) enough
  have dist := distribute_eq sg len lt q.lastFof
  rw [show q.head (.slot j) = q.slot j from rfl] at dist
  obtain el | ⟨p, a, el⟩ := (L (.slot j)).eq_nil_or_concat
  · have eh : q.slot j = none := sg.eq_nil_iff.1 el
    have hd' := hd.clearHead nf has el
    rw [el, eh] at dist
    rw [el]
    have hd2 : Holds { q.setSlot j none with
        firstFof := none, lastFof := q.lastFof, activeCnt := 0 } cells (released L (.slot j)) :=
      hd'.congr rfl (fun k => by cases k <;> rfl) rfl rfl
    refine ⟨_, ?_, hd2, ⟨rfl, rfl, rfl, rfl, rfl⟩, payload_congr rfl,
      fun ok => ok.congr rfl rfl rfl rfl⟩
    rw [fofQueueTakeSlot, eh]
    have dist' : distribute (q.setSlot j none).fof ctrl.nClients fuel none ctrl.lastDsp
        (q.setSlot j none).lastFof = _ := dist
    simp only [dist', Option.bind_eq_bind, Option.bind_some]
    rfl
  · rw [List.concat_eq_append] at el
    obtain ⟨h, eh⟩ := hd.head_eq_some has el
    have eh : q.slot j = some h := eh
    have hd' := hd.spliceFree nf has el
    rw [eh] at dist
    have last : (L (.slot j)).getLast?.or q.lastFof = some a := by
      rw [el, List.getLast?_concat]
      rfl
    rw [last] at dist
    rw [el, List.length_append] at len
    -- the queue from which the list is given back
    let r : FofQueue α := { q.setSlot j none with
      firstFof := some h, lastFof := some a
      activeCnt := (roundRobin q.payload ctrl.nClients ctrl.lastDsp (L (.slot j))).length }
    have sg' : Seg r.next (some h) (p ++ [a]) none := by
      rw [← eh, ← el]
      exact sg
    have back := fofQueueFreeFofs_eq sg' len
    have next : (r.spliceFree (some h) a (p.length + 1)).next = Function.update q.next a q.freeFofs :=
      next_setNext r a q.freeFofs
    have next' : ((q.clearHead (.slot j)).spliceFree (some h) a (p.length + 1)).next =
        Function.update q.next a q.freeFofs :=
      next_setNext (q.setSlot j none) a q.freeFofs
    rw [show q.head (.slot j) = some h from eh] at hd'
    have hd2 : Holds (r.spliceFree (some h) a (p.length + 1)) cells (released L (.slot j)) := by
      apply hd'.congr (next.trans next'.symm)
      · intro k
        cases k <;> rfl
      · rfl
      · rfl
    have hd3 : Holds { r.spliceFree (some h) a (p.length + 1) with
        firstFof := none, lastFof := none } cells (released L (.slot j)) := by
      apply hd2.congr
      · rfl
      · intro k
        cases k <;> rfl
      · rfl
      · rfl
    have clock : SameClock q { r.spliceFree (some h) a (p.length + 1) with
        firstFof := none, lastFof := none } := ⟨rfl, rfl, rfl, rfl, rfl⟩
    have payload : (r.spliceFree (some h) a (p.length + 1)).payload = q.payload :=
      (payload_congr rfl).trans (payload_setNext q a q.freeFofs)
    refine ⟨{ r.spliceFree (some h) a (p.length + 1) with firstFof := none, lastFof := none }, ?_,
      hd3, clock, (payload_congr rfl).trans payload, fun ok => ok.congr rfl rfl rfl rfl⟩
    rw [fofQueueTakeSlot, eh]
    have dist' : distribute (q.setSlot j none).fof ctrl.nClients fuel (some h) ctrl.lastDsp
        (q.setSlot j none).lastFof = _ := dist
    simp only [dist', Option.bind_eq_bind, Option.bind_some]
    have back : fofQueueFreeFofs fuel { q.setSlot j none with
        firstFof := some h, lastFof := some a
        activeCnt := (roundRobin q.payload ctrl.nClients ctrl.lastDsp (L (.slot j))).length } h a
        = _ := back
    rw [back]
    rfl

/-- Freeing cells leaves the clock alone. -/
lemma fofQueueFreeFofs_frames {fuel : Nat} {head tail : Addr}
    (e : fofQueueFreeFofs fuel q head tail = some q') :
    q'.nextFrame = q.nextFrame ∧ q'.frameStamp = q.frameStamp := by
  obtain ⟨cnt, -, e⟩ := Option.bind_eq_some_iff.1 e
  cases e
  exact ⟨rfl, rfl⟩

/-- Of the controller `consumeSlot` only changes the DSP client that is next. -/
lemma consumeSlot_ctrl {ctrl ctrl' : CtrlClient} {fuel n : Nat} {out : CycleOut α}
    (e : consumeSlot fuel ctrl q n = some (ctrl', q', out)) :
    (∃ i, ctrl' = { ctrl with lastDsp := i }) ∧ q'.nextFrame = q.nextFrame ∧
      q'.frameStamp = q.frameStamp ∧ out.n = n := by
  rw [consumeSlot, fofQueueTakeSlot] at e
  obtain ⟨⟨i, lastFof, adds⟩, -, e⟩ := Option.bind_eq_some_iff.1 e
  dsimp only at e
  split at e
  · obtain ⟨q1, free, e⟩ := Option.bind_eq_some_iff.1 e
    have same := fofQueueFreeFofs_frames free
    cases e
    exact ⟨⟨i, rfl⟩, same.1, same.2, rfl⟩
  · cases e
    exact ⟨⟨i, rfl⟩, rfl, rfl, rfl⟩

/-! ## The parts of a cycle -/

section Parts

variable {ctrl ctrl' : CtrlClient} {fuel nframes m : Nat} {transportState : TransportState}

lemma changeMode_cases {clockSource : Int}
    (e : changeMode fuel ctrl q clockSource = some (ctrl', q')) :
    (fofQueueFlush fuel q = some q' ∧
      ctrl' = { ctrl with clockSource := clockSource, syncronized := false }) ∨
    (clockSource = ctrl.clockSource ∧ ctrl' = ctrl ∧ q' = q) := by
  rw [changeMode] at e
  split at e
  · obtain ⟨q1, flush, e⟩ := Option.bind_eq_some_iff.1 e
    cases e
    exact .inl ⟨flush, rfl⟩
  · rename_i same
    cases e
    exact .inr ⟨Decidable.not_not.1 same, rfl, rfl⟩

lemma followTransport_cases
    (e : followTransport fuel ctrl q nframes m transportState = some (ctrl', q')) :
    (fofQueueFlush fuel q = some q' ∧ ctrl' = { ctrl with syncronized := false }) ∨
    (ctrl' = ctrl ∧ q' = q) := by
  rw [followTransport] at e
  split at e
  · obtain ⟨q1, flush, e⟩ := Option.bind_eq_some_iff.1 e
    cases e
    exact .inl ⟨flush, rfl⟩
  · cases e
    exact .inr ⟨rfl, rfl⟩

/-- A cycle that is over went through its four parts. -/
lemma ctrlClientProcessCb_parts {jack : JackReading} {out : CycleOut α}
    (e : ctrlClientProcessCb fuel nframes jack ctrl q = some (ctrl', q', out)) :
    ∃ m transportState ctrl1 q1 ctrl2 q2 ctrl3 q3 n,
      getFramestamp (ctrlCurrentClockSource q) jack = (m, transportState) ∧
      changeMode fuel ctrl q (ctrlCurrentClockSource q) = some (ctrl1, q1) ∧
      followTransport fuel ctrl1 q1 nframes m transportState = some (ctrl2, q2) ∧
      publish ctrl2 q2 nframes m transportState = (ctrl3, q3, n) ∧
      consumeSlot fuel ctrl3 q3 n = some (ctrl', q', out) := by
  rw [ctrlClientProcessCb] at e
  rcases stamp : getFramestamp (ctrlCurrentClockSource q) jack with ⟨m, transportState⟩
  rw [stamp] at e
  obtain ⟨⟨ctrl1, q1⟩, mode, e⟩ := Option.bind_eq_some_iff.1 e
  obtain ⟨⟨ctrl2, q2⟩, jump, e⟩ := Option.bind_eq_some_iff.1 e
  exact ⟨m, transportState, ctrl1, q1, ctrl2, q2, _, _, _, rfl, mode, jump, rfl, e⟩

end Parts

/-! ## One cycle -/

/-- What a cycle does to the queue and the controller from the moment it publishes its frame, for the
    lists `L` at that moment. -/
structure Cycled (cells : List Addr) (nframes m : Nat) (transportState : TransportState)
    (ctrl : CtrlClient) (q : FofQueue α) (L : Place → List Addr)
    (ctrl' : CtrlClient) (q' : FofQueue α) (out : CycleOut α) : Prop where
  n : out.n = if jfofsClockUsesTransport ctrl.clockSource then m else q.nextFrame
  adds : out.adds = roundRobin q.payload ctrl.nClients ctrl.lastDsp (L (.slot (slotOfFrame q out.n)))
  holds : Holds q' cells (released L (.slot (slotOfFrame q out.n)))
  nextFrame : q'.nextFrame =
    if jfofsClockUsesTransport ctrl.clockSource then m else u64 (q.nextFrame + nframes)
  queue : SameClock { q with nextFrame := q'.nextFrame } q'
  payload : q'.payload = q.payload
  cacheOk : CacheOk q → CacheOk q'
  clockSource : ctrl'.clockSource = ctrl.clockSource
  nClients : ctrl'.nClients = ctrl.nClients
  lastDsp : ctrl'.lastDsp < ctrl'.nClients
  syncronized : ctrl'.syncronized = true
  transportFrame : ctrl'.transportFrame = m
  transportState : ctrl'.transportState = transportState

/-- What `publish` does to the controller. -/
lemma publish_ctrl (ctrl : CtrlClient) (q : FofQueue α) (nframes m : Nat)
    (transportState : TransportState) :
    publish ctrl q nframes m transportState =
      ({ ctrl with
          transportFrame := m, transportState := transportState, syncronized := true
          dspTimeI := (publish ctrl q nframes m transportState).1.dspTimeI },
        { q with
          nextFrame := if jfofsClockUsesTransport ctrl.clockSource then m
            else u64 (q.nextFrame + nframes)
          frameStamp := m },
        if jfofsClockUsesTransport ctrl.clockSource then m else q.nextFrame) := by
  rw [publish]
  cases h : jfofsClockUsesTransport ctrl.clockSource <;> cases ctrl.syncronized <;> simp

/-- Publishing a frame and consuming its slot. -/
lemma publish_consume {fuel : Nat} {ctrl : CtrlClient} (hd : Holds q cells L)
    (pos : 1 ≤ q.nSlots) (enough : cells.length ≤ fuel) (lt : ctrl.lastDsp < ctrl.nClients)
    (nframes m : Nat) (transportState : TransportState) :
    ∃ ctrl' q' out,
      consumeSlot fuel (publish ctrl q nframes m transportState).1
        (publish ctrl q nframes m transportState).2.1
        (publish ctrl q nframes m transportState).2.2 = some (ctrl', q', out) ∧
      Cycled cells nframes m transportState ctrl q L ctrl' q' out := by
  rw [publish_ctrl]
  generalize (publish ctrl q nframes m transportState).1.dspTimeI = dspTimeI
  generalize en : (if jfofsClockUsesTransport ctrl.clockSource then m else q.nextFrame) = n
  generalize ef : (if jfofsClockUsesTransport ctrl.clockSource then m
    else u64 (q.nextFrame + nframes)) = nextFrame
  let q1 : FofQueue α := { q with nextFrame := nextFrame, frameStamp := m }
  have hd1 : Holds q1 cells L := hd.congr rfl (fun k => by cases k <;> rfl) rfl rfl
  have payload1 : q1.payload = q.payload := payload_congr rfl
  let ctrl1 : CtrlClient := { ctrl with
    transportFrame := m, transportState := transportState, syncronized := true
    dspTimeI := dspTimeI }
  have lt1 : ctrl1.lastDsp < ctrl1.nClients := lt
  obtain ⟨q2, e2, hd2, clock2, payload2, cache2⟩ := consumeSlot_spec hd1 pos enough lt1 n
  refine ⟨_, q2, _, e2, ⟨en.symm, ?_, hd2, ?_, ?_, ?_, ?_, rfl, rfl, ?_, rfl, rfl, rfl⟩⟩
  · rw [payload1]
    rfl
  · exact clock2.nextFrame.trans ef.symm
  · exact ⟨rfl, clock2.2, clock2.3, clock2.4, clock2.5⟩
  · exact payload2.trans payload1
  · exact fun ok => cache2 (ok.congr rfl rfl rfl rfl)
  · exact Nat.mod_lt _ (Nat.zero_lt_of_lt lt)

/-- A cycle that follows neither a change of the clock source nor a jump of the transport. -/
structure Quiet (nframes : Nat) (jack : JackReading) (ctrl : CtrlClient) (q : FofQueue α) : Prop where
  clockSource : ctrlCurrentClockSource q = ctrl.clockSource
  continuous : ctrlTransportDiscontinuity ctrl nframes
    (getFramestamp ctrl.clockSource jack).2 (getFramestamp ctrl.clockSource jack).1 = false

/-- A quiet cycle only publishes its frame and consumes its slot. -/
theorem ctrlClientProcessCb_quiet {fuel nframes : Nat} {jack : JackReading} {ctrl : CtrlClient}
    (hd : Holds q cells L) (pos : 1 ≤ q.nSlots) (enough : cells.length ≤ fuel)
    (lt : ctrl.lastDsp < ctrl.nClients) (quiet : Quiet nframes jack ctrl q) :
    ∃ ctrl' q' out, ctrlClientProcessCb fuel nframes jack ctrl q = some (ctrl', q', out) ∧
      Cycled cells nframes (getFramestamp ctrl.clockSource jack).1
        (getFramestamp ctrl.clockSource jack).2 ctrl q L ctrl' q' out := by
  obtain ⟨ctrl', q', out, e, cycled⟩ := publish_consume hd pos enough lt nframes
    (getFramestamp ctrl.clockSource jack).1 (getFramestamp ctrl.clockSource jack).2
  refine ⟨ctrl', q', out, ?_, cycled⟩
  have same : ¬ ctrl.clockSource ≠ ctrl.clockSource := fun h => h rfl
  rw [ctrlClientProcessCb, quiet.clockSource]
  simp only [changeMode, followTransport, if_neg same, quiet.continuous, Option.bind_eq_bind,
    Option.bind_some, if_false, Bool.false_eq_true]
  exact e

/-- The queue was flushed or left as it is. -/
structure Flushed (q q' : FofQueue α) (cells : List Addr) (L L' : Place → List Addr) : Prop where
  holds : Holds q' cells L'
  clock : SameClock q q'
  cacheOk : CacheOk q → CacheOk q'
  lists : (∀ k, k ≠ .free → L' k = []) ∨ L' = L

lemma Flushed.sub {L' : Place → List Addr} {k : Place} {c : Addr} (fl : Flushed q q' cells L L')
    (nf : k ≠ .free) (mem : c ∈ L' k) : c ∈ L k := by
  obtain empty | rfl := fl.lists
  · rw [empty k nf] at mem
    exact absurd mem List.not_mem_nil
  · exact mem

lemma changeMode_spec {fuel : Nat} (ctrl : CtrlClient) (hd : Holds q cells L)
    (enough : cells.length ≤ fuel) (clockSource : Int) :
    ∃ ctrl' q' L', changeMode fuel ctrl q clockSource = some (ctrl', q') ∧ Flushed q q' cells L L' ∧
      ctrl'.nClients = ctrl.nClients ∧ ctrl'.lastDsp = ctrl.lastDsp := by
  rw [changeMode]
  split
  · obtain ⟨q', L', e, hd', empty, clock, -, cacheOk⟩ := fofQueueFlush_spec hd enough
    rw [e]
    exact ⟨_, q', L', rfl, ⟨hd', clock, fun _ => cacheOk, .inl empty⟩, rfl, rfl⟩
  · exact ⟨ctrl, q, L, rfl, ⟨hd, SameClock.refl q, id, .inr rfl⟩, rfl, rfl⟩

lemma followTransport_spec {fuel : Nat} (ctrl : CtrlClient) (hd : Holds q cells L)
    (enough : cells.length ≤ fuel) (nframes m : Nat) (transportState : TransportState) :
    ∃ ctrl' q' L', followTransport fuel ctrl q nframes m transportState = some (ctrl', q') ∧
      Flushed q q' cells L L' ∧ ctrl'.nClients = ctrl.nClients ∧ ctrl'.lastDsp = ctrl.lastDsp := by
  rw [followTransport]
  split
  · obtain ⟨q', L', e, hd', empty, clock, -, cacheOk⟩ := fofQueueFlush_spec hd enough
    rw [e]
    exact ⟨_, q', L', rfl, ⟨hd', clock, fun _ => cacheOk, .inl empty⟩, rfl, rfl⟩
  · exact ⟨ctrl, q, L, rfl, ⟨hd, SameClock.refl q, id, .inr rfl⟩, rfl, rfl⟩

/-- Any cycle ends. It may flush the queue, then publishes its frame and consumes its slot. -/
theorem ctrlClientProcessCb_spec {fuel : Nat} {ctrl : CtrlClient} (hd : Holds q cells L)
    (pos : 1 ≤ q.nSlots) (enough : cells.length ≤ fuel) (lt : ctrl.lastDsp < ctrl.nClients)
    (nframes : Nat) (jack : JackReading) :
    ∃ ctrl0 q0 L0 ctrl' q' out, ctrlClientProcessCb fuel nframes jack ctrl q = some (ctrl', q', out) ∧
      ctrl0.nClients = ctrl.nClients ∧ SameClock q q0 ∧ (CacheOk q → CacheOk q0) ∧
      (∀ {k c}, k ≠ .free → c ∈ L0 k → c ∈ L k) ∧
      Cycled cells nframes (getFramestamp (ctrlCurrentClockSource q) jack).1
        (getFramestamp (ctrlCurrentClockSource q) jack).2 ctrl0 q0 L0 ctrl' q' out := by
  rw [ctrlClientProcessCb]
  generalize ctrlCurrentClockSource q = clockSource
  generalize getFramestamp clockSource jack = stamp
  obtain ⟨m, transportState⟩ := stamp
  obtain ⟨ctrl1, q1, L1, e1, fl1, n1, i1⟩ := changeMode_spec ctrl hd enough clockSource
  obtain ⟨ctrl2, q2, L2, e2, fl2, n2, i2⟩ :=
    followTransport_spec ctrl1 fl1.holds enough nframes m transportState
  have clock := fl1.clock.trans fl2.clock
  have pos2 : 1 ≤ q2.nSlots := clock.nSlots ▸ pos
  have lt2 : ctrl2.lastDsp < ctrl2.nClients := by
    rw [i2, i1, n2, n1]
    exact lt
  obtain ⟨ctrl', q', out, e3, cycled⟩ :=
    publish_consume fl2.holds pos2 enough lt2 nframes m transportState
  refine ⟨ctrl2, q2, L2, ctrl', q', out, ?_, n2.trans n1, clock,
    fun ok => fl2.cacheOk (fl1.cacheOk ok), fun nf mem => fl1.sub nf (fl2.sub nf mem), cycled⟩
  simp only [e1, e2, Option.bind_eq_bind, Option.bind_some]
  exact e3

end JackFofs
