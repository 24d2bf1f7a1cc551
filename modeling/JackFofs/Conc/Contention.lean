import JackFofs.Conc.Slots
import JackFofs.Conc.Plan
import JackFofs.Conc.Solo

/-!
# Producers that contend

Any number of threads run `fof_queue_add` while `next_frame` stays as it is. The far insertion
retries, so a slot that another producer has changed costs it another round. The near insertion has
one attempt, and takes a slot that has changed for one that has been consumed: it frees its cell and
answers `JFOFS_FOF_LATE_WARNING` (`contention_beaten`). Without such a step, every call in the window
of the ring links its event into its slot (`contention_on_time`).
-/

namespace JackFofs
open Linked Runs

variable {α : Type}

/-- The action is one of a thread that runs `fof_queue_add`. -/
def Act.producer : Act α → Bool
  | .call _ _ _ => true
  | .step _ => true
  | _ => false

/-- The next step is the compare-exchange of the near insertion, and the slot is not what it was when
    the call loaded it. -/
def beatenNear (q : FofQueue α) : AddPc → Bool
  | .near _ _ slot (.cas head) => q.slot slot ≠ head
  | _ => false

/-- The next step pops a stale value. -/
def staleAlloc (q : FofQueue α) : AddPc → Bool
  | .alloc pc => staleCas q pc
  | _ => false

/-- A state and an action of a run in which only producers act, the free list does not run empty, no
    pop is stale and no near insertion is beaten. -/
structure Undisturbed (s : Machine α) (act : Act α) : Prop where
  producer : act.producer
  free : s.q.freeFofs ≠ none
  fresh : staleAlloc s.q (act.pc s) = false
  unbeaten : beatenNear s.q (act.pc s) = false

/-- The start frame is in the window of the ring. -/
structure OnTime (q : FofQueue α) (s : Nat) : Prop where
  le : q.nextFrame ≤ s
  lt : s < q.nextFrame + q.nSlots * q.bufferSize

/-- The value of `next_frame` that a call works with, if it has one. -/
def OfFrame (nextFrame : Nat) : AddPc → Prop
  | .cache _ nf _ _ => nf = nextFrame
  | .far _ nf _ _ => nf = nextFrame
  | .near _ nf _ _ => nf = nextFrame
  | _ => True

/-- The call has not given up its slot. -/
def InRing : AddPc → Prop
  | .excess _ _ => False
  | .free _ _ => False
  | _ => True

/-- What holds in every state of such a run. -/
structure Contended (cells : List Addr) (s : Machine α) (L : Loc → List Addr) : Prop where
  conc : ConcInv cells s L
  ring : RingOk s.q
  cached : s.q.nextFrameCheck = s.q.nextFrame → CacheOk s.q
  frames : ∀ p, OfFrame s.q.nextFrame (s.thread p).pc
  plans : ∀ p, Planned s.q (s.thread p).timeUs (s.thread p).argv (s.thread p).pc
  inRing : ∀ p, OnTime s.q (startFrame s.q (s.thread p).timeUs) → InRing (s.thread p).pc

/-! ## One step -/

section Flow

variable {q q' : FofQueue α} {s : Nat} {timeUs : Nat} {argv : α} {pc pc' : AddPc} {ev : Ev α}

lemma ofFrame_recalculatePc (q : FofQueue α) (fof : Addr) (s nextFrame : Nat) :
    OfFrame nextFrame (recalculatePc q fof s nextFrame) := by
  obtain ⟨-, e⟩ | ⟨-, -, e⟩ | ⟨-, -, e⟩ := recalculatePc_cases q fof s nextFrame
  · rw [e]
    exact trivial
  · rw [e]
    exact trivial
  · rw [e]
    rfl

/-- A call works with the value of `next_frame` in memory as long as it does not change. -/
lemma AddFlow.ofFrame (flow : AddFlow q s pc pc') (of : OfFrame q.nextFrame pc) :
    OfFrame q.nextFrame pc' := by
  cases flow with
  | calculate => exact ofFrame_recalculatePc ..
  | recalculate => exact ofFrame_recalculatePc ..
  | cached => exact of
  | outdated => exact of
  | cacheSlot => exact of
  | cacheFrame => exact of
  | chooseFar => exact of
  | chooseNear => exact of
  | far => exact of
  | near => exact of
  | _ => trivial

lemma inRing_recalculatePc {fof : Addr} (on : OnTime q s) :
    InRing (recalculatePc q fof s q.nextFrame) := by
  obtain ⟨late, -⟩ | ⟨le, big, -⟩ | ⟨-, -, e⟩ := recalculatePc_cases q fof s q.nextFrame
  · exact absurd on.le (Nat.not_le.2 late)
  · exact absurd (slotIndex_window on.lt le) (Int.not_lt.2 big)
  · rw [e]
    trivial

/-- A call in the window gives up its slot only when its near insertion is beaten. -/
lemma AddFlow.inRing (flow : AddFlow q s pc pc') (of : OfFrame q.nextFrame pc) (on : OnTime q s)
    (unbeaten : beatenNear q pc = false) (inRing : InRing pc) : InRing pc' := by
  cases flow with
  | calculate => exact inRing_recalculatePc on
  | recalculate => exact inRing_recalculatePc on
  | overtaken ne => exact absurd of.symm ne
  | beaten ne => exact absurd (decide_eq_false_iff_not.1 unbeaten) (not_not_intro ne)
  | excess => exact inRing
  | free => exact inRing
  | _ => trivial

/-- `fof_queue_add` finds no cell only on an empty free list. -/
lemma addStep_limit (e : addStep q timeUs argv pc = some (.limit, pc', q')) : q.freeFofs = none := by
  cases addStep_cases e with
  | empty head => exact head

/-- How a call in the window returns: with its cell linked into the slot that it has worked out. -/
lemma AddEffect.linked_of_status {st : JfofsStatus} (eff : AddEffect q pc ev pc' q')
    (status : ev.status = some st) (plan : Planned q timeUs argv pc) (inRing : InRing pc)
    (limit : ev ≠ .limit) : st = .success ∧ ∃ fof nextFrame, pc.cells = [fof] ∧
      Carries q' fof timeUs argv ∧ (OfFrame q.nextFrame pc → nextFrame = q.nextFrame) ∧
      ev = .linked fof (ringSlot q (startFrame q timeUs) nextFrame) := by
  cases eff with
  | write keeps =>
    cases ev with
    | limit => exact absurd rfl limit
    | linked => exact absurd keeps id
    | excess => exact absurd keeps id
    | late => exact absurd keeps id
    | _ => cases status
  | pop => cases status
  | @link fof nextFrame slot pc =>
    cases status
    refine ⟨rfl, fof, nextFrame, ?_⟩
    obtain rfl | rfl := pc
    · obtain ⟨carries, -, eq⟩ := plan
      rw [← eq]
      exact ⟨rfl, carries, id, rfl⟩
    · obtain ⟨carries, -, eq⟩ := plan
      rw [← eq]
      exact ⟨rfl, carries, id, rfl⟩
  | excess pc =>
    subst pc
    exact absurd inRing id
  | free pc =>
    subst pc
    exact absurd inRing id

end Flow

section Step

variable {cells : List Addr} {s s' : Machine α} {L : Loc → List Addr} {ev : Ev α} {act : Act α}

lemma Framed.params {who : Loc} (framed : Framed who L s s') : SameParams s.q s'.q :=
  ⟨framed.nSlots, framed.sampleRate, framed.bufferSize⟩

lemma Undisturbed.who_ne_ctrl (un : Undisturbed s act) : act.who ≠ .ctrl := by
  have producer := un.producer
  intro e
  cases act <;> cases e <;> cases producer

/-- A step is regular if it does not pop a stale value and the excess list is empty. -/
lemma Regular.of_empty (fresh : staleAlloc s.q (act.pc s) = false) (empty : s.q.excess = none) :
    Regular s act := by
  refine ⟨fun p pc ea epc stale => ?_, fun _ _ _ => empty⟩
  subst ea
  rw [Act.pc, epc, staleAlloc, stale] at fresh
  cases fresh

lemma Undisturbed.regular (un : Undisturbed s act) : Regular s act := by
  refine ⟨fun p pc ea epc stale => ?_, fun ea => ?_⟩
  · subst ea
    have fresh := un.fresh
    rw [Act.pc, epc, staleAlloc, stale] at fresh
    cases fresh
  · subst ea
    exact absurd rfl un.who_ne_ctrl

lemma OnTime.congr {q q' : FofQueue α} {t : Nat} (on : OnTime q t)
    (nextFrame : q'.nextFrame = q.nextFrame) (nSlots : q'.nSlots = q.nSlots)
    (bufferSize : q'.bufferSize = q.bufferSize) : OnTime q' t := by
  refine ⟨?_, ?_⟩
  · rw [nextFrame]
    exact on.le
  · rw [nextFrame, nSlots, bufferSize]
    exact on.lt

/-- A step writes the cached slot of `next_frame` only, and completes the pair with a slot that fits. -/
lemma AddWrites.cached {q q' : FofQueue α} {timeUs : Nat} {argv : α} {pc : AddPc}
    (writes : AddWrites q timeUs argv pc q') (of : OfFrame q.nextFrame pc)
    (plan : Planned q timeUs argv pc) (nextFrame : q'.nextFrame = q.nextFrame)
    (cached : q.nextFrameCheck = q.nextFrame → CacheOk q) :
    (q'.nextFrameCheck = q'.nextFrame → CacheOk q') ∧
      (q.currentSlot = slotOfFrame q q.nextFrame → q'.currentSlot = slotOfFrame q' q.nextFrame) := by
  rw [nextFrame]
  cases writes with
  | fill => exact ⟨cached, id⟩
  | @slot fof nf slotIdx epc =>
    subst epc
    cases (of : nf = q.nextFrame)
    refine ⟨fun same => ?_, fun _ => rfl⟩
    have same : q.nextFrameCheck = q.nextFrame := same
    show slotOfFrame q q.nextFrame = slotOfFrame q q.nextFrameCheck
    rw [same]
  | @frame fof nf slotIdx epc =>
    subst epc
    cases (of : nf = q.nextFrame)
    obtain ⟨-, -, -, slot⟩ := plan
    exact ⟨fun _ => slot (.inl rfl), id⟩
  | lists _ _ same =>
    have params := same.clock.params
    refine ⟨fun check => ?_, fun slot => ?_⟩
    · rw [same.nextFrameCheck] at check
      exact (cached check).congr same.currentSlot same.nextFrameCheck params.nSlots params.bufferSize
    · rw [same.currentSlot, params.slotOfFrame]
      exact slot

/-- Every undisturbed step keeps the invariant. -/
lemma Contended.exec (inv : Contended cells s L) (un : Undisturbed s act)
    (e : s.exec act = some (ev, s')) : Contended cells s' (ev.moved act.who L) := by
  have framed := inv.conc.framed un.regular e
  have nextFrame := framed.nextFrame un.who_ne_ctrl
  have onTime {t : Nat} (on : OnTime s'.q (startFrame s'.q t)) : OnTime s.q (startFrame s.q t) := by
    rw [framed.params.startFrame] at on
    exact on.congr nextFrame.symm framed.nSlots.symm framed.bufferSize.symm
  have conc := inv.conc.exec un.regular e
  have ring := inv.ring.congr framed.nSlots framed.bufferSize
  have producer := un.producer
  cases Machine.executed e with
  | @call p timeUs argv pc =>
    refine ⟨conc, ring, inv.cached, ?_, ?_, ?_⟩
    · exact setThread_forall (P := fun _ t => OfFrame s.q.nextFrame t.pc) s p _ trivial
        fun p' _ => inv.frames p'
    · exact setThread_forall (P := fun _ t => Planned s.q t.timeUs t.argv t.pc) s p _ trivial
        fun p' _ => inv.plans p'
    · exact setThread_forall (P := fun _ t => OnTime s.q (startFrame s.q t.timeUs) → InRing t.pc)
        s p _ (fun _ => trivial) fun p' _ => inv.inRing p'
  | @step p _ pc' q' step =>
    have flow := addStep_flow step
    have of := inv.frames p
    obtain ⟨cached, slot⟩ := (addStep_writes step).cached of (inv.plans p) nextFrame inv.cached
    refine ⟨conc, ring, cached, ?_, ?_, ?_⟩
    · rw [nextFrame]
      exact setThread_forall (P := fun _ t => OfFrame s.q.nextFrame t.pc) { s with q := q' } p _
        (flow.ofFrame of) fun p' _ => inv.frames p'
    · refine setThread_forall (P := fun _ t => Planned q' t.timeUs t.argv t.pc) { s with q := q' } p _
        ((inv.plans p).step inv.ring (fun fof slotIdx epc => ?_) step) fun p' ne => ?_
      · rw [epc] at of
        exact inv.cached of
      · -- the cell of another call is not among the cells of this one
        have of' := inv.frames p'
        refine (inv.plans p').congr framed.params (fun fof mem => ?_) fun fof nf slotIdx cpc epc => ?_
        · rw [← inv.conc.own p'] at mem
          have same := framed.fof fof (inv.conc.lists.part.notMem mem fun h => ne (Loc.own.inj h))
          rw [FofQueue.payload, FofQueue.payload]
          exact congrArg (fun f => (f.timeUs, f.argv)) same
        · rw [epc] at of'
          cases (of' : nf = s.q.nextFrame)
          exact slot
    · refine setThread_forall (P := fun _ t => OnTime q' (startFrame q' t.timeUs) → InRing t.pc)
        { s with q := q' } p _ (fun on => ?_) fun p' _ on => inv.inRing p' (onTime on)
      exact flow.inRing of (onTime on) un.unbeaten (inv.inRing p (onTime on))
  | _ => cases producer

/-- A call in the window returns with its event in the slot of its block. -/
lemma Contended.returns {p : Nat} {st : JfofsStatus} (inv : Contended cells s L)
    (un : Undisturbed s (.step p)) (e : s.exec (.step p) = some (ev, s')) (status : ev.status = some st)
    (on : OnTime s.q (startFrame s.q (s.thread p).timeUs)) :
    st = .success ∧ ∃ fof, ev = .linked fof
        (ringSlot s.q (startFrame s.q (s.thread p).timeUs) s.q.nextFrame) ∧
      s'.q.payload fof = ((s.thread p).timeUs, (s.thread p).argv) := by
  cases Machine.executed e with
  | step step =>
    have limit : ev ≠ .limit := by
      rintro rfl
      exact un.free (addStep_limit step)
    have eff := addStep_effect inv.conc.nSlots (inv.conc.threads p)
      (fun pc => un.regular.fresh p pc rfl) step
    obtain ⟨ok, fof, nextFrame, -, carries, of, link⟩ :=
      eff.linked_of_status status (inv.plans p) (inv.inRing p on) limit
    cases of (inv.frames p)
    exact ⟨ok, fof, link, carries⟩

/-- A cell in a slot stays there, with its event. -/
lemma Contended.stays {c : Addr} {j : Nat} (inv : Contended cells s L) (un : Undisturbed s act)
    (e : s.exec act = some (ev, s')) (mem : c ∈ L (.place (.slot j))) :
    c ∈ ev.moved act.who L (.place (.slot j)) ∧ s'.q.payload c = s.q.payload c := by
  refine ⟨mem_moved_slot (who_ne_place act) mem ?_, ?_⟩
  · rintro n head rfl
    obtain ⟨rfl, -, -⟩ := inv.conc.of_took un.regular e
    exact un.who_ne_ctrl rfl
  · have out := inv.conc.lists.part.notMem mem (who_ne_place act (.slot j)).symm
    rw [FofQueue.payload, FofQueue.payload, (inv.conc.framed un.regular e).fof c out]

end Step

/-! ## Whole runs -/

section Runs

variable {cells : List Addr} {s s' : Machine α} {L : Loc → List Addr} {log : List (Step α)}

lemma contended_run (run : Run Machine.exec s log s') (un : ∀ x ∈ log, Undisturbed x.pre x.op)
    (inv : Contended cells s L) : ∃ L', Contended cells s' L' ∧
      ∀ c j, c ∈ L (.place (.slot j)) →
        c ∈ L' (.place (.slot j)) ∧ s'.q.payload c = s.q.payload c := by
  induction run generalizing L with
  | nil => exact ⟨L, inv, fun c j mem => ⟨mem, rfl⟩⟩
  | @cons s s1 s' act ev log e run ih =>
    have un1 := un _ List.mem_cons_self
    obtain ⟨L', inv', stays'⟩ := ih (fun x h => un x (List.mem_cons_of_mem _ h)) (inv.exec un1 e)
    refine ⟨L', inv', fun c j mem => ?_⟩
    obtain ⟨mem1, same1⟩ := inv.stays un1 e mem
    obtain ⟨mem2, same2⟩ := stays' c j mem1
    exact ⟨mem2, same2.trans same1⟩

end Runs

/-- Producers alone, on a queue whose lists are in order and whose cached slot, if it is the one for
    `next_frame`, is right: as long as the free list does not run empty, no pop is stale and no near
    insertion is beaten, every call in the window of the ring that returns answers `JFOFS_SUCCESS`, and
    its event is in its slot and stays there. Every call under way returns when it is left alone. -/
theorem contention_on_time {cells : List Addr} {s0 s : Machine α} {L0 : Loc → List Addr}
    (conc : ConcInv cells s0 L0) (idle : ∀ p, (s0.thread p).pc = .idle) (ring : RingOk s0.q)
    (cached : s0.q.nextFrameCheck = s0.q.nextFrame → CacheOk s0.q) (acts : List (Act α))
    {log : List (Step α)} (run : execAll Machine.exec s0 acts = some (log, s))
    (undisturbed : ∀ x ∈ log, Undisturbed x.pre x.op) :
    (∀ l1 x l2 p st, log = l1 ++ x :: l2 → x.op = .step p → x.out.status = some st →
      OnTime x.pre.q (startFrame x.pre.q (x.pre.thread p).timeUs) →
      st = .success ∧ ∃ fof slot l,
        slot = ringSlot x.pre.q (startFrame x.pre.q (x.pre.thread p).timeUs) x.pre.q.nextFrame ∧
        x.out = .linked fof slot ∧ Seg s.q.next (s.q.slot slot) l none ∧ fof ∈ l ∧
        s.q.payload fof = ((x.pre.thread p).timeUs, (x.pre.thread p).argv)) ∧
    ∀ p, (s.thread p).pc ≠ .idle → ∃ n log' s', n ≤ 22 ∧
      execAll Machine.exec s (List.replicate n (.step p)) = some (log', s') ∧
      ∃ x ∈ log', x.out.status ≠ none := by
  have start : Contended cells s0 L0 := by
    refine ⟨conc, ring, cached, fun p => ?_, fun p => ?_, fun p _ => ?_⟩ <;> rw [idle p] <;>
      exact trivial
  refine ⟨?_, fun p busy => exec_alone busy⟩
  rintro l1 x l2 p st rfl op status on
  obtain ⟨s0', act, ev⟩ := x
  cases (op : act = .step p)
  have unx := undisturbed _ (List.mem_append_right l1 List.mem_cons_self)
  obtain ⟨s1, run1, e, run2⟩ := (run_of_execAll run).1.split
  obtain ⟨L1, inv1, -⟩ := contended_run run1 (fun y h => undisturbed y (List.mem_append_left _ h)) start
  obtain ⟨ok, fof, link, carries⟩ := inv1.returns unx e status on
  have inv2 := inv1.exec unx e
  obtain ⟨L3, inv3, stays⟩ := contended_run run2
    (fun y h => undisturbed y (List.mem_append_right l1 (List.mem_cons_of_mem _ h))) inv2
  have link : ev = _ := link
  generalize ringSlot _ _ _ = slot at link ⊢
  cases link
  obtain ⟨p', -, ep, -, own, -⟩ := inv1.conc.of_linked unx.regular e
  cases ep
  have mem : fof ∈ Ev.moved (.own p) L1 (Ev.linked fof slot : Ev α) (.place (.slot slot)) := by
    rw [Ev.moved, Function.update_self, own]
    exact List.mem_cons_self
  obtain ⟨mem', same⟩ := stays fof slot mem
  exact ⟨ok, fof, slot, _, rfl, rfl, inv3.conc.slot_list_of_mem mem', mem', same.trans carries⟩

/-- Threads 0 and 1 call `fof_queue_add` for the same time. Thread 0 makes `n` steps, then thread 1 all
    its steps, then thread 0 another `m`. -/
def race (timeUs n all m : Nat) : List (Act Unit) :=
  .call 0 timeUs () :: .call 1 timeUs () :: (List.replicate n (.step 0) ++ List.replicate all (.step 1) ++
    List.replicate m (.step 0))

/-- Both events go into slot 1. The compare-exchange of thread 0 fails once and its call succeeds. -/
theorem contention_on_time_retry :
    ∃ log s l, execAll Machine.exec (Machine.init (twoSlots 3) (FofQueue.zero ()) ()) (race 3 12 13 7) =
        some (log, s) ∧ Seg s.q.next (s.q.slot 1) l none ∧ 0 ∈ l ∧ s.q.payload 0 = (3, ()) := by
  have holds := fofQueueInit_holds (FofQueue.zero ()) (twoSlots 3) (by decide)
  have rest : AtRest (Machine.init (twoSlots 3) (FofQueue.zero ()) ()) := ⟨fun _ => rfl, rfl⟩
  have ring : RingOk (fofQueueInit (FofQueue.zero ()) (twoSlots 3)) :=
    ⟨⟨1, rfl⟩, by decide, by decide, by decide⟩
  cases run : execAll Machine.exec (Machine.init (twoSlots 3) (FofQueue.zero ()) ()) (race 3 12 13 7) with
  | none => exact absurd run (by decide)
  | some r =>
    obtain ⟨log, s⟩ := r
    have quiet : ∀ x ∈ log, x.op.producer = true ∧ x.pre.q.freeFofs ≠ none ∧
        staleAlloc x.pre.q (x.op.pc x.pre) = false ∧ beatenNear x.pre.q (x.op.pc x.pre) = false := by
      cases Option.some.inj (run.symm.trans rfl)
      decide
    have last : ∃ x, log[33]? = some x ∧ x.op = .step 0 ∧ x.out = .linked 0 1 ∧
        (x.pre.thread 0).timeUs = 3 ∧ x.pre.q.nextFrame ≤ startFrame x.pre.q 3 ∧
        startFrame x.pre.q 3 < x.pre.q.nextFrame + x.pre.q.nSlots * x.pre.q.bufferSize := by
      cases Option.some.inj (run.symm.trans rfl)
      exact ⟨_, rfl, rfl, rfl, rfl, by decide, by decide⟩
    have undisturbed : ∀ x ∈ log, Undisturbed x.pre x.op := by
      intro x mem
      obtain ⟨producer, free, fresh, unbeaten⟩ := quiet x mem
      exact ⟨producer, free, fresh, unbeaten⟩
    obtain ⟨onTime, -⟩ := contention_on_time (concInv_rest rest holds (by decide)) (fun _ => rfl) ring
      (fun _ => rfl) (race 3 12 13 7) run undisturbed
    obtain ⟨x, at33, op, out, time, le, lt⟩ := last
    obtain ⟨l1, l2, split⟩ := List.append_of_mem (List.mem_of_getElem? at33)
    rw [← time] at le lt
    obtain ⟨-, fof, slot, l, -, out', sg, mem, payload⟩ :=
      onTime l1 x l2 0 .success split op (by rw [out]; rfl) ⟨le, lt⟩
    rw [out] at out'
    cases out'
    rw [time] at payload
    exact ⟨log, s, l, rfl, sg, mem, payload⟩

/-- Both events go into slot 0, the slot of the next block. Thread 0 loads the slot, thread 1 links its
    event, and the compare-exchange of thread 0 fails: its event for frame 0 is called late although
    `next_frame` is 0 all the time. -/
theorem contention_beaten :
    ∃ log s x, execAll Machine.exec (Machine.init (twoSlots 3) (FofQueue.zero ()) ()) (race 0 11 12 5) =
        some (log, s) ∧
      (∀ y ∈ log, y.op.producer = true ∧ y.pre.q.freeFofs ≠ none ∧
        staleAlloc y.pre.q (y.op.pc y.pre) = false ∧ y.pre.q.nextFrame = 0) ∧
      x ∈ log ∧ x.op = .step 0 ∧ OnTime x.pre.q (startFrame x.pre.q (x.pre.thread 0).timeUs) ∧
      x.out.status = some .fofLateWarning := by
  refine ⟨_, _, _, rfl, ?_, List.mem_of_getElem? (i := 29) rfl, rfl, ⟨?_, ?_⟩, rfl⟩
  · decide
  · decide
  · decide

end JackFofs
