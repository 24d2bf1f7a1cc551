import JackFofs.Conc.Excess
import JackFofs.Conc.Plan
import JackFofs.Lib.Watermark

/-!
# The high-water mark of the free list

Model of `max_used_free_list` of `statistics.c`. It walks the free list up to the first cell whose
`time_us` is zero and reports how many cells it has passed. No call of `fof_queue_add` has filled the
cells from there on, so the number says how far down the free list has been (`WaterInv`), less what is
missing from it now.

The lists have to be in order for this. They are when the operations come one after the other
(`Sequential`), for then no two allocations overlap and no push on the excess list is overtaken.
-/

namespace JackFofs
open Linked Runs Watermark

variable {α : Type}

/-- The loop of `max_used_free_list`. -/
def countUsed (q : FofQueue α) : (fuel : Nat) → (fof : Option Addr) → (n : Nat) → Option Nat
  | _, none, n => some n
  | 0, some _, _ => none
  | fuel + 1, some fof, n =>
    if (q.fof fof).timeUs = 0 then some n else countUsed q fuel (q.next fof) (n + 1)

/-- `max_used_free_list`, with the answer of `shmem_ptr`. -/
def maxUsedFreeList (fuel : Nat) (shmem : Option (FofQueue α)) : Option Nat :=
  match shmem with
  | none => some 0
  | some q => countUsed q fuel q.freeFofs 0

/-- The number of cells of a pool of `M` that are not on the free list. -/
def offFree (M : Nat) (q : FofQueue α) : Nat :=
  ((List.range M).filter fun c => c ∉ walk q.next M q.freeFofs).length

/-- The largest number of cells that are off the free list in one of the states. -/
def highWater (M : Nat) (states : List (Machine α)) : Nat :=
  states.foldl (fun mark s => max mark (offFree M s.q)) 0

/-- The states of a run. -/
def visited (log : List (Step α)) (s : Machine α) : List (Machine α) :=
  log.map Entry.pre ++ [s]

/-- The action begins an operation. -/
def Act.starts : Act α → Bool
  | .call _ _ _ => true
  | .cycle _ _ => true
  | .flush => true
  | _ => false

/-- Each operation begins when the one before is over. -/
def Sequential (log : List (Step α)) : Prop :=
  ∀ x ∈ log, x.op.starts = true → AtRest x.pre

/-- The action is no call of `fof_queue_add` for the time zero. -/
def Act.Timed (act : Act α) : Prop :=
  ∀ p timeUs argv, act = .call p timeUs argv → 0 < timeUs

/-! ## One operation at a time -/

/-- A call in the excess branch still sees the head that it has read. -/
def ExcessCurrent (q : FofQueue α) : AddPc → Prop
  | .excess _ (.write head) => head = q.excess
  | .excess fof .push => q.next fof = q.excess
  | _ => True

/-- All threads are idle, or the controller and all threads but one are. -/
structure OneAtATime (s : Machine α) : Prop where
  alone : (∀ p, (s.thread p).pc = .idle) ∨ s.cpc = .idle ∧ ∃ p, ∀ i, i ≠ p → (s.thread i).pc = .idle
  current : ∀ p, ExcessCurrent s.q (s.thread p).pc

section OneAtATime

variable {s s' : Machine α} {act : Act α} {ev : Ev α} {q q' : FofQueue α}

lemma ExcessCurrent.of_idle {pc : AddPc} (idle : pc = .idle) : ExcessCurrent q pc := by
  rw [idle]
  trivial

lemma excessCurrent_recalculatePc (q q' : FofQueue α) (fof s nextFrame : Nat) :
    ExcessCurrent q' (recalculatePc q fof s nextFrame) := by
  obtain ⟨-, e⟩ | ⟨-, -, e⟩ | ⟨-, -, e⟩ := recalculatePc_cases q fof s nextFrame <;> rw [e] <;>
    exact trivial

lemma ExcessCurrent.step {timeUs : Nat} {argv : α} {pc pc' : AddPc} (current : ExcessCurrent q pc)
    (e : addStep q timeUs argv pc = some (ev, pc', q')) : ExcessCurrent q' pc' := by
  have flow := addStep_flow e
  cases pc with
  | excess fof epc =>
    cases epc with
    | read =>
      cases e
      rfl
    | write head =>
      cases e
      show (q.setNext fof head).next fof = _
      rw [next_setNext, Function.update_self]
      exact current
    | push =>
      cases e
      trivial
  | _ =>
    cases flow <;> first
      | exact excessCurrent_recalculatePc ..
      | exact trivial

/-- The invariant of a sequential run. -/
lemma OneAtATime.exec (one : OneAtATime s) (starts : act.starts = true → AtRest s)
    (e : s.exec act = some (ev, s')) : OneAtATime s' := by
  cases Machine.executed e with
  | @call p timeUs argv idle =>
    have rest := starts rfl
    refine ⟨.inr ⟨rest.ctrl, p, fun i ne => ?_⟩, fun i => ?_⟩
    · rw [setThread_of_ne _ _ _ ne]
      exact rest.threads i
    · exact setThread_forall (P := fun _ t => ExcessCurrent s.q t.pc) s p
        ⟨timeUs, argv, .alloc .load⟩ trivial (fun i _ => one.current i) i
  | @step p ev pc q step =>
    obtain idle | ⟨cpc, p', idle⟩ := one.alone
    · exact absurd (idle p) (addStep_busy step)
    have eq : p = p' := by
      by_contra ne
      exact addStep_busy step (idle p ne)
    subst eq
    refine ⟨.inr ⟨cpc, p, fun i ne => ?_⟩, fun i => ?_⟩
    · rw [setThread_of_ne _ _ _ ne]
      exact idle i ne
    · exact setThread_forall (P := fun _ t => ExcessCurrent q t.pc) { s with q := q } p _
        ((one.current p).step step) (fun i ne => .of_idle (idle i ne)) i
  | cycle =>
    have rest := starts rfl
    exact ⟨.inl rest.threads, one.current⟩
  | flush =>
    have rest := starts rfl
    exact ⟨.inl rest.threads, one.current⟩
  | ctrlStep step =>
    obtain idle | ⟨cpc, -⟩ := one.alone
    · exact ⟨.inl idle, fun p => .of_idle (idle p)⟩
    · rw [cpc] at step
      cases step
  | storeClockSource => exact ⟨one.alone, one.current⟩

lemma OneAtATime.allocatesAlone (one : OneAtATime s) : AllocatesAlone s := by
  obtain idle | ⟨-, p, idle⟩ := one.alone
  · exact .of_single (p := 0) fun i _ => idle i
  · exact .of_single idle

lemma OneAtATime.pushesCurrent (one : OneAtATime s) (act : Act α) : PushesCurrent s act := by
  rw [PushesCurrent]
  cases act with
  | step p =>
    have current := one.current p
    rw [Act.pc]
    cases pc : (s.thread p).pc with
    | excess fof epc =>
      cases epc with
      | push =>
        rw [pc] at current
        exact decide_eq_false fun ne => ne current
      | _ => rfl
    | _ => rfl
  | _ => rfl

/-- A sequential run meets the conditions of `excess_run`. -/
lemma Sequential.excessRun {log : List (Step α)} (seq : Sequential log) (rest : AtRest s)
    (run : Run Machine.exec s log s') : ExcessRun log := by
  have start : OneAtATime s := ⟨.inl rest.threads, fun p => .of_idle (rest.threads p)⟩
  obtain ⟨-, one⟩ := run.inv OneAtATime (fun mem one e => one.exec (seq _ mem) e) start
  exact ⟨fun x mem => (one x mem).allocatesAlone, fun x mem => (one x mem).pushesCurrent x.op⟩

end OneAtATime

/-! ## The time of a cell -/

/-- A call of `fof_queue_add` has stored its time in the cell. -/
def Touched (q : FofQueue α) (c : Addr) : Prop := (q.payload c).1 ≠ 0

instance (q : FofQueue α) : DecidablePred (Touched q) := fun _ => inferInstanceAs (Decidable (_ ≠ _))

/-- The cell that a call has allocated and not filled yet. -/
def AddPc.unfilled : AddPc → Option Addr
  | .alloc (.clear fof) => some fof
  | .fill fof => some fof
  | _ => none

section Payload

variable {q q' : FofQueue α} {s s' : Machine α} {act : Act α} {ev : Ev α}

/-- The controller stores no events. -/
lemma ctrlStep_payload {ctrl ctrl' : CtrlClient} {cpc cpc' : CtrlPc}
    (e : ctrlStep q ctrl cpc = some (ev, cpc', ctrl', q')) : q'.payload = q.payload := by
  cases ctrlStep_cases e with
  | flush step =>
    cases step with
    | push push => exact (pushStep_sameCache push).payload
    | pushed push => exact (pushStep_sameCache push).payload
    | _ => rfl
  | flushed step =>
    cases step with
    | resetCheck => rfl
  | give push => exact (pushStep_sameCache push).payload
  | given push => exact (pushStep_sameCache push).payload
  | _ => rfl

/-- Events are stored by `set_fof` only. -/
lemma exec_payload (e : s.exec act = some (ev, s')) :
    s'.q.payload = s.q.payload ∨ ∃ p fof, act = .step p ∧ (s.thread p).pc = .fill fof ∧
      s'.q.payload =
        Function.update s.q.payload fof ((s.thread p).timeUs, (s.thread p).argv) := by
  cases Machine.executed e with
  | @step p ev pc q step =>
    cases addStep_writes step with
    | @fill fof pc => exact .inr ⟨p, fof, rfl, pc, payload_setFof ..⟩
    | slot => exact .inl rfl
    | frame => exact .inl rfl
    | lists _ _ same => exact .inl same.payload
  | ctrlStep step => exact .inl (ctrlStep_payload step)
  | _ => exact .inl rfl

end Payload

/-! ## The mark -/

/-- What holds in every state: the free list is marked with `mark`, and the cells that are not on it
    have a time, or are about to get one. -/
structure WaterInv (M mark : Nat) (s : Machine α) (L : Loc → List Addr) : Prop where
  lists : ExcessInv (List.range M) s L
  marked : Marked (Touched s.q) M mark (L (.place .free))
  timed : ∀ p, (s.thread p).pc ≠ .idle → 0 < (s.thread p).timeUs
  used : ∀ c, c < M → c ∉ L (.place .free) →
    Touched s.q c ∨ ∃ p, (s.thread p).pc.unfilled = some c

section Step

variable {M mark : Nat} {s s' : Machine α} {L : Loc → List Addr} {act : Act α} {ev : Ev α} {c : Addr}

lemma AddPc.unfilled_mem {pc : AddPc} (e : pc.unfilled = some c) : c ∈ pc.cells := by
  cases pc with
  | alloc apc =>
    cases apc with
    | clear fof =>
      cases e
      exact List.mem_cons_self
    | _ => cases e
  | fill fof =>
    cases e
    exact List.mem_cons_self
  | _ => cases e

/-- The free list has no cell twice, and all its cells are of the pool. -/
lemma ConcInv.length_free (inv : ConcInv (List.range M) s L) : (L (.place .free)).length ≤ M := by
  have le := inv.lists.part.length_le (.place .free)
  rwa [List.length_range] at le

lemma ConcInv.offFree_eq (inv : ConcInv (List.range M) s L) :
    offFree M s.q = M - (L (.place .free)).length := by
  have walked := inv.free_list.walk_eq inv.length_free
  rw [offFree, walked]
  have on : ((List.range M).filter fun c => c ∈ L (.place .free)).Perm (L (.place .free)) := by
    rw [List.perm_ext_iff_of_nodup (List.nodup_range.filter _) (inv.lists.part.nodup _)]
    intro c
    rw [List.mem_filter, decide_eq_true_iff]
    exact ⟨fun mem => mem.2, fun mem => ⟨inv.lists.part.mem_cells mem, mem⟩⟩
  have split := List.length_eq_length_filter_add (l := List.range M) fun c => c ∈ L (.place .free)
  rw [on.length_eq, List.length_range] at split
  simp only [decide_not] at split ⊢
  exact Nat.eq_sub_of_add_eq' split.symm

lemma mem_of_own {p : Nat} (inv : ConcInv (List.range M) s L)
    (e : (s.thread p).pc.unfilled = some c) : c ∈ L (.own p) := by
  rw [inv.own p]
  exact AddPc.unfilled_mem e

/-- The cells of the free list keep their times. -/
lemma ConcInv.touched_free (inv : ConcInv (List.range M) s L) (e : s.exec act = some (ev, s'))
    (mem : c ∈ L (.place .free)) : Touched s'.q c ↔ Touched s.q c := by
  rw [Touched, Touched]
  obtain same | ⟨p, fof, -, pc, same⟩ := exec_payload e
  · rw [same]
  · have ne : c ≠ fof := by
      rintro rfl
      have own : c ∈ L (.own p) := mem_of_own inv (by rw [pc]; rfl)
      cases inv.lists.part.disjoint own mem
    rw [same, Function.update_of_ne ne]

/-- A cell that has a time keeps one. -/
lemma WaterInv.touched (inv : WaterInv M mark s L) (e : s.exec act = some (ev, s'))
    (touched : Touched s.q c) : Touched s'.q c := by
  rw [Touched]
  obtain same | ⟨p, fof, -, pc, same⟩ := exec_payload e
  · rw [same]
    exact touched
  · have pos := inv.timed p (by rw [pc]; simp)
    rw [same]
    by_cases eq : c = fof
    · subst eq
      rw [Function.update_self]
      exact Nat.ne_of_gt pos
    · rw [Function.update_of_ne eq]
      exact touched

/-- A thread pushes no cell that it has not filled. -/
lemma WaterInv.own_touched {k : Loc} (inv : WaterInv M mark s L) (mem : c ∈ L k)
    (ne : k ≠ .place .free) (filled : ∀ p, k = .own p → (s.thread p).pc.unfilled = none) :
    Touched s.q c := by
  have part := inv.lists.conc.lists.part
  have lt : c < M := List.mem_range.1 (part.mem_cells mem)
  obtain touched | ⟨p, unfilled⟩ := inv.used c lt (part.notMem mem ne)
  · exact touched
  · have own := part.disjoint mem (mem_of_own inv.lists.conc unfilled)
    rw [filled p own] at unfilled
    cases unfilled

/-- What an event does to the free list. -/
lemma moved_free {who : Loc} (priv : ∀ i, who ≠ .place i) (ev : Ev α) :
    (ev.moved who L (.place .free) = L (.place .free) ∧ ∀ c, ev ≠ .allocated c) ∨
    (ev.moved who L (.place .free) = (L (.place .free)).tail ∧ ∃ c, ev = .allocated c) ∨
    (ev.moved who L (.place .free) = L who ++ L (.place .free) ∧
      ((∃ c, ev = .late c) ∨ ∃ c, ev = .released c)) := by
  have ne := (priv .free).symm
  cases ev with
  | allocated fof => exact .inr (.inl ⟨by simp [Ev.moved, Function.update_of_ne ne], fof, rfl⟩)
  | late fof => exact .inr (.inr ⟨by simp [Ev.moved], .inl ⟨fof, rfl⟩⟩)
  | released fof => exact .inr (.inr ⟨by simp [Ev.moved], .inr ⟨fof, rfl⟩⟩)
  | _ => exact .inl ⟨by simp [Ev.moved, Function.update_of_ne, ne], by simp⟩

/-- A thread that gives cells back has filled them. -/
lemma ConcInv.filled_of_back {cells : List Addr} {p : Nat} (inv : ConcInv cells s L)
    (reg : Regular s act) (e : s.exec act = some (ev, s'))
    (back : (∃ c, ev = .late c) ∨ ∃ c, ev = .released c) (who : act.who = .own p) :
    (s.thread p).pc.unfilled = none := by
  cases Machine.executed e with
  | call => rcases back with ⟨c, h⟩ | ⟨c, h⟩ <;> cases h
  | step step =>
    cases who
    cases addStep_effect inv.nSlots (inv.threads p) (fun pc => reg.fresh p pc rfl) step with
    | write keeps => rcases back with ⟨c, rfl⟩ | ⟨c, rfl⟩ <;> exact absurd keeps id
    | @free fof ppc pc =>
      rw [pc]
      rfl
    | _ => rcases back with ⟨c, h⟩ | ⟨c, h⟩ <;> cases h
  | _ => cases who

/-- The mark after a regular step. -/
lemma WaterInv.marked_step (inv : WaterInv M mark s L) (reg : Regular s act)
    (e : s.exec act = some (ev, s')) :
    Marked (Touched s'.q) M (max mark (M - (ev.moved act.who L (.place .free)).length))
      (ev.moved act.who L (.place .free)) := by
  have conc := inv.lists.conc
  have marked : Marked (Touched s'.q) M mark (L (.place .free)) :=
    inv.marked.congr fun c mem => conc.touched_free e mem
  have free := moved_free (L := L) (who_ne_place act) ev
  obtain ⟨same, -⟩ | ⟨popped, c, rfl⟩ | ⟨pushed, back⟩ := free
  · rw [same, Nat.max_eq_left marked.missing_le]
    exact marked
  · obtain ⟨-, -, -, head⟩ := conc.of_allocated reg e
    rw [popped]
    cases list : L (.place .free) with
    | nil =>
      rw [list] at head
      cases head
    | cons c r =>
      rw [list] at marked
      exact marked.pop
  · have pushed_used : ∀ c ∈ L act.who, Touched s'.q c := by
      intro c mem
      apply inv.touched e
      apply inv.own_touched mem (who_ne_place act .free)
      exact fun p who => conc.filled_of_back reg e back who
    rw [pushed]
    have marked := marked.push pushed_used
    rw [Nat.max_eq_left marked.missing_le]
    exact marked

/-- A cell that waits for its time waits on, or gets it now. -/
lemma WaterInv.unfilled_step {p : Nat} (inv : WaterInv M mark s L) (reg : Regular s act)
    (e : s.exec act = some (ev, s')) (unfilled : (s.thread p).pc.unfilled = some c) :
    Touched s'.q c ∨ ∃ p, (s'.thread p).pc.unfilled = some c := by
  have framed := inv.lists.conc.framed reg e
  by_cases own : act.who = .own p
  · cases Machine.executed e with
    | call idle =>
      cases own
      rw [idle] at unfilled
      cases unfilled
    | @step _ _ pc' q' step =>
      cases own
      cases epc : (s.thread p).pc with
      | alloc apc =>
        rw [epc] at step unfilled
        cases apc with
        | clear fof =>
          cases unfilled
          cases step
          refine .inr ⟨p, ?_⟩
          rw [setThread_self]
          rfl
        | _ => cases unfilled
      | fill fof =>
        have pos := inv.timed p (by rw [epc]; simp)
        rw [epc] at step unfilled
        cases unfilled
        cases step
        refine .inl ?_
        show ((setFof s.q c (s.thread p).timeUs (s.thread p).argv).payload c).1 ≠ 0
        rw [payload_setFof, Function.update_self]
        exact Nat.ne_of_gt pos
      | _ =>
        rw [epc] at unfilled
        cases unfilled
    | _ => cases own
  · refine .inr ⟨p, ?_⟩
    rw [framed.thread p own]
    exact unfilled

/-- A cell that is not on the free list after a regular step. -/
lemma WaterInv.used_step (inv : WaterInv M mark s L) (reg : Regular s act)
    (e : s.exec act = some (ev, s')) (lt : c < M) (nm : c ∉ ev.moved act.who L (.place .free)) :
    Touched s'.q c ∨ ∃ p, (s'.thread p).pc.unfilled = some c := by
  have conc := inv.lists.conc
  by_cases mem : c ∈ L (.place .free)
  · -- it has just been popped
    have popped : ev = .allocated c := by
      by_contra ne
      exact nm (conc.mem_free reg e mem ne)
    subst popped
    obtain ⟨p, rfl, pc, -⟩ := conc.of_allocated reg e
    cases Machine.executed e with
    | step step =>
      rw [pc] at step
      simp only [addStep, allocStep] at step
      split at step <;> cases step
      refine .inr ⟨p, ?_⟩
      rw [setThread_self]
      rfl
  · obtain touched | ⟨p, unfilled⟩ := inv.used c lt mem
    · exact .inl (inv.touched e touched)
    · exact inv.unfilled_step reg e unfilled

lemma WaterInv.timed_step (inv : WaterInv M mark s L) (timed : act.Timed)
    (e : s.exec act = some (ev, s')) (p : Nat) (busy : (s'.thread p).pc ≠ .idle) :
    0 < (s'.thread p).timeUs := by
  revert busy
  cases Machine.executed e with
  | @call p' timeUs argv idle =>
    exact setThread_forall (P := fun _ t => t.pc ≠ .idle → 0 < t.timeUs) s p'
      ⟨timeUs, argv, .alloc .load⟩ (fun _ => timed p' timeUs argv rfl)
      (fun i _ => inv.timed i) p
  | @step p' ev pc q step =>
    exact setThread_forall (P := fun _ t => t.pc ≠ .idle → 0 < t.timeUs) { s with q := q } p'
      { s.thread p' with pc := pc } (fun _ => inv.timed p' (addStep_busy step))
      (fun i _ => inv.timed i) p
  | _ => exact inv.timed p

/-- A step of a run raises the mark to what is missing after it. -/
lemma WaterInv.step {x : Step α} {log : List (Step α)} (inv : WaterInv M mark x.pre L)
    (ok : ExcessRun (x :: log)) (timed : x.op.Timed) (e : x.pre.exec x.op = some (x.out, s')) :
    ∃ L', WaterInv M (max mark (offFree M s'.q)) s' L' := by
  have alone : AllocatesAlone x.pre := ok.alone _ List.mem_cons_self
  have current : PushesCurrent x.pre x.op := ok.current _ List.mem_cons_self
  by_cases takes : TakesExcess x.pre x.op
  · obtain ⟨-, -, lists⟩ := inv.lists.take takes e
    have kept : Function.update (Function.update L (.place .excess) []) .ctrl
        (L (.place .excess)) (.place .free) = L (.place .free) := by
      rw [Function.update_of_ne (ctrl_ne_place _).symm, Function.update_of_ne (by simp)]
    have threads : s'.thread = x.pre.thread := by
      obtain ⟨act, -⟩ := takes
      rw [act] at e
      cases Machine.executed e
      rfl
    rw [lists.conc.offFree_eq, kept, Nat.max_eq_left inv.marked.missing_le]
    refine ⟨_, lists, ?_, inv.timed_step timed e, fun c lt nm => ?_⟩
    · rw [kept]
      exact inv.marked.congr fun c mem => inv.lists.conc.touched_free e mem
    · rw [kept] at nm
      rw [threads]
      obtain touched | unfilled := inv.used c lt nm
      · exact .inl (inv.touched e touched)
      · exact .inr unfilled
  · have reg := inv.lists.regular takes
    have lists := inv.lists.exec reg alone current e
    rw [lists.conc.offFree_eq]
    exact ⟨_, lists, inv.marked_step reg e, inv.timed_step timed e,
      fun c lt nm => inv.used_step reg e lt nm⟩

end Step

/-! ## Whole runs -/

section Runs

variable {M : Nat} {s s' : Machine α} {L : Loc → List Addr} {log : List (Step α)} {q : FofQueue α}

@[simp] lemma highWater_snoc (M : Nat) (states : List (Machine α)) (s : Machine α) :
    highWater M (states ++ [s]) = max (highWater M states) (offFree M s.q) := by
  rw [highWater, List.foldl_append]
  rfl

lemma WaterInv.run (run : Run Machine.exec s log s') (ok : ExcessRun log)
    (timed : ∀ x ∈ log, x.op.Timed) (inv : WaterInv M (highWater M [s]) s L) :
    ∃ L', WaterInv M (highWater M (visited log s')) s' L' := by
  refine run.inv_log (fun log s => ∃ L, WaterInv M (highWater M (visited log s)) s L) ?_ ⟨L, inv⟩
  rintro l x s1 mem ⟨L1, inv1⟩ e
  have ok1 : ExcessRun [x] :=
    ⟨fun y memy => by rw [List.mem_singleton.1 memy]; exact ok.alone x mem,
      fun y memy => by rw [List.mem_singleton.1 memy]; exact ok.current x mem⟩
  rw [visited, List.map_append, highWater_snoc]
  exact inv1.step ok1 (timed x mem) e

/-- The loop counts the cells up to the first one without a time. -/
lemma countUsed_eq {fuel n : Nat} {h : Option Addr} {l : List Addr} (sg : Seg q.next h l none)
    (len : l.length ≤ fuel) :
    countUsed q fuel h n = some (n + (l.takeWhile (Touched q)).length) := by
  induction l generalizing h fuel n with
  | nil =>
    rw [Seg.nil_iff] at sg
    subst sg
    cases fuel <;> rfl
  | cons c l ih =>
    rw [Seg.cons_iff] at sg
    obtain ⟨rfl, sg⟩ := sg
    cases fuel with
    | zero => cases len
    | succ fuel =>
      rw [countUsed]
      split
      case isTrue zero =>
        have untouched : ¬ Touched q c := fun touched => touched zero
        rw [List.takeWhile_cons, decide_eq_false untouched]
        rfl
      case isFalse pos =>
        have touched : Touched q c := pos
        rw [List.takeWhile_cons, decide_eq_true touched, ih sg (Nat.le_of_succ_le_succ len),
          Nat.add_assoc, Nat.add_comm 1]
        rfl

lemma linkFofs_payload (q : FofQueue α) (fof n : Nat) : (linkFofs q fof n).payload = q.payload := by
  induction n generalizing q fof with
  | zero => exact payload_setNext ..
  | succ n ih => exact (ih ..).trans (payload_setNext ..)

/-- `fof_queue_init` stores no events. -/
lemma fofQueueInit_payload (q : FofQueue α) (setup : Setup) :
    (fofQueueInit q setup).payload = q.payload := by
  unfold fofQueueInit
  extract_lets q0
  rw [linkFofs_payload, (clearSlots_spec q0 q0.nSlots).2]
  rfl

lemma waterInv_init {setup : Setup} (nMaxFofs : 1 ≤ setup.nMaxFofs) (nSlots : 1 ≤ setup.nSlots)
    (argv : α) :
    WaterInv setup.nMaxFofs (highWater setup.nMaxFofs [Machine.init setup (FofQueue.zero argv) argv])
      (Machine.init setup (FofQueue.zero argv) argv) (restLists (initLists setup.nMaxFofs)) := by
  have lists := excessInv_init nMaxFofs nSlots (FofQueue.zero argv) argv
  have all : (restLists (initLists setup.nMaxFofs) (.place .free)).length = setup.nMaxFofs :=
    List.length_range
  have none_off : highWater setup.nMaxFofs [Machine.init setup (FofQueue.zero argv) argv] = 0 := by
    show max 0 (offFree _ _) = 0
    rw [lists.conc.offFree_eq, all, Nat.sub_self]
    rfl
  refine ⟨lists, ?_, fun p busy => absurd rfl busy, fun c lt nm => ?_⟩
  · have fresh : Marked (Touched (Machine.init setup (FofQueue.zero argv) argv).q)
        (restLists (initLists setup.nMaxFofs) (.place .free)).length 0
        (restLists (initLists setup.nMaxFofs) (.place .free)) := by
      refine .fresh fun c _ touched => touched ?_
      show ((fofQueueInit (FofQueue.zero argv) setup).payload c).1 = 0
      rw [fofQueueInit_payload]
      rfl
    rw [all] at fresh
    rw [none_off]
    exact fresh
  · exact absurd (List.mem_range.2 lt) nm

/-- In every sequential run from zeroed memory, `max_used_free_list` reports the largest number of cells
    that have been off the free list at a time, less those that are off it now. -/
theorem max_used_high_water {setup : Setup} (nMaxFofs : 1 ≤ setup.nMaxFofs)
    (nSlots : 1 ≤ setup.nSlots) (argv : α) (acts : List (Act α)) {log : List (Step α)}
    {s : Machine α}
    (run : execAll Machine.exec (Machine.init setup (FofQueue.zero argv) argv) acts = some (log, s))
    (seq : Sequential log) (timed : ∀ act ∈ acts, act.Timed) :
    (∃ n, maxUsedFreeList setup.nMaxFofs (some s.q) = some n ∧
      n + offFree setup.nMaxFofs s.q = highWater setup.nMaxFofs (visited log s)) ∧
    (offFree setup.nMaxFofs s.q = 0 → maxUsedFreeList setup.nMaxFofs (some s.q) =
      some (highWater setup.nMaxFofs (visited log s))) := by
  have timed := forall_op_of_execAll run timed
  have run := (run_of_execAll run).1
  have rest : AtRest (Machine.init setup (FofQueue.zero argv) argv) := ⟨fun _ => rfl, rfl⟩
  obtain ⟨L, inv⟩ := WaterInv.run run (seq.excessRun rest run) timed
    (waterInv_init nMaxFofs nSlots argv)
  have conc := inv.lists.conc
  have counted : maxUsedFreeList setup.nMaxFofs (some s.q) =
      some (highWater setup.nMaxFofs (visited log s) - offFree setup.nMaxFofs s.q) := by
    rw [maxUsedFreeList, countUsed_eq conc.free_list conc.length_free, Nat.zero_add,
      inv.marked.takeWhile_length conc.length_free, conc.offFree_eq]
  refine ⟨⟨_, counted, ?_⟩, fun all_free => ?_⟩
  · rw [conc.offFree_eq]
    exact Nat.sub_add_cancel inv.marked.missing_le
  · rw [counted, all_free, Nat.sub_zero]

end Runs

/-- Thread 0 puts both cells on the excess list, a flush frees them, and the thread allocates one
    again. -/
def twoThenOne : List (Act Unit) :=
  farCall 9 ++ farCall 9 ++ .flush :: List.replicate 11 .ctrlStep ++ farCall 9

/-- At the end of `twoThenOne` one cell is off the free list, and the report is one below the mark. -/
theorem max_used_high_water_two :
    ∃ log s, execAll Machine.exec (Machine.init (twoSlots 2) (FofQueue.zero ()) ()) twoThenOne =
        some (log, s) ∧
      offFree 2 s.q = 1 ∧ highWater 2 (visited log s) = 2 ∧ maxUsedFreeList 2 (some s.q) = some 1 := by
  have single : ∀ x ∈ twoThenOne, x.single 0 := by decide
  have timed : ∀ x ∈ twoThenOne, x.Timed := by
    rintro x mem p timeUs argv rfl
    simp only [twoThenOne, farCall, List.mem_append, List.mem_cons, List.mem_replicate] at mem
    have nine : p = 0 ∧ timeUs = 9 := by simpa using mem
    rw [nine.2]
    decide
  cases run : execAll Machine.exec (Machine.init (twoSlots 2) (FofQueue.zero ()) ()) twoThenOne with
  | none => exact absurd run (by decide)
  | some r =>
    obtain ⟨log, s⟩ := r
    have single := forall_op_of_execAll run single
    obtain ⟨-, idle⟩ := idle_of_single (run_of_execAll run).1 single fun _ _ => rfl
    have begins : ∀ x ∈ log, x.op.starts = true →
        (x.pre.thread 0).pc = .idle ∧ x.pre.cpc = .idle := by
      cases Option.some.inj (run.symm.trans rfl)
      decide
    have seq : Sequential log := fun x mem starts =>
      .of_single (idle x mem) (begins x mem starts).1 (begins x mem starts).2
    have off : offFree 2 s.q = 1 ∧ highWater 2 (visited log s) = 2 := by
      cases Option.some.inj (run.symm.trans rfl)
      decide +kernel
    obtain ⟨⟨n, e, sum⟩, -⟩ := max_used_high_water (by decide) (by decide) () _ run seq timed
    refine ⟨log, s, rfl, off.1, off.2, e.trans ?_⟩
    have sum : n + offFree 2 s.q = highWater 2 (visited log s) := sum
    rw [off.1, off.2] at sum
    exact congrArg some (Nat.succ.inj sum)

end JackFofs
