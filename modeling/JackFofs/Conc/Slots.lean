import JackFofs.Conc.Flow
import JackFofs.Conc.Invariant

/-!
# The slot protocol

Producers push cells on the slots, the controller takes whole slots and frees them, and at most one
call of `fof_queue_allocate_fof` is under way at a time. Then the cell that a pop installs is
current: between the load of the head and the compare-exchange the free list only grows, so the cell
loaded stays on it and nobody writes its `next` field. No cell is lost or in two places
(`slot_protocol`), and a cell that was linked into a slot is taken out by exactly one exchange before
it is allocated again.
-/

namespace JackFofs
open Linked Runs

variable {α : Type}

/-- Thread `p` has made the first step of a call of `fof_queue_allocate_fof` and not the last one. -/
def InAllocate (s : Machine α) (p : Nat) : Prop :=
  ∃ pc, (s.thread p).pc = .alloc pc ∧ pc ≠ .load

/-- No two calls of `fof_queue_allocate_fof` overlap. -/
def AllocatesAlone (s : Machine α) : Prop :=
  ∀ p p', InAllocate s p → InAllocate s p' → p = p'

/-- The start frames of the calls under way are inside the window of the ring, or late. -/
def InWindow (s : Machine α) : Prop :=
  ∀ p, (s.thread p).pc ≠ .idle →
    startFrame s.q (s.thread p).timeUs < s.q.nextFrame + s.q.nSlots * s.q.bufferSize

/-- A call of `fof_queue_allocate_fof` that has loaded a cell: the cell is still free, and the value
    read from its `next` field is still there. -/
def AllocOk (q : FofQueue α) (free : List Addr) : AddPc → Prop
  | .alloc (.read fof) => fof ∈ free
  | .alloc (.cas fof next) => fof ∈ free ∧ q.next fof = next
  | _ => True

/-- What holds in every state if allocations do not overlap and nothing is put on the excess list. -/
structure SlotInv (cells : List Addr) (s : Machine α) (L : Loc → List Addr) : Prop where
  conc : ConcInv cells s L
  excess : s.q.excess = none
  excess_nil : L (.place .excess) = []
  noExcess : ∀ p fof pc, (s.thread p).pc ≠ .excess fof pc
  allocs : ∀ p, AllocOk s.q (L (.place .free)) (s.thread p).pc

/-- A single producer does not overlap with itself. -/
lemma AllocatesAlone.of_single {s : Machine α} {p : Nat}
    (idle : ∀ i, i ≠ p → (s.thread i).pc = .idle) : AllocatesAlone s := by
  have eq (i : Nat) (inside : InAllocate s i) : i = p := by
    by_contra ne
    obtain ⟨pc, e, -⟩ := inside
    rw [idle i ne] at e
    cases e
  exact fun i i' inside inside' => (eq i inside).trans (eq i' inside').symm

/-- With a single producer the window is about its call only. -/
lemma InWindow.of_single {s : Machine α} {p : Nat} (idle : ∀ i, i ≠ p → (s.thread i).pc = .idle)
    (window : startFrame s.q (s.thread p).timeUs < s.q.nextFrame + s.q.nSlots * s.q.bufferSize) :
    InWindow s := by
  intro i busy
  by_cases e : i = p
  · subst e
    exact window
  · exact absurd (idle i e) busy

/-! ## Where a cell goes -/

section Moved

variable {who : Loc} {L : Loc → List Addr} {ev : Ev α} {c : Addr} {j : Nat}

/-- A cell leaves its slot only by an exchange of this slot. -/
lemma mem_moved_slot (priv : ∀ i, who ≠ .place i) (mem : c ∈ L (.place (.slot j)))
    (take : ∀ n head, ev ≠ .took n j head) : c ∈ ev.moved who L (.place (.slot j)) := by
  have ne := (priv (.slot j)).symm
  cases ev with
  | linked fof slot =>
    by_cases e : j = slot
    · subst e
      simp [Ev.moved, mem]
    · simp [Ev.moved, Function.update_of_ne, ne, e, mem]
  | took n slot head =>
    have nj : j ≠ slot := fun e => take n head (e ▸ rfl)
    simp [Ev.moved, Function.update_of_ne, ne, nj, mem]
  | _ => simp [Ev.moved, Function.update_of_ne, ne, mem]

/-- A free cell stays free unless it is allocated. -/
lemma mem_moved_free (priv : ∀ i, who ≠ .place i) (mem : c ∈ L (.place .free))
    (head : ∀ fof, ev = .allocated fof → (L (.place .free)).head? = some fof)
    (alloc : ev ≠ .allocated c) : c ∈ ev.moved who L (.place .free) := by
  have ne := (priv .free).symm
  cases ev with
  | allocated fof =>
    have head := head fof rfl
    have nc : c ≠ fof := fun e => alloc (e ▸ rfl)
    cases el : L (.place .free) with
    | nil =>
      rw [el] at mem
      exact absurd mem List.not_mem_nil
    | cons a r =>
      rw [el] at head mem
      cases head
      have memr : c ∈ r := (List.mem_cons.1 mem).resolve_left nc
      simp [Ev.moved, Function.update_of_ne, ne, el, memr]
  | late fof => simp [Ev.moved, mem]
  | released fof => simp [Ev.moved, mem]
  | _ => simp [Ev.moved, Function.update_of_ne, ne, mem]

/-- The excess list grows by the excess branch only. -/
lemma moved_excess (priv : ∀ i, who ≠ .place i) (no : ∀ fof, ev ≠ .excess fof) :
    ev.moved who L (.place .excess) = L (.place .excess) := by
  have ne := (priv .excess).symm
  cases ev with
  | excess fof => exact absurd rfl (no fof)
  | _ => simp [Ev.moved, Function.update_of_ne, ne]

end Moved

lemma who_ne_place (act : Act α) (i : Place) : act.who ≠ .place i := by
  intro e
  cases act <;> cases e

/-! ## The step -/

section Step

variable {cells : List Addr} {s s' : Machine α} {L : Loc → List Addr} {ev : Ev α} {act : Act α}

lemma recalculatePc_window {q : FofQueue α} {fof fof' : Addr} {t : Nat} {epc : ExcessPc}
    (window : t < q.nextFrame + q.nSlots * q.bufferSize) :
    recalculatePc q fof t q.nextFrame ≠ .excess fof' epc := by
  obtain ⟨-, e⟩ | ⟨le, big, -⟩ | ⟨-, -, e⟩ := recalculatePc_cases q fof t q.nextFrame
  · rw [e]
    exact fun h => nomatch h
  · exact absurd (slotIndex_window window le) (Int.not_lt.2 big)
  · rw [e]
    exact fun h => nomatch h

/-- A call whose event is in the window does not get to the excess branch. -/
lemma AddFlow.not_excess {q : FofQueue α} {t : Nat} {pc pc' : AddPc} (flow : AddFlow q t pc pc')
    (window : t < q.nextFrame + q.nSlots * q.bufferSize) (no : ∀ fof epc, pc ≠ .excess fof epc)
    (fof : Addr) (epc : ExcessPc) : pc' ≠ .excess fof epc := by
  cases flow with
  | calculate => exact recalculatePc_window window
  | recalculate => exact recalculatePc_window window
  | excess => exact absurd rfl (no _ _)
  | _ => exact fun h => nomatch h

/-- A call whose value for `fof->next` is still there does not pop a stale value. -/
lemma AllocOk.fresh {q : FofQueue α} {free : List Addr} {pc : AddPc} {apc : AllocPc}
    (ok : AllocOk q free pc) (epc : pc = .alloc apc) : ¬ staleCas q apc := by
  subst epc
  intro stale
  cases apc with
  | cas fof next =>
    obtain ⟨-, next⟩ := ok
    simp [staleCas, next] at stale
  | load => cases stale
  | read fof => cases stale
  | clear fof => cases stale

/-- Nothing that the machine does under these conditions is irregular. -/
lemma SlotInv.regular (inv : SlotInv cells s L) (act : Act α) : Regular s act :=
  ⟨fun p _ _ epc => (inv.allocs p).fresh epc, fun _ _ _ => inv.excess⟩

lemma SlotInv.not_excess (inv : SlotInv cells s L) (e : s.exec act = some (ev, s')) (fof : Addr) :
    ev ≠ .excess fof := by
  rintro rfl
  obtain ⟨p, -, pc⟩ := inv.conc.of_excess (inv.regular act) e
  exact inv.noExcess p fof .push pc

/-- What the call of `fof_queue_allocate_fof` of a thread relies on survives the steps of the others:
    they write only their own cells and take none off the free list. -/
lemma AllocOk.frame {q q' : FofQueue α} {free free' : List Addr} {pc : AddPc} (ok : AllocOk q free pc)
    (sub : ∀ c ∈ free, c ∈ free') (next : ∀ c ∈ free, q'.next c = q.next c) : AllocOk q' free' pc := by
  cases pc with
  | alloc apc =>
    cases apc with
    | read fof => exact sub fof ok
    | cas fof nx => exact ⟨sub fof ok.1, (next fof ok.1).trans ok.2⟩
    | load => trivial
    | clear fof => trivial
  | _ => trivial

lemma allocOk_recalculatePc {q q' : FofQueue α} {free : List Addr} {fof : Addr} {t nextFrame : Nat} :
    AllocOk q' free (recalculatePc q fof t nextFrame) := by
  obtain ⟨-, e⟩ | ⟨-, -, e⟩ | ⟨-, -, e⟩ := recalculatePc_cases q fof t nextFrame <;> rw [e] <;>
    exact trivial

/-- The step of a thread in its own call of `fof_queue_allocate_fof`. -/
lemma AllocOk.step {q q' : FofQueue α} {free free' : List Addr} {t : Nat} {pc pc' : AddPc}
    (ok : AllocOk q free pc) (head : q.freeFofs = free.head?) (flow : AddFlow q t pc pc')
    (keep : ∀ fof, pc' = .alloc (.read fof) ∨ pc = .alloc (.read fof) → fof ∈ free → fof ∈ free')
    (next : ∀ fof, pc = .alloc (.read fof) → q'.next fof = q.next fof) : AllocOk q' free' pc' := by
  cases flow with
  | @loaded fof eh =>
    have mem : fof ∈ free := List.mem_of_mem_head? (head.symm.trans eh)
    exact keep fof (.inl rfl) mem
  | @read fof => exact ⟨keep fof (.inr rfl) ok, next fof rfl⟩
  | calculate => exact allocOk_recalculatePc
  | recalculate => exact allocOk_recalculatePc
  | _ => trivial

/-- Outside of `fof_queue_allocate_fof` a call relies on nothing there. -/
lemma AllocOk.of_outside {q : FofQueue α} {free : List Addr} {p : Nat} (out : ¬ InAllocate s p) :
    AllocOk q free (s.thread p).pc := by
  cases pc : (s.thread p).pc with
  | alloc apc =>
    cases apc with
    | read fof => exact absurd ⟨_, pc, fun h => nomatch h⟩ out
    | cas fof next => exact absurd ⟨_, pc, fun h => nomatch h⟩ out
    | load => trivial
    | clear fof => trivial
  | _ => trivial

lemma ConcInv.mem_free (inv : ConcInv cells s L) (reg : Regular s act)
    (e : s.exec act = some (ev, s')) {c : Addr} (mem : c ∈ L (.place .free))
    (alloc : ev ≠ .allocated c) : c ∈ ev.moved act.who L (.place .free) := by
  refine mem_moved_free (who_ne_place act) mem ?_ alloc
  rintro fof rfl
  obtain ⟨-, -, -, head⟩ := inv.of_allocated reg e
  exact head

/-- If allocations do not overlap, every regular step keeps what they rely on. -/
lemma ConcInv.allocs_exec (inv : ConcInv cells s L) (reg : Regular s act)
    (allocs : ∀ p, AllocOk s.q (L (.place .free)) (s.thread p).pc) (alone : AllocatesAlone s)
    (e : s.exec act = some (ev, s')) (p : Nat) :
    AllocOk s'.q (ev.moved act.who L (.place .free)) (s'.thread p).pc := by
  have framed := inv.framed reg e
  have next {c : Addr} (mem : c ∈ L (.place .free)) : s'.q.next c = s.q.next c :=
    next_eq_of_fof (framed.fof c (inv.lists.part.notMem mem (who_ne_place act .free).symm))
  by_cases own : act.who = .own p
  · cases Machine.executed e with
    | @call p' timeUs argv pc =>
      cases own
      rw [setThread_self]
      trivial
    | @step p' _ pc' q' step =>
      cases own
      rw [setThread_self]
      have flow := addStep_flow step
      have ok := allocs p
      have alloc (fof : Addr) (h : pc' = .alloc (.read fof) ∨ (s.thread p).pc = .alloc (.read fof)) :
          ev ≠ .allocated fof := by
        rintro rfl
        obtain ⟨p1, ep, pc, -⟩ := inv.of_allocated reg e
        cases ep
        rw [pc] at h flow
        obtain rfl | h := h
        · cases flow
        · cases h
      apply ok.step inv.free_list.head_eq flow (fun fof h mem => inv.mem_free reg e mem (alloc fof h))
      intro fof pc
      rw [pc] at ok
      exact next ok
    | _ => cases own
  · rw [framed.thread p own]
    -- a pop by another thread finds this one outside of `fof_queue_allocate_fof`
    by_cases inside : InAllocate s p
    · refine (allocs p).frame (fun c mem => inv.mem_free reg e mem ?_) fun c mem => next mem
      rintro rfl
      obtain ⟨p', rfl, pc, -⟩ := inv.of_allocated reg e
      have eq := alone p p' inside ⟨_, pc, fun h => nomatch h⟩
      exact own (eq ▸ rfl)
    · exact .of_outside inside

/-- Every step keeps the invariant. -/
lemma SlotInv.exec (inv : SlotInv cells s L) (alone : AllocatesAlone s) (window : InWindow s)
    (e : s.exec act = some (ev, s')) : SlotInv cells s' (ev.moved act.who L) := by
  have reg := inv.regular act
  constructor
  case conc => exact inv.conc.exec reg e
  case excess => exact (inv.conc.excess_eq reg e (inv.not_excess e)).trans inv.excess
  case excess_nil =>
    rw [moved_excess (who_ne_place act) (inv.not_excess e)]
    exact inv.excess_nil
  case noExcess =>
    intro p fof epc
    have same := inv.noExcess p fof epc
    have other {p' : Nat} {t : Thread α} {s1 : Machine α} (threads : s1.thread = s.thread)
        (pc : p = p' → t.pc ≠ .excess fof epc) : ((s1.setThread p' t).thread p).pc ≠ .excess fof epc := by
      by_cases eq : p = p'
      · subst eq
        rw [setThread_self]
        exact pc rfl
      · rw [setThread_of_ne _ _ _ eq, threads]
        exact same
    cases Machine.executed e with
    | call => exact other rfl fun _ h => nomatch h
    | @step p' _ pc' q' step =>
      apply other rfl
      intro eq
      subst eq
      have flow := addStep_flow step
      exact flow.not_excess (window p (addStep_busy step)) (inv.noExcess p) fof epc
    | _ => exact same
  case allocs => exact inv.conc.allocs_exec reg inv.allocs alone e

/-- The step is an exchange of slot `j`, and the list it takes contains the cell. -/
def Takes (x : Step α) (c : Addr) (j : Nat) : Prop :=
  ∃ n head l, x.out = .took n j head ∧ Seg x.pre.q.next head l none ∧ c ∈ l

/-- An exchange takes the list of the slot. -/
lemma ConcInv.takes_iff (inv : ConcInv cells s L) (reg : Regular s act) (e : s.exec act = some (ev, s'))
    {c : Addr} {j : Nat} : Takes ⟨s, act, ev⟩ c j ↔
      (∃ n head, ev = .took n j head) ∧ c ∈ L (.place (.slot j)) := by
  constructor
  · rintro ⟨n, head, l, rfl, sg, mem⟩
    obtain ⟨-, lt, rfl⟩ := inv.of_took reg e
    rw [← sg.unique (inv.slot_list lt)]
    exact ⟨⟨n, s.q.slot j, rfl⟩, mem⟩
  · rintro ⟨⟨n, head, rfl⟩, mem⟩
    obtain ⟨-, lt, rfl⟩ := inv.of_took reg e
    exact ⟨n, s.q.slot j, _, rfl, inv.slot_list lt, mem⟩

lemma SlotInv.takes_iff (inv : SlotInv cells s L) (e : s.exec act = some (ev, s')) {c : Addr}
    {j : Nat} : Takes ⟨s, act, ev⟩ c j ↔
      (∃ n head, ev = .took n j head) ∧ c ∈ L (.place (.slot j)) :=
  inv.conc.takes_iff (inv.regular act) e

/-- A cell that is not in a slot is not taken. -/
lemma SlotInv.not_takes (inv : SlotInv cells s L) (e : s.exec act = some (ev, s')) {c : Addr}
    {k : Loc} (mem : c ∈ L k) (ne : ∀ j, k ≠ .place (.slot j)) (j : Nat) :
    ¬ Takes ⟨s, act, ev⟩ c j := by
  intro takes
  exact ne j (inv.conc.lists.part.disjoint mem ((inv.takes_iff e).1 takes).2)

/-- A cell in a slot is taken, and then the controller has it, or it stays there. -/
lemma SlotInv.slot_step (inv : SlotInv cells s L) (e : s.exec act = some (ev, s')) {c : Addr}
    {j : Nat} (mem : c ∈ L (.place (.slot j))) :
    (Takes ⟨s, act, ev⟩ c j ∧ c ∈ ev.moved act.who L .ctrl) ∨
    ((∀ j', ¬ Takes ⟨s, act, ev⟩ c j') ∧ c ∈ ev.moved act.who L (.place (.slot j))) := by
  by_cases took : ∃ n head, ev = .took n j head
  · refine .inl ⟨(inv.takes_iff e).2 ⟨took, mem⟩, ?_⟩
    obtain ⟨n, head, rfl⟩ := took
    obtain ⟨rfl, -, -⟩ := inv.conc.of_took (inv.regular act) e
    rw [Ev.moved, Act.who, Function.update_self]
    exact List.mem_append_left _ mem
  · refine .inr ⟨fun j' takes => ?_, mem_moved_slot (who_ne_place act) mem fun n head h => took ⟨n, head, h⟩⟩
    obtain ⟨took', mem'⟩ := (inv.takes_iff e).1 takes
    cases inv.conc.lists.part.disjoint mem mem'
    exact took took'

/-- A cell that the controller has taken stays with it until it is free, and a free cell stays free
    until it is allocated. -/
lemma SlotInv.rest_step (inv : SlotInv cells s L) (e : s.exec act = some (ev, s')) {c : Addr}
    (mem : c ∈ L .ctrl ∨ c ∈ L (.place .free)) (alloc : ev ≠ .allocated c) :
    c ∈ ev.moved act.who L .ctrl ∨ c ∈ ev.moved act.who L (.place .free) := by
  obtain mem | mem := mem
  · by_cases own : act.who = .ctrl
    · cases Machine.executed e with
      | call => cases own
      | step => cases own
      | ctrlStep step =>
        cases ctrlStep_effect inv.conc.nSlots inv.conc.ctrl ((inv.regular .ctrlStep).noExcess rfl) step with
        | write keeps =>
          rw [moved_keeps keeps]
          exact .inl mem
        | take =>
          rw [Ev.moved, Act.who, Function.update_self]
          exact .inl (List.mem_append_right _ mem)
        | free =>
          rw [Ev.moved, Act.who, Function.update_self]
          exact .inr (List.mem_append_left _ mem)
      | _ => exact .inl mem
    · rw [moved_private (Ne.symm own) ctrl_ne_place]
      exact .inl mem
  · exact .inr (inv.conc.mem_free (inv.regular act) e mem alloc)

end Step

/-! ## Whole runs -/

section Runs

variable {cells : List Addr} {s s' : Machine α} {L : Loc → List Addr} {log : List (Step α)}
  {c : Addr} {j : Nat}

/-- The conditions of the slot protocol, on every state of a run. -/
structure SlotRun (log : List (Step α)) : Prop where
  alone : ∀ x ∈ log, AllocatesAlone x.pre
  window : ∀ x ∈ log, InWindow x.pre

lemma SlotRun.head {x : Step α} (ok : SlotRun (x :: log)) :
    AllocatesAlone x.pre ∧ InWindow x.pre :=
  ⟨ok.alone x List.mem_cons_self, ok.window x List.mem_cons_self⟩

lemma SlotRun.append {l1 l2 : List (Step α)} (ok : SlotRun (l1 ++ l2)) :
    SlotRun l1 ∧ SlotRun l2 := by
  obtain ⟨alone1, alone2⟩ := List.forall_mem_append.1 ok.alone
  obtain ⟨window1, window2⟩ := List.forall_mem_append.1 ok.window
  exact ⟨⟨alone1, window1⟩, ⟨alone2, window2⟩⟩

lemma SlotRun.tail {x : Step α} (ok : SlotRun (x :: log)) : SlotRun log := by
  have ok : SlotRun ([x] ++ log) := ok
  exact ok.append.2

lemma slot_run (run : Run Machine.exec s log s') (ok : SlotRun log) (inv : SlotInv cells s L) :
    ∃ L', SlotInv cells s' L' := by
  induction run generalizing L with
  | nil => exact ⟨L, inv⟩
  | cons e run ih => exact ih ok.tail (inv.exec ok.head.1 ok.head.2 e)

/-- A cell that is neither in a slot nor allocated is not taken. -/
lemma rest_run (run : Run Machine.exec s log s') (ok : SlotRun log) (inv : SlotInv cells s L)
    (alloc : ∀ x ∈ log, x.out ≠ .allocated c) (mem : c ∈ L .ctrl ∨ c ∈ L (.place .free)) :
    ∃ L', SlotInv cells s' L' ∧ (c ∈ L' .ctrl ∨ c ∈ L' (.place .free)) ∧
      ∀ x ∈ log, ∀ j, ¬ Takes x c j := by
  induction run generalizing L with
  | nil => exact ⟨L, inv, mem, fun x h => absurd h List.not_mem_nil⟩
  | @cons s s1 s' act ev log e run ih =>
    have mem1 := inv.rest_step e mem (alloc _ List.mem_cons_self)
    obtain ⟨L', inv', mem', none⟩ := ih ok.tail (inv.exec ok.head.1 ok.head.2 e)
      (fun x h => alloc x (List.mem_cons_of_mem _ h)) mem1
    refine ⟨L', inv', mem', fun x h j => ?_⟩
    cases h with
    | head =>
      obtain mem | mem := mem
      · exact inv.not_takes e mem (fun _ h => nomatch h) j
      · exact inv.not_takes e mem (fun _ h => nomatch h) j
    | tail _ h => exact none x h j

/-- Exactly one step of the log takes the cell, and it takes it out of slot `j`. -/
def TakenOnce (c : Addr) (j : Nat) (log : List (Step α)) : Prop :=
  ∃ l1 x l2, log = l1 ++ x :: l2 ∧ Takes x c j ∧ ∀ y ∈ l1 ++ l2, ∀ j', ¬ Takes y c j'

/-- A cell in a slot stays there until exactly one exchange takes it out. -/
lemma taken_run (run : Run Machine.exec s log s') (ok : SlotRun log) (inv : SlotInv cells s L)
    (alloc : ∀ x ∈ log, x.out ≠ .allocated c) (mem : c ∈ L (.place (.slot j))) :
    ∃ L', SlotInv cells s' L' ∧
      ((c ∈ L' (.place (.slot j)) ∧ ∀ x ∈ log, ∀ j', ¬ Takes x c j') ∨
      ((c ∈ L' .ctrl ∨ c ∈ L' (.place .free)) ∧ TakenOnce c j log)) := by
  induction run generalizing L with
  | nil => exact ⟨L, inv, .inl ⟨mem, fun x h => absurd h List.not_mem_nil⟩⟩
  | @cons s s1 s' act ev log e run ih =>
    have inv1 := inv.exec ok.head.1 ok.head.2 e
    have alloc1 : ∀ x ∈ log, x.out ≠ .allocated c := fun x h => alloc x (List.mem_cons_of_mem _ h)
    obtain ⟨takes, mem1⟩ | ⟨keeps, mem1⟩ := inv.slot_step e mem
    · obtain ⟨L', inv', mem', none⟩ := rest_run run ok.tail inv1 alloc1 (.inl mem1)
      exact ⟨L', inv', .inr ⟨mem', [], _, log, rfl, takes, none⟩⟩
    · obtain ⟨L', inv', ⟨mem', none⟩ | ⟨mem', l1, x, l2, rfl, takes, none⟩⟩ :=
        ih ok.tail inv1 alloc1 mem1
      · refine ⟨L', inv', .inl ⟨mem', fun x h => ?_⟩⟩
        cases h with
        | head => exact keeps
        | tail _ h => exact none x h
      · refine ⟨L', inv', .inr ⟨mem', _ :: l1, x, l2, rfl, takes, fun y h => ?_⟩⟩
        cases h with
        | head => exact keeps
        | tail _ h => exact none y h

/-- After a step that links a cell into a slot the cell is in the list of the slot. -/
lemma after_link {x : Step α} {l1 l2 : List (Step α)}
    (run : Run Machine.exec s (l1 ++ x :: l2) s') (ok : SlotRun (l1 ++ x :: l2))
    (inv : SlotInv cells s L) (link : x.out = .linked c j) :
    ∃ s1 L1, SlotInv cells s1 L1 ∧ c ∈ L1 (.place (.slot j)) ∧ Run Machine.exec s1 l2 s' := by
  obtain ⟨s1, run1, e, run2⟩ := run.split
  obtain ⟨L1, inv1⟩ := slot_run run1 ok.append.1 inv
  obtain ⟨alone, window⟩ := ok.append.2.head
  obtain ⟨s0, act, ev⟩ := x
  cases link
  obtain ⟨p, -, rfl, -, own, -⟩ := inv1.conc.of_linked (inv1.regular act) e
  refine ⟨s1, _, inv1.exec alone window e, ?_, run2⟩
  rw [Ev.moved, Act.who, Function.update_self, own]
  exact List.mem_cons_self

end Runs

/-! ## The slot protocol -/

/-- Each cell of the pool is in exactly one place: on the free list, on one slot list, or in the private
    set of one thread, which is the cell of its call, or of the controller, which is the chain it walks
    or frees (`CtrlOk`). -/
structure InOnePlace (cells : List Addr) (s : Machine α) (L : Loc → List Addr) : Prop where
  once : ∀ c ∈ cells, ∃! k, c ∈ L k
  nodup : ∀ k, (L k).Nodup
  free : Seg s.q.next s.q.freeFofs (L (.place .free)) none
  slots : ∀ j, j < s.q.nSlots → Seg s.q.next (s.q.slot j) (L (.place (.slot j))) none
  others : ∀ j, s.q.nSlots ≤ j → L (.place (.slot j)) = []
  excess : L (.place .excess) = []
  own : ∀ p, L (.own p) = (s.thread p).pc.cells
  ctrl : CtrlOk s.q (L .ctrl) s.cpc

lemma SlotInv.inOnePlace {cells : List Addr} {s : Machine α} {L : Loc → List Addr}
    (inv : SlotInv cells s L) : InOnePlace cells s L where
  once := fun _ mem => inv.conc.lists.part.existsUnique mem
  nodup := inv.conc.lists.part.nodup
  free := inv.conc.free_list
  slots := fun _ lt => inv.conc.slot_list lt
  others := inv.conc.unused
  excess := inv.excess_nil
  own := inv.conc.own
  ctrl := inv.conc.ctrl

lemma slotInv_init {setup : Setup} (nMaxFofs : 1 ≤ setup.nMaxFofs) (nSlots : 1 ≤ setup.nSlots)
    (q : FofQueue α) (argv : α) :
    SlotInv (List.range setup.nMaxFofs) (Machine.init setup q argv)
      (restLists (initLists setup.nMaxFofs)) := by
  have holds := fofQueueInit_holds q setup nMaxFofs
  obtain ⟨-, -, -, -, slots, -, -⟩ := fofQueueInit_fields q setup
  have rest : AtRest (Machine.init setup q argv) := ⟨fun _ => rfl, rfl⟩
  have sg : Seg (fofQueueInit q setup).next (fofQueueInit q setup).excess [] none :=
    holds.list (k := .excess) trivial
  exact ⟨concInv_rest rest holds (slots ▸ nSlots), Seg.nil_iff.1 sg, rfl, (fun _ _ _ h => nomatch h),
    fun _ => trivial⟩

/-- If allocations do not overlap and start frames stay in the window of the ring, every cell is in
    exactly one place in every state. A cell whose `fof_queue_add` returned `JFOFS_SUCCESS` is taken
    out of its slot by at most one exchange as long as it is not allocated again, and by exactly one
    before it is. -/
theorem slot_protocol {setup : Setup} (nMaxFofs : 1 ≤ setup.nMaxFofs) (nSlots : 1 ≤ setup.nSlots)
    (q : FofQueue α) (argv : α) (acts : List (Act α)) {log : List (Step α)} {s : Machine α}
    (run : execAll Machine.exec (Machine.init setup q argv) acts = some (log, s))
    (alone : ∀ x ∈ log, AllocatesAlone x.pre) (window : ∀ x ∈ log, InWindow x.pre) :
    (∃ L, InOnePlace (List.range setup.nMaxFofs) s L) ∧
    (∀ l1 x l2 c j, log = l1 ++ x :: l2 → x.out = .linked c j → (∀ z ∈ l2, z.out ≠ .allocated c) →
      TakenOnce c j l2 ∨
        (∃ l, Seg s.q.next (s.q.slot j) l none ∧ c ∈ l) ∧ ∀ z ∈ l2, ∀ j', ¬ Takes z c j') ∧
    ∀ l1 x l2 y l3 c j, log = l1 ++ x :: (l2 ++ y :: l3) → x.out = .linked c j →
      (∀ z ∈ l2, z.out ≠ .allocated c) → y.out = .allocated c → TakenOnce c j l2 := by
  have run := (run_of_execAll run).1
  have cond : SlotRun log := ⟨alone, window⟩
  have init := slotInv_init nMaxFofs nSlots q argv
  obtain ⟨L', inv'⟩ := slot_run run cond init
  refine ⟨⟨L', inv'.inOnePlace⟩, ?_, ?_⟩
  · rintro l1 x l2 c j rfl link alloc
    obtain ⟨s1, L1, inv1, mem1, run1⟩ := after_link run cond init link
    obtain ⟨L2, inv2, ⟨mem, none⟩ | ⟨-, once⟩⟩ :=
      taken_run run1 cond.append.2.tail inv1 alloc mem1
    · refine .inr ⟨⟨L2 (.place (.slot j)), inv2.conc.slot_list_of_mem mem, mem⟩, none⟩
    · exact .inl once
  · rintro l1 x l2 y l3 c j rfl link alloc last
    obtain ⟨s1, L1, inv1, mem1, run1⟩ := after_link run cond init link
    obtain ⟨s2, run2, e, -⟩ := run1.split
    have cond2 := cond.append.2.tail.append.1
    obtain ⟨L2, inv2, ⟨mem, -⟩ | ⟨-, once⟩⟩ := taken_run run2 cond2 inv1 alloc mem1
    · obtain ⟨s0, act, ev⟩ := y
      cases last
      obtain ⟨-, -, -, head⟩ := inv2.conc.of_allocated (inv2.regular act) e
      have memf : c ∈ L2 (.place .free) := List.mem_of_mem_head? head
      exact absurd (inv2.conc.lists.part.disjoint mem memf) fun h => nomatch h
    · exact once

/-- A call of thread 0 that takes `n` steps. -/
def callSteps (timeUs n : Nat) : List (Act Unit) :=
  .call 0 timeUs () :: List.replicate n (.step 0)

/-- A cycle of two frames on the frame clock that takes `n` steps. -/
def cycleSteps (n : Nat) : List (Act Unit) :=
  .cycle 2 ⟨0, .stopped, 0⟩ :: List.replicate n .ctrlStep

/-- Thread 0 links its event, a cycle takes and frees it, and the cell is allocated again. -/
def linkTakeAllocate : List (Act Unit) :=
  callSteps 0 12 ++ cycleSteps 9 ++ callSteps 2 3

/-- The run of `linkTakeAllocate`. -/
theorem slot_protocol_one :
    ∃ l1 x l2 y s, execAll Machine.exec (Machine.init (twoSlots 1) (FofQueue.zero ()) ()) linkTakeAllocate =
        some (l1 ++ x :: (l2 ++ [y]), s) ∧ x.out = .linked 0 0 ∧ y.out = .allocated 0 ∧
      (∃ L, InOnePlace [0] s L) ∧ TakenOnce 0 0 l2 := by
  have nMaxFofs : 1 ≤ (twoSlots 1).nMaxFofs := by decide
  have nSlots : 1 ≤ (twoSlots 1).nSlots := by decide
  have single : ∀ x ∈ linkTakeAllocate, x.single 0 := by decide
  cases run : execAll Machine.exec (Machine.init (twoSlots 1) (FofQueue.zero ()) ()) linkTakeAllocate with
  | none => exact absurd run (by decide)
  | some r =>
    obtain ⟨log, s⟩ := r
    have single := forall_op_of_execAll run single
    obtain ⟨-, idle⟩ := idle_of_single (run_of_execAll run).1 single fun _ _ => rfl
    have window : ∀ x ∈ log, startFrame x.pre.q (x.pre.thread 0).timeUs <
        x.pre.q.nextFrame + x.pre.q.nSlots * x.pre.q.bufferSize := by
      cases Option.some.inj (run.symm.trans rfl)
      decide
    have split : ∃ l1 x l2 y, log = l1 ++ x :: (l2 ++ [y]) ∧ x.out = .linked 0 0 ∧
        (∀ z ∈ l2, z.out ≠ .allocated 0) ∧ y.out = .allocated 0 := by
      cases Option.some.inj (run.symm.trans rfl)
      exact ⟨[_, _, _, _, _, _, _, _, _, _, _, _], _, [_, _, _, _, _, _, _, _, _, _, _, _, _], _, rfl,
        rfl, by decide, rfl⟩
    obtain ⟨place, -, once⟩ := slot_protocol nMaxFofs nSlots (FofQueue.zero ()) () linkTakeAllocate run
      (fun x mem => .of_single (idle x mem)) fun x mem => .of_single (idle x mem) (window x mem)
    obtain ⟨l1, x, l2, y, rfl, link, between, alloc⟩ := split
    exact ⟨l1, x, l2, y, s, rfl, link, alloc, place, once l1 x l2 y [] 0 0 rfl link between alloc⟩

end JackFofs
