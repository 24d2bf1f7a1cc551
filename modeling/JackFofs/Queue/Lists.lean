import JackFofs.Lib.Partition
import JackFofs.Lib.Seg
import JackFofs.Queue.Basic

/-!
# The lists of a queue

The abstract view of a queue: a list of cells for each place a cell can be in between two operations
(the free list, the slots, the excess list). `Holds q cells L` ties it to the memory of the queue:
every list is `NULL`-terminated in memory and the lists partition the pool `cells`.

Every operation moves a prefix of one list to the front of another one by a single write to a `next`
field (`Holds.splice`): an allocation followed by a push moves the first free cell, a release moves
a whole list to the free list.
-/

namespace JackFofs
open Linked

variable {α : Type}

/-- The places a cell can be in between two operations. -/
inductive Place where
  | free
  | slot (j : Nat)
  | excess
deriving DecidableEq

lemma slot_ne_free (j : Nat) : Place.slot j ≠ .free := by
  intro e
  cases e

lemma excess_ne_free : Place.excess ≠ .free := by
  intro e
  cases e

namespace FofQueue

/-- The head pointer of a place. -/
def head (q : FofQueue α) : Place → Option Addr
  | .free => q.freeFofs
  | .slot j => q.slot j
  | .excess => q.excess

/-- The places a queue has: only the first `n_slots` slots exist. -/
def Has (q : FofQueue α) : Place → Prop
  | .slot j => j < q.nSlots
  | _ => True

/-- What `set_fof` stores in a cell. -/
def payload (q : FofQueue α) (a : Addr) : Nat × α := ((q.fof a).timeUs, (q.fof a).argv)

end FofQueue

/-- The memory of a queue holds the lists `L`, and these partition the pool. -/
structure Holds (q : FofQueue α) (cells : List Addr) (L : Place → List Addr) : Prop where
  list : ∀ {k}, q.Has k → Seg q.next (q.head k) (L k) none
  unused : ∀ {k}, ¬ q.Has k → L k = []
  part : Partition cells L
  count : q.freeCnt = (L .free).length

/-- The fields of a queue that only the controller and the setup change. -/
structure SameClock (q q' : FofQueue α) : Prop where
  nextFrame : q'.nextFrame = q.nextFrame
  clockSource : q'.clockSource = q.clockSource
  nSlots : q'.nSlots = q.nSlots
  sampleRate : q'.sampleRate = q.sampleRate
  bufferSize : q'.bufferSize = q.bufferSize

lemma SameClock.refl (q : FofQueue α) : SameClock q q := ⟨rfl, rfl, rfl, rfl, rfl⟩

lemma SameClock.trans {q1 q2 q3 : FofQueue α} (h1 : SameClock q1 q2) (h2 : SameClock q2 q3) :
    SameClock q1 q3 :=
  ⟨h2.1.trans h1.1, h2.2.trans h1.2, h2.3.trans h1.3, h2.4.trans h1.4, h2.5.trans h1.5⟩

/-! ## Memory after a write -/

section Write

variable (q : FofQueue α) (a : Addr) (v : Option Addr)

@[simp] lemma next_setNext : (q.setNext a v).next = Function.update q.next a v := by
  funext b
  by_cases e : b = a
  · subst e
    simp [FofQueue.next, FofQueue.setNext]
  · simp [FofQueue.next, FofQueue.setNext, e]

@[simp] lemma payload_setNext : (q.setNext a v).payload = q.payload := by
  funext b
  by_cases e : b = a
  · subst e
    simp [FofQueue.payload, FofQueue.setNext]
  · simp [FofQueue.payload, FofQueue.setNext, e]

lemma payload_congr {q q' : FofQueue α} (e : q'.fof = q.fof) : q'.payload = q.payload := by
  funext b
  rw [FofQueue.payload, FofQueue.payload, e]

@[simp] lemma next_setFof (t : Nat) (argv : α) : (setFof q a t argv).next = q.next := by
  funext b
  by_cases e : b = a
  · subst e
    simp [FofQueue.next, setFof]
  · simp [FofQueue.next, setFof, e]

@[simp] lemma payload_setFof (t : Nat) (argv : α) :
    (setFof q a t argv).payload = Function.update q.payload a (t, argv) := by
  funext b
  by_cases e : b = a
  · subst e
    simp [FofQueue.payload, setFof]
  · simp [FofQueue.payload, setFof, e]

lemma head_setSlot_self (j : Nat) : (q.setSlot j v).head (.slot j) = v :=
  Function.update_self ..

end Write

lemma head_setSlot_of_ne {q : FofQueue α} {j : Nat} {v : Option Addr} {k : Place}
    (ne : k ≠ .slot j) : (q.setSlot j v).head k = q.head k := by
  cases k with
  | slot i => exact Function.update_of_ne (fun e => ne (congrArg Place.slot e)) ..
  | _ => rfl

/-- A write to a cell of a list leaves the cells outside the list alone. -/
lemma fof_setNext_of_notMem {q : FofQueue α} {a b : Addr} {v : Option Addr} {l : List Addr}
    (mem : a ∈ l) (nm : b ∉ l) : (q.setNext a v).fof b = q.fof b := by
  have ne : b ≠ a := by
    rintro rfl
    exact nm mem
  exact Function.update_of_ne ne ..

/-- The `next` field of a cell depends on the cell only. -/
lemma next_eq_of_fof {q q' : FofQueue α} {a : Addr} (e : q'.fof a = q.fof a) :
    q'.next a = q.next a :=
  congrArg Fof.next e

/-! ## Moving a prefix of one list -/

section Splice

variable {q q' : FofQueue α} {cells : List Addr} {L : Place → List Addr}

/-- A move of the prefix `p ++ [a]` of the list of `i` to the front of the list of `k`. -/
def moved (L : Place → List Addr) (i k : Place) (p : List Addr) (a : Addr) (r : List Addr) :
    Place → List Addr :=
  Function.update (Function.update L i r) k ((p ++ [a]) ++ L k)

/-- A queue that differs by the write `a->next = head k` and the two head pointers holds the lists
    after the move. -/
lemma Holds.splice {i k : Place} {p r : List Addr} {a : Addr} (hd : Holds q cells L) (ne : i ≠ k)
    (hi : q.Has i) (hk : q.Has k) (e : L i = (p ++ [a]) ++ r)
    (next : q'.next = Function.update q.next a (q.head k))
    (head_i : q'.head i = q.next a) (head_k : q'.head k = q.head i)
    (head_ne : ∀ m, m ≠ i → m ≠ k → q'.head m = q.head m) (has : ∀ m, q'.Has m ↔ q.Has m)
    (count : q'.freeCnt = (moved L i k p a r .free).length) :
    Holds q' cells (moved L i k p a r) := by
  have sgi := hd.list hi
  rw [e] at sgi
  have nd := hd.part.nodup i
  rw [e] at nd
  have memi : a ∈ L i := by
    rw [e]
    simp
  obtain ⟨m, sgp, sgr⟩ := Seg.append_iff.1 sgi
  have em := (Seg.snoc_iff.1 sgp).2
  have nmp : a ∉ p := by
    have ndp := (List.nodup_append.1 nd).1
    rw [List.nodup_append] at ndp
    exact fun mem => ndp.2.2 a mem a (List.mem_singleton_self a) rfl
  have nmr : a ∉ r := by
    have dj := (List.nodup_append.1 nd).2.2
    exact fun mem => dj a (by simp) a mem rfl
  constructor
  case list =>
    intro m' hm'
    rw [has] at hm'
    rw [next, moved]
    by_cases ek : m' = k
    · subst ek
      rw [Function.update_self, head_k]
      exact sgp.splice nmp (hd.part.notMem memi ne) (hd.list hm')
    · rw [Function.update_of_ne ek]
      by_cases ei : m' = i
      · subst ei
        rw [Function.update_self, head_i, em]
        exact sgr.update nmr
      · rw [Function.update_of_ne ei, head_ne m' ei ek]
        exact (hd.list hm').update (hd.part.notMem memi (Ne.symm ei))
  case unused =>
    intro m' hm'
    rw [has] at hm'
    have ek : m' ≠ k := fun e => hm' (e ▸ hk)
    have ei : m' ≠ i := fun e => hm' (e ▸ hi)
    rw [moved, Function.update_of_ne ek, Function.update_of_ne ei, hd.unused hm']
  case part =>
    apply hd.part.move ne
    rw [e]
    have pm : (r ++ ((p ++ [a]) ++ L k)).Perm (((p ++ [a]) ++ L k) ++ r) := List.perm_append_comm
    apply pm.trans
    rw [List.append_assoc, List.append_assoc _ r]
    exact List.perm_append_comm.append_left _
  case count => exact count

@[simp] lemma moved_dst {i k : Place} {p r : List Addr} {a : Addr} :
    moved L i k p a r k = (p ++ [a]) ++ L k :=
  Function.update_self ..

lemma moved_src {i k : Place} {p r : List Addr} {a : Addr} (ne : i ≠ k) :
    moved L i k p a r i = r := by
  rw [moved, Function.update_of_ne ne, Function.update_self]

lemma moved_of_ne {i k m : Place} {p r : List Addr} {a : Addr} (ni : m ≠ i) (nk : m ≠ k) :
    moved L i k p a r m = L m := by
  rw [moved, Function.update_of_ne nk, Function.update_of_ne ni]

end Splice

/-! ## Initialisation -/

/-- The lists after `fof_queue_init`: every cell is free. -/
def initLists (n : Nat) : Place → List Addr
  | .free => List.range n
  | _ => []

lemma clearSlots_spec (q : FofQueue α) (n : Nat) :
    (∀ j, j < n → (clearSlots q n).slot j = none) ∧
      clearSlots q n = { q with slot := (clearSlots q n).slot } := by
  induction n with
  | zero => exact ⟨fun j lt => absurd lt (Nat.not_lt_zero j), rfl⟩
  | succ n ih =>
    refine ⟨fun j lt => ?_, congrArg (FofQueue.setSlot · n none) ih.2⟩
    by_cases e : j = n
    · subst e
      exact Function.update_self ..
    · have lt : j < n := by omega
      exact (Function.update_of_ne e ..).trans (ih.1 j lt)

/-- The linking loop threads `n + 1` consecutive cells and touches nothing but `next` fields. -/
lemma linkFofs_spec (q : FofQueue α) (fof n : Nat) :
    Seg (linkFofs q fof n).next (some fof) (List.range' fof (n + 1)) none ∧
      (∀ b, b < fof → (linkFofs q fof n).next b = q.next b) ∧
      linkFofs q fof n = { q with fof := (linkFofs q fof n).fof } := by
  induction n generalizing q fof with
  | zero =>
    refine ⟨?_, fun b lt => ?_, rfl⟩
    · simp [linkFofs]
    · rw [linkFofs, next_setNext, Function.update_of_ne (Nat.ne_of_lt lt)]
  | succ n ih =>
    obtain ⟨sg, keep, rest⟩ := ih (q.setNext fof (some (fof + 1))) (fof + 1)
    refine ⟨?_, fun b lt => ?_, ?_⟩
    · rw [List.range'_succ, Seg.cons_iff]
      refine ⟨rfl, ?_⟩
      rw [linkFofs, keep fof (Nat.lt_succ_self fof), next_setNext, Function.update_self]
      exact sg
    · rw [linkFofs, keep b (Nat.lt_succ_of_lt lt), next_setNext,
        Function.update_of_ne (Nat.ne_of_lt lt)]
    · exact rest

lemma initLists_partition (n : Nat) : Partition (List.range n) (initLists n) := by
  refine Partition.of_single .free rfl List.nodup_range fun k ne => ?_
  cases k with
  | free => exact absurd rfl ne
  | slot j => rfl
  | excess => rfl

/-- `fof_queue_init` links the cells into the free list, in address order. -/
lemma fofQueueInit_free (q : FofQueue α) (setup : Setup) :
    Seg (fofQueueInit q setup).next (fofQueueInit q setup).freeFofs
      (List.range (setup.nMaxFofs - 1 + 1)) none := by
  unfold fofQueueInit
  extract_lets q0
  obtain ⟨sg, -, e⟩ := linkFofs_spec (clearSlots q0 q0.nSlots) 0 (setup.nMaxFofs - 1)
  have efree : (linkFofs (clearSlots q0 q0.nSlots) 0 (setup.nMaxFofs - 1)).freeFofs = some 0 := by
    rw [e, (clearSlots_spec q0 q0.nSlots).2]
  rw [efree, List.range_eq_range']
  exact sg

/-- The fields `fof_queue_init` sets besides the lists. -/
lemma fofQueueInit_fields (q : FofQueue α) (setup : Setup) :
    (fofQueueInit q setup).nextFrame = 0 ∧ (fofQueueInit q setup).nextFrameCheck = 0 ∧
      (fofQueueInit q setup).currentSlot = 0 ∧
      (fofQueueInit q setup).clockSource = (jfofsClockSourceNormalize setup.clockSource).code ∧
      (fofQueueInit q setup).nSlots = setup.nSlots ∧
      (fofQueueInit q setup).sampleRate = setup.sampleRate ∧
      (fofQueueInit q setup).bufferSize = setup.maxBufferSize := by
  unfold fofQueueInit
  extract_lets q0
  rw [(linkFofs_spec (clearSlots q0 q0.nSlots) 0 (setup.nMaxFofs - 1)).2.2,
    (clearSlots_spec q0 q0.nSlots).2]
  exact ⟨rfl, rfl, rfl, rfl, rfl, rfl, rfl⟩

/-- After `fof_queue_init` every cell is free. -/
theorem fofQueueInit_holds (q : FofQueue α) (setup : Setup) (pos : 1 ≤ setup.nMaxFofs) :
    Holds (fofQueueInit q setup) (List.range setup.nMaxFofs) (initLists setup.nMaxFofs) := by
  have sg := fofQueueInit_free q setup
  rw [Nat.sub_add_cancel pos] at sg
  revert sg
  unfold fofQueueInit
  extract_lets q0
  have clear := clearSlots_spec q0 q0.nSlots
  have link := linkFofs_spec (clearSlots q0 q0.nSlots) 0 (setup.nMaxFofs - 1)
  generalize clearSlots q0 q0.nSlots = q1 at clear link
  generalize linkFofs q1 0 (setup.nMaxFofs - 1) = q2 at link
  intro sg
  have e2 := link.2.2
  have e1 := clear.2
  have eslot : q2.slot = q1.slot := by rw [e2]
  have eexcess : q2.excess = none := by rw [e2, e1]
  have enslots : q2.nSlots = q0.nSlots := by rw [e2, e1]
  constructor
  case list =>
    intro k has
    cases k with
    | free => exact sg
    | slot j =>
      have lt : j < q0.nSlots := enslots ▸ has
      have e : q2.slot j = none := (congrFun eslot j).trans (clear.1 j lt)
      exact Seg.nil_iff.2 e
    | excess => exact Seg.nil_iff.2 eexcess
  case unused =>
    intro k hk
    cases k with
    | free => exact absurd trivial hk
    | slot j => rfl
    | excess => rfl
  case part => exact initLists_partition setup.nMaxFofs
  case count =>
    have e : q2.freeCnt = setup.nMaxFofs := by rw [e2, e1]
    simp [e, initLists]

end JackFofs
