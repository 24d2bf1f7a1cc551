import JackFofs.Queue.Lists

/-!
# What the queue functions do to the lists

One specification for each function of `fof_queue.c` run alone, in terms of the lists of the queue.
`fofQueueReleaseList_spec` and `fofQueueFlush_spec` also say that the list walks end: a fuel of the
size of the pool is always enough. `fofQueueAdd_cases` is the inversion of `fof_queue_add`: each of
its exits with the guard that leads to it and everything it did to the queue.
-/

namespace JackFofs
open Linked

variable {α : Type} {q q' : FofQueue α} {cells : List Addr} {L : Place → List Addr}

/-- Holding lists is a matter of the `next` fields, the head pointers and the free counter. -/
lemma Holds.congr (hd : Holds q cells L) (next : q'.next = q.next)
    (head : ∀ k, q'.head k = q.head k) (nSlots : q'.nSlots = q.nSlots)
    (freeCnt : q'.freeCnt = q.freeCnt) :
    Holds q' cells L := by
  have has (k : Place) : q'.Has k ↔ q.Has k := by
    cases k <;> simp [FofQueue.Has, nSlots]
  constructor
  case list =>
    intro k hk
    rw [next, head]
    exact hd.list ((has k).1 hk)
  case unused => exact fun hk => hd.unused fun hk' => hk ((has _).2 hk')
  case part => exact hd.part
  case count => rw [freeCnt, hd.count]

/-- The memory of a queue holds only one family of lists. -/
lemma Holds.unique {L' : Place → List Addr} (hd : Holds q cells L) (hd' : Holds q cells L') :
    L = L' := by
  funext k
  by_cases has : q.Has k
  · exact (hd.list has).unique (hd'.list has)
  · rw [hd.unused has, hd'.unused has]

/-- No list is longer than the pool. -/
lemma Holds.length_le (hd : Holds q cells L) (k : Place) : (L k).length ≤ cells.length :=
  hd.part.length_le k

/-! ## Releasing lists -/

/-- The head pointer of a place set to `NULL`. -/
def FofQueue.clearHead (q : FofQueue α) : Place → FofQueue α
  | .free => { q with freeFofs := none }
  | .slot j => q.setSlot j none
  | .excess => { q with excess := none }

/-- The list from `head` to `tail`, `n` cells long, spliced in front of the free list. -/
def FofQueue.spliceFree (q : FofQueue α) (head : Option Addr) (tail : Addr) (n : Nat) :
    FofQueue α :=
  { q.setNext tail q.freeFofs with freeFofs := head, freeCnt := q.freeCnt + n }

/-- The lists after the list of `k` went to the front of the free list. -/
def released (L : Place → List Addr) (k : Place) : Place → List Addr :=
  Function.update (Function.update L k []) .free (L k ++ L .free)

lemma released_of_ne {k m : Place} (nf : m ≠ .free) (ne : m ≠ k) : released L k m = L m := by
  rw [released, Function.update_of_ne nf, Function.update_of_ne ne]

lemma released_self {k : Place} (nf : k ≠ .free) : released L k k = [] := by
  rw [released, Function.update_of_ne nf, Function.update_self]

lemma head_clearHead_of_ne {k m : Place} (ne : m ≠ k) : (q.clearHead k).head m = q.head m := by
  cases k with
  | free => cases m <;> first | rfl | exact absurd rfl ne
  | slot j => exact head_setSlot_of_ne ne
  | excess => cases m <;> first | rfl | exact absurd rfl ne

lemma findTail_eq {p : List Addr} {a : Addr} {h : Addr} {fuel : Nat}
    (sg : Seg q.next (some h) (p ++ [a]) none) (len : p.length < fuel) :
    findTail q fuel h = some a := by
  induction p generalizing h fuel with
  | nil =>
    cases fuel with
    | zero => exact absurd len (Nat.not_lt_zero _)
    | succ fuel =>
      rw [List.nil_append, Seg.cons_iff, Seg.nil_iff] at sg
      obtain ⟨e, en⟩ := sg
      cases e
      rw [findTail, en]
  | cons b p ih =>
    cases fuel with
    | zero => exact absurd len (Nat.not_lt_zero _)
    | succ fuel =>
      rw [List.cons_append, Seg.cons_iff] at sg
      obtain ⟨e, sg⟩ := sg
      cases e
      have len : p.length < fuel := Nat.lt_of_succ_lt_succ len
      rw [findTail]
      cases en : q.next b with
      | none =>
        rw [en] at sg
        have nil := (sg.eq_nil_iff).2 rfl
        exact absurd nil (by simp)
      | some c =>
        rw [en] at sg
        exact ih sg len

lemma countFofs_eq {p : List Addr} {a : Addr} {h : Option Addr} {fuel : Nat}
    (sg : Seg q.next h (p ++ [a]) none) (nm : a ∉ p) (len : p.length < fuel) :
    countFofs q a fuel h = some (p.length + 1) := by
  induction p generalizing h fuel with
  | nil =>
    cases fuel with
    | zero => exact absurd len (Nat.not_lt_zero _)
    | succ fuel =>
      rw [List.nil_append, Seg.cons_iff] at sg
      rw [sg.1, countFofs, if_pos rfl]
      rfl
  | cons b p ih =>
    cases fuel with
    | zero => exact absurd len (Nat.not_lt_zero _)
    | succ fuel =>
      rw [List.cons_append, Seg.cons_iff] at sg
      obtain ⟨rfl, sg⟩ := sg
      have ne : b ≠ a := by
        rintro rfl
        exact nm List.mem_cons_self
      have len : p.length < fuel := Nat.lt_of_succ_lt_succ len
      rw [countFofs, if_neg ne, ih sg (fun mem => nm (List.mem_cons_of_mem b mem)) len]
      rfl

/-- `fof_queue_free_fofs` on a whole `NULL`-terminated list splices it in front of the free list. -/
lemma fofQueueFreeFofs_eq {p : List Addr} {a h : Addr} {fuel : Nat}
    (sg : Seg q.next (some h) (p ++ [a]) none) (len : p.length < fuel) :
    fofQueueFreeFofs fuel q h a = some (q.spliceFree (some h) a (p.length + 1)) := by
  have nd := sg.nodup
  rw [List.nodup_append] at nd
  have nm : a ∉ p := fun mem => nd.2.2 a mem a (List.mem_singleton_self a) rfl
  rw [fofQueueFreeFofs, countFofs_eq sg nm len]
  rfl

/-- A list taken out of its place and spliced in front of the free list. -/
lemma Holds.spliceFree {k : Place} {p : List Addr} {a : Addr} (hd : Holds q cells L)
    (nf : k ≠ .free) (hk : q.Has k) (e : L k = p ++ [a]) :
    Holds ((q.clearHead k).spliceFree (q.head k) a (p.length + 1)) cells (released L k) := by
  have sg := hd.list hk
  rw [e, Seg.snoc_iff] at sg
  have el : moved L k .free p a [] = released L k := by
    rw [moved, released, e]
  have efree : (q.clearHead k).freeFofs = q.freeFofs := by
    cases k with
    | free => exact absurd rfl nf
    | slot j => rfl
    | excess => rfl
  have enext : (q.clearHead k).next = q.next := by
    cases k <;> rfl
  rw [← el]
  apply hd.splice nf hk trivial (e.trans (List.append_nil _).symm)
  case next =>
    have en := next_setNext (q.clearHead k) a (q.clearHead k).freeFofs
    rw [efree, enext] at en
    rw [← efree] at en
    exact en.trans (by rw [efree]; rfl)
  case head_i =>
    rw [sg.2]
    cases k with
    | free => exact absurd rfl nf
    | slot j => exact Function.update_self ..
    | excess => rfl
  case head_k => rfl
  case head_ne =>
    intro m ni nk
    have em : (q.clearHead k).head m = q.head m := head_clearHead_of_ne ni
    cases m with
    | free => exact absurd rfl nk
    | slot j => exact em
    | excess => exact em
  case has =>
    intro m
    cases m <;> cases k <;> exact Iff.rfl
  case count =>
    have ec : (q.clearHead k).freeCnt = q.freeCnt := by
      cases k <;> rfl
    show (q.clearHead k).freeCnt + ((p.length + 1 : Nat) : Int) = _
    rw [ec, hd.count, el, released, Function.update_self, e]
    simp
    omega

/-- Releasing an empty list only clears its head pointer. -/
lemma Holds.clearHead {k : Place} (hd : Holds q cells L) (nf : k ≠ .free) (hk : q.Has k)
    (e : L k = []) : Holds (q.clearHead k) cells (released L k) := by
  have eh := (hd.list hk).eq_nil_iff.1 e
  have same : released L k = L := by
    funext m
    by_cases ef : m = .free
    · subst ef
      rw [released, Function.update_self, e]
      rfl
    · by_cases ek : m = k
      · subst ek
        rw [released_self nf, e]
      · exact released_of_ne ef ek
  rw [same]
  apply hd.congr
  case next => cases k <;> rfl
  case head =>
    intro m
    by_cases ek : m = k
    · subst ek
      rw [eh]
      cases m with
      | free => exact absurd rfl nf
      | slot j => exact Function.update_self ..
      | excess => rfl
    · exact head_clearHead_of_ne ek
  case nSlots => cases k <;> rfl
  case freeCnt => cases k <;> rfl

/-- A nonempty list has a first cell. -/
lemma Holds.head_eq_some {k : Place} {p : List Addr} {a : Addr} (hd : Holds q cells L)
    (hk : q.Has k) (e : L k = p ++ [a]) : ∃ h, q.head k = some h := by
  have eh := (hd.list hk).head_eq
  rw [e] at eh
  cases p with
  | nil => exact ⟨a, eh⟩
  | cons b p => exact ⟨b, eh⟩

/-- `fof_queue_release_list` on a list that has been taken out of its place gives all its cells
    back. -/
lemma fofQueueReleaseList_spec {k : Place} {fuel : Nat} (hd : Holds q cells L) (nf : k ≠ .free)
    (hk : q.Has k) (enough : cells.length ≤ fuel) :
    ∃ q', fofQueueReleaseList fuel (q.clearHead k) (q.head k) = some q' ∧
      Holds q' cells (released L k) ∧ SameClock q q' ∧ q'.payload = q.payload := by
  have sg := hd.list hk
  have clock : SameClock q (q.clearHead k) := by
    cases k <;> exact ⟨rfl, rfl, rfl, rfl, rfl⟩
  have payload : (q.clearHead k).payload = q.payload := by
    cases k <;> rfl
  obtain el | ⟨p, a, el⟩ := (L k).eq_nil_or_concat
  · have eh := sg.eq_nil_iff.1 el
    exact ⟨q.clearHead k, by rw [eh]; rfl, hd.clearHead nf hk el, clock, payload⟩
  · rw [List.concat_eq_append] at el
    obtain ⟨h, eh⟩ := hd.head_eq_some hk el
    have len := Nat.le_trans (hd.length_le k) enough
    rw [el, List.length_append] at len
    have sg' : Seg (q.clearHead k).next (some h) (p ++ [a]) none := by
      rw [show (q.clearHead k).next = q.next by cases k <;> rfl, ← eh, ← el]
      exact sg
    refine ⟨(q.clearHead k).spliceFree (q.head k) a (p.length + 1), ?_, hd.spliceFree nf hk el,
      ⟨clock.1, clock.2, clock.3, clock.4, clock.5⟩, (payload_setNext ..).trans payload⟩
    rw [eh, fofQueueReleaseList, findTail_eq sg' len]
    exact fofQueueFreeFofs_eq sg' len

/-! ## Flushing -/

lemma flushSlots_spec {fuel n : Nat} (hd : Holds q cells L) (enough : cells.length ≤ fuel)
    (le : n ≤ q.nSlots) :
    ∃ q' L', flushSlots fuel q n = some q' ∧ Holds q' cells L' ∧ (∀ j, j < n → L' (.slot j) = []) ∧
      SameClock q q' ∧ q'.payload = q.payload := by
  induction n with
  | zero =>
    exact ⟨q, L, rfl, hd, fun j lt => absurd lt (Nat.not_lt_zero j), SameClock.refl q, rfl⟩
  | succ n ih =>
    obtain ⟨q1, L1, e1, hd1, nil1, clock1, payload1⟩ := ih (Nat.le_of_succ_le le)
    have has : q1.Has (.slot n) := by
      rw [FofQueue.Has, clock1.nSlots]
      exact le
    obtain ⟨q2, e2, hd2, clock2, payload2⟩ :=
      fofQueueReleaseList_spec hd1 (slot_ne_free n) has enough
    refine ⟨q2, _, ?_, hd2, fun j lt => ?_, clock1.trans clock2, payload2.trans payload1⟩
    · rw [flushSlots, e1]
      exact e2
    · by_cases e : j = n
      · subst e
        exact released_self (slot_ne_free j)
      · have ne : Place.slot j ≠ .slot n := fun h => e (Place.slot.inj h)
        have lt : j < n := by omega
        have e : released L1 (.slot n) (.slot j) = L1 (.slot j) :=
          released_of_ne (slot_ne_free j) ne
        rw [e]
        exact nil1 j lt

/-- The cached slot belongs to the value of `next_frame` it is tagged with. -/
def CacheOk (q : FofQueue α) : Prop := q.currentSlot = slotOfFrame q q.nextFrameCheck

lemma CacheOk.congr (ok : CacheOk q) (currentSlot : q'.currentSlot = q.currentSlot)
    (nextFrameCheck : q'.nextFrameCheck = q.nextFrameCheck) (nSlots : q'.nSlots = q.nSlots)
    (bufferSize : q'.bufferSize = q.bufferSize) : CacheOk q' := by
  rw [CacheOk, slotOfFrame, currentSlot, nextFrameCheck, bufferSize, nSlots]
  exact ok

/-- `fof_queue_flush` ends, moves every cell to the free list and resets the slot cache. -/
theorem fofQueueFlush_spec {fuel : Nat} (hd : Holds q cells L) (enough : cells.length ≤ fuel) :
    ∃ q' L', fofQueueFlush fuel q = some q' ∧ Holds q' cells L' ∧ (∀ k, k ≠ .free → L' k = []) ∧
      SameClock q q' ∧ q'.payload = q.payload ∧ CacheOk q' := by
  obtain ⟨q1, L1, e1, hd1, nil1, clock1, payload1⟩ := flushSlots_spec hd enough (Nat.le_refl _)
  obtain ⟨q2, e2, hd2, clock2, payload2⟩ :=
    fofQueueReleaseList_spec hd1 excess_ne_free trivial enough
  have clock := clock1.trans clock2
  refine ⟨{ q2 with firstFof := none, lastFof := none, currentSlot := 0, nextFrameCheck := 0 },
    released L1 .excess, ?_, hd2.congr rfl (fun k => by cases k <;> rfl) rfl rfl, ?_,
    ⟨clock.1, clock.2, clock.3, clock.4, clock.5⟩, payload2.trans payload1, ?_⟩
  · have e2 : fofQueueReleaseList fuel { q1 with excess := none } q1.excess = some q2 := e2
    simp only [fofQueueFlush, e1, e2, Option.bind_eq_bind, Option.bind_some, Option.pure_def]
  · intro k nf
    cases k with
    | free => exact absurd rfl nf
    | excess => exact released_self nf
    | slot j =>
      have e : released L1 .excess (.slot j) = L1 (.slot j) := released_of_ne nf nofun
      rw [e]
      by_cases lt : j < q.nSlots
      · exact nil1 j lt
      · exact hd1.unused fun has => lt (clock1.nSlots ▸ has)
  · simp [CacheOk, slotOfFrame]

/-! ## Adding a fof -/

lemma cacheCurrentSlot_cacheOk {nextFrame : Nat} (ok : CacheOk q) :
    CacheOk (cacheCurrentSlot q nextFrame) := by
  unfold cacheCurrentSlot
  split
  · rfl
  · exact ok

lemma cacheCurrentSlot_currentSlot {nextFrame : Nat} (ok : CacheOk q) :
    (cacheCurrentSlot q nextFrame).currentSlot = slotOfFrame q nextFrame := by
  unfold cacheCurrentSlot
  split
  case isTrue => rfl
  case isFalse h =>
    have e := not_not.1 h
    subst e
    exact ok

/-- What linking the first free cell in front of the list of `k` does to the lists. -/
lemma Holds.link {k : Place} {c : Addr} {l : List Addr} (hd : Holds q cells L) (nf : k ≠ .free)
    (hk : q.Has k) (e : L .free = c :: l)
    (next : q'.next = Function.update q.next c (q.head k)) (free : q'.freeFofs = q.next c)
    (head_k : q'.head k = some c) (head_ne : ∀ m, m ≠ .free → m ≠ k → q'.head m = q.head m)
    (nSlots : q'.nSlots = q.nSlots) (count : q'.freeCnt = q.freeCnt - 1) :
    Holds q' cells (moved L .free k [] c l) := by
  have sg := hd.list (k := .free) trivial
  rw [e, Seg.cons_iff] at sg
  apply hd.splice (Ne.symm nf) trivial hk e next free (head_k.trans sg.1.symm) head_ne
  case has =>
    intro m
    cases m <;> simp [FofQueue.Has, nSlots]
  case count =>
    rw [count, hd.count, moved_src (Ne.symm nf), e]
    simp

/-- The queue after `fof_queue_allocate_fof` took `c` and `set_fof` filled it. -/
def filled (q : FofQueue α) (c : Addr) (timeUs : Nat) (argv : α) : FofQueue α :=
  setFof (popFree q c) c timeUs argv

lemma filled_next (c : Addr) (timeUs : Nat) (argv : α) :
    (filled q c timeUs argv).next = Function.update q.next c none := by
  rw [filled, next_setFof, popFree, next_setNext]
  rfl

lemma filled_payload (c : Addr) (timeUs : Nat) (argv : α) :
    (filled q c timeUs argv).payload = Function.update q.payload c (timeUs, argv) := by
  rw [filled, payload_setFof, popFree, payload_setNext]
  rfl

lemma filled_sameClock (q : FofQueue α) (c : Addr) (timeUs : Nat) (argv : α) :
    SameClock q (filled q c timeUs argv) :=
  ⟨rfl, rfl, rfl, rfl, rfl⟩

lemma filled_slotIndex (c : Addr) (timeUs : Nat) (argv : α) (s nextFrame : Nat) :
    slotIndex (filled q c timeUs argv) s nextFrame = slotIndex q s nextFrame :=
  rfl

/-- Writing the `next` field of the filled cell again overwrites the `NULL` of the allocation. -/
lemma filled_setNext (c : Addr) (timeUs : Nat) (argv : α) (v : Option Addr) :
    ((filled q c timeUs argv).setNext c v).next = Function.update q.next c v := by
  rw [next_setNext, filled_next, Function.update_idem]

/-- Caching the slot changes neither the lists, the cells nor the clock. -/
lemma cacheCurrentSlot_eq (q : FofQueue α) (nextFrame : Nat) :
    cacheCurrentSlot q nextFrame = { q with
      currentSlot := (cacheCurrentSlot q nextFrame).currentSlot
      nextFrameCheck := (cacheCurrentSlot q nextFrame).nextFrameCheck } := by
  unfold cacheCurrentSlot
  split <;> rfl

lemma cacheCurrentSlot_sameClock (q : FofQueue α) (nextFrame : Nat) :
    SameClock q (cacheCurrentSlot q nextFrame) := by
  rw [cacheCurrentSlot_eq]
  exact ⟨rfl, rfl, rfl, rfl, rfl⟩

lemma cacheCurrentSlot_payload (q : FofQueue α) (nextFrame : Nat) :
    (cacheCurrentSlot q nextFrame).payload = q.payload := by
  rw [cacheCurrentSlot_eq]
  rfl

lemma linkFar_sameClock (q : FofQueue α) (fof slot : Nat) : SameClock q (linkFar q fof slot).2 :=
  ⟨rfl, rfl, rfl, rfl, rfl⟩

lemma linkFar_payload (q : FofQueue α) (fof slot : Nat) :
    (linkFar q fof slot).2.payload = q.payload :=
  payload_setNext q fof (q.slot slot)

lemma linkFar_cacheOk {fof slot : Nat} (ok : CacheOk q) : CacheOk (linkFar q fof slot).2 := ok

/-- Run alone, the near path links the cell just as the far path does. -/
lemma linkNear_eq (q : FofQueue α) (fof : Addr) (slot : Nat) :
    linkNear q fof slot q.nextFrame = linkFar q fof slot := by
  have same : ¬ (q.setNext fof (q.slot slot)).nextFrame ≠ q.nextFrame := fun h => h rfl
  have head : ¬ (q.setNext fof (q.slot slot)).slot slot ≠ q.slot slot := fun h => h rfl
  rw [linkNear, if_neg same, if_neg head, linkFar]

lemma fofQueueAdd_none (free : q.freeFofs = none) (timeUs : Nat) (argv : α) :
    fofQueueAdd q timeUs argv = (.fofLimitError, q) := by
  rw [fofQueueAdd, fofQueueAllocateFof, free]

lemma fofQueueAdd_some {c : Addr} (free : q.freeFofs = some c) (timeUs : Nat) (argv : α) :
    fofQueueAdd q timeUs argv =
      recalculate (filled q c timeUs argv) c (jfofsTimeToNframes timeUs q.sampleRate)
        q.nextFrame := by
  rw [fofQueueAdd, fofQueueAllocateFof, free]
  rfl

/-- Giving the filled cell back restores the free list. -/
lemma Holds.giveBack {c : Addr} (hd : Holds q cells L) (free : q.freeFofs = some c) (timeUs : Nat)
    (argv : α) :
    Holds (fofQueueFreeFof (filled q c timeUs argv) c) cells L := by
  apply hd.congr
  case next =>
    have e := filled_setNext (q := q) c timeUs argv (q.next c)
    rw [Function.update_eq_self] at e
    exact e
  case head =>
    intro k
    cases k with
    | free => exact free.symm
    | slot j => rfl
    | excess => rfl
  case nSlots => rfl
  case freeCnt =>
    show q.freeCnt - 1 + 1 = q.freeCnt
    omega

/-- Linking the filled cell into a slot. -/
lemma Holds.linkFar {c j : Addr} {l : List Addr} {r : FofQueue α} (hd : Holds q cells L)
    (lt : j < q.nSlots) (e : L .free = c :: l) (next : r.next = Function.update q.next c none)
    (free : r.freeFofs = q.next c) (slot : r.slot = q.slot) (excess : r.excess = q.excess)
    (nSlots : r.nSlots = q.nSlots) (count : r.freeCnt = q.freeCnt - 1) :
    Holds (linkFar r c j).2 cells (moved L .free (.slot j) [] c l) := by
  apply hd.link (slot_ne_free j) lt e
  case next =>
    have e := next_setNext r c (r.slot j)
    rw [next, Function.update_idem] at e
    exact e.trans (congrArg _ (congrFun slot j))
  case free => exact free
  case head_k => exact Function.update_self ..
  case head_ne =>
    intro m nf nk
    cases m with
    | free => exact absurd rfl nf
    | slot i =>
      have ne : i ≠ j := fun e => nk (congrArg Place.slot e)
      have e : Function.update r.slot j (some c) i = r.slot i := Function.update_of_ne ne ..
      exact e.trans (congrFun slot i)
    | excess => exact excess
  case nSlots => exact nSlots
  case count => exact count

/-- Pushing the filled cell on the excess list. -/
lemma Holds.pushExcess {c : Addr} {l : List Addr} (hd : Holds q cells L) (e : L .free = c :: l)
    (timeUs : Nat) (argv : α) :
    Holds (pushExcess (filled q c timeUs argv) c) cells (moved L .free .excess [] c l) := by
  apply hd.link excess_ne_free trivial e
  case next => exact filled_setNext c timeUs argv q.excess
  case free => rfl
  case head_k => rfl
  case head_ne =>
    intro m nf nk
    cases m with
    | free => exact absurd rfl nf
    | slot j => rfl
    | excess => exact absurd rfl nk
  case nSlots => rfl
  case count => rfl

/-- The slot is the same whether it is computed before or after the cell was filled. -/
lemma filled_targetSlot (c : Addr) (timeUs : Nat) (argv : α) (nextFrame : Nat) (slotIdx : Int) :
    targetSlot (cacheCurrentSlot (filled q c timeUs argv) nextFrame) slotIdx =
      targetSlot (cacheCurrentSlot q nextFrame) slotIdx := by
  by_cases h : nextFrame ≠ q.nextFrameCheck
  · have h' : nextFrame ≠ (filled q c timeUs argv).nextFrameCheck := h
    rw [cacheCurrentSlot, cacheCurrentSlot, if_pos h, if_pos h']
    rfl
  · have h' : ¬ nextFrame ≠ (filled q c timeUs argv).nextFrameCheck := h
    rw [cacheCurrentSlot, cacheCurrentSlot, if_neg h, if_neg h']
    rfl

lemma fofQueueFreeFof_sameClock (q : FofQueue α) (fof : Addr) :
    SameClock q (fofQueueFreeFof q fof) :=
  ⟨rfl, rfl, rfl, rfl, rfl⟩

lemma fofQueueFreeFof_payload (q : FofQueue α) (fof : Addr) :
    (fofQueueFreeFof q fof).payload = q.payload :=
  payload_setNext { q with freeCnt := q.freeCnt + 1 } fof q.freeFofs

lemma fofQueueFreeFof_cacheOk {fof : Addr} (ok : CacheOk q) : CacheOk (fofQueueFreeFof q fof) := ok

lemma pushExcess_sameClock (q : FofQueue α) (fof : Addr) : SameClock q (pushExcess q fof) :=
  ⟨rfl, rfl, rfl, rfl, rfl⟩

lemma pushExcess_payload (q : FofQueue α) (fof : Addr) : (pushExcess q fof).payload = q.payload :=
  payload_setNext q fof q.excess

lemma pushExcess_cacheOk {fof : Addr} (ok : CacheOk q) : CacheOk (pushExcess q fof) := ok

/-- The exit for a start frame beyond the ring. -/
lemma recalculate_excess {c : Addr} {s nextFrame : Nat} (ge : nextFrame ≤ s)
    (far : q.nSlots ≤ slotIndex q s nextFrame) :
    recalculate q c s nextFrame = (.fofExcessInfo, pushExcess q c) := by
  rw [recalculate, if_neg (Nat.not_lt.2 ge)]
  exact if_pos far

/-- The accepting exit: whichever path is taken, the cell is linked into its slot. -/
lemma recalculate_success {c : Addr} {s nextFrame : Nat} (same : q.nextFrame = nextFrame)
    (ge : nextFrame ≤ s) (inside : slotIndex q s nextFrame < q.nSlots) :
    recalculate q c s nextFrame =
      (.success, (linkFar (cacheCurrentSlot q nextFrame) c
        (targetSlot (cacheCurrentSlot q nextFrame) (slotIndex q s nextFrame))).2) := by
  rw [recalculate, if_neg (Nat.not_lt.2 ge)]
  apply (if_neg (Int.not_le.2 inside)).trans
  have near := linkNear_eq (cacheCurrentSlot q nextFrame) c
    (targetSlot (cacheCurrentSlot q nextFrame) (slotIndex q s nextFrame))
  rw [(cacheCurrentSlot_sameClock q nextFrame).nextFrame, same] at near
  dsimp only
  rw [near, ite_self]
  rfl

/-- The exits of `fof_queue_add`, with `s` the start frame: late, beyond the ring, or linked into
    slot `j`. -/
theorem fofQueueAdd_cases (hd : Holds q cells L) (pos : 1 ≤ q.nSlots) (timeUs : Nat) (argv : α)
    {s : Nat} (es : s = jfofsTimeToNframes timeUs q.sampleRate) :
    (q.freeFofs = none ∧ fofQueueAdd q timeUs argv = (.fofLimitError, q)) ∨
    ∃ c l q', L .free = c :: l ∧ SameClock q q' ∧
      q'.payload = Function.update q.payload c (timeUs, argv) ∧ (CacheOk q → CacheOk q') ∧
      ((s < q.nextFrame ∧ fofQueueAdd q timeUs argv = (.fofLateWarning, q') ∧ Holds q' cells L) ∨
        (q.nextFrame ≤ s ∧ q.nSlots ≤ slotIndex q s q.nextFrame ∧
          fofQueueAdd q timeUs argv = (.fofExcessInfo, q') ∧
          Holds q' cells (moved L .free .excess [] c l)) ∨
        (∃ j, j = targetSlot (cacheCurrentSlot q q.nextFrame) (slotIndex q s q.nextFrame) ∧
          j < q.nSlots ∧ q.nextFrame ≤ s ∧ slotIndex q s q.nextFrame < q.nSlots ∧
          fofQueueAdd q timeUs argv = (.success, q') ∧
          Holds q' cells (moved L .free (.slot j) [] c l))) := by
  have sg := hd.list (k := .free) trivial
  cases el : L .free with
  | nil =>
    rw [el, Seg.nil_iff] at sg
    have free : q.freeFofs = none := sg
    exact .inl ⟨free, fofQueueAdd_none free timeUs argv⟩
  | cons c l =>
    rw [el, Seg.cons_iff] at sg
    have free : q.freeFofs = some c := sg.1
    have add := fofQueueAdd_some free timeUs argv
    rw [← es] at add
    have payload : (filled q c timeUs argv).payload = _ := filled_payload c timeUs argv
    right
    have clock1 := filled_sameClock q c timeUs argv
    have cache (ok : CacheOk q) : CacheOk (filled q c timeUs argv) := ok
    by_cases late : s < q.nextFrame
    · rw [recalculate, if_pos late] at add
      refine ⟨c, l, fofQueueFreeFof (filled q c timeUs argv) c, rfl,
        clock1.trans (fofQueueFreeFof_sameClock ..), (fofQueueFreeFof_payload ..).trans payload,
        fun ok => fofQueueFreeFof_cacheOk (cache ok), .inl ⟨late, add, ?_⟩⟩
      exact hd.giveBack free timeUs argv
    have ge : q.nextFrame ≤ s := Nat.le_of_not_lt late
    by_cases far : slotIndex q s q.nextFrame ≥ q.nSlots
    · have add := add.trans (recalculate_excess ge far)
      refine ⟨c, l, pushExcess (filled q c timeUs argv) c, rfl,
        clock1.trans (pushExcess_sameClock ..), (pushExcess_payload ..).trans payload,
        fun ok => pushExcess_cacheOk (cache ok), .inr (.inl ⟨ge, far, add, ?_⟩)⟩
      exact hd.pushExcess el timeUs argv
    have inside : slotIndex q s q.nextFrame < q.nSlots := Int.lt_of_not_ge far
    have ej := filled_targetSlot (q := q) c timeUs argv q.nextFrame (slotIndex q s q.nextFrame)
    have add := add.trans (recalculate_success clock1.nextFrame ge inside)
    rw [filled_slotIndex, ej] at add
    have clock := cacheCurrentSlot_sameClock q q.nextFrame
    have pos : 1 ≤ (cacheCurrentSlot q q.nextFrame).nSlots := clock.nSlots ▸ pos
    have lt := targetSlot_lt_nSlots pos (slotIndex q s q.nextFrame)
    rw [clock.nSlots] at lt
    have next : (filled q c timeUs argv).next = _ := filled_next c timeUs argv
    have fields : (filled q c timeUs argv).freeFofs = q.next c ∧
        (filled q c timeUs argv).slot = q.slot ∧ (filled q c timeUs argv).excess = q.excess ∧
        (filled q c timeUs argv).freeCnt = q.freeCnt - 1 := ⟨rfl, rfl, rfl, rfl⟩
    generalize filled q c timeUs argv = r at *
    generalize targetSlot (cacheCurrentSlot q q.nextFrame) (slotIndex q s q.nextFrame) = j at *
    have e3 := cacheCurrentSlot_eq r q.nextFrame
    have link := hd.linkFar (r := cacheCurrentSlot r q.nextFrame) lt el (by rw [e3]; exact next)
      (by rw [e3]; exact fields.1) (by rw [e3]; exact fields.2.1) (by rw [e3]; exact fields.2.2.1)
      (by rw [e3]; exact clock1.nSlots) (by rw [e3]; exact fields.2.2.2)
    refine ⟨c, l, (linkFar (cacheCurrentSlot r q.nextFrame) c j).2, rfl, ?_, ?_, ?_,
      .inr (.inr ⟨j, rfl, lt, ge, inside, add, link⟩)⟩
    · exact (clock1.trans (cacheCurrentSlot_sameClock ..)).trans (linkFar_sameClock ..)
    · exact ((linkFar_payload ..).trans (cacheCurrentSlot_payload ..)).trans payload
    · exact fun ok => linkFar_cacheOk (cacheCurrentSlot_cacheOk (cache ok))

end JackFofs
