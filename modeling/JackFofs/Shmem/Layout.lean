import JackFofs.Lib.Memory
import JackFofs.Queue.Lists

/-!
# The layout of the shared memory

Model of `shmem.c`: the offsets of the slot array and the cell area, the pointers `shmem_create`
stores, and `fof_queue_init` once more, now by bytes, as the log of its writes in program order. The
sizes and offsets the compiler chooses are the structures `Sizes` and `Abi`; their fields are what the
C language promises about them.

The region is mapped, so its addresses do not wrap and are plain naturals. Offsets are `size_t`.
-/

namespace JackFofs
open Linked Memory

/-- `CACHE_LINE_SIZE` -/
def cacheLineSize : Nat := 64

/-- The fields of `fof_queue_s` that `fof_queue_init` reads or writes. -/
inductive QueueField where
  | nextFrame
  | nextFrameCheck
  | currentSlot
  | clockSource
  | nSlots
  | sampleRate
  | bufferSize
  | maxFofs
  | freeCnt
  | freeFofs
  | lastFof
  | excess
  | slot
deriving DecidableEq, Repr

/-- `sizeof(shmem_t)`, `sizeof(fof_t)` and `sizeof(void *)`. -/
structure Sizes where
  shmem : Nat
  fof : Nat
  ptr : Nat
  shmem_pos : 0 < shmem
  fof_pos : 0 < fof
  ptr_pos : 0 < ptr

/-- The place of `q` in `shmem_t`, of its fields in `fof_queue_t` and of `next` in `fof_t`. -/
structure Abi extends Sizes where
  queue : Nat
  queueLen : Nat
  field : QueueField → Nat
  fieldLen : QueueField → Nat
  next : Nat
  queue_le : queue + queueLen ≤ shmem
  field_le : ∀ f, field f + fieldLen f ≤ queueLen
  field_apart : ∀ {f g}, f ≠ g → field f + fieldLen f ≤ field g ∨ field g + fieldLen g ≤ field f
  next_le : next + ptr ≤ fof

/-- `shmem_offsets_s` -/
structure ShmemOffsets where
  slots : Nat
  fofs : Nat
  size : Nat
deriving DecidableEq, Repr

/-- `shmem_aligning_ptr` -/
def shmemAligningPtr (ptr alignmentSize : Nat) : Nat :=
  let rest := ptr % alignmentSize
  if rest = 0 then ptr else u64 (ptr + alignmentSize - rest)

/-- `shmem_layout` -/
def shmemLayout (sizes : Sizes) (setup : Setup) : ShmemOffsets :=
  let slotsOff := shmemAligningPtr sizes.shmem cacheLineSize
  let fofsOff := u64 (slotsOff + u64 (sizes.ptr * setup.nSlots))
  let fofsOff := shmemAligningPtr fofsOff cacheLineSize
  { slots := slotsOff, fofs := fofsOff, size := u64 (fofsOff + u64 (sizes.fof * setup.nMaxFofs)) }

/-- The address of the region and the two pointers into it that `shmem_create` stores in `q`. -/
structure ShmemRegion where
  base : Nat
  slot : Nat
  freeFofs : Nat

/-- The part of `shmem_create` that follows the mapping of the region at `base`. -/
def shmemCreate (sizes : Sizes) (base : Nat) (setup : Setup) : ShmemRegion where
  base := base
  slot := base + (shmemLayout sizes setup).slots
  freeFofs := base + (shmemLayout sizes setup).fofs

/-! ## The writes of `fof_queue_init` -/

/-- A value that is stored: an integer or a pointer, `none` for `NULL`. -/
inductive CVal where
  | int (v : Int)
  | ptr (p : Option Nat)
deriving DecidableEq, Repr

/-- The write `q->f = v`. -/
def storeField (abi : Abi) (shm : ShmemRegion) (f : QueueField) (v : CVal) : Write CVal :=
  ⟨shm.base + abi.queue + abi.field f, abi.fieldLen f, v⟩

/-- The writes to fields of `q`. -/
def storeFields (abi : Abi) (shm : ShmemRegion) (setup : Setup) : List (Write CVal) :=
  [storeField abi shm .nextFrame (.int 0),
    storeField abi shm .nextFrameCheck (.int 0),
    storeField abi shm .currentSlot (.int 0),
    storeField abi shm .clockSource (.int (jfofsClockSourceNormalize setup.clockSource).code),
    storeField abi shm .nSlots (.int setup.nSlots),
    storeField abi shm .maxFofs (.int setup.nMaxFofs),
    storeField abi shm .freeCnt (.int setup.nMaxFofs),
    storeField abi shm .sampleRate (.int setup.sampleRate),
    storeField abi shm .bufferSize (.int setup.maxBufferSize),
    storeField abi shm .lastFof (.ptr none),
    storeField abi shm .excess (.ptr none)]

/-- The loop that clears the first `n` slots of the array at `slot`. -/
def storeSlots (abi : Abi) (slot : Nat) : Nat → List (Write CVal)
  | 0 => []
  | n + 1 => storeSlots abi slot n ++ [⟨slot + abi.ptr * n, abi.ptr, .ptr none⟩]

/-- The loop that links `n` cells from `fof` on to their successors, and the final
    `fof->next = NULL`. -/
def storeLinks (abi : Abi) (fof : Nat) : Nat → List (Write CVal)
  | 0 => [⟨fof + abi.next, abi.ptr, .ptr none⟩]
  | n + 1 =>
    let next := fof + abi.fof
    ⟨fof + abi.next, abi.ptr, .ptr (some next)⟩ :: storeLinks abi next n

/-- `fof_queue_init`, by bytes. -/
def fofQueueInitLog (abi : Abi) (shm : ShmemRegion) (setup : Setup) : List (Write CVal) :=
  storeFields abi shm setup ++
    (storeSlots abi shm.slot setup.nSlots ++ storeLinks abi shm.freeFofs (setup.nMaxFofs - 1))

/-! ## The offsets -/

/-- The size of the region as an exact number. -/
def layoutSize (sizes : Sizes) (setup : Setup) : Nat :=
  alignUp (alignUp sizes.shmem cacheLineSize + sizes.ptr * setup.nSlots) cacheLineSize +
    sizes.fof * setup.nMaxFofs

lemma shmemAligningPtr_eq {ptr alignmentSize : Nat} (pos : 0 < alignmentSize)
    (fits : alignUp ptr alignmentSize < 2 ^ 64) :
    shmemAligningPtr ptr alignmentSize = alignUp ptr alignmentSize := by
  rw [alignUp_eq pos] at fits ⊢
  rw [shmemAligningPtr]
  split
  case isTrue zero => rfl
  case isFalse rest =>
    rw [if_neg rest] at fits
    exact u64_of_lt fits

variable {sizes : Sizes} {abi : Abi} {setup : Setup}

/-- If the size of the region fits into `size_t`, nothing wraps. -/
lemma shmemLayout_eq (fits : layoutSize sizes setup < 2 ^ 64) :
    shmemLayout sizes setup =
      { slots := alignUp sizes.shmem cacheLineSize
        fofs := alignUp (alignUp sizes.shmem cacheLineSize + sizes.ptr * setup.nSlots) cacheLineSize
        size := layoutSize sizes setup } := by
  have pos : 0 < cacheLineSize := by decide
  have le := le_alignUp (n := alignUp sizes.shmem cacheLineSize + sizes.ptr * setup.nSlots) pos
  unfold layoutSize at fits ⊢
  have slots : shmemAligningPtr sizes.shmem cacheLineSize = alignUp sizes.shmem cacheLineSize :=
    shmemAligningPtr_eq pos (by omega)
  have arr : u64 (sizes.ptr * setup.nSlots) = sizes.ptr * setup.nSlots := u64_of_lt (by omega)
  have arr_end : u64 (alignUp sizes.shmem cacheLineSize + sizes.ptr * setup.nSlots) =
      alignUp sizes.shmem cacheLineSize + sizes.ptr * setup.nSlots := u64_of_lt (by omega)
  have fofs : shmemAligningPtr (alignUp sizes.shmem cacheLineSize + sizes.ptr * setup.nSlots)
      cacheLineSize =
        alignUp (alignUp sizes.shmem cacheLineSize + sizes.ptr * setup.nSlots) cacheLineSize :=
    shmemAligningPtr_eq pos (by omega)
  have area : u64 (sizes.fof * setup.nMaxFofs) = sizes.fof * setup.nMaxFofs := u64_of_lt (by omega)
  rw [shmemLayout, slots, arr, arr_end, fofs, area, u64_of_lt fits]

/-! ## What the writes leave -/

section Init

variable {shm : ShmemRegion} {w : Write CVal} {slot fof n i j : Nat}

lemma storeFields_inside (mem : w ∈ storeFields abi shm setup) :
    w.Inside (shm.base + abi.queue) abi.queueLen := by
  have inside (f : QueueField) (v : CVal) :
      (storeField abi shm f v).Inside (shm.base + abi.queue) abi.queueLen := by
    refine ⟨Nat.le_add_right .., ?_⟩
    have le := abi.field_le f
    show shm.base + abi.queue + abi.field f + abi.fieldLen f ≤ _
    omega
  simp only [storeFields, List.mem_cons, List.not_mem_nil, or_false] at mem
  obtain rfl | rfl | rfl | rfl | rfl | rfl | rfl | rfl | rfl | rfl | rfl := mem <;> exact inside _ _

/-- The two pointers that `shmem_create` stored are not written. -/
lemma storeFields_apart {f : QueueField} (keep : f = .slot ∨ f = .freeFofs)
    (mem : w ∈ storeFields abi shm setup) :
    w.Apart (shm.base + abi.queue + abi.field f) (abi.fieldLen f) := by
  have apart {g : QueueField} (v : CVal) (ne : g ≠ f) :
      (storeField abi shm g v).Apart (shm.base + abi.queue + abi.field f) (abi.fieldLen f) := by
    obtain le | le := abi.field_apart ne
    · exact .inl (by show shm.base + abi.queue + abi.field g + abi.fieldLen g ≤ _; omega)
    · exact .inr (by show _ ≤ shm.base + abi.queue + abi.field g; omega)
  simp only [storeFields, List.mem_cons, List.not_mem_nil, or_false] at mem
  obtain rfl | rfl := keep <;>
    obtain rfl | rfl | rfl | rfl | rfl | rfl | rfl | rfl | rfl | rfl | rfl := mem <;>
    exact apart _ (by decide)

lemma storeSlots_inside (mem : w ∈ storeSlots abi slot n) : w.Inside slot (abi.ptr * n) := by
  induction n with
  | zero => exact absurd mem List.not_mem_nil
  | succ n ih =>
    rw [Nat.mul_succ]
    obtain mem | mem := List.mem_append.1 mem
    · exact (ih mem).mono (Nat.le_refl _) (by omega)
    · rw [List.mem_singleton.1 mem]
      exact ⟨Nat.le_add_right .., Nat.le_of_eq (Nat.add_assoc ..)⟩

lemma storeSlots_reads (lt : j < n) :
    Reads (storeSlots abi slot n) (slot + abi.ptr * j) abi.ptr (.ptr none) := by
  induction n with
  | zero => exact absurd lt (Nat.not_lt_zero j)
  | succ n ih =>
    rw [storeSlots]
    by_cases e : j = n
    · subst e
      exact (Reads.last fun w mem => absurd mem List.not_mem_nil).after
    · have lt : j < n := by omega
      apply (ih lt).before
      intro w mem
      rw [List.mem_singleton.1 mem]
      have le : abi.ptr * (j + 1) ≤ abi.ptr * n := Nat.mul_le_mul_left _ lt
      rw [Nat.mul_succ] at le
      exact .inr (by show slot + abi.ptr * j + abi.ptr ≤ slot + abi.ptr * n; omega)

lemma storeLinks_inside (mem : w ∈ storeLinks abi fof n) : w.Inside fof (abi.fof * (n + 1)) := by
  have le := abi.next_le
  induction n generalizing fof with
  | zero =>
    rw [List.mem_singleton.1 mem]
    exact ⟨Nat.le_add_right .., by show fof + abi.next + abi.ptr ≤ _; omega⟩
  | succ n ih =>
    rw [Nat.mul_succ]
    obtain rfl | mem := List.mem_cons.1 mem
    · exact ⟨Nat.le_add_right .., by show fof + abi.next + abi.ptr ≤ _; omega⟩
    · exact (ih mem).mono (Nat.le_add_right ..) (by omega)

/-- The walk by pointer increment links the cell at `fof + sizeof(fof_t) * i` to the next one. -/
lemma storeLinks_reads (le : i ≤ n) :
    Reads (storeLinks abi fof n) (fof + abi.fof * i + abi.next) abi.ptr
      (.ptr (if i < n then some (fof + abi.fof * (i + 1)) else none)) := by
  have fits := abi.next_le
  induction n generalizing fof i with
  | zero =>
    rw [Nat.le_zero.1 le]
    exact Reads.last fun w mem => absurd mem List.not_mem_nil
  | succ n ih =>
    rw [storeLinks]
    cases i with
    | zero =>
      rw [if_pos (Nat.succ_pos n), Nat.mul_one]
      apply Reads.last
      intro w mem
      exact (storeLinks_inside mem).apart (.inr (by omega))
    | succ i =>
      have e (k : Nat) : fof + abi.fof + abi.fof * k = fof + abi.fof * (k + 1) := by
        rw [Nat.mul_succ]
        omega
      have rd : Reads (storeLinks abi (fof + abi.fof) n) _ _ _ := ih (Nat.le_of_succ_le_succ le)
      rw [e, e] at rd
      simp only [Nat.succ_lt_succ_iff]
      exact rd.cons

end Init

/-! ## The two levels of the initialisation -/

lemma linkFofs_next {α : Type} (q : FofQueue α) {fof n b : Nat} (ge : fof ≤ b) (le : b ≤ fof + n) :
    (linkFofs q fof n).next b = if b < fof + n then some (b + 1) else none := by
  induction n generalizing q fof with
  | zero =>
    have e : b = fof := Nat.le_antisymm le ge
    rw [linkFofs, next_setNext, e, Function.update_self, Nat.add_zero, if_neg (Nat.lt_irrefl _)]
  | succ n ih =>
    rw [linkFofs]
    by_cases e : b = fof
    · subst e
      obtain ⟨-, keep, -⟩ := linkFofs_spec (q.setNext b (some (b + 1))) (b + 1) n
      rw [keep b (Nat.lt_succ_self b), next_setNext, Function.update_self, if_pos (by omega)]
    · rw [ih _ (by omega) (by omega)]
      congr 1
      simp only [eq_iff_iff]
      omega

lemma fofQueueInit_next {α : Type} (q : FofQueue α) {i : Nat} (lt : i < setup.nMaxFofs) :
    (fofQueueInit q setup).next i = if i < setup.nMaxFofs - 1 then some (i + 1) else none := by
  have next := linkFofs_next (b := i) (clearSlots
    { q with
      nextFrame := 0, nextFrameCheck := 0, currentSlot := 0
      clockSource := (jfofsClockSourceNormalize setup.clockSource).code
      nSlots := setup.nSlots, maxFofs := setup.nMaxFofs, freeCnt := setup.nMaxFofs
      sampleRate := setup.sampleRate, bufferSize := setup.maxBufferSize
      freeFofs := some 0, lastFof := none, excess := none } setup.nSlots)
    (Nat.zero_le i) (n := setup.nMaxFofs - 1) (by omega)
  rw [Nat.zero_add] at next
  exact next

/-- The address of cell `i`. -/
def cellAddr (abi : Abi) (shm : ShmemRegion) (i : Addr) : Nat := shm.freeFofs + abi.fof * i

/-- Read back from the bytes, the `next` field of a cell is the one of the cell model. -/
lemma fofQueueInitLog_next {α : Type} {shm : ShmemRegion} (q : FofQueue α) {i : Nat}
    (lt : i < setup.nMaxFofs) :
    Reads (fofQueueInitLog abi shm setup) (cellAddr abi shm i + abi.next) abi.ptr
      (.ptr (((fofQueueInit q setup).next i).map (cellAddr abi shm))) := by
  have rd : Reads (storeLinks abi shm.freeFofs (setup.nMaxFofs - 1)) _ _ _ :=
    storeLinks_reads (i := i) (by omega)
  have e : (if i < setup.nMaxFofs - 1 then some (shm.freeFofs + abi.fof * (i + 1)) else none) =
      ((fofQueueInit q setup).next i).map (cellAddr abi shm) := by
    rw [fofQueueInit_next q lt]
    split <;> rfl
  rw [e] at rd
  exact rd.after.after

/-- What `fof_queue_init` does to a region in which the slot array ends before the cells start: it
    writes only to the queue header, the slots and the cells, leaves `q->slot` and `q->free_fofs`
    alone, clears every slot and links the cells in address order. -/
structure FreshRegion (abi : Abi) (setup : Setup) (shm : ShmemRegion) : Prop where
  inside : ∀ w ∈ fofQueueInitLog abi shm setup, w.Inside (shm.base + abi.queue) abi.queueLen ∨
    w.Inside shm.slot (abi.ptr * setup.nSlots) ∨ w.Inside shm.freeFofs (abi.fof * setup.nMaxFofs)
  keeps : ∀ w ∈ fofQueueInitLog abi shm setup, ∀ f, f = QueueField.slot ∨ f = .freeFofs →
    w.Apart (shm.base + abi.queue + abi.field f) (abi.fieldLen f)
  slots : ∀ j, j < setup.nSlots → ∀ v,
    Reads (fofQueueInitLog abi shm setup) (shm.slot + abi.ptr * j) abi.ptr v ↔ v = .ptr none
  cells : ∃ next : Nat → Option Nat,
    (∀ i, i < setup.nMaxFofs → ∀ v,
      Reads (fofQueueInitLog abi shm setup) (cellAddr abi shm i + abi.next) abi.ptr v ↔
        v = .ptr (next (cellAddr abi shm i))) ∧
    Seg next (some shm.freeFofs) ((List.range setup.nMaxFofs).map (cellAddr abi shm)) none

lemma freshRegion_of_apart {shm : ShmemRegion} (pos : 1 ≤ setup.nMaxFofs)
    (header : shm.base + abi.shmem ≤ shm.slot)
    (slots : shm.slot + abi.ptr * setup.nSlots ≤ shm.freeFofs) : FreshRegion abi setup shm := by
  have queue := abi.queue_le
  have n : setup.nMaxFofs - 1 + 1 = setup.nMaxFofs := Nat.sub_add_cancel pos
  have mem_iff {w : Write CVal} (mem : w ∈ fofQueueInitLog abi shm setup) :
      w ∈ storeFields abi shm setup ∨ w.Inside shm.slot (abi.ptr * setup.nSlots) ∨
        w.Inside shm.freeFofs (abi.fof * setup.nMaxFofs) := by
    obtain mem | mem := List.mem_append.1 mem
    · exact .inl mem
    · obtain mem | mem := List.mem_append.1 mem
      · exact .inr (.inl (storeSlots_inside mem))
      · have inside := storeLinks_inside mem
        rw [n] at inside
        exact .inr (.inr inside)
  have reads_iff {a : Nat} {v : CVal} (rd : Reads (fofQueueInitLog abi shm setup) a abi.ptr v)
      (v' : CVal) : Reads (fofQueueInitLog abi shm setup) a abi.ptr v' ↔ v' = v := by
    constructor
    · exact fun rd' => rd'.unique abi.ptr_pos rd
    · rintro rfl
      exact rd
  constructor
  case inside =>
    intro w mem
    exact (mem_iff mem).imp_left storeFields_inside
  case keeps =>
    intro w mem f keep
    have le := abi.field_le f
    obtain mem | inside | inside := mem_iff mem
    · exact storeFields_apart keep mem
    · exact inside.apart (.inr (by omega))
    · exact inside.apart (.inr (by omega))
  case slots =>
    intro j lt
    apply reads_iff
    apply Reads.after
    apply (storeSlots_reads lt).before
    intro w mem
    have le : abi.ptr * (j + 1) ≤ abi.ptr * setup.nSlots := Nat.mul_le_mul_left _ lt
    rw [Nat.mul_succ] at le
    exact (storeLinks_inside mem).apart (.inr (by omega))
  case cells =>
    -- the cell an address belongs to
    let index (a : Nat) : Addr := (a - shm.freeFofs) / abi.fof
    have index_addr (i : Addr) : index (cellAddr abi shm i) = i := by
      show (shm.freeFofs + abi.fof * i - shm.freeFofs) / abi.fof = i
      rw [Nat.add_sub_cancel_left, Nat.mul_div_cancel_left i abi.fof_pos]
    let q : FofQueue Unit := fofQueueInit (.zero ()) setup
    let next (a : Nat) : Option Nat := (q.next (index a)).map (cellAddr abi shm)
    have next_addr (i : Addr) : next (cellAddr abi shm i) = (q.next i).map (cellAddr abi shm) := by
      show (q.next (index (cellAddr abi shm i))).map _ = _
      rw [index_addr]
    refine ⟨next, fun i lt => ?_, ?_⟩
    · rw [next_addr]
      exact reads_iff (fofQueueInitLog_next (.zero ()) lt)
    · have sg := (fofQueueInit_holds (.zero ()) setup pos).list (k := .free) trivial
      have free : q.head .free = some 0 := sg.head_eq.trans (by
        rw [initLists, ← n, List.range_succ_eq_map]
        rfl)
      rw [free] at sg
      exact sg.map fun i _ => next_addr i

/-- For all sizes and every number of slots and cells for which the total fits into `size_t`: header,
    slots and cells follow each other in the region without overlap, the two arrays start on cache
    lines, less than a cache line is unused before each of them, and `fof_queue_init` writes only to
    the queue header, the slots and the cells, and links all cells in address order. -/
theorem shmem_layout_sound (sizes : Sizes) (setup : Setup)
    (fits : layoutSize sizes setup < 2 ^ 64) :
    ∃ off, shmemLayout sizes setup = off ∧
      sizes.shmem ≤ off.slots ∧ off.slots + sizes.ptr * setup.nSlots ≤ off.fofs ∧
      off.fofs + sizes.fof * setup.nMaxFofs = off.size ∧
      cacheLineSize ∣ off.slots ∧ cacheLineSize ∣ off.fofs ∧
      off.slots - sizes.shmem < cacheLineSize ∧
      off.fofs - (off.slots + sizes.ptr * setup.nSlots) < cacheLineSize ∧
      ∀ (abi : Abi) (base : Nat), abi.toSizes = sizes → 1 ≤ setup.nMaxFofs →
        FreshRegion abi setup (shmemCreate sizes base setup) := by
  have line : 0 < cacheLineSize := by decide
  have slots_le := le_alignUp (n := sizes.shmem) line
  have slots_lt := alignUp_lt (n := sizes.shmem) line
  have fofs_le := le_alignUp (n := alignUp sizes.shmem cacheLineSize + sizes.ptr * setup.nSlots) line
  have fofs_lt := alignUp_lt (n := alignUp sizes.shmem cacheLineSize + sizes.ptr * setup.nSlots) line
  have layout := shmemLayout_eq fits
  refine ⟨_, layout, slots_le, fofs_le, rfl, dvd_alignUp, dvd_alignUp, by dsimp only; omega,
    by dsimp only; omega, fun abi base same pos => ?_⟩
  subst same
  apply freshRegion_of_apart pos
  · rw [shmemCreate, layout]
    exact Nat.add_le_add_left slots_le base
  · rw [shmemCreate, layout]
    dsimp only
    omega

/-- Sizes and offsets on a 64-bit machine, with a header of 200 bytes. -/
def abi64 : Abi where
  shmem := 200
  fof := 80
  ptr := 8
  queue := 80
  queueLen := 120
  field
    | .nextFrame => 0
    | .nextFrameCheck => 8
    | .currentSlot => 16
    | .clockSource => 24
    | .nSlots => 28
    | .sampleRate => 32
    | .bufferSize => 36
    | .maxFofs => 40
    | .freeCnt => 44
    | .freeFofs => 48
    | .lastFof => 56
    | .excess => 64
    | .slot => 72
  fieldLen
    | .clockSource | .nSlots | .sampleRate | .bufferSize | .maxFofs | .freeCnt => 4
    | _ => 8
  next := 0
  shmem_pos := by decide
  fof_pos := by decide
  ptr_pos := by decide
  queue_le := by decide
  field_le f := by cases f <;> decide
  field_apart {f g} ne := by
    revert ne
    cases f <;> cases g <;> decide
  next_le := by decide

/-- Three slots and two cells: the slots start at 256, the cells at 320, and the region has 480
    bytes. -/
theorem shmem_layout_sound_two :
    ∃ off, shmemLayout abi64.toSizes ⟨0, 1, 2, 3, 48000, 64⟩ = off ∧ off.slots + 24 ≤ off.fofs ∧
      off.fofs + 160 = off.size ∧ FreshRegion abi64 ⟨0, 1, 2, 3, 48000, 64⟩
        (shmemCreate abi64.toSizes 4096 ⟨0, 1, 2, 3, 48000, 64⟩) := by
  obtain ⟨off, e, -, slots, size, -, -, -, -, fresh⟩ :=
    shmem_layout_sound abi64.toSizes ⟨0, 1, 2, 3, 48000, 64⟩ (by decide)
  exact ⟨off, e, slots, size, fresh abi64 4096 rfl (by decide)⟩

end JackFofs
