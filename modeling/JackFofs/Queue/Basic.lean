import Mathlib.Logic.Function.Basic
import JackFofs.Base.Types

/-!
# The fof queue

Model of `fof_queue.c`: the queue structure, the pool of cells, and the queue functions as they run
when nothing interferes. The interleaved versions of the same functions, one shared access a step,
are in `JackFofs/Conc`.

* A cell address is its index in the cell area (`fof + 1` is the next index), `NULL` is `none`, and
  the cell area itself is the field `fof` of the queue.
* The argument vector of a fof is only ever copied as a block, so its type `α` is a parameter.
* Run alone, a compare-exchange finds the value just loaded, so every retry loop succeeds at its
  first attempt and a recheck of `next_frame` finds it unchanged. Loops that walk a list carry a
  bound `fuel` on the number of cells visited and return `none` when it runs out.
* The fields and statements of a `DEBUG_ENABLE` build are included.
-/

namespace JackFofs

/-- Address of a cell: its index in the cell area. -/
abbrev Addr := Nat

/-- `fof_s` -/
structure Fof (α : Type) where
  next : Option Addr
  timeUs : Nat
  argv : α

/-- `fof_queue_s`, together with the memory its pointers point into. -/
structure FofQueue (α : Type) where
  nextFrame : Nat
  nextFrameCheck : Nat
  frameStamp : Nat
  currentSlot : Nat
  clockSource : Int
  nSlots : Nat
  sampleRate : Nat
  bufferSize : Nat
  maxFofs : Int
  freeCnt : Int
  activeCnt : Int
  freeFofs : Option Addr
  firstFof : Option Addr
  lastFof : Option Addr
  excess : Option Addr
  slot : Nat → Option Addr
  fof : Addr → Fof α

variable {α : Type}

namespace FofQueue

/-- The `next` field of a cell. -/
def next (q : FofQueue α) (a : Addr) : Option Addr := (q.fof a).next

/-- The write `fof->next = v`. -/
def setNext (q : FofQueue α) (a : Addr) (v : Option Addr) : FofQueue α :=
  { q with fof := Function.update q.fof a { q.fof a with next := v } }

/-- The write `q->slot[i] = v`. -/
def setSlot (q : FofQueue α) (i : Nat) (v : Option Addr) : FofQueue α :=
  { q with slot := Function.update q.slot i v }

end FofQueue

/-- Freshly mapped shared memory: all zero, except that the server has pointed `q->free_fofs` to the
    start of the cell area. -/
def FofQueue.zero (argv : α) : FofQueue α where
  nextFrame := 0
  nextFrameCheck := 0
  frameStamp := 0
  currentSlot := 0
  clockSource := 0
  nSlots := 0
  sampleRate := 0
  bufferSize := 0
  maxFofs := 0
  freeCnt := 0
  activeCnt := 0
  freeFofs := some 0
  firstFof := none
  lastFof := none
  excess := none
  slot := fun _ => none
  fof := fun _ => ⟨none, 0, argv⟩

/-! ## Initialisation -/

/-- The loop of `fof_queue_init` that clears the first `n` slots. -/
def clearSlots (q : FofQueue α) : Nat → FofQueue α
  | 0 => q
  | n + 1 => (clearSlots q n).setSlot n none

/-- The loop of `fof_queue_init` that links `n` cells, starting at `fof`, to their successors, and
    the final `fof->next = NULL`. -/
def linkFofs (q : FofQueue α) (fof : Addr) : Nat → FofQueue α
  | 0 => q.setNext fof none
  | n + 1 => linkFofs (q.setNext fof (some (fof + 1))) (fof + 1) n

/-- `fof_queue_init`. The server has pointed `q->free_fofs` to the start of the cell area, address
    `0`, before the call. -/
def fofQueueInit (q : FofQueue α) (setup : Setup) : FofQueue α :=
  let q := { q with
    nextFrame := 0
    nextFrameCheck := 0
    currentSlot := 0
    clockSource := (jfofsClockSourceNormalize setup.clockSource).code
    nSlots := setup.nSlots
    maxFofs := setup.nMaxFofs
    freeCnt := setup.nMaxFofs
    sampleRate := setup.sampleRate
    bufferSize := setup.maxBufferSize
    freeFofs := some 0
    lastFof := none
    excess := none }
  linkFofs (clearSlots q q.nSlots) 0 (setup.nMaxFofs - 1)

/-! ## The free list -/

/-- The successful compare-exchange of `fof_queue_allocate_fof` and the writes after it. -/
def popFree (q : FofQueue α) (fof : Addr) : FofQueue α :=
  { q with freeFofs := q.next fof, freeCnt := q.freeCnt - 1 }.setNext fof none

/-- `fof_queue_allocate_fof` -/
def fofQueueAllocateFof (q : FofQueue α) : Option Addr × JfofsStatus × FofQueue α :=
  match q.freeFofs with
  | none => (none, .memoryError, q)
  | some fof => (some fof, .success, popFree q fof)

/-- `fof_queue_free_fof` -/
def fofQueueFreeFof (q : FofQueue α) (fof : Addr) : FofQueue α :=
  let q := { q with freeCnt := q.freeCnt + 1 }
  let q := q.setNext fof q.freeFofs
  { q with freeFofs := some fof }

/-- The `DEBUG_ENABLE` loop of `fof_queue_free_fofs`: the number of cells from `fof` to `tail`. -/
def countFofs (q : FofQueue α) (tail : Addr) : (fuel : Nat) → (fof : Option Addr) → Option Nat
  | _, none => some 0
  | 0, some _ => none
  | fuel + 1, some fof =>
    if fof = tail then some 1
    else (countFofs q tail fuel (q.next fof)).map (· + 1)

/-- `fof_queue_free_fofs` -/
def fofQueueFreeFofs (fuel : Nat) (q : FofQueue α) (head tail : Addr) : Option (FofQueue α) := do
  let cnt ← countFofs q tail fuel (some head)
  let q := { q with freeCnt := q.freeCnt + cnt }
  let q := q.setNext tail q.freeFofs
  return { q with freeFofs := some head }

/-- The loop of `fof_queue_release_list` that looks for the last cell. -/
def findTail (q : FofQueue α) : (fuel : Nat) → (tail : Addr) → Option Addr
  | 0, _ => none
  | fuel + 1, tail =>
    match q.next tail with
    | none => some tail
    | some tail => findTail q fuel tail

/-- `fof_queue_release_list` -/
def fofQueueReleaseList (fuel : Nat) (q : FofQueue α) : Option Addr → Option (FofQueue α)
  | none => some q
  | some head => do
    let tail ← findTail q fuel head
    fofQueueFreeFofs fuel q head tail

/-- `fof_queue_take_slot`: the exchange of a slot with `NULL`. -/
def fofQueueTakeSlot (q : FofQueue α) (slot : Nat) : Option Addr × FofQueue α :=
  (q.slot slot, q.setSlot slot none)

/-- The loop of `fof_queue_flush` over the first `n` slots. -/
def flushSlots (fuel : Nat) (q : FofQueue α) : Nat → Option (FofQueue α)
  | 0 => some q
  | n + 1 => do
    let q ← flushSlots fuel q n
    let (head, q) := fofQueueTakeSlot q n
    fofQueueReleaseList fuel q head

/-- `fof_queue_flush` -/
def fofQueueFlush (fuel : Nat) (q : FofQueue α) : Option (FofQueue α) := do
  let q ← flushSlots fuel q q.nSlots
  let head := q.excess
  let q ← fofQueueReleaseList fuel { q with excess := none } head
  return { q with firstFof := none, lastFof := none, currentSlot := 0, nextFrameCheck := 0 }

/-! ## Adding a fof -/

/-- `set_fof` -/
def setFof (q : FofQueue α) (fof : Addr) (timeUs : Nat) (argv : α) : FofQueue α :=
  { q with fof := Function.update q.fof fof { q.fof fof with timeUs := timeUs, argv := argv } }

/-- The slot of a frame as both the producer's cache and the controller compute it:
    `(frame / q->buffer_size) & (q->n_slots - 1)`. -/
def slotOfFrame (q : FofQueue α) (frame : Nat) : Nat :=
  (frame / q.bufferSize) &&& (q.nSlots - 1)

/-- The block of `fof_queue_add` that caches `q->current_slot` for a value of `next_frame`. -/
def cacheCurrentSlot (q : FofQueue α) (nextFrame : Nat) : FofQueue α :=
  if nextFrame ≠ q.nextFrameCheck then
    { q with currentSlot := slotOfFrame q nextFrame, nextFrameCheck := nextFrame }
  else q

/-- `(int)(frame_delta / (uint64_t)q->buffer_size)` -/
def slotIndex (q : FofQueue α) (startFrame nextFrame : Nat) : Int :=
  toInt32 ((startFrame - nextFrame) / q.bufferSize)

/-- `(slot_idx + q->current_slot) & (q->n_slots - 1)`, computed in `uint64_t`. -/
def targetSlot (q : FofQueue α) (slotIdx : Int) : Nat :=
  ((slotIdx + q.currentSlot) % 2 ^ 64).toNat &&& (q.nSlots - 1)

-- The mask keeps both in bounds, with or without a power of two.
lemma and_sub_one_lt {n : Nat} (pos : 1 ≤ n) (x : Nat) : x &&& (n - 1) < n := by
  have le : x &&& (n - 1) ≤ n - 1 := Nat.and_le_right
  omega

lemma slotOfFrame_lt_nSlots {q : FofQueue α} (pos : 1 ≤ q.nSlots) (frame : Nat) :
    slotOfFrame q frame < q.nSlots :=
  and_sub_one_lt pos _

lemma targetSlot_lt_nSlots {q : FofQueue α} (pos : 1 ≤ q.nSlots) (slotIdx : Int) :
    targetSlot q slotIdx < q.nSlots :=
  and_sub_one_lt pos _

/-- The push on the excess list. -/
def pushExcess (q : FofQueue α) (fof : Addr) : FofQueue α :=
  { q.setNext fof q.excess with excess := some fof }

/-- The insertion into a slot that is not the current one. -/
def linkFar (q : FofQueue α) (fof : Addr) (slot : Nat) : JfofsStatus × FofQueue α :=
  let q := q.setNext fof (q.slot slot)
  (.success, q.setSlot slot (some fof))

/-- The insertion into the current slot: one attempt, given up as late when `next_frame` or the slot
    has moved. -/
def linkNear (q : FofQueue α) (fof : Addr) (slot nextFrame : Nat) : JfofsStatus × FofQueue α :=
  let head := q.slot slot
  let q := q.setNext fof head
  if q.nextFrame ≠ nextFrame then (.fofLateWarning, fofQueueFreeFof q fof)
  else if q.slot slot ≠ head then (.fofLateWarning, fofQueueFreeFof q fof)
  else (.success, q.setSlot slot (some fof))

/-- `fof_queue_add` from the label `recalculate` on. -/
def recalculate (q : FofQueue α) (fof : Addr) (startFrame nextFrame : Nat) :
    JfofsStatus × FofQueue α :=
  if startFrame < nextFrame then (.fofLateWarning, fofQueueFreeFof q fof)
  else
    let slotIdx := slotIndex q startFrame nextFrame
    if slotIdx ≥ q.nSlots then (.fofExcessInfo, pushExcess q fof)
    else
      let q := cacheCurrentSlot q nextFrame
      let slot := targetSlot q slotIdx
      if startFrame > u64 (nextFrame + q.bufferSize) then linkFar q fof slot
      else linkNear q fof slot nextFrame

/-- `fof_queue_add` -/
def fofQueueAdd (q : FofQueue α) (timeUs : Nat) (argv : α) : JfofsStatus × FofQueue α :=
  match fofQueueAllocateFof q with
  | (none, _, q) => (.fofLimitError, q)
  | (some fof, _, q) =>
    let startFrame := jfofsTimeToNframes timeUs q.sampleRate
    let q := setFof q fof timeUs argv
    recalculate q fof startFrame q.nextFrame

end JackFofs
