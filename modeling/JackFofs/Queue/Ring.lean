import JackFofs.Lib.Wheel
import JackFofs.Queue.Spec

/-!
# The ring of slots

The slot computations of producer and controller as arithmetic on blocks. Block `b` is the frames
from `b * buffer_size` on, `buffer_size` of them, and its slot is `b % n_slots`. With a power of two
for `n_slots` the mask of the code is this remainder (`slotOfFrame_eq`), and the slot the producer
derives from its cached base is the slot of a block too (`targetSlot_eq`).
-/

namespace JackFofs

variable {α : Type} {q : FofQueue α}

/-- The parameters of a ring: the documentation asks for a power of two, and both are a C `int`. -/
structure RingOk (q : FofQueue α) : Prop where
  pow : ∃ e, q.nSlots = 2 ^ e
  nSlots_lt : q.nSlots < 2 ^ 31
  bufferSize_pos : 1 ≤ q.bufferSize
  bufferSize_lt : q.bufferSize < 2 ^ 31

namespace RingOk

lemma nSlots_pos (ring : RingOk q) : 1 ≤ q.nSlots := by
  obtain ⟨e, he⟩ := ring.pow
  rw [he]
  exact Nat.one_le_two_pow

lemma congr {q' : FofQueue α} (ring : RingOk q) (nSlots : q'.nSlots = q.nSlots)
    (bufferSize : q'.bufferSize = q.bufferSize) : RingOk q' := by
  refine ⟨?_, ?_, ?_, ?_⟩
  · rw [nSlots]
    exact ring.pow
  · rw [nSlots]
    exact ring.nSlots_lt
  · rw [bufferSize]
    exact ring.bufferSize_pos
  · rw [bufferSize]
    exact ring.bufferSize_lt

/-- The mask `n_slots - 1` takes the remainder. -/
lemma mask_eq (ring : RingOk q) (x : Nat) : x &&& (q.nSlots - 1) = x % q.nSlots := by
  obtain ⟨e, he⟩ := ring.pow
  rw [he, Nat.and_two_pow_sub_one_eq_mod]

/-- Arithmetic in machine integers does not disturb the remainder. -/
lemma u32_mod (ring : RingOk q) (x : Nat) : u32 x % q.nSlots = x % q.nSlots := by
  obtain ⟨e, he⟩ := ring.pow
  have lt := ring.nSlots_lt
  rw [he] at lt ⊢
  have le : e ≤ 32 := by
    have lt := (Nat.pow_lt_pow_iff_right (by decide)).1 lt
    omega
  exact Nat.mod_mod_of_dvd x (Nat.pow_dvd_pow 2 le)

end RingOk

lemma slotOfFrame_eq (ring : RingOk q) (frame : Nat) :
    slotOfFrame q frame = frame / q.bufferSize % q.nSlots :=
  ring.mask_eq _

lemma slotIndex_eq {s nextFrame : Nat} (small : (s - nextFrame) / q.bufferSize < 2 ^ 31) :
    slotIndex q s nextFrame = ((s - nextFrame) / q.bufferSize : Nat) :=
  toInt32_of_lt small

/-- The sum of the casts `int` and `uint64_t`, modulo `2 ^ 32`. -/
lemma u32_toInt32_add {k c : Nat} (ltk : k < 2 ^ 32) :
    u32 (((toInt32 k + c) % 2 ^ 64).toNat) = u32 (c + k) := by
  unfold u32
  by_cases lt : k < 2 ^ 31
  · rw [toInt32_of_lt lt]
    omega
  · rw [toInt32_of_ge (Nat.le_of_not_lt lt) ltk]
    omega

/-- From the cached slot of `next_frame` the producer picks the slot `k` blocks after it, whatever the
    cast to `int` made of `k`. -/
lemma targetSlot_of_cached (ring : RingOk q) {nextFrame k : Nat}
    (cached : q.currentSlot = slotOfFrame q nextFrame) (lt : k < 2 ^ 32) :
    targetSlot q (toInt32 k) = (nextFrame / q.bufferSize + k) % q.nSlots := by
  rw [targetSlot, cached, ring.mask_eq, slotOfFrame_eq ring, ← ring.u32_mod, u32_toInt32_add lt,
    ring.u32_mod, Nat.mod_add_mod]

/-- The same with the cache brought up to date first. -/
lemma targetSlot_eq (ring : RingOk q) (ok : CacheOk q) (nextFrame : Nat) {k : Nat}
    (lt : k < 2 ^ 32) :
    targetSlot (cacheCurrentSlot q nextFrame) (toInt32 k) =
      (nextFrame / q.bufferSize + k) % q.nSlots := by
  have clock := cacheCurrentSlot_sameClock q nextFrame
  have cached : (cacheCurrentSlot q nextFrame).currentSlot =
      slotOfFrame (cacheCurrentSlot q nextFrame) nextFrame := by
    rw [cacheCurrentSlot_currentSlot ok, slotOfFrame, slotOfFrame, clock.nSlots, clock.bufferSize]
  rw [targetSlot_of_cached (ring.congr clock.nSlots clock.bufferSize) cached lt, clock.nSlots,
    clock.bufferSize]

/-- The block of a start frame, counted from the block of `next_frame`, starts at or before the
    start frame and ends less than two blocks after it. -/
lemma block_bounds {s nf b : Nat} (pos : 1 ≤ b) (le : nf ≤ s) :
    (nf / b + (s - nf) / b) * b ≤ s ∧ s < (nf / b + (s - nf) / b + 2) * b := by
  have h1 := Nat.div_add_mod nf b
  have h2 := Nat.div_add_mod (s - nf) b
  have l1 := Nat.mod_lt nf pos
  have l2 := Nat.mod_lt (s - nf) pos
  rw [Nat.add_mul, Nat.add_mul, Nat.add_mul, Nat.mul_comm (nf / b), Nat.mul_comm ((s - nf) / b)]
  omega

end JackFofs
