import Mathlib.Algebra.Order.Floor.Div
import JackFofs.Base.Types

/-!
# Frames and microseconds

`jfofs_nframes_to_time` and what the two truncating conversions of `jfofs_private.h` make of each
other. The arithmetic is about any two scales `r` and `m`: a count of the first scale goes to
`f * m / r`, and a count of the second one comes back as `t * r / m`.
-/

namespace JackFofs

/-- `jfofs_nframes_to_time`: the product is a `uint64_t`. -/
def jfofsNframesToTime (n sampleRate : Nat) : Nat :=
  u64 (n * 1000000) / sampleRate

section Rescale

variable {f t r m : Nat}

/-- A count that goes to the finer scale and comes back is one short, unless it went without a
    remainder. -/
lemma rescale_back (pos : 1 ≤ r) (le : r ≤ m) :
    f * m / r * r / m = if r ∣ f * m then f else f - 1 := by
  have mpos : 0 < m := Nat.lt_of_lt_of_le pos le
  split
  case isTrue dvd => rw [Nat.div_mul_cancel dvd, Nat.mul_div_cancel f mpos]
  case isFalse ndvd =>
    have rest : 0 < f * m % r := Nat.pos_of_ne_zero fun e => ndvd (Nat.dvd_of_mod_eq_zero e)
    have small : f * m % r < r := Nat.mod_lt _ pos
    have split_mul : r * (f * m / r) + f * m % r = f * m := Nat.div_add_mod (f * m) r
    have fpos : 1 ≤ f := by
      apply Nat.pos_of_ne_zero
      rintro rfl
      simp at rest
    have back : (f - 1) * m + m = f * m := by
      rw [← Nat.succ_mul, Nat.succ_eq_add_one, Nat.sub_add_cancel fpos]
    rw [Nat.mul_comm r] at split_mul
    apply Nat.div_eq_of_lt_le
    · omega
    · rw [Nat.sub_add_cancel fpos]
      omega

/-- The other way round, what is lost is one unit of each scale at most. -/
lemma rescale_forth (rpos : 1 ≤ r) (mpos : 1 ≤ m) :
    t * r / m * m / r ≤ t ∧ t < t * r / m * m / r + 1 + m ⌈/⌉ r := by
  constructor
  · apply Nat.div_le_of_le_mul
    rw [Nat.mul_comm r]
    exact Nat.div_mul_le_self _ m
  · have up : t * r < (t * r / m + 1) * m := Nat.lt_mul_of_div_lt (Nat.lt_succ_self _) mpos
    have down : t * r / m * m < (t * r / m * m / r + 1) * r :=
      Nat.lt_mul_of_div_lt (Nat.lt_succ_self _) rpos
    have unit : m ≤ r * (m ⌈/⌉ r) := (ceilDiv_le_iff_le_mul rpos).1 (Nat.le_refl _)
    apply Nat.lt_of_mul_lt_mul_right (a := r)
    calc t * r < t * r / m * m + m := by rwa [Nat.succ_mul] at up
      _ ≤ t * r / m * m + r * (m ⌈/⌉ r) := Nat.add_le_add_left unit _
      _ < (t * r / m * m / r + 1) * r + r * (m ⌈/⌉ r) := Nat.add_lt_add_right down _
      _ = (t * r / m * m / r + 1 + m ⌈/⌉ r) * r := by rw [Nat.add_mul _ (m ⌈/⌉ r), Nat.mul_comm r]

/-- The first count of the second scale that comes back as `f` or more. -/
lemma le_rescale_iff (rpos : 1 ≤ r) (mpos : 1 ≤ m) : f ≤ t * r / m ↔ f * m ⌈/⌉ r ≤ t := by
  rw [Nat.le_div_iff_mul_le mpos, ceilDiv_le_iff_le_mul rpos, Nat.mul_comm r]

/-- A count that goes to the finer scale, moves on by `t` there and comes back is at most one short of
    what `t` comes to alone. -/
lemma rescale_add (pos : 1 ≤ r) (le : r ≤ m) :
    (f * m / r + t) * r / m ≤ f + t * r / m ∧ f + t * r / m ≤ (f * m / r + t) * r / m + 1 := by
  have mpos : 0 < m := Nat.lt_of_lt_of_le pos le
  have there : f * m / r * r ≤ f * m := Nat.div_mul_le_self _ _
  have back : f * m < (f * m / r + 1) * r := Nat.lt_mul_of_div_lt (Nat.lt_succ_self _) pos
  have shift : f + t * r / m = (f * m + t * r) / m := by
    rw [Nat.add_comm (f * m), Nat.add_mul_div_right _ _ mpos, Nat.add_comm]
  rw [Nat.succ_mul] at back
  rw [shift, Nat.add_mul]
  constructor
  · exact Nat.div_le_div_right (by omega)
  · rw [← Nat.add_div_right _ mpos]
    exact Nat.div_le_div_right (by omega)

end Rescale

/-- Without an overflow a conversion to frames is a floor. -/
lemma jfofsTimeToNframes_eq {t sampleRate : Nat} (fits : t * sampleRate < 2 ^ 64)
    (lt : t * sampleRate / 1000000 < 2 ^ 32) :
    jfofsTimeToNframes t sampleRate = t * sampleRate / 1000000 := by
  rw [jfofsTimeToNframes, u64_of_lt fits]
  exact Nat.mod_eq_of_lt lt

/-- A frame that goes to microseconds and back is the same frame if the sample rate divides
    `f * 1000000`, and the frame before it otherwise. A time that goes to frames and back is at most
    one microsecond and the length of a frame early. The first time of frame `f` is
    `f * 1000000 / sample_rate`, rounded up. -/
theorem conversion_drift (sampleRate : Nat) (pos : 1 ≤ sampleRate) (le : sampleRate ≤ 1000000) :
    (∀ f, f < 2 ^ 32 →
      jfofsTimeToNframes (jfofsNframesToTime f sampleRate) sampleRate =
        if sampleRate ∣ f * 1000000 then f else f - 1) ∧
    (∀ t, t * sampleRate < 2 ^ 64 → t * sampleRate / 1000000 < 2 ^ 32 →
      jfofsNframesToTime (jfofsTimeToNframes t sampleRate) sampleRate ≤ t ∧
      t < jfofsNframesToTime (jfofsTimeToNframes t sampleRate) sampleRate + 1 +
        1000000 ⌈/⌉ sampleRate ∧
      ∀ f, jfofsTimeToNframes t sampleRate ≥ f ↔ t ≥ f * 1000000 ⌈/⌉ sampleRate) := by
  have mpos : 1 ≤ 1000000 := by decide
  refine ⟨fun f lt => ?_, fun t fits lt => ?_⟩
  · have fits : f * 1000000 < 2 ^ 64 := by omega
    have there : jfofsNframesToTime f sampleRate = f * 1000000 / sampleRate := by
      rw [jfofsNframesToTime, u64_of_lt fits]
    have le_time : f * 1000000 / sampleRate * sampleRate ≤ f * 1000000 := Nat.div_mul_le_self _ _
    have le_frame : f * 1000000 / sampleRate * sampleRate / 1000000 ≤ f :=
      Nat.div_le_of_le_mul (by omega)
    rw [there, jfofsTimeToNframes_eq (by omega) (by omega)]
    exact rescale_back pos le
  · rw [jfofsTimeToNframes_eq fits lt]
    have le_time : t * sampleRate / 1000000 * 1000000 ≤ t * sampleRate := Nat.div_mul_le_self _ _
    have back : jfofsNframesToTime (t * sampleRate / 1000000) sampleRate =
        t * sampleRate / 1000000 * 1000000 / sampleRate := by
      rw [jfofsNframesToTime, u64_of_lt (by omega)]
    rw [back]
    obtain ⟨early, bound⟩ := rescale_forth (t := t) pos mpos
    exact ⟨early, bound, fun f => le_rescale_iff pos mpos⟩

/-- At 44100 Hz frame 1 comes back as frame 0, and frame 441 as itself. -/
theorem conversion_drift_cd :
    jfofsTimeToNframes (jfofsNframesToTime 1 44100) 44100 = 0 ∧
      jfofsTimeToNframes (jfofsNframesToTime 441 44100) 44100 = 441 ∧
      (jfofsTimeToNframes 23 44100 ≥ 1 ↔ 23 ≥ 1 * 1000000 ⌈/⌉ 44100) := by
  obtain ⟨frames, times⟩ := conversion_drift 44100 (by decide) (by decide)
  have one := frames 1 (by decide)
  have cycle := frames 441 (by decide)
  rw [if_neg (by decide)] at one
  rw [if_pos (by decide)] at cycle
  exact ⟨one, cycle, (times 23 (by decide) (by decide)).2.2 1⟩

end JackFofs
