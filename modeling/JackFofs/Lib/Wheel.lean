import Mathlib.Data.Nat.ModEq
import Mathlib.Logic.Function.Basic

/-!
# A wheel of slots

Entries wait for their time in a wheel of `n` slots, each `b` long. At time `now`, an entry that is
due at `t` goes to the slot of the block `(t - now) / b` blocks ahead of that of `now`, around the
wheel. A turn empties the slot of `now` and moves on by `b`.

`Timed` is the invariant of a wheel that nothing enters too late or more than a revolution ahead.
With it a turn leaves only entries that are not due before the next one (`Timed.le_due`).
-/

namespace Wheel

/-- Two blocks less than a revolution apart share a slot only if they are the same block. -/
lemma block_eq_of_mod_eq {b c n : Nat} (le : b ≤ c) (lt : c < b + n) (e : b % n = c % n) :
    b = c := by
  have h := (Nat.modEq_iff_dvd' le).1 e
  have z := Nat.eq_zero_of_dvd_of_lt h (by omega)
  omega

/-- Moving on by one block brings the block of a start frame nearer by one. -/
lemma ahead_step {t n b : Nat} (pos : 1 ≤ b) (le : n + b ≤ t) :
    (n + b) / b = n / b + 1 ∧ (t - n) / b = (t - (n + b)) / b + 1 := by
  have e : t - n = (t - (n + b)) + b := by omega
  rw [e]
  exact ⟨Nat.add_div_right n pos, Nat.add_div_right _ pos⟩

/-- Less than a revolution before a start frame, the slots agree only in the last block before it. -/
lemma ahead_slot_iff {t n b k : Nat} (pos : 1 ≤ b) (le : n ≤ t) (lt : (t - n) / b < k) :
    n / b % k = (n / b + (t - n) / b) % k ↔ t < n + b := by
  constructor
  · intro e
    have e := block_eq_of_mod_eq (Nat.le_add_right _ _) (by omega) e
    have z : (t - n) / b = 0 := by omega
    have lt := Nat.lt_of_div_eq_zero pos z
    omega
  · intro lt
    rw [Nat.div_eq_of_lt (by omega : t - n < b), Nat.add_zero]

universe u

variable {E : Type u} {n b now j : Nat} {due : E → Nat} {slots : Nat → List E} {e : E}

/-- The slot, at time `now`, of an entry due at `t`. -/
def slotFor (n b t now : Nat) : Nat := (now / b + (t - now) / b) % n

/-- Every entry waits in its slot, for a time at most a revolution ahead. -/
structure Timed (n b now : Nat) (due : E → Nat) (slots : Nat → List E) : Prop where
  le : ∀ {j e}, e ∈ slots j → now ≤ due e
  near : ∀ {j e}, e ∈ slots j → (due e - now) / b < n
  slot : ∀ {j e}, e ∈ slots j → slotFor n b (due e) now = j

/-- An empty wheel. -/
lemma Timed.empty : Timed n b now due fun _ => [] :=
  ⟨fun mem => absurd mem List.not_mem_nil, fun mem => absurd mem List.not_mem_nil,
    fun mem => absurd mem List.not_mem_nil⟩

/-- Only the time of a wheel with entries matters. -/
lemma Timed.congr {now' : Nat} (on : Timed n b now due slots)
    (same : ∀ {j e}, e ∈ slots j → now' = now) : Timed n b now' due slots := by
  constructor
  case le =>
    intro j e mem
    rw [same mem]
    exact on.le mem
  case near =>
    intro j e mem
    rw [same mem]
    exact on.near mem
  case slot =>
    intro j e mem
    rw [same mem]
    exact on.slot mem

/-- A new entry. -/
lemma Timed.insert (on : Timed n b now due slots) (le : now ≤ due e)
    (near : (due e - now) / b < n) :
    Timed n b now due
      (Function.update slots (slotFor n b (due e) now) (e :: slots (slotFor n b (due e) now))) := by
  have cases {j : Nat} {x : E} (mem : x ∈ Function.update slots (slotFor n b (due e) now)
      (e :: slots (slotFor n b (due e) now)) j) :
      x ∈ slots j ∨ (x = e ∧ slotFor n b (due e) now = j) := by
    by_cases ej : j = slotFor n b (due e) now
    · subst ej
      rw [Function.update_self] at mem
      obtain rfl | mem := List.mem_cons.1 mem
      · exact .inr ⟨rfl, rfl⟩
      · exact .inl mem
    · rw [Function.update_of_ne ej] at mem
      exact .inl mem
  constructor
  case le =>
    intro j x mem
    obtain old | ⟨rfl, -⟩ := cases mem
    · exact on.le old
    · exact le
  case near =>
    intro j x mem
    obtain old | ⟨rfl, -⟩ := cases mem
    · exact on.near old
    · exact near
  case slot =>
    intro j x mem
    obtain old | ⟨rfl, ej⟩ := cases mem
    · exact on.slot old
    · exact ej

/-- The other slots than that of `now` hold entries that are not due before the next turn. -/
lemma Timed.le_due (on : Timed n b now due slots) (pos : 1 ≤ b) (mem : e ∈ slots j)
    (ne : j ≠ now / b % n) : now + b ≤ due e := by
  apply Nat.le_of_not_lt
  intro lt
  exact ne ((on.slot mem).symm.trans ((ahead_slot_iff pos (on.le mem) (on.near mem)).2 lt).symm)

/-- What a turn leaves. -/
lemma mem_turn (mem : e ∈ Function.update slots (now / b % n) [] j) :
    e ∈ slots j ∧ j ≠ now / b % n := by
  by_cases ej : j = now / b % n
  · rw [ej, Function.update_self] at mem
    exact absurd mem List.not_mem_nil
  · rw [Function.update_of_ne ej] at mem
    exact ⟨mem, ej⟩

/-- A turn. -/
lemma Timed.turn (on : Timed n b now due slots) (pos : 1 ≤ b) :
    Timed n b (now + b) due (Function.update slots (now / b % n) []) := by
  constructor
  case le =>
    intro j e mem
    obtain ⟨mem, ne⟩ := mem_turn mem
    exact on.le_due pos mem ne
  case near =>
    intro j e mem
    obtain ⟨mem, ne⟩ := mem_turn mem
    obtain ⟨-, nearer⟩ := ahead_step pos (on.le_due pos mem ne)
    have near := on.near mem
    omega
  case slot =>
    intro j e mem
    obtain ⟨mem, ne⟩ := mem_turn mem
    obtain ⟨next, nearer⟩ := ahead_step pos (on.le_due pos mem ne)
    rw [← on.slot mem, slotFor, slotFor, next, nearer]
    congr 1
    omega

end Wheel
