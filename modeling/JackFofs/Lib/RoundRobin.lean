import Mathlib.Data.Int.CardIntervalMod
import Mathlib.Tactic.Common

/-!
# Dealing in turn

`deal n i k` is the sequence of parties that get `k` items when items are dealt to `n` parties in
turn, party `i` first. A deal can be stopped and resumed at the party that is next (`deal_append`),
and no two parties ever differ by more than one item (`count_deal_le`).
-/

namespace RoundRobin

/-- The parties that get `k` items, from party `i` on. -/
def deal (n : Nat) : (i k : Nat) → List Nat
  | _, 0 => []
  | i, k + 1 => i :: deal n ((i + 1) % n) k

variable {n i j k m : Nat}

@[simp] lemma length_deal : (deal n i k).length = k := by
  induction k generalizing i with
  | zero => rfl
  | succ k ih => rw [deal, List.length_cons, ih]

/-- A deal that stops after `k` items resumes with party `(i + k) % n`. -/
lemma deal_append (lt : i < n) : deal n i k ++ deal n ((i + k) % n) m = deal n i (k + m) := by
  induction k generalizing i with
  | zero => rw [deal, List.nil_append, Nat.add_zero, Nat.mod_eq_of_lt lt, Nat.zero_add]
  | succ k ih =>
    have next : (i + 1) % n < n := Nat.mod_lt _ (Nat.zero_lt_of_lt lt)
    have e : ((i + 1) % n + k) % n = (i + (k + 1)) % n := by
      rw [Nat.mod_add_mod, Nat.add_assoc, Nat.add_comm 1 k]
    rw [Nat.succ_add, deal, deal, List.cons_append, ← e, ih next]

lemma deal_succ (lt : i < n) : deal n i (k + 1) = deal n i k ++ [(i + k) % n] := by
  rw [← deal_append lt]
  rfl

/-- Items only go to the `n` parties. -/
lemma lt_of_mem_deal (lt : i < n) (mem : j ∈ deal n i k) : j < n := by
  induction k generalizing i with
  | zero => exact absurd mem List.not_mem_nil
  | succ k ih =>
    cases mem with
    | head => exact lt
    | tail _ mem => exact ih (Nat.mod_lt _ (Nat.zero_lt_of_lt lt)) mem

/-- Party `j` gets the items whose number is `j` modulo `n`. -/
lemma count_deal (lt : j < n) : (deal n 0 k).count j = k.count (· ≡ j [MOD n]) := by
  induction k with
  | zero => rfl
  | succ k ih =>
    rw [deal_succ (Nat.zero_lt_of_lt lt), List.count_append, ih, Nat.count_succ, Nat.zero_add]
    congr 1
    rw [List.count_singleton]
    simp only [Nat.ModEq, Nat.mod_eq_of_lt lt, beq_iff_eq]

/-- No party is ahead of another one by more than one item. -/
theorem count_deal_le (lti : i < n) (ltj : j < n) :
    (deal n 0 k).count i ≤ (deal n 0 k).count j + 1 := by
  have pos : 0 < n := Nat.zero_lt_of_lt lti
  rw [count_deal lti, count_deal ltj, Nat.count_modEq_card k pos, Nat.count_modEq_card k pos]
  split <;> split <;> omega

end RoundRobin
