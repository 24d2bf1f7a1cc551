import Mathlib.Algebra.BigOperators.Group.Finset.Basic
import Mathlib.Algebra.Order.Group.Multiset

/-!
# Voices on several banks

A bank plays some voices, and each of them goes on independently of the others. Then it does not matter
how voices are spread over `n` banks: new voices are the same to all banks together whichever bank they
are added to (`together_update`), and so is what becomes of them (`together_filterMap`). What the banks
sound like is left open: to add up the same voices in another order may give another sum.
-/

namespace Superposition
open Finset

universe u

variable {V : Type u}

/-- The voices of the first `n` banks. -/
def together (n : Nat) (bank : Nat → Multiset V) : Multiset V := ∑ i ∈ range n, bank i

variable {n i : Nat} {bank : Nat → Multiset V}

lemma together_succ : together (n + 1) bank = together n bank + bank n :=
  sum_range_succ bank n

lemma together_empty : together n (fun _ => (0 : Multiset V)) = 0 := sum_const_zero

lemma mem_together {v : V} : v ∈ together n bank ↔ ∃ i < n, v ∈ bank i := by
  rw [together, Multiset.mem_sum]
  simp only [mem_range]

/-- New voices on one of the banks. -/
lemma together_update (lt : i < n) (new : Multiset V) :
    together n (Function.update bank i (new + bank i)) = new + together n bank := by
  induction n with
  | zero => exact absurd lt (Nat.not_lt_zero i)
  | succ n ih =>
    rw [together_succ, together_succ]
    by_cases e : i = n
    · subst e
      have others : together i (Function.update bank i (new + bank i)) = together i bank := by
        refine sum_congr rfl fun j mem => Function.update_of_ne ?_ ..
        exact Nat.ne_of_lt (mem_range.1 mem)
      rw [others, Function.update_self, add_left_comm]
    · rw [ih (by omega), Function.update_of_ne (Ne.symm e), add_assoc]

/-- One bank emptied. -/
lemma together_take (lt : i < n) :
    bank i + together n (Function.update bank i 0) = together n bank := by
  rw [← together_update lt, Function.update_self, add_zero, Function.update_idem,
    Function.update_eq_self]

/-- Voices that go on in the same way on every bank. -/
lemma together_filterMap {next : Nat → V → Option V} {all : V → Option V}
    (same : ∀ i, i < n → next i = all) :
    together n (fun i => (bank i).filterMap (next i)) = (together n bank).filterMap all := by
  induction n with
  | zero => rfl
  | succ n ih =>
    rw [together_succ, together_succ, ih fun i lt => same i (Nat.lt_succ_of_lt lt),
      same n (Nat.lt_succ_self n), Multiset.filterMap_add]

end Superposition
