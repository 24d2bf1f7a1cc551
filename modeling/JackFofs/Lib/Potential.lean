import Mathlib.Algebra.BigOperators.Group.Finset.Basic
import Mathlib.Algebra.GroupWithZero.Nat
import Mathlib.Algebra.Order.BigOperators.Group.Finset
import JackFofs.Lib.Run

/-!
# Amortized cost of a run

`Run.amortized` is the potential method: if every entry of a run is paid for by what it takes from a
potential and by its own credit, the whole run is paid for by the first potential and all credits.

`potential` is a potential for `n` parties that share memory without locks. A party has a `rank`, the
number of steps it needs when nobody interferes, and a `quota`, the number of times it can still
interfere with the others. A step that interferes with nobody lowers the rank of its party; one that
interferes can raise all ranks up to their bound `r`, and lowers the quota of its party.
-/

namespace Runs
open Finset

universe u

variable {σ ο ρ : Type u} {exec : σ → ο → Option (ρ × σ)} {s s' : σ} {log : List (Entry σ ο ρ)}

/-- The total cost of a run is at most the potential it starts with and the credits of its entries. -/
theorem Run.amortized (Inv : σ → Prop) (Φ : σ → Nat) (cost credit : Entry σ ο ρ → Nat)
    (run : Run exec s log s')
    (step : ∀ {x s1}, x ∈ log → Inv x.pre → exec x.pre x.op = some (x.out, s1) →
      Inv s1 ∧ cost x + Φ s1 ≤ Φ x.pre + credit x)
    (inv : Inv s) : (log.map cost).sum + Φ s' ≤ Φ s + (log.map credit).sum := by
  induction run with
  | nil => exact Nat.le_of_eq (Nat.add_comm _ _)
  | @cons s s1 s' op out log e run ih =>
    obtain ⟨inv1, paid⟩ := step List.mem_cons_self inv e
    have paid : cost ⟨s, op, out⟩ + Φ s1 ≤ Φ s + credit ⟨s, op, out⟩ := paid
    have rest := ih (fun mem => step (List.mem_cons_of_mem _ mem)) inv1
    rw [List.map_cons, List.sum_cons, List.map_cons, List.sum_cons]
    omega

/-- The total of a constant charge. -/
lemma sum_map_ite {ε : Type u} (c : Nat) (b : ε → Bool) (l : List ε) :
    (l.map fun x => if b x then c else 0).sum = l.countP b * c := by
  induction l with
  | nil => exact (Nat.zero_mul c).symm
  | cons x l ih =>
    rw [List.map_cons, List.sum_cons, ih, List.countP_cons, Nat.add_mul]
    split
    · rw [Nat.one_mul, Nat.add_comm]
    · rw [Nat.zero_mul, Nat.zero_add, Nat.add_zero]

/-- The potential of `n` parties with ranks up to `r`. -/
def potential (n r : Nat) (rank quota : Nat → Nat) : Nat :=
  (∑ p ∈ range n, rank p) + (r * n + 1) * ∑ p ∈ range n, quota p

section Potential

variable {n r p : Nat} {rank rank' quota quota' : Nat → Nat}

/-- A sum in which one summand changes. -/
lemma sum_range_split (f : Nat → Nat) (lt : p < n) :
    ∑ i ∈ range n, f i = f p + ∑ i ∈ (range n).erase p, f i :=
  (add_sum_erase _ _ (mem_range.2 lt)).symm

lemma sum_le_of_others {f g : Nat → Nat} {d : Nat} (lt : p < n) (others : ∀ i, i ≠ p → g i = f i)
    (self : g p + d ≤ f p) : (∑ i ∈ range n, g i) + d ≤ ∑ i ∈ range n, f i := by
  have same : ∑ i ∈ (range n).erase p, g i = ∑ i ∈ (range n).erase p, f i :=
    sum_congr rfl fun i mem => others i (ne_of_mem_erase mem)
  rw [sum_range_split f lt, sum_range_split g lt, same]
  omega

lemma sum_le_bound (bound : ∀ i, rank i ≤ r) : ∑ i ∈ range n, rank i ≤ r * n := by
  have le : ∑ i ∈ range n, rank i ≤ ∑ i ∈ range n, r := sum_le_sum fun i _ => bound i
  rw [sum_const_nat fun _ _ => rfl, card_range, Nat.mul_comm] at le
  exact le

/-- A step that interferes with nobody. -/
lemma potential_private (lt : p < n) (self : rank' p < rank p) (spent : quota' p ≤ quota p)
    (ranks : ∀ i, i ≠ p → rank' i = rank i) (quotas : ∀ i, i ≠ p → quota' i = quota i) :
    1 + potential n r rank' quota' ≤ potential n r rank quota := by
  have lower : (∑ i ∈ range n, rank' i) + 1 ≤ ∑ i ∈ range n, rank i :=
    sum_le_of_others lt ranks self
  have same : ∑ i ∈ range n, quota' i ≤ ∑ i ∈ range n, quota i :=
    sum_le_of_others (d := 0) lt quotas spent
  have scaled := Nat.mul_le_mul_left (r * n + 1) same
  rw [potential, potential]
  omega

/-- A step that may change the ranks of all parties. -/
lemma potential_interfere (lt : p < n) (bound : ∀ i, rank' i ≤ r) (spent : quota' p + 1 ≤ quota p)
    (quotas : ∀ i, i ≠ p → quota' i = quota i) :
    1 + potential n r rank' quota' ≤ potential n r rank quota := by
  have ranks := sum_le_bound (n := n) bound
  have lower := Nat.mul_le_mul_left (r * n + 1) (sum_le_of_others lt quotas spent)
  rw [Nat.mul_add] at lower
  rw [potential, potential]
  omega

/-- The last step of an operation may change all ranks too, and renews the quota. -/
lemma potential_return (lt : p < n) (bound : ∀ i, rank' i ≤ r) (renewed : quota' p ≤ quota p + 1)
    (quotas : ∀ i, i ≠ p → quota' i = quota i) :
    1 + potential n r rank' quota' ≤ potential n r rank quota + 2 * (r * n + 1) := by
  have ranks := sum_le_bound (n := n) bound
  have same : ∑ i ∈ (range n).erase p, quota' i = ∑ i ∈ (range n).erase p, quota i :=
    sum_congr rfl fun i mem => quotas i (ne_of_mem_erase mem)
  have upper : ∑ i ∈ range n, quota' i ≤ (∑ i ∈ range n, quota i) + 1 := by
    rw [sum_range_split quota lt, sum_range_split quota' lt, same]
    omega
  have scaled := Nat.mul_le_mul_left (r * n + 1) upper
  rw [Nat.mul_add] at scaled
  rw [potential, potential]
  omega

/-- A change from outside. -/
lemma potential_disturb (bound : ∀ i, rank' i ≤ r) (quotas : ∀ i, quota' i = quota i) :
    potential n r rank' quota' ≤ potential n r rank quota + r * n := by
  have ranks := sum_le_bound (n := n) bound
  have same : ∑ i ∈ range n, quota' i = ∑ i ∈ range n, quota i := sum_congr rfl fun i _ => quotas i
  rw [potential, potential, same]
  omega

/-- The potential of parties with ranks up to `r` and quotas up to `k`. -/
lemma potential_le {k : Nat} (bound : ∀ i, rank i ≤ r) (quotas : ∀ i, quota i ≤ k) :
    potential n r rank quota ≤ r * n + (r * n + 1) * (k * n) :=
  Nat.add_le_add (sum_le_bound bound) (Nat.mul_le_mul_left _ (sum_le_bound quotas))

end Potential

end Runs
