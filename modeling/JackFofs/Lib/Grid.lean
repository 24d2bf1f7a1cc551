import Mathlib.Data.List.Induction
import Mathlib.Logic.Function.Basic
import Mathlib.Tactic.Common

/-!
# Grids in row-major order

A grid `g` of `rows` rows and `cols` columns is listed row by row, entry `(r, c)` at index
`r * cols + c`. `getElem?_rowMajor` reads an entry of the listing, `getElem?_stack` an entry of a
stack of grids of one size listed one after the other. An array is filled by a list of single writes
(`store`); when no two of them disagree about an index, their order does not matter.
-/

namespace Grid

variable {α ι : Type*}

/-- The listing of a grid row by row. -/
def rowMajor (rows cols : Nat) (g : Nat → Nat → α) : List α :=
  (List.range (rows * cols)).map fun i => g (i / cols) (i % cols)

section Listing

variable {rows cols r c : Nat} {g : Nat → Nat → α}

@[simp] lemma length_rowMajor : (rowMajor rows cols g).length = rows * cols := by
  rw [rowMajor, List.length_map, List.length_range]

/-- The index of an entry of the grid is inside the listing. -/
lemma index_lt (hr : r < rows) (hc : c < cols) : r * cols + c < rows * cols := by
  have le : (r + 1) * cols ≤ rows * cols := Nat.mul_le_mul_right cols hr
  rw [Nat.succ_mul] at le
  omega

lemma index_div (hc : c < cols) : (r * cols + c) / cols = r := by
  rw [Nat.mul_comm, Nat.mul_add_div (Nat.zero_lt_of_lt hc), Nat.div_eq_of_lt hc, Nat.add_zero]

lemma index_mod (hc : c < cols) : (r * cols + c) % cols = c := by
  rw [Nat.mul_comm, Nat.mul_add_mod, Nat.mod_eq_of_lt hc]

lemma getElem?_rowMajor (hr : r < rows) (hc : c < cols) :
    (rowMajor rows cols g)[r * cols + c]? = some (g r c) := by
  rw [rowMajor, List.getElem?_map, List.getElem?_range (index_lt hr hc), Option.map_some,
    index_div hc, index_mod hc]

/-- Grids of one size listed one after the other. -/
def stack (rows cols : Nat) (gs : List (Nat → Nat → α)) : List α := gs.flatMap (rowMajor rows cols)

variable {gs : List (Nat → Nat → α)}

lemma length_stack : (stack rows cols gs).length = gs.length * (rows * cols) := by
  induction gs with
  | nil => rw [stack, List.flatMap_nil, List.length_nil, List.length_nil, Nat.zero_mul]
  | cons g gs ih =>
    rw [stack] at ih ⊢
    rw [List.flatMap_cons, List.length_append, length_rowMajor, ih, List.length_cons, Nat.succ_mul,
      Nat.add_comm]

/-- Row `r` of grid `i` of a stack is row `i * rows + r` of the listing. -/
lemma getElem?_stack {i : Nat} (hi : i < gs.length) (hr : r < rows) (hc : c < cols) :
    (stack rows cols gs)[(i * rows + r) * cols + c]? = some (gs[i] r c) := by
  induction gs generalizing i with
  | nil => exact absurd hi (Nat.not_lt_zero i)
  | cons g gs ih =>
    have lt := index_lt hr hc
    rw [stack, List.flatMap_cons]
    cases i with
    | zero =>
      rw [Nat.zero_mul, Nat.zero_add, List.getElem?_append_left (by rwa [length_rowMajor])]
      exact getElem?_rowMajor hr hc
    | succ i =>
      have e : ((i + 1) * rows + r) * cols + c = rows * cols + ((i * rows + r) * cols + c) := by
        rw [Nat.succ_mul, Nat.add_right_comm, Nat.add_mul (i * rows + r) rows]
        omega
      rw [e, List.getElem?_append_right (by rw [length_rowMajor]; omega), length_rowMajor,
        Nat.add_sub_cancel_left]
      exact ih (Nat.lt_of_succ_lt_succ hi)

end Listing

variable [DecidableEq ι]

/-- An array after the writes of a list, the first one first. -/
def store (buf : ι → α) (writes : List (ι × α)) : ι → α :=
  writes.foldl (fun buf w => Function.update buf w.1 w.2) buf

/-- If no two writes disagree about an index, the array holds what was written. -/
lemma store_of_mem {writes : List (ι × α)} (agree : ∀ w ∈ writes, ∀ w' ∈ writes, w.1 = w'.1 → w.2 = w'.2)
    (buf : ι → α) {w : ι × α} (mem : w ∈ writes) : store buf writes w.1 = w.2 := by
  induction writes using List.reverseRecOn with
  | nil => exact absurd mem List.not_mem_nil
  | append_singleton writes last ih =>
    rw [store, List.foldl_append, List.foldl_cons, List.foldl_nil]
    by_cases e : w.1 = last.1
    · rw [e, Function.update_self]
      exact agree last (by simp) w mem e.symm
    · rw [Function.update_of_ne e]
      obtain mem | mem := List.mem_append.1 mem
      · exact ih (fun x hx y hy => agree x (by simp [hx]) y (by simp [hy])) mem
      · rw [List.mem_singleton.1 mem] at e
        exact absurd rfl e

end Grid
