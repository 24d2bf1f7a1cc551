import Mathlib.Algebra.Order.Floor.Div
import Mathlib.Tactic.Common

/-!
# Memory as a log of writes

A program that only writes is described by the log of its writes, oldest first: each of them puts a
value into a range of units (bytes of a memory, elements of an array). `Reads log a n v` says that
after these writes the range from `a` on, `n` units long, holds the value `v`: the last write that
meets the range is a write of `v` to exactly this range. No assumption about the memory before the
first write is needed, and writes that overlap a range in part make it unreadable.

The second part is about rounding up to a multiple, the arithmetic of placing ranges one after the
other.
-/

namespace Memory

variable {β : Type*}

/-- A write of a value to the range of `len` units from `addr` on. -/
structure Write (β : Type*) where
  addr : Nat
  len : Nat
  value : β
deriving DecidableEq, Repr

/-- The write does not meet the range of `n` units from `a` on. -/
def Write.Apart (w : Write β) (a n : Nat) : Prop := w.addr + w.len ≤ a ∨ a + n ≤ w.addr

/-- The write stays inside the range of `n` units from `a` on. -/
def Write.Inside (w : Write β) (a n : Nat) : Prop := a ≤ w.addr ∧ w.addr + w.len ≤ a + n

/-- After the writes the range of `n` units from `a` on holds `v`. -/
def Reads (log : List (Write β)) (a n : Nat) (v : β) : Prop :=
  ∃ l1 l2, log = l1 ++ ⟨a, n, v⟩ :: l2 ∧ ∀ w ∈ l2, w.Apart a n

section Reads

variable {log log' : List (Write β)} {w : Write β} {a n b m : Nat} {v v' : β}

/-- A write inside a range is apart from every range that does not meet it. -/
lemma Write.Inside.apart (inside : w.Inside b m) (ne : b + m ≤ a ∨ a + n ≤ b) : w.Apart a n := by
  obtain ⟨lo, hi⟩ := inside
  obtain le | le := ne
  · exact .inl (Nat.le_trans hi le)
  · exact .inr (Nat.le_trans le lo)

lemma Write.Inside.mono {c k : Nat} (inside : w.Inside b m) (lo : c ≤ b) (hi : b + m ≤ c + k) :
    w.Inside c k :=
  ⟨Nat.le_trans lo inside.1, Nat.le_trans inside.2 hi⟩

/-- The last write counts. -/
lemma Reads.last (apart : ∀ w ∈ log, w.Apart a n) : Reads (⟨a, n, v⟩ :: log) a n v :=
  ⟨[], log, rfl, apart⟩

/-- Earlier writes do not matter. -/
lemma Reads.after (rd : Reads log' a n v) : Reads (log ++ log') a n v := by
  obtain ⟨l1, l2, rfl, apart⟩ := rd
  exact ⟨log ++ l1, l2, (List.append_assoc ..).symm, apart⟩

lemma Reads.cons (rd : Reads log a n v) : Reads (w :: log) a n v := by
  have rd' : Reads ([w] ++ log) a n v := rd.after
  exact rd'

/-- Later writes elsewhere do not matter. -/
lemma Reads.before (rd : Reads log a n v) (apart : ∀ w ∈ log', w.Apart a n) :
    Reads (log ++ log') a n v := by
  obtain ⟨l1, l2, rfl, apart1⟩ := rd
  refine ⟨l1, l2 ++ log', by rw [List.append_assoc, List.cons_append], fun w mem => ?_⟩
  obtain mem | mem := List.mem_append.1 mem
  · exact apart1 w mem
  · exact apart w mem

/-- The last write that meets the range is the one that is read. -/
lemma Reads.cons_iff :
    Reads (w :: log) a n v ↔
      Reads log a n v ∨ w = ⟨a, n, v⟩ ∧ ∀ w' ∈ log, w'.Apart a n := by
  constructor
  · rintro ⟨l1, l2, e, apart⟩
    cases l1 with
    | nil =>
      cases e
      exact .inr ⟨rfl, apart⟩
    | cons w1 l1 =>
      cases e
      exact .inl ⟨l1, l2, rfl, apart⟩
  · rintro (rd | ⟨rfl, apart⟩)
    · exact rd.cons
    · exact Reads.last apart

/-- A range that can be read has been written. -/
lemma Reads.not_apart (pos : 0 < n) (rd : Reads log a n v) : ¬ ∀ w ∈ log, w.Apart a n := by
  obtain ⟨l1, l2, rfl, -⟩ := rd
  intro apart
  obtain le | le := apart ⟨a, n, v⟩ (by simp)
  · have le : a + n ≤ a := le
    omega
  · have le : a + n ≤ a := le
    omega

/-- A range holds one value. -/
lemma Reads.unique (pos : 0 < n) (rd : Reads log a n v) (rd' : Reads log a n v') : v = v' := by
  induction log with
  | nil => exact absurd (fun w mem => absurd mem List.not_mem_nil) (rd.not_apart pos)
  | cons w log ih =>
    obtain rd | ⟨rfl, apart⟩ := Reads.cons_iff.1 rd
    · obtain rd' | ⟨-, apart⟩ := Reads.cons_iff.1 rd'
      · exact ih rd rd'
      · exact absurd apart (rd.not_apart pos)
    · obtain rd' | ⟨e, -⟩ := Reads.cons_iff.1 rd'
      · exact absurd apart (rd'.not_apart pos)
      · cases e
        rfl

end Reads

/-! ## Rounding up -/

/-- The first multiple of `a` from `n` on. -/
def alignUp (n a : Nat) : Nat := n ⌈/⌉ a * a

section Align

variable {n a : Nat}

lemma le_alignUp (pos : 0 < a) : n ≤ alignUp n a := by
  rw [alignUp, Nat.mul_comm]
  exact (ceilDiv_le_iff_le_mul pos).1 (Nat.le_refl _)

lemma dvd_alignUp : a ∣ alignUp n a := Nat.dvd_mul_left a _

lemma alignUp_lt (pos : 0 < a) : alignUp n a < n + a := by
  have le : (n + a - 1) / a * a ≤ n + a - 1 := Nat.div_mul_le_self _ a
  rw [alignUp, Nat.ceilDiv_eq_add_pred_div]
  omega

/-- The rest decides how far it is to the next multiple. -/
lemma alignUp_eq (pos : 0 < a) : alignUp n a = if n % a = 0 then n else n + a - n % a := by
  have parts := Nat.div_add_mod n a
  split
  case isTrue zero =>
    have dvd : a ∣ n := Nat.dvd_of_mod_eq_zero zero
    have le : n ⌈/⌉ a ≤ n / a := by
      rw [ceilDiv_le_iff_le_mul pos]
      omega
    apply Nat.le_antisymm _ (le_alignUp pos)
    exact (Nat.mul_le_mul_right a le).trans (Nat.div_mul_le_self n a)
  case isFalse rest =>
    have lt := Nat.mod_lt n pos
    have e : n + a - n % a = (n / a + 1) * a := by
      rw [Nat.succ_mul, Nat.mul_comm (n / a)]
      omega
    have low := le_alignUp (n := n) pos
    have high := alignUp_lt (n := n) pos
    obtain ⟨k, ek⟩ := dvd_alignUp (n := n) (a := a)
    rw [ek] at low high
    have lt1 : n / a < k := Nat.lt_of_mul_lt_mul_left (a := a) (by omega)
    have lt2 : k < n / a + 2 := by
      apply Nat.lt_of_mul_lt_mul_left (a := a)
      rw [Nat.mul_add]
      omega
    rw [e, ek, Nat.mul_comm a, show k = n / a + 1 by omega]

end Align

end Memory
