import Mathlib.Tactic.Common

/-!
# Address spaces

The part of a process's address space that shows one shared object: `mem a = some i` says that the
byte `i` of the object is mapped at the address `a`. `Space.mmap` maps the object from its start on
and replaces whatever was mapped there, as `mmap` with `MAP_FIXED` does. `Space.munmap` takes a range
away. `Space.Maps` is the question whether a pointer to the object can be used.
-/

namespace AddressSpace

/-- What is mapped at each address. -/
abbrev Space := Nat → Option Nat

namespace Space

/-- Nothing is mapped. -/
def empty : Space := fun _ => none

/-- Maps the first `len` bytes of the object at `base`. -/
def mmap (mem : Space) (base len : Nat) : Space :=
  fun a => if base ≤ a ∧ a < base + len then some (a - base) else mem a

/-- Unmaps `len` bytes from `base` on. -/
def munmap (mem : Space) (base len : Nat) : Space :=
  fun a => if base ≤ a ∧ a < base + len then none else mem a

/-- The first `len` bytes of the object are mapped at `base`. -/
def Maps (mem : Space) (base len : Nat) : Prop := ∀ i < len, mem (base + i) = some i

/-- Everything that is mapped lies in the range of `len` bytes from `base` on. -/
def Within (mem : Space) (base len : Nat) : Prop :=
  ∀ a, mem a ≠ none → base ≤ a ∧ a < base + len

/-- Reads from the start of the object through the pointer `p`. -/
def deref (mem : Space) (p : Nat) : Option Unit := if mem p = some 0 then some () else none

variable {mem : Space} {base len a n p : Nat}

lemma maps_mmap : (mem.mmap base len).Maps base len := by
  intro i lt
  rw [mmap, if_pos ⟨Nat.le_add_right base i, Nat.add_lt_add_left lt base⟩, Nat.add_sub_cancel_left]

/-- A range of the empty space is not mapped. -/
lemma not_maps_empty (pos : 0 < len) : ¬ empty.Maps base len := by
  intro maps
  cases maps 0 pos

lemma within_empty : empty.Within base len :=
  fun _ ne => absurd rfl ne

lemma within_mmap (within : mem.Within base len) : (mem.mmap base len).Within base len := by
  intro a ne
  rw [mmap] at ne
  split at ne
  case isTrue mem => exact mem
  case isFalse => exact within a ne

/-- A mapping that is removed again leaves nothing behind. -/
lemma within_munmap_mmap (within : mem.Within base len) :
    ((mem.mmap a n).munmap a n).Within base len := by
  intro b ne
  rw [munmap] at ne
  split at ne
  case isTrue => exact absurd rfl ne
  case isFalse out =>
    rw [mmap, if_neg out] at ne
    exact within b ne

/-- A mapping over everything that was mapped. -/
lemma mmap_of_within (within : mem.Within base len) : mem.mmap base len = empty.mmap base len := by
  funext a
  rw [mmap, mmap]
  split
  case isTrue => rfl
  case isFalse out => exact not_not.1 fun ne => out (within a ne)

/-- Unmapping everything that was mapped. -/
lemma munmap_of_within (within : mem.Within base len) : mem.munmap base len = empty := by
  funext a
  rw [munmap]
  split
  case isTrue => rfl
  case isFalse out => exact not_not.1 fun ne => out (within a ne)

lemma deref_mmap (pos : 0 < len) : (mem.mmap base len).deref base = some () := by
  have start : mem.mmap base len base = some 0 := by
    rw [mmap, if_pos ⟨Nat.le_refl base, Nat.lt_add_of_pos_right pos⟩, Nat.sub_self]
  rw [deref, if_pos start]

@[simp] lemma deref_empty : empty.deref p = none := rfl

/-- The only pointer to the start of an object that is mapped once. -/
lemma deref_mmap_empty (e : (empty.mmap base len).deref p = some ()) : p = base := by
  rw [deref] at e
  split at e
  case isFalse => cases e
  case isTrue start =>
    rw [mmap] at start
    split at start
    case isFalse => cases start
    case isTrue mem =>
      have zero : p - base = 0 := Option.some.inj start
      exact Nat.le_antisymm (Nat.sub_eq_zero_iff_le.1 zero) mem.1

end Space

end AddressSpace
