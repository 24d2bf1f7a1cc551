import Mathlib.Data.List.Nodup
import Mathlib.Data.List.Perm.Subperm
import Mathlib.Logic.Function.Basic
import Mathlib.Tactic.Common

/-!
# Partitions of a pool of cells

A fixed pool of cells is spread over places (a free list, queues, private sets of threads).
`Partition cells L` says that the lists `L k`, one for each place `k`, contain every cell of the
pool exactly once: none is lost, none is in two places, none is twice in one place. Cells and places
are arbitrary types.

Every operation on such a pool moves cells between two places. `Partition.move` covers all of them:
as long as the two places together hold the same cells afterwards, the lists still partition the
pool.
-/

namespace Linked

variable {α κ : Type*}

/-- The lists `L k` contain each of the cells exactly once. -/
structure Partition (cells : List α) (L : κ → List α) : Prop where
  nodup : ∀ k, (L k).Nodup
  disjoint : ∀ {k k' a}, a ∈ L k → a ∈ L k' → k = k'
  mem_cells : ∀ {k a}, a ∈ L k → a ∈ cells
  cover : ∀ {a}, a ∈ cells → ∃ k, a ∈ L k

section

variable {cells : List α} {L : κ → List α}

/-- Every cell of the pool is in exactly one place. -/
lemma Partition.existsUnique (pt : Partition cells L) {a : α} (mem : a ∈ cells) :
    ∃! k, a ∈ L k := by
  obtain ⟨k, memk⟩ := pt.cover mem
  exact ⟨k, memk, fun k' memk' => pt.disjoint memk' memk⟩

/-- No place holds more cells than the pool has. -/
lemma Partition.length_le (pt : Partition cells L) (k : κ) : (L k).length ≤ cells.length :=
  (List.subperm_of_subset (pt.nodup k) fun _ mem => pt.mem_cells mem).length_le

/-- A cell of one place is not in another place. -/
lemma Partition.notMem {k k' : κ} {a : α} (pt : Partition cells L) (mem : a ∈ L k)
    (ne : k ≠ k') : a ∉ L k' :=
  fun mem' => ne (pt.disjoint mem mem')

/-- If all other places are empty, one place holds the whole pool. -/
lemma Partition.perm_of_empty (pt : Partition cells L) (nd : cells.Nodup) {k0 : κ}
    (others : ∀ k, k ≠ k0 → L k = []) : (L k0).Perm cells := by
  rw [List.perm_ext_iff_of_nodup (pt.nodup k0) nd]
  refine fun a => ⟨pt.mem_cells, fun mem => ?_⟩
  obtain ⟨k, memk⟩ := pt.cover mem
  by_cases e : k = k0
  · subst e
    exact memk
  · rw [others k e] at memk
    exact absurd memk List.not_mem_nil

/-- A pool whose cells are all in one place. -/
lemma Partition.of_single (k0 : κ) (e0 : L k0 = cells) (nd : cells.Nodup)
    (others : ∀ k, k ≠ k0 → L k = []) : Partition cells L := by
  subst e0
  have only {k a} (mem : a ∈ L k) : k = k0 := by
    by_contra ne
    rw [others k ne] at mem
    exact absurd mem List.not_mem_nil
  refine ⟨fun k => ?_, fun mem mem' => (only mem).trans (only mem').symm, fun {k a} mem => ?_,
    fun mem => ⟨k0, mem⟩⟩
  · by_cases e : k = k0
    · subst e
      exact nd
    · rw [others k e]
      exact List.nodup_nil
  · have e := only mem
    subst e
    exact mem

variable [DecidableEq κ]

/-- Moving cells between two places keeps the partition. -/
lemma Partition.move {i j : κ} {l1 l2 : List α} (pt : Partition cells L) (ne : i ≠ j)
    (pm : (l1 ++ l2).Perm (L i ++ L j)) :
    Partition cells (Function.update (Function.update L i l1) j l2) := by
  have nd : (l1 ++ l2).Nodup := by
    refine pm.nodup_iff.2 (List.nodup_append.2 ⟨pt.nodup i, pt.nodup j, ?_⟩)
    rintro a memi _ memj rfl
    exact ne (pt.disjoint memi memj)
  obtain ⟨nd1, nd2, dj⟩ := List.nodup_append.1 nd
  have memij {a} : a ∈ l1 ∨ a ∈ l2 ↔ a ∈ L i ∨ a ∈ L j := by
    simpa using pm.mem_iff (a := a)
  -- every place is `j`, `i`, or one that keeps its list
  have cases_k (k : κ) :
      (k = j ∧ Function.update (Function.update L i l1) j l2 k = l2) ∨
      (k = i ∧ Function.update (Function.update L i l1) j l2 k = l1) ∨
      (k ≠ i ∧ k ≠ j ∧ Function.update (Function.update L i l1) j l2 k = L k) := by
    by_cases ej : k = j
    · subst ej
      exact .inl ⟨rfl, Function.update_self ..⟩
    · by_cases ei : k = i
      · subst ei
        exact .inr (.inl ⟨rfl, by rw [Function.update_of_ne ej, Function.update_self]⟩)
      · exact .inr (.inr ⟨ei, ej, by rw [Function.update_of_ne ej, Function.update_of_ne ei]⟩)
  refine ⟨fun k => ?_, fun {k k' a} mem mem' => ?_, fun {k a} mem => ?_, fun {a} mem => ?_⟩
  · obtain ⟨-, e⟩ | ⟨-, e⟩ | ⟨-, -, e⟩ := cases_k k <;> rw [e]
    · exact nd2
    · exact nd1
    · exact pt.nodup k
  · -- a cell that moved came from `i` or `j`, so it can only meet a cell that moved
    obtain ⟨ej, e⟩ | ⟨ei, e⟩ | ⟨ni, nj, e⟩ := cases_k k <;>
      obtain ⟨ej', e'⟩ | ⟨ei', e'⟩ | ⟨ni', nj', e'⟩ := cases_k k' <;>
      simp only [e, e'] at mem mem'
    · exact ej.trans ej'.symm
    · exact absurd rfl (dj a mem' a mem)
    · obtain h | h := memij.1 (.inr mem)
      · exact absurd (pt.disjoint mem' h) ni'
      · exact absurd (pt.disjoint mem' h) nj'
    · exact absurd rfl (dj a mem a mem')
    · exact ei.trans ei'.symm
    · obtain h | h := memij.1 (.inl mem)
      · exact absurd (pt.disjoint mem' h) ni'
      · exact absurd (pt.disjoint mem' h) nj'
    · obtain h | h := memij.1 (.inr mem')
      · exact absurd (pt.disjoint mem h) ni
      · exact absurd (pt.disjoint mem h) nj
    · obtain h | h := memij.1 (.inl mem')
      · exact absurd (pt.disjoint mem h) ni
      · exact absurd (pt.disjoint mem h) nj
    · exact pt.disjoint mem mem'
  · obtain ⟨-, e⟩ | ⟨-, e⟩ | ⟨-, -, e⟩ := cases_k k <;> rw [e] at mem
    · obtain h | h := memij.1 (.inr mem) <;> exact pt.mem_cells h
    · obtain h | h := memij.1 (.inl mem) <;> exact pt.mem_cells h
    · exact pt.mem_cells mem
  · obtain ⟨k, memk⟩ := pt.cover mem
    have there : (a ∈ l1 ∨ a ∈ l2) →
        ∃ k, a ∈ Function.update (Function.update L i l1) j l2 k := by
      rintro (h | h)
      · exact ⟨i, by rwa [Function.update_of_ne ne, Function.update_self]⟩
      · exact ⟨j, by rwa [Function.update_self]⟩
    obtain ⟨rfl, -⟩ | ⟨rfl, -⟩ | ⟨-, -, e⟩ := cases_k k
    · exact there (memij.2 (.inr memk))
    · exact there (memij.2 (.inl memk))
    · exact ⟨k, by rwa [e]⟩

end

end Linked
