import Mathlib.Data.List.Nodup
import Mathlib.Data.List.TakeWhile
import Mathlib.Tactic.Common

/-!
# High-water marks of a stack

A pool of `n` items lies on a stack; items are popped, used, and pushed back in any order. Whoever
uses an item leaves a trace on it. As only the top is popped, the items that nobody has used are always
the lower end of the stack, and the length of the used part on top of them tells how far down the
stack has ever been: `Marked used n mark l` says that the stack is `l` now and that at most `mark`
items were missing at a time.
-/

namespace Watermark

variable {α : Type*} {used used' : α → Prop} {n mark : Nat} {l p : List α} {a : α}

/-- The stack is a part that has been used on top of a part that has not, and the unused part is what
    is left of `n` items if `mark` are missing. -/
def Marked (used : α → Prop) (n mark : Nat) (l : List α) : Prop :=
  ∃ top bottom, l = top ++ bottom ∧ (∀ a ∈ top, used a) ∧ (∀ a ∈ bottom, ¬ used a) ∧
    bottom.length + mark = n

/-- A stack of which nothing has been used. -/
lemma Marked.fresh (none : ∀ a ∈ l, ¬ used a) : Marked used l.length 0 l :=
  ⟨[], l, rfl, fun _ mem => absurd mem List.not_mem_nil, none, Nat.add_zero _⟩

lemma Marked.congr (marked : Marked used n mark l) (same : ∀ a ∈ l, used' a ↔ used a) :
    Marked used' n mark l := by
  obtain ⟨top, bottom, rfl, on, off, len⟩ := marked
  refine ⟨top, bottom, rfl, fun a mem => ?_, fun a mem => ?_, len⟩
  · exact (same a (List.mem_append_left bottom mem)).2 (on a mem)
  · exact fun u => off a mem ((same a (List.mem_append_right top mem)).1 u)

/-- Used items are pushed back. -/
lemma Marked.push (marked : Marked used n mark l) (on : ∀ a ∈ p, used a) :
    Marked used n mark (p ++ l) := by
  obtain ⟨top, bottom, rfl, on', off, len⟩ := marked
  refine ⟨p ++ top, bottom, (List.append_assoc ..).symm, fun a mem => ?_, off, len⟩
  obtain mem | mem := List.mem_append.1 mem
  · exact on a mem
  · exact on' a mem

/-- What is missing now is at most the mark. -/
lemma Marked.missing_le (marked : Marked used n mark l) : n - l.length ≤ mark := by
  obtain ⟨top, bottom, rfl, -, -, len⟩ := marked
  rw [List.length_append]
  omega

/-- A pop raises the mark to the number of items that are now missing. -/
lemma Marked.pop (marked : Marked used n mark (a :: l)) :
    Marked used n (max mark (n - l.length)) l := by
  obtain ⟨top, bottom, e, on, off, len⟩ := marked
  cases top with
  | nil =>
    -- the item popped has not been used before
    cases e
    rw [List.length_cons] at len
    have raised : max mark (n - l.length) = mark + 1 := by omega
    rw [raised]
    exact ⟨[], l, rfl, fun _ mem => absurd mem List.not_mem_nil,
      fun a mem => off a (List.mem_cons_of_mem _ mem), by omega⟩
  | cons b top =>
    rw [List.cons_append, List.cons.injEq] at e
    obtain ⟨rfl, rfl⟩ := e
    have kept : max mark (n - (top ++ bottom).length) = mark := by
      rw [List.length_append]
      omega
    rw [kept]
    exact ⟨top, bottom, rfl, fun a mem => on a (List.mem_cons_of_mem _ mem), off, len⟩

variable [DecidablePred used]

/-- The used part of the stack is what was missing at worst and is not missing now. -/
lemma Marked.takeWhile_length (marked : Marked used n mark l) (le : l.length ≤ n) :
    (l.takeWhile used).length = mark - (n - l.length) := by
  obtain ⟨top, bottom, rfl, on, off, len⟩ := marked
  have top_used : (top ++ bottom).takeWhile used = top := by
    rw [List.takeWhile_append_of_pos (fun a mem => decide_eq_true (on a mem))]
    have none : bottom.takeWhile used = [] := by
      cases bottom with
      | nil => rfl
      | cons b bottom =>
        exact List.takeWhile_cons_of_neg fun u => off b List.mem_cons_self (of_decide_eq_true u)
    rw [none, List.append_nil]
  rw [List.length_append] at le
  rw [top_used, List.length_append]
  omega

end Watermark
