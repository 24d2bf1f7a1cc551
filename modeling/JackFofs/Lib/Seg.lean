import Mathlib.Data.List.Nodup
import Mathlib.Logic.Function.Basic
import Mathlib.Tactic.Common

/-!
# Linked segments

Singly linked lists threaded through a `next` function. `Seg next h l t` says that walking from the
head pointer `h` visits exactly the cells of `l`, in order, and arrives at the pointer `t`; a
`NULL`-terminated list is a segment ending in `none`. Cells and memory are arbitrary: a memory is
any function `next : α → Option α`, and a write is `Function.update`.

The lemmas come in three groups: inversion and composition (`Seg.cons_iff`, `Seg.append_iff`,
`Seg.snoc_iff`), determinism (`Seg.unique`, `Seg.nodup`: a `NULL`-terminated list is acyclic) and
framing (`Seg.update`, `Seg.retarget`: what a single write does to a segment). `Seg.map` carries a
segment over to other addresses. `walk` is the bounded
executable traversal and agrees with `Seg` as soon as the bound covers the list.
-/

namespace Linked

variable {α : Type*}

/-- Walking from `h` visits exactly the cells of `l` and arrives at `t`. -/
inductive Seg (next : α → Option α) : Option α → List α → Option α → Prop where
  | nil {t} :
    Seg next t [] t
  | cons {a l t} :
    Seg next (next a) l t →
    Seg next (some a) (a :: l) t

/-- The bounded traversal from `h`, at most `n` cells long. -/
def walk (next : α → Option α) : Nat → Option α → List α
  | 0, _ => []
  | _ + 1, none => []
  | n + 1, some a => a :: walk next n (next a)

section Inversion

variable {next : α → Option α} {h t : Option α} {a : α} {l l1 l2 : List α}

/-- An empty segment does not move. -/
@[simp] lemma Seg.nil_iff : Seg next h [] t ↔ h = t := by
  constructor
  · intro sg
    cases sg
    rfl
  · rintro rfl
    exact .nil

/-- A nonempty segment starts at its first cell. -/
@[simp] lemma Seg.cons_iff : Seg next h (a :: l) t ↔ h = some a ∧ Seg next (next a) l t := by
  constructor
  · intro sg
    cases sg with
    | cons sg => exact ⟨rfl, sg⟩
  · rintro ⟨rfl, sg⟩
    exact .cons sg

/-- Segments compose. -/
lemma Seg.append_iff :
    Seg next h (l1 ++ l2) t ↔ ∃ m, Seg next h l1 m ∧ Seg next m l2 t := by
  induction l1 generalizing h with
  | nil => simp
  | cons a l1 ih =>
    simp only [List.cons_append, Seg.cons_iff, ih]
    constructor
    · rintro ⟨rfl, m, sg1, sg2⟩
      exact ⟨m, ⟨rfl, sg1⟩, sg2⟩
    · rintro ⟨m, ⟨rfl, sg1⟩, sg2⟩
      exact ⟨rfl, m, sg1, sg2⟩

/-- The last cell of a segment points to where the segment arrives. -/
lemma Seg.snoc_iff : Seg next h (l ++ [a]) t ↔ Seg next h l (some a) ∧ next a = t := by
  rw [Seg.append_iff]
  constructor
  · rintro ⟨m, sg, sga⟩
    rw [Seg.cons_iff, Seg.nil_iff] at sga
    obtain ⟨rfl, e⟩ := sga
    exact ⟨sg, e⟩
  · rintro ⟨sg, e⟩
    exact ⟨some a, sg, by simp [e]⟩

/-- A `NULL`-terminated list is empty exactly when its head pointer is `NULL`. -/
lemma Seg.eq_nil_iff (sg : Seg next h l none) : l = [] ↔ h = none := by
  cases sg with
  | nil => simp
  | cons _ => simp

/-- The head pointer of a nonempty list is its first cell. -/
lemma Seg.head_eq (sg : Seg next h l none) : h = l.head? := by
  cases sg with
  | nil => rfl
  | cons _ => rfl

end Inversion

section Determinism

variable {next : α → Option α} {h : Option α} {l l' : List α}

/-- A memory has at most one `NULL`-terminated list from a head pointer. -/
lemma Seg.unique (sg : Seg next h l none) (sg' : Seg next h l' none) : l = l' := by
  induction l generalizing h l' with
  | nil =>
    rw [Seg.nil_iff] at sg
    exact ((sg'.eq_nil_iff).2 sg).symm
  | cons a l ih =>
    rw [Seg.cons_iff] at sg
    obtain ⟨rfl, sg⟩ := sg
    cases sg' with
    | cons sg' => rw [ih sg sg']

/-- A `NULL`-terminated list visits no cell twice. -/
lemma Seg.nodup (sg : Seg next h l none) : l.Nodup := by
  induction l generalizing h with
  | nil => exact List.nodup_nil
  | cons a l ih =>
    rw [Seg.cons_iff] at sg
    obtain ⟨-, sg⟩ := sg
    refine List.nodup_cons.2 ⟨fun mem => ?_, ih sg⟩
    -- a second visit to `a` would make the rest of the list its own proper suffix
    obtain ⟨l1, l2, rfl⟩ := List.append_of_mem mem
    obtain ⟨m, -, sg2⟩ := Seg.append_iff.1 sg
    rw [Seg.cons_iff] at sg2
    have e := congrArg List.length (sg.unique sg2.2)
    simp only [List.length_append, List.length_cons] at e
    omega

/-- The bounded traversal of a `NULL`-terminated list returns the list. -/
lemma Seg.walk_eq {n : Nat} (sg : Seg next h l none) (len : l.length ≤ n) :
    walk next n h = l := by
  induction l generalizing h n with
  | nil =>
    rw [Seg.nil_iff] at sg
    subst sg
    cases n <;> rfl
  | cons a l ih =>
    rw [Seg.cons_iff] at sg
    obtain ⟨rfl, sg⟩ := sg
    cases n with
    | zero => simp at len
    | succ n =>
      rw [walk, ih sg (by simpa using len)]

/-- A bounded traversal visits as many cells as it may, or the list ends before that. -/
lemma walk_cases (next : α → Option α) (n : Nat) (h : Option α) :
    (walk next n h).length = n ∨ (walk next n h).length < n ∧ Seg next h (walk next n h) none := by
  induction n generalizing h with
  | zero => exact .inl rfl
  | succ n ih =>
    cases h with
    | none => exact .inr ⟨Nat.succ_pos n, .nil⟩
    | some a =>
      rw [walk, List.length_cons]
      obtain len | ⟨len, sg⟩ := ih (next a)
      · exact .inl (congrArg Nat.succ len)
      · exact .inr ⟨Nat.succ_lt_succ len, .cons sg⟩

end Determinism

section Renaming

variable {β : Type*} {next : α → Option α} {next' : β → Option β} {f : α → β} {h t : Option α}
  {l : List α}

/-- A segment seen under other addresses. -/
lemma Seg.map (e : ∀ a ∈ l, next' (f a) = (next a).map f) (sg : Seg next h l t) :
    Seg next' (h.map f) (l.map f) (t.map f) := by
  induction sg with
  | nil => exact .nil
  | @cons a l t _ ih =>
    have ea := e a List.mem_cons_self
    have ih := ih fun b mem => e b (List.mem_cons_of_mem a mem)
    rw [← ea] at ih
    exact .cons ih

end Renaming

section Framing

variable {next next' : α → Option α} {h t : Option α} {a : α} {l : List α}

/-- A segment only depends on the `next` fields of its own cells. -/
lemma Seg.congr (e : ∀ b ∈ l, next' b = next b) (sg : Seg next h l t) : Seg next' h l t := by
  induction sg with
  | nil => exact .nil
  | @cons b l t _ ih =>
    have eb := e b List.mem_cons_self
    have ih := ih fun c mem => e c (List.mem_cons_of_mem b mem)
    rw [← eb] at ih
    exact .cons ih

variable [DecidableEq α]

/-- A write to a cell outside a segment leaves the segment as it is. -/
lemma Seg.update {v : Option α} (nm : a ∉ l) (sg : Seg next h l t) :
    Seg (Function.update next a v) h l t := by
  apply sg.congr
  intro b mem
  have ne : b ≠ a := by
    rintro rfl
    exact nm mem
  exact Function.update_of_ne ne v next

/-- A write to the last cell of a segment moves the pointer the segment arrives at. -/
lemma Seg.retarget {v : Option α} (nm : a ∉ l) (sg : Seg next h (l ++ [a]) t) :
    Seg (Function.update next a v) h (l ++ [a]) v := by
  rw [Seg.snoc_iff] at sg ⊢
  exact ⟨sg.1.update nm, Function.update_self a v next⟩

/-- Pushing a fresh cell in front of a list. -/
lemma Seg.push {h : Option α} (nm : a ∉ l) (sg : Seg next h l t) :
    Seg (Function.update next a h) (some a) (a :: l) t := by
  refine .cons ?_
  rw [Function.update_self]
  exact sg.update nm

/-- Splicing a whole segment in front of a list: its last cell is made to point to the old head. -/
lemma Seg.splice {h h' t' : Option α} {l' : List α} (nm : a ∉ l') (nm' : a ∉ l)
    (sg' : Seg next h' (l' ++ [a]) t') (sg : Seg next h l t) :
    Seg (Function.update next a h) h' ((l' ++ [a]) ++ l) t :=
  Seg.append_iff.2 ⟨h, sg'.retarget nm, sg.update nm'⟩

end Framing

end Linked
