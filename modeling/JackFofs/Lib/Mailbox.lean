import Mathlib.Algebra.BigOperators.Group.Finset.Basic
import Mathlib.Algebra.GroupWithZero.Nat

/-!
# Mailboxes

Parties put messages into boxes, and a single reader empties a box at a time: it collects what waits
there, or throws it away. A party makes up its message before it knows the box that it will go to.

`Mail.after` is what a list of such operations comes to. Every message that was posted has been
collected, has been thrown away or still waits (`Mail.after_conserved`).
-/

namespace Mailbox
open Finset

universe u v w

variable {ι : Type u} {κ : Type v} {μ : Type w}

/-- What happens to the boxes. -/
inductive MailOp (ι : Type u) (κ : Type v) (μ : Type w) where
  /-- party `i` makes up its next message -/
  | draft (i : ι) (m : μ)
  /-- it puts its message into box `j` -/
  | post (i : ι) (j : κ)
  /-- the reader takes what waits in box `j` -/
  | collect (j : κ)
  /-- what waits in box `j` is thrown away -/
  | discard (j : κ)

/-- The box of an operation. -/
def MailOp.box : MailOp ι κ μ → Option κ
  | .draft _ _ => none
  | .post _ j => some j
  | .collect j => some j
  | .discard j => some j

/-- The boxes, and what has become of the messages. A box holds the newest message first. -/
structure Mail (ι : Type u) (κ : Type v) (μ : Type w) where
  draft : ι → Option μ
  waiting : κ → List μ
  posted : List μ
  collected : List μ
  discarded : List μ

/-- Before anything has happened. -/
def Mail.empty : Mail ι κ μ where
  draft := fun _ => none
  waiting := fun _ => []
  posted := []
  collected := []
  discarded := []

variable [DecidableEq ι] [DecidableEq κ]

/-- One operation. -/
def Mail.step (mail : Mail ι κ μ) : MailOp ι κ μ → Mail ι κ μ
  | .draft i m => { mail with draft := Function.update mail.draft i (some m) }
  | .post i j =>
    { mail with
      waiting := Function.update mail.waiting j ((mail.draft i).toList ++ mail.waiting j)
      posted := mail.posted ++ (mail.draft i).toList }
  | .collect j =>
    { mail with
      waiting := Function.update mail.waiting j []
      collected := mail.collected ++ mail.waiting j }
  | .discard j =>
    { mail with
      waiting := Function.update mail.waiting j []
      discarded := mail.discarded ++ mail.waiting j }

/-- The boxes after a list of operations. -/
def Mail.after (ops : List (MailOp ι κ μ)) : Mail ι κ μ := ops.foldl Mail.step .empty

@[simp] lemma Mail.after_nil : Mail.after ([] : List (MailOp ι κ μ)) = .empty := rfl

lemma Mail.after_append (ops : List (MailOp ι κ μ)) (op : MailOp ι κ μ) :
    Mail.after (ops ++ [op]) = (Mail.after ops).step op :=
  List.foldl_append ..

/-! ## No message is lost -/

/-- Every message that was posted has been collected, has been thrown away or waits in a box. -/
def Mail.Conserved (boxes : Finset κ) (mail : Mail ι κ μ) : Prop :=
  (mail.posted : Multiset μ) =
    mail.collected + mail.discarded + ∑ j ∈ boxes, (mail.waiting j : Multiset μ)

/-- The messages of one box can be counted apart from the others. -/
lemma sum_update {boxes : Finset κ} {j : κ} (mem : j ∈ boxes) (waiting : κ → List μ) (l : List μ) :
    ∑ i ∈ boxes, (Function.update waiting j l i : Multiset μ) =
      l + ∑ i ∈ boxes.erase j, (waiting i : Multiset μ) := by
  rw [← add_sum_erase _ _ mem, Function.update_self]
  congr 1
  refine sum_congr rfl fun i memi => ?_
  rw [Function.update_of_ne (ne_of_mem_erase memi)]

lemma Mail.Conserved.step {boxes : Finset κ} {mail : Mail ι κ μ} {op : MailOp ι κ μ}
    (conserved : mail.Conserved boxes) (mem : ∀ j ∈ op.box, j ∈ boxes) :
    (mail.step op).Conserved boxes := by
  cases op with
  | draft i m => exact conserved
  | post i j =>
    have mem := mem j rfl
    rw [Mail.Conserved, ← add_sum_erase _ _ mem] at conserved
    simp only [Mail.Conserved, Mail.step, sum_update mem, ← Multiset.coe_add]
    rw [conserved]
    ac_rfl
  | collect j =>
    have mem := mem j rfl
    rw [Mail.Conserved, ← add_sum_erase _ _ mem] at conserved
    simp only [Mail.Conserved, Mail.step, sum_update mem, ← Multiset.coe_add, Multiset.coe_nil, zero_add]
    rw [conserved]
    ac_rfl
  | discard j =>
    have mem := mem j rfl
    rw [Mail.Conserved, ← add_sum_erase _ _ mem] at conserved
    simp only [Mail.Conserved, Mail.step, sum_update mem, ← Multiset.coe_add, Multiset.coe_nil, zero_add]
    rw [conserved]
    ac_rfl

/-- Messages are conserved by all operations on the boxes. -/
theorem Mail.after_conserved {boxes : Finset κ} {ops : List (MailOp ι κ μ)}
    (mem : ∀ op ∈ ops, ∀ j ∈ op.box, j ∈ boxes) : (Mail.after ops).Conserved boxes := by
  induction ops using List.reverseRecOn with
  | nil => simp [Mail.Conserved, Mail.empty]
  | append_singleton ops op ih =>
    rw [Mail.after_append]
    exact (ih fun op h => mem op (List.mem_append_left _ h)).step
      (mem op (List.mem_append_right _ List.mem_cons_self))

end Mailbox
