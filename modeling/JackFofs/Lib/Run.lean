import Mathlib.Tactic.Common

/-!
# Runs of a machine

A machine is a function `exec` that executes one operation in a state and answers with a result and
the next state, or fails. `execAll` executes a list of operations and keeps a log with one entry for
each of them. `Run` is the same thing as a relation: `Run exec s log s'` says that the log leads
from `s` to `s'`.

`Run.inv` is the invariant rule, `execAll_total` the rule for runs that never fail, and
`Run.split` cuts a run at any of its entries. `Run.sim` and `Run.follow` compare the runs of two
machines.
-/

namespace Runs

universe u

variable {σ ο ρ : Type u}

/-- One operation of a run: the state before it, the operation and its result. -/
structure Entry (σ ο ρ : Type u) where
  pre : σ
  op : ο
  out : ρ

/-- Executes the operations in order and keeps the log. -/
def execAll (exec : σ → ο → Option (ρ × σ)) : σ → List ο → Option (List (Entry σ ο ρ) × σ)
  | s, [] => some ([], s)
  | s, op :: ops => do
    let (out, s1) ← exec s op
    let (log, s') ← execAll exec s1 ops
    return (⟨s, op, out⟩ :: log, s')

/-- The log leads from the first state to the second one. -/
inductive Run (exec : σ → ο → Option (ρ × σ)) : σ → List (Entry σ ο ρ) → σ → Prop where
  | nil {s} :
    Run exec s [] s
  | cons {s s1 s' op out log} :
    exec s op = some (out, s1) →
    Run exec s1 log s' →
    Run exec s (⟨s, op, out⟩ :: log) s'

variable {exec : σ → ο → Option (ρ × σ)} {s s' : σ} {log : List (Entry σ ο ρ)} {ops : List ο}

/-- The execution of a list of operations starts with the first one. -/
lemma execAll_cons_inv {op : ο} (e : execAll exec s (op :: ops) = some (log, s')) :
    ∃ out s1 log1, exec s op = some (out, s1) ∧ execAll exec s1 ops = some (log1, s') ∧
      log = ⟨s, op, out⟩ :: log1 := by
  rw [execAll] at e
  cases e1 : exec s op with
  | none => simp [e1] at e
  | some r =>
    obtain ⟨out, s1⟩ := r
    cases e2 : execAll exec s1 ops with
    | none => simp [e1, e2] at e
    | some r =>
      obtain ⟨log1, s2⟩ := r
      simp only [e1, e2, Option.bind_eq_bind, Option.bind_some, Option.pure_def,
        Option.some.injEq, Prod.mk.injEq] at e
      obtain ⟨rfl, rfl⟩ := e
      exact ⟨out, s1, log1, rfl, e2, rfl⟩

/-- The log of an execution is a run through the given operations. -/
lemma run_of_execAll (e : execAll exec s ops = some (log, s')) :
    Run exec s log s' ∧ log.map Entry.op = ops := by
  induction ops generalizing s log with
  | nil =>
    cases e
    exact ⟨.nil, rfl⟩
  | cons op ops ih =>
    obtain ⟨out, s1, log1, e1, e2, rfl⟩ := execAll_cons_inv e
    obtain ⟨run, emap⟩ := ih e2
    exact ⟨.cons e1 run, congrArg (op :: ·) emap⟩

/-- A run is the execution of its operations. -/
lemma Run.execAll (run : Run exec s log s') : execAll exec s (log.map Entry.op) = some (log, s') := by
  induction run with
  | nil => rfl
  | cons e _ ih => simp [Runs.execAll, e, ih]

/-- Two runs in a row are a run. -/
lemma Run.append {s1 : σ} {l l' : List (Entry σ ο ρ)} (run : Run exec s l s1)
    (run' : Run exec s1 l' s') : Run exec s (l ++ l') s' := by
  induction run with
  | nil => exact run'
  | cons e run ih => exact .cons e (ih run')

/-- What holds of the operations given holds of those in the log. -/
lemma forall_op_of_execAll {P : ο → Prop} (e : execAll exec s ops = some (log, s'))
    (all : ∀ op ∈ ops, P op) : ∀ x ∈ log, P x.op := by
  obtain ⟨-, emap⟩ := run_of_execAll e
  rw [← emap] at all
  exact fun x mem => all x.op (List.mem_map_of_mem mem)

/-- If every operation succeeds, keeps an invariant and ensures a fact about its entry of the log, so
    does every execution. -/
lemma execAll_post (Inv : σ → Prop) (Post : Entry σ ο ρ → Prop)
    (step : ∀ {s op}, Inv s → op ∈ ops →
      ∃ out s', exec s op = some (out, s') ∧ Inv s' ∧ Post ⟨s, op, out⟩)
    (inv : Inv s) :
    ∃ log s', execAll exec s ops = some (log, s') ∧ Inv s' ∧ ∀ x ∈ log, Post x := by
  induction ops generalizing s with
  | nil => exact ⟨[], s, rfl, inv, fun x mem => absurd mem List.not_mem_nil⟩
  | cons op ops ih =>
    obtain ⟨out, s1, e1, inv1, post1⟩ := step inv List.mem_cons_self
    obtain ⟨log, s2, e2, inv2, post2⟩ :=
      ih (fun inv mem => step inv (List.mem_cons_of_mem op mem)) inv1
    refine ⟨⟨s, op, out⟩ :: log, s2, by simp [execAll, e1, e2], inv2, fun x mem => ?_⟩
    cases mem with
    | head => exact post1
    | tail _ mem => exact post2 x mem

/-- If every operation succeeds and keeps an invariant, so does every execution. -/
lemma execAll_total (Inv : σ → Prop)
    (step : ∀ {s op}, Inv s → op ∈ ops → ∃ out s', exec s op = some (out, s') ∧ Inv s')
    (inv : Inv s) : ∃ log s', execAll exec s ops = some (log, s') ∧ Inv s' := by
  obtain ⟨log, s', e, inv', -⟩ := execAll_post Inv (fun _ => True)
    (fun inv mem =>
      have ⟨out, s', e, inv'⟩ := step inv mem
      ⟨out, s', e, inv', trivial⟩) inv
  exact ⟨log, s', e, inv'⟩

/-- A property kept by every entry of a run holds in its last state, and before each entry. -/
lemma Run.inv (Inv : σ → Prop) (run : Run exec s log s')
    (step : ∀ {x s1}, x ∈ log → Inv x.pre → exec x.pre x.op = some (x.out, s1) → Inv s1)
    (inv : Inv s) : Inv s' ∧ ∀ x ∈ log, Inv x.pre := by
  induction run with
  | nil => exact ⟨inv, fun x mem => absurd mem List.not_mem_nil⟩
  | @cons s s1 s' op out log e run ih =>
    have inv1 := step List.mem_cons_self inv e
    obtain ⟨last, all⟩ := ih (fun mem => step (List.mem_cons_of_mem _ mem)) inv1
    refine ⟨last, fun x mem => ?_⟩
    cases mem with
    | head => exact inv
    | tail _ mem => exact all x mem

/-- A property of the log so far and of the state it leads to, kept by every entry, holds at the end. -/
lemma Run.inv_log (Inv : List (Entry σ ο ρ) → σ → Prop) (run : Run exec s log s')
    (step : ∀ {l x s1}, x ∈ log → Inv l x.pre → exec x.pre x.op = some (x.out, s1) →
      Inv (l ++ [x]) s1)
    (inv : Inv [] s) : Inv log s' := by
  suffices from_l : ∀ l, Inv l s → Inv (l ++ log) s' from from_l [] inv
  clear inv
  induction run with
  | nil =>
    intro l inv
    rw [List.append_nil]
    exact inv
  | @cons s s1 s' op out log e run ih =>
    intro l inv
    have inv1 := step List.mem_cons_self inv e
    rw [List.append_cons]
    exact ih (fun mem => step (List.mem_cons_of_mem _ mem)) _ inv1

/-- What holds in all states of a run holds after each entry. -/
lemma Run.post {P : σ → Prop} (run : Run exec s log s') (pre : ∀ x ∈ log, P x.pre) (last : P s')
    {x : Entry σ ο ρ} (mem : x ∈ log) :
    ∃ s1, exec x.pre x.op = some (x.out, s1) ∧ P s1 := by
  induction run with
  | nil => exact absurd mem List.not_mem_nil
  | @cons s s1 s' op out log e run ih =>
    cases mem with
    | head =>
      refine ⟨s1, e, ?_⟩
      cases run with
      | nil => exact last
      | cons _ _ => exact pre _ (List.mem_cons_of_mem _ List.mem_cons_self)
    | tail _ mem => exact ih (fun x mem => pre x (List.mem_cons_of_mem _ mem)) last mem

/-- A run goes through the state before each of its entries. -/
lemma Run.split {l1 l2 : List (Entry σ ο ρ)} {x : Entry σ ο ρ} (run : Run exec s (l1 ++ x :: l2) s') :
    ∃ s1, Run exec s l1 x.pre ∧ exec x.pre x.op = some (x.out, s1) ∧ Run exec s1 l2 s' := by
  induction l1 generalizing s with
  | nil =>
    cases run with
    | @cons _ s1 _ op out _ e run => exact ⟨s1, .nil, e, run⟩
  | cons y l1 ih =>
    cases run with
    | @cons _ s1 _ op out _ e run =>
      obtain ⟨s2, run1, e2, run2⟩ := ih run
      exact ⟨s2, .cons e run1, e2, run2⟩

/-- A run through two lists is a run through each of them. -/
lemma Run.parts {l1 l2 : List (Entry σ ο ρ)} (run : Run exec s (l1 ++ l2) s') :
    ∃ s1, Run exec s l1 s1 ∧ Run exec s1 l2 s' := by
  induction l1 generalizing s with
  | nil => exact ⟨s, .nil, run⟩
  | cons x l1 ih =>
    cases run with
    | cons e run =>
      obtain ⟨s1, run1, run2⟩ := ih run
      exact ⟨s1, .cons e run1, run2⟩

/-! ## Two machines -/

section Two

variable {τ : Type u} {t t' : τ}

/-- Two machines through the same operations. As long as all results are `Ok`, they stay related, and
    what can be observed of their results is the same. -/
lemma Run.sim {γ : Type u} {exec' : τ → ο → Option (ρ × τ)} {log' : List (Entry τ ο ρ)}
    (Rel : σ → τ → Prop) (Ok : ρ → Prop) (obs : ρ → γ)
    (step : ∀ {s t op out out' s1 t1}, Rel s t → exec s op = some (out, s1) →
      exec' t op = some (out', t1) → Ok out → Ok out' → obs out' = obs out ∧ Rel s1 t1)
    (run : Run exec s log s') (run' : Run exec' t log' t')
    (ops : log'.map Entry.op = log.map Entry.op) (ok : ∀ x ∈ log, Ok x.out)
    (ok' : ∀ x ∈ log', Ok x.out) (rel : Rel s t) :
    log'.map (fun x => obs x.out) = log.map fun x => obs x.out := by
  induction run generalizing t log' with
  | nil =>
    rw [List.map_nil, List.map_eq_nil_iff] at ops
    rw [ops]
    rfl
  | @cons s s1 s' op out log e run ih =>
    cases run' with
    | nil => cases ops
    | @cons _ t1 _ op' out' log' e' run' =>
      rw [List.map_cons, List.map_cons, List.cons.injEq] at ops
      obtain ⟨eop, ops⟩ := ops
      cases (eop : op' = op)
      obtain ⟨same, rel1⟩ := step rel e e' (ok _ List.mem_cons_self) (ok' _ List.mem_cons_self)
      have rest := ih run' ops (fun x mem => ok x (List.mem_cons_of_mem _ mem))
        (fun x mem => ok' x (List.mem_cons_of_mem _ mem)) rel1
      rw [List.map_cons, List.map_cons, rest, same]

/-- A second machine follows the first one: what it executes depends on the entries of the first. As long
    as all results are `Ok`, they stay related, and the logs tell the same. -/
lemma Run.follow {ο' ρ' : Type u} {exec' : τ → ο' → Option (ρ' × τ)} {log' : List (Entry τ ο' ρ')}
    (Rel : σ → τ → Prop) (calls : Entry σ ο ρ → List ο') (Ok : ρ → Prop) (Ok' : ρ' → Prop)
    (Same : List (Entry σ ο ρ) → List (Entry τ ο' ρ') → Prop) (nil : Same [] [])
    (append : ∀ {l1 l2 l1' l2'}, Same l1 l1' → Same l2 l2' → Same (l1 ++ l2) (l1' ++ l2'))
    (run : Run exec s log s')
    (step : ∀ {x s1 l t t1}, x ∈ log → Rel x.pre t → exec x.pre x.op = some (x.out, s1) →
      Run exec' t l t1 → l.map Entry.op = calls x → Ok x.out → (∀ y ∈ l, Ok' y.out) →
      Rel s1 t1 ∧ Same [x] l)
    (run' : Run exec' t log' t') (ops : log'.map Entry.op = log.flatMap calls)
    (ok : ∀ x ∈ log, Ok x.out) (ok' : ∀ x ∈ log', Ok' x.out) (rel : Rel s t) : Same log log' := by
  induction run generalizing t log' with
  | nil =>
    rw [List.flatMap_nil, List.map_eq_nil_iff] at ops
    rw [ops]
    exact nil
  | @cons s s1 s' op out log e run ih =>
    rw [List.flatMap_cons] at ops
    obtain ⟨l1, l2, rfl, ops1, ops2⟩ := List.map_eq_append_iff.1 ops
    obtain ⟨t1, run1, run2⟩ := run'.parts
    obtain ⟨rel1, same1⟩ := step List.mem_cons_self rel e run1 ops1 (ok _ List.mem_cons_self)
      fun y mem => ok' y (List.mem_append_left _ mem)
    have same2 := ih (fun mem => step (List.mem_cons_of_mem _ mem)) run2 ops2
      (fun x mem => ok x (List.mem_cons_of_mem _ mem)) (fun y mem => ok' y (List.mem_append_right _ mem))
      rel1
    exact append same1 same2

end Two

end Runs
