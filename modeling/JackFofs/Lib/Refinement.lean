import JackFofs.Lib.Run

/-!
# Whole operations and their steps

A fine machine makes the steps of an operation one by one, a coarse machine makes the operation at
once. `starts` reads an operation of the fine machine as the start of a coarse operation, or as a
further step of one that has been started.

* `Path` is a deterministic sequence of steps, `Episode` the same as a run of the fine machine: from
  the start of an operation to rest, with no choice on the way.
* `Refines` says that every coarse operation, begun at rest, is an episode with the same result.
* `Refines.forward` turns a coarse run into a fine one, and `Refines.backward` turns a fine run in
  which operations start only at rest into a coarse one. Both keep the operations, their order and
  everything that is observed.
-/

namespace Runs

universe u

variable {σ ο ρ τ κ π ω δ : Type u}

/-- The steps of a deterministic machine, with what each of them answers. -/
inductive Path (step : δ → Option (ρ × δ)) : δ → List ρ → δ → Prop where
  | nil {x} :
    Path step x [] x
  | cons {x x1 x' out outs} :
    step x = some (out, x1) →
    Path step x1 outs x' →
    Path step x (out :: outs) x'

section Path

variable {step : δ → Option (ρ × δ)} {x y z : δ} {l l' : List ρ} {out : ρ}

lemma Path.trans (path : Path step x l y) (path' : Path step y l' z) : Path step x (l ++ l') z := by
  induction path with
  | nil => exact path'
  | cons e path ih => exact .cons e (ih path')

lemma Path.one (e : step x = some (out, y)) : Path step x [out] y :=
  .cons e .nil

end Path

/-- A run of the fine machine through the steps of one operation: it does not rest on the way, each
    step is the only one that can be made, and at the end it rests. -/
inductive Episode (exec : σ → ο → Option (ρ × σ)) (starts : ο → Option κ) (Rest : σ → Prop) :
    σ → List (Entry σ ο ρ) → σ → Prop where
  | done {s} :
    Rest s →
    Episode exec starts Rest s [] s
  | step {s s1 s' op out log} :
    ¬ Rest s →
    exec s op = some (out, s1) →
    (∀ op', starts op' = none → exec s op' ≠ none → op' = op) →
    starts op = none →
    Episode exec starts Rest s1 log s' →
    Episode exec starts Rest s (⟨s, op, out⟩ :: log) s'

/-- Coarse operations start only when the fine machine rests. -/
def Serial (starts : ο → Option κ) (Rest : σ → Prop) (log : List (Entry σ ο ρ)) : Prop :=
  ∀ x ∈ log, starts x.op ≠ none → Rest x.pre

/-- The coarse operations that a log of the fine machine starts. -/
def started (starts : ο → Option κ) (log : List (Entry σ ο ρ)) : List κ :=
  log.filterMap fun x => starts x.op

/-- What a log shows. -/
def observed (seen : ρ → List ω) (log : List (Entry σ ο ρ)) : List ω :=
  log.flatMap fun x => seen x.out

section Episode

variable {exec : σ → ο → Option (ρ × σ)} {starts : ο → Option κ} {Rest : σ → Prop}
  {seen : ρ → List ω} {s s1 s' : σ} {l log : List (Entry σ ο ρ)}

lemma started_append (l l' : List (Entry σ ο ρ)) :
    started starts (l ++ l') = started starts l ++ started starts l' :=
  List.filterMap_append

lemma started_cons {x : Entry σ ο ρ} {op : κ} (start : starts x.op = some op) :
    started starts (x :: l) = op :: started starts l :=
  List.filterMap_cons_some start

lemma started_inner {x : Entry σ ο ρ} (inner : starts x.op = none) :
    started starts (x :: l) = started starts l :=
  List.filterMap_cons_none inner

lemma observed_append (l l' : List (Entry σ ο ρ)) :
    observed seen (l ++ l') = observed seen l ++ observed seen l' :=
  List.flatMap_append

lemma observed_cons (x : Entry σ ο ρ) (l : List (Entry σ ο ρ)) :
    observed seen (x :: l) = seen x.out ++ observed seen l :=
  rfl

lemma Episode.run (ep : Episode exec starts Rest s l s') : Run exec s l s' := by
  induction ep with
  | done => exact .nil
  | step _ e _ _ _ ih => exact .cons e ih

lemma Episode.started_nil (ep : Episode exec starts Rest s l s') : started starts l = [] := by
  induction ep with
  | done => rfl
  | step _ _ _ inner _ ih => exact (started_inner inner).trans ih

/-- An episode starts nothing. -/
lemma Episode.serial (ep : Episode exec starts Rest s l s') : Serial starts Rest l := by
  induction ep with
  | done => exact fun x mem => absurd mem List.not_mem_nil
  | step _ _ _ inner _ ih =>
    intro x mem start
    cases mem with
    | head => exact absurd inner start
    | tail _ mem => exact ih x mem start

/-- A serial run that ends at rest goes through the whole episode. -/
lemma Episode.split (ep : Episode exec starts Rest s l s1) (run : Run exec s log s')
    (serial : Serial starts Rest log) (rest : Rest s') :
    ∃ log', log = l ++ log' ∧ Run exec s1 log' s' := by
  induction ep generalizing log with
  | done => exact ⟨log, rfl, run⟩
  | @step s s2 s1 op out l busy e only inner ep ih =>
    cases run with
    | nil => exact absurd rest busy
    | @cons _ s3 _ op' out' log e' run =>
      have inner' : starts op' = none := by
        by_contra start
        exact busy (serial _ List.mem_cons_self start)
      have same : op' = op := by
        apply only op' inner'
        rw [e']
        exact Option.some_ne_none _
      subst same
      cases e.symm.trans e'
      obtain ⟨log', rfl, run'⟩ := ih run fun x mem => serial x (List.mem_cons_of_mem _ mem)
      exact ⟨log', rfl, run'⟩

/-- The steps of one party are an episode if nobody else can make a step meanwhile. -/
lemma Episode.of_path {step : δ → Option (ρ × δ)} {x x' : δ} {outs : List ρ} (seen : ρ → List ω)
    (op : ο) (embed : δ → σ) (path : Path step x outs x') (inner : starts op = none)
    (lift : ∀ {y out y'}, step y = some (out, y') → ¬ Rest (embed y) ∧
      exec (embed y) op = some (out, embed y') ∧
      ∀ op', starts op' = none → exec (embed y) op' ≠ none → op' = op)
    (rest : Rest (embed x')) :
    ∃ l, Episode exec starts Rest (embed x) l (embed x') ∧
      observed seen l = outs.flatMap seen := by
  induction path with
  | nil => exact ⟨[], .done rest, rfl⟩
  | cons e path ih =>
    obtain ⟨busy, e', only⟩ := lift e
    obtain ⟨l, ep, obs⟩ := ih rest
    exact ⟨_ :: l, .step busy e' only inner ep, congrArg (_ ++ ·) obs⟩

end Episode

/-- Every coarse operation is an episode of the fine machine, with the same observations, and leads
    to related states. -/
structure Refines (exec : σ → ο → Option (ρ × σ)) (whole : τ → κ → Option (π × τ))
    (starts : ο → Option κ) (Rest : σ → Prop) (seen : ρ → List ω) (shown : π → List ω)
    (Same : σ → τ → Prop) : Prop where
  rest : ∀ {s t}, Same s t → Rest s
  stuck : ∀ {s op}, Rest s → starts op = none → exec s op = none
  simulate : ∀ {s t act op out t'}, Same s t → starts act = some op → whole t op = some (out, t') →
    ∃ out1 s1 l s', exec s act = some (out1, s1) ∧ Episode exec starts Rest s1 l s' ∧ Same s' t' ∧
      seen out1 ++ observed seen l = shown out

section Refines

variable {exec : σ → ο → Option (ρ × σ)} {whole : τ → κ → Option (π × τ)} {starts : ο → Option κ}
  {Rest : σ → Prop} {seen : ρ → List ω} {shown : π → List ω} {Same : σ → τ → Prop} {s s' : σ}
  {t t' : τ}

/-- Every coarse run is a serial run of the fine machine. -/
theorem Refines.forward (ref : Refines exec whole starts Rest seen shown Same)
    (onto : ∀ op, ∃ act, starts act = some op) {log : List (Entry τ κ π)} (same : Same s t)
    (run : Run whole t log t') :
    ∃ l s', Run exec s l s' ∧ Serial starts Rest l ∧ Same s' t' ∧
      started starts l = log.map Entry.op ∧ observed seen l = observed shown log := by
  induction run generalizing s with
  | nil => exact ⟨[], s, .nil, fun x mem => absurd mem List.not_mem_nil, same, rfl, rfl⟩
  | @cons t t1 t' op out log e run ih =>
    obtain ⟨act, start⟩ := onto op
    obtain ⟨out1, s1, l1, s2, e1, ep, same2, obs1⟩ := ref.simulate same start e
    obtain ⟨l2, s', run2, serial2, same', ops2, obs2⟩ := ih same2
    refine ⟨⟨s, act, out1⟩ :: (l1 ++ l2), s', .cons e1 (ep.run.append run2), ?_, same', ?_, ?_⟩
    · intro x mem starting
      cases mem with
      | head => exact ref.rest same
      | tail _ mem =>
        obtain mem | mem := List.mem_append.1 mem
        · exact ep.serial x mem starting
        · exact serial2 x mem starting
    · rw [started_cons start, started_append, ep.started_nil, ops2]
      rfl
    · rw [observed_cons, observed_append, ← List.append_assoc, obs1, obs2, observed_cons]

/-- Every serial run of the fine machine that ends at rest is a coarse run, if coarse operations
    never fail. -/
theorem Refines.backward (ref : Refines exec whole starts Rest seen shown Same) (Inv : τ → Prop)
    (total : ∀ {t} op, Inv t → ∃ out t', whole t op = some (out, t') ∧ Inv t')
    {l : List (Entry σ ο ρ)} (same : Same s t) (inv : Inv t) (run : Run exec s l s')
    (serial : Serial starts Rest l) (rest : Rest s') :
    ∃ log t', Run whole t log t' ∧ Inv t' ∧ Same s' t' ∧
      log.map Entry.op = started starts l ∧ observed shown log = observed seen l := by
  -- an operation takes its episode off the front of the log
  induction len : l.length using Nat.strongRecOn generalizing s t l with
  | ind n ih =>
    cases run with
    | nil => exact ⟨[], t, .nil, inv, same, rfl, rfl⟩
    | @cons _ s1 _ act out1 l e run =>
      cases start : starts act with
      | none =>
        rw [ref.stuck (ref.rest same) start] at e
        cases e
      | some op =>
        obtain ⟨out, t1, whole1, inv1⟩ := total op inv
        obtain ⟨out2, s2, l1, s3, e2, ep, same3, obs1⟩ := ref.simulate same start whole1
        cases e.symm.trans e2
        have serial1 : Serial starts Rest l := fun x mem => serial x (List.mem_cons_of_mem _ mem)
        obtain ⟨l2, rfl, run2⟩ := ep.split run serial1 rest
        have shorter : l2.length < n := by
          rw [← len, List.length_cons, List.length_append]
          omega
        obtain ⟨log, t', runs, inv', same', ops, obs⟩ := ih l2.length shorter same3 inv1 run2
          (fun x mem => serial1 x (List.mem_append_right l1 mem)) rfl
        refine ⟨⟨t, op, out⟩ :: log, t', .cons whole1 runs, inv', same', ?_, ?_⟩
        · rw [started_cons start, started_append, ep.started_nil, ← ops]
          rfl
        · rw [observed_cons, observed_cons, observed_append, ← List.append_assoc, obs1, obs]

end Refines

end Runs
