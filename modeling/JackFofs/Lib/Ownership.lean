import Mathlib.Algebra.Order.Group.Multiset
import Mathlib.Tactic.Abel

/-!
# Programs that own resources

A program asks its environment for resources, uses them and gives them back. The environment may
refuse any request and answer any status. A resource has to be live to be used or given back, so a
program that gives back something twice, or uses it afterwards, ends with the fault `notLive`. A
program with an array ends with the fault `outside` when it goes to an element that the array does not
have (`Prog.within`).

`Triple env E P m Q` is total correctness with ownership: run with the resources `P`, and whatever
others `F` there are, the program ends with a fault in `E`, or with a result `a` and resources `H` such
that `Q a H`, and the others are still there. The frame `F` is part of the definition, so every program
may be called with more than it needs (`Triple.call`). A program that ends with fewer resources than it
has obtained has leaked none of them only if `H` says so.
-/

namespace Ownership

/-- A resource: its kind and the number of the request that obtained it. -/
structure Handle (κ : Type) where
  kind : κ
  id : Nat
deriving DecidableEq

/-- What ends a program early: an access through a bad pointer, to a resource that is not live, or to an
    element outside of an array. -/
inductive Fault where
  | badPtr
  | notLive
  | outside
deriving DecidableEq

/-- The elements of an array of `n` elements that have been filled, from the first one on. -/
structure Filled (n : Nat) (α : Type) where
  elems : List α
  fits : elems.length ≤ n

/-- An array with no element filled. -/
def Filled.empty (n : Nat) (α : Type) : Filled n α := ⟨[], Nat.zero_le n⟩

/-- Fills the next element. -/
def Filled.push {n : Nat} {α : Type} (a : Filled n α) (x : α) (lt : a.elems.length < n) : Filled n α :=
  ⟨a.elems ++ [x], by rw [List.length_append]; exact lt⟩

/-- The answers of the environment to the requests, by their number. -/
structure Env where
  grant : Nat → Bool
  status : Nat → Int

/-- The number of requests so far, and the live resources. -/
structure World (κ : Type) where
  asked : Nat
  live : Multiset (Handle κ)

/-- A program with results in `α`. -/
def Prog (κ α : Type) : Type := Env → World κ → Except Fault (α × World κ)

variable {κ α β : Type}

namespace Prog

/-- Runs a program, and another one with its result. -/
def bind (m : Prog κ α) (f : α → Prog κ β) : Prog κ β := fun env w =>
  match m env w with
  | .error e => .error e
  | .ok (a, w') => f a env w'

instance : Monad (Prog κ) where
  pure a := fun _ w => .ok (a, w)
  bind := bind

/-- A program that ends well hands its result on. -/
lemma bind_ok {env : Env} {w w' : World κ} {m : Prog κ α} {f : α → Prog κ β} {a : α}
    (run : m env w = .ok (a, w')) : (m >>= f) env w = f a env w' := by
  show Prog.bind m f env w = _
  rw [Prog.bind, run]

/-- A fault ends everything. -/
lemma bind_error {env : Env} {w : World κ} {m : Prog κ α} {f : α → Prog κ β} {e : Fault}
    (run : m env w = .error e) : (m >>= f) env w = .error e := by
  show Prog.bind m f env w = _
  rw [Prog.bind, run]

lemma bind_pure (m : Prog κ α) : (m >>= Pure.pure) = m := by
  funext env w
  cases run : m env w with
  | error e => exact bind_error run
  | ok r => exact bind_ok run

/-- Asks for a status. -/
def status : Prog κ Int := fun env w => .ok (env.status w.asked, { w with asked := w.asked + 1 })

/-- Asks for something that is no resource of its own. -/
def request : Prog κ Bool := fun env w => .ok (env.grant w.asked, { w with asked := w.asked + 1 })

/-- Asks for a resource. -/
def acquire (kind : κ) : Prog κ (Option (Handle κ)) := fun env w =>
  if env.grant w.asked then
    .ok (some ⟨kind, w.asked⟩, ⟨w.asked + 1, ⟨kind, w.asked⟩ ::ₘ w.live⟩)
  else .ok (none, { w with asked := w.asked + 1 })

lemma acquire_granted {kind : κ} {env : Env} {w : World κ} (grant : env.grant w.asked = true) :
    acquire kind env w = .ok (some ⟨kind, w.asked⟩, ⟨w.asked + 1, ⟨kind, w.asked⟩ ::ₘ w.live⟩) :=
  if_pos grant

lemma acquire_refused {kind : κ} {env : Env} {w : World κ} (refused : env.grant w.asked = false) :
    acquire kind env w = .ok (none, { w with asked := w.asked + 1 }) :=
  if_neg (Bool.eq_false_iff.1 refused)

/-- Uses a resource. -/
def use [DecidableEq κ] (h : Handle κ) : Prog κ Unit := fun _ w =>
  if h ∈ w.live then .ok ((), w) else .error .notLive

/-- Gives a resource back. -/
def release [DecidableEq κ] (h : Handle κ) : Prog κ Unit := fun _ w =>
  if h ∈ w.live then .ok ((), { w with live := w.live.erase h }) else .error .notLive

/-- Ends with a fault. -/
def fail (e : Fault) : Prog κ α := fun _ _ => .error e

/-- Follows a pointer. -/
def deref : Option α → Prog κ α
  | none => fail .badPtr
  | some a => pure a

/-- Goes on with the element `i` of an array of `n` elements. -/
def within (i n : Nat) (next : i < n → Prog κ α) : Prog κ α :=
  if lt : i < n then next lt else fail .outside

/-- Gives resources back, in order. -/
def releaseAll [DecidableEq κ] : List (Handle κ) → Prog κ Unit
  | [] => pure ()
  | h :: l => do
    release h
    releaseAll l

/-- Uses resources, in order. -/
def useAll [DecidableEq κ] : List (Handle κ) → Prog κ Unit
  | [] => pure ()
  | h :: l => do
    use h
    useAll l

/-- Runs programs until one answers a status that is not zero. -/
def firstError : List (Prog κ Int) → Prog κ Int
  | [] => pure 0
  | m :: l => do
    let status ← m
    if status ≠ 0 then pure status else firstError l

end Prog

open Prog

/-- The environment refuses nothing. -/
def Env.Grants (env : Env) : Prop := ∀ n, env.grant n = true

/-- The environment refuses nothing and answers only zero. -/
structure Env.Calm (env : Env) : Prop where
  grants : env.Grants
  status : ∀ n, env.status n = 0

/-- What is asked of the end of a program, next to the resources `F`. -/
def Ends (E : Fault → Prop) (F : Multiset (Handle κ)) (Q : α → Multiset (Handle κ) → Prop) :
    Except Fault (α × World κ) → Prop
  | .error e => E e
  | .ok (a, w) => ∃ H, w.live = H + F ∧ Q a H

/-- Total correctness with ownership. -/
def Triple (env : Env) (E : Fault → Prop) (P : Multiset (Handle κ)) (m : Prog κ α)
    (Q : α → Multiset (Handle κ) → Prop) : Prop :=
  ∀ w F, w.live = P + F → Ends E F Q (m env w)

variable {env : Env} {E E' : Fault → Prop} {P F H : Multiset (Handle κ)} {m : Prog κ α}
  {f : α → Prog κ β} {Q Q' R : α → Multiset (Handle κ) → Prop} {S : β → Multiset (Handle κ) → Prop}

namespace Triple

/-- A result. -/
lemma pure {a : α} (post : Q a H) : Triple env E H (Pure.pure a) Q :=
  fun _ _ e => ⟨H, e, post⟩

/-- A program that fits part of the resources may be called with all of them. -/
lemma call (spec : Triple env E P m R) (own : H = P + F)
    (next : ∀ a H', R a H' → Triple env E (H' + F) (f a) S) : Triple env E H (m >>= f) S := by
  intro w G e
  have ends := spec w (F + G) (by rw [e, own, add_assoc])
  cases run : m env w with
  | error fault =>
    rw [run] at ends
    rw [bind_error run]
    exact ends
  | ok r =>
    obtain ⟨a, w'⟩ := r
    rw [run] at ends
    rw [bind_ok run]
    obtain ⟨H', e', post⟩ := ends
    exact next a H' post w' G (by rw [e', add_assoc])

/-- What comes after a program without a result is never run. -/
lemma stops (spec : Triple env E P m fun _ _ => False) (own : H = P + F) :
    Triple env E H (m >>= f) S :=
  call spec own fun _ _ none => none.elim

/-- A program that is called last. -/
lemma last (spec : Triple env E P m R) (own : H = P + F) (post : ∀ a H', R a H' → Q a (H' + F)) :
    Triple env E H m Q := by
  intro w G e
  have ends := spec w (F + G) (by rw [e, own, add_assoc])
  cases run : m env w with
  | error fault =>
    rw [run] at ends
    exact ends
  | ok r =>
    obtain ⟨a, w'⟩ := r
    rw [run] at ends
    obtain ⟨H', e', r⟩ := ends
    exact ⟨H' + F, by rw [e', add_assoc], post a H' r⟩

/-- Weaker results, and more faults. -/
lemma mono (spec : Triple env E H m Q) (fault : ∀ e, E e → E' e) (post : ∀ a H', Q a H' → Q' a H') :
    Triple env E' H m Q' := by
  intro w G e
  have ends := spec w G e
  cases run : m env w with
  | error e' =>
    rw [run] at ends
    exact fault e' ends
  | ok r =>
    obtain ⟨a, w'⟩ := r
    rw [run] at ends
    obtain ⟨H', e', q⟩ := ends
    exact ⟨H', e', post a H' q⟩

/-! ## One request -/

lemma status_then {f : Int → Prog κ β} (next : ∀ n, Triple env E H (f (env.status n)) S) :
    Triple env E H (status >>= f) S :=
  fun w G e => next w.asked { w with asked := w.asked + 1 } G e

lemma status : Triple env E H status fun status H' => H' = H ∧ (env.Calm → status = 0) := by
  rw [← bind_pure Prog.status]
  exact status_then fun n => pure ⟨rfl, fun calm => calm.status n⟩

lemma request_then {f : Bool → Prog κ β} (yes : Triple env E H (f true) S)
    (no : ¬ env.Grants → Triple env E H (f false) S) : Triple env E H (request >>= f) S := by
  intro w G e
  show Ends E G S (f (env.grant w.asked) env { w with asked := w.asked + 1 })
  cases grant : env.grant w.asked with
  | true => exact yes _ G e
  | false =>
    refine no (fun all => ?_) _ G e
    rw [all w.asked] at grant
    cases grant

lemma request : Triple env E H request fun yes H' => H' = H ∧ (yes = false → ¬ env.Grants) := by
  rw [← bind_pure Prog.request]
  exact request_then (pure ⟨rfl, fun h => absurd h.symm Bool.false_ne_true⟩)
    fun no => pure ⟨rfl, fun _ => no⟩

lemma acquire_then {kind : κ} {f : Option (Handle κ) → Prog κ β}
    (some : ∀ h : Handle κ, h.kind = kind → Triple env E ({h} + H) (f (some h)) S)
    (none : ¬ env.Grants → Triple env E H (f none) S) : Triple env E H (acquire kind >>= f) S := by
  intro w G e
  cases grant : env.grant w.asked with
  | true =>
    rw [bind_ok (acquire_granted grant)]
    refine some ⟨kind, w.asked⟩ rfl _ G ?_
    show ⟨kind, w.asked⟩ ::ₘ w.live = _
    rw [e, ← Multiset.singleton_add, add_assoc]
  | false =>
    rw [bind_ok (acquire_refused grant)]
    refine none (fun all => ?_) _ G e
    rw [all w.asked] at grant
    cases grant

lemma deref_then {γ : Type} {f : γ → Prog κ β} {a : γ} (next : Triple env E H (f a) S) :
    Triple env E H (deref (some a) >>= f) S :=
  fun w G e => next w G e

lemma deref_none {γ : Type} {f : γ → Prog κ β} (fault : E .badPtr) :
    Triple env E H (deref none >>= f) S :=
  fun _ _ _ => fault

lemma within {i n : Nat} {next : i < n → Prog κ α} (lt : i < n) (spec : Triple env E H (next lt) Q) :
    Triple env E H (within i n next) Q := by
  rw [Prog.within, dif_pos lt]
  exact spec

lemma outside {i n : Nat} {next : i < n → Prog κ α} (ge : n ≤ i) (fault : E .outside) :
    Triple env E H (Prog.within i n next) Q := by
  rw [Prog.within, dif_neg (Nat.not_lt.2 ge)]
  exact fun _ _ _ => fault

variable [DecidableEq κ] {h : Handle κ}

lemma use_then {f : Unit → Prog κ β} (mem : h ∈ H) (next : Triple env E H (f ()) S) :
    Triple env E H (use h >>= f) S := by
  intro w G e
  have live : h ∈ w.live := by
    rw [e]
    exact Multiset.mem_add.2 (.inl mem)
  have run : use h env w = .ok ((), w) := if_pos live
  rw [bind_ok run]
  exact next w G e

lemma release_then {f : Unit → Prog κ β} (own : H = {h} + F) (next : Triple env E F (f ()) S) :
    Triple env E H (release h >>= f) S := by
  intro w G e
  have live : w.live = h ::ₘ (F + G) := by
    rw [e, own, add_assoc, Multiset.singleton_add]
  have mem : h ∈ w.live := by
    rw [live]
    exact Multiset.mem_cons_self h _
  have run : release h env w = .ok ((), { w with live := w.live.erase h }) := if_pos mem
  rw [bind_ok run]
  refine next _ G ?_
  show w.live.erase h = _
  rw [live, Multiset.erase_cons_head]

lemma release (own : H = {h} + F) : Triple env E H (release h) fun _ H' => H' = F := by
  rw [← bind_pure (Prog.release h)]
  exact release_then own (pure rfl)

/-! ## Loops -/

lemma releaseAll (l : List (Handle κ)) :
    Triple env E (l : Multiset (Handle κ)) (releaseAll l) fun _ H => H = 0 := by
  induction l with
  | nil => exact pure rfl
  | cons h l ih => exact release_then (by rw [← Multiset.cons_coe, Multiset.singleton_add]) ih

lemma useAll {l : List (Handle κ)} (mem : ∀ h ∈ l, h ∈ H) :
    Triple env E H (useAll l) fun _ H' => H' = H := by
  induction l with
  | nil => exact pure rfl
  | cons h l ih =>
    exact use_then (mem h List.mem_cons_self) (ih fun h mem' => mem h (List.mem_cons_of_mem _ mem'))

omit [DecidableEq κ] in
/-- If every program keeps the resources, so does the loop. If it answers zero, it has run them all. -/
lemma firstError {γ : Type} {l : List γ} {prog : γ → Prog κ Int} {R : γ → Prop}
    (each : ∀ a ∈ l, Triple env E H (prog a) fun status H' =>
      H' = H ∧ R a ∧ (env.Calm → status = 0)) :
    Triple env E H (firstError (l.map prog)) fun status H' =>
      H' = H ∧ (status = 0 → ∀ a ∈ l, R a) ∧ (env.Calm → status = 0) := by
  induction l with
  | nil => exact pure ⟨rfl, fun _ a mem => absurd mem List.not_mem_nil, fun _ => rfl⟩
  | cons a l ih =>
    refine call (each a List.mem_cons_self) (add_zero H).symm ?_
    rintro status _ ⟨rfl, ran, calm⟩
    rw [add_zero]
    split
    case isTrue ne => exact pure ⟨rfl, fun zero => absurd zero ne, calm⟩
    case isFalse =>
      refine mono (ih fun b mem => each b (List.mem_cons_of_mem _ mem)) (fun _ fault => fault) ?_
      rintro status _ ⟨rfl, all, calm⟩
      refine ⟨rfl, fun zero b mem => ?_, calm⟩
      cases mem with
      | head => exact ran
      | tail _ mem => exact all zero b mem

end Triple

/-! ## What a triple says about runs -/

/-- A program that has what it needs ends, with a fault in `E` or next to the other resources. -/
lemma Triple.run (spec : Triple env E P m Q) {w : World κ} (live : w.live = P + F) :
    (∃ e, m env w = .error e ∧ E e) ∨
      ∃ a w' H, m env w = .ok (a, w') ∧ w'.live = H + F ∧ Q a H := by
  have ends := spec w F live
  cases run : m env w with
  | error e =>
    rw [run] at ends
    exact .inl ⟨e, rfl, ends⟩
  | ok r =>
    obtain ⟨a, w'⟩ := r
    rw [run] at ends
    obtain ⟨H, live, post⟩ := ends
    exact .inr ⟨a, w', H, rfl, live, post⟩

/-- A program without a result ends with a fault. -/
lemma Triple.faults (spec : Triple env E P m fun _ _ => False) {w : World κ} (live : w.live = P + F) :
    ∃ e, m env w = .error e ∧ E e := by
  obtain fault | ⟨_, _, _, -, -, none⟩ := spec.run live
  · exact fault
  · exact none.elim

/-! ## What a run says about its parts -/

section Parts

variable {w w' : World κ} {kind : κ} {a : α} {b : β}

/-- A run of two programs in a row is a run of each of them. -/
lemma bind_inv (run : (m >>= f) env w = .ok (b, w')) :
    ∃ a w1, m env w = .ok (a, w1) ∧ f a env w1 = .ok (b, w') := by
  cases first : m env w with
  | error e =>
    rw [bind_error first] at run
    cases run
  | ok r =>
    obtain ⟨a, w1⟩ := r
    rw [bind_ok first] at run
    exact ⟨a, w1, rfl, run⟩

/-- A request is granted as the environment says, and the program goes on, to whatever end. -/
lemma acquire_run {f : Option (Handle κ) → Prog κ β} {res : Except Fault (β × World κ)}
    (run : (acquire kind >>= f) env w = res) :
    ∃ r w1, r.isSome = env.grant w.asked ∧ w1.asked = w.asked + 1 ∧ f r env w1 = res := by
  cases grant : env.grant w.asked with
  | true =>
    rw [bind_ok (acquire_granted grant)] at run
    exact ⟨_, _, rfl, rfl, run⟩
  | false =>
    rw [bind_ok (acquire_refused grant)] at run
    exact ⟨_, _, rfl, rfl, run⟩

lemma use_inv [DecidableEq κ] {h : Handle κ} {u : Unit} (run : use h env w = .ok (u, w')) : w' = w := by
  rw [use] at run
  split at run
  · cases run
    rfl
  · cases run

lemma within_inv {i n : Nat} {next : i < n → Prog κ α} (run : within i n next env w = .ok (a, w')) :
    ∃ lt, next lt env w = .ok (a, w') := by
  rw [within] at run
  split at run
  case isTrue lt => exact ⟨lt, run⟩
  case isFalse => cases run

/-! ### Crashes -/

lemma pure_crash {e : Fault} (run : (pure a : Prog κ α) env w = .error e) : False := by
  cases run

/-- If two programs in a row crash, one of them does. -/
lemma bind_crash {e : Fault} (run : (m >>= f) env w = .error e) :
    m env w = .error e ∨ ∃ a w1, m env w = .ok (a, w1) ∧ f a env w1 = .error e := by
  cases first : m env w with
  | error e' =>
    rw [bind_error first] at run
    cases run
    exact .inl rfl
  | ok r =>
    obtain ⟨a, w1⟩ := r
    rw [bind_ok first] at run
    exact .inr ⟨a, w1, rfl, run⟩

lemma request_crash {e : Fault} {f : Bool → Prog κ β} (run : (request >>= f) env w = .error e) :
    ∃ w1, w1.asked = w.asked + 1 ∧ f (env.grant w.asked) env w1 = .error e :=
  ⟨_, rfl, run⟩

lemma status_crash {e : Fault} {f : Int → Prog κ β} (run : (status >>= f) env w = .error e) :
    ∃ w1, w1.asked = w.asked + 1 ∧ f (env.status w.asked) env w1 = .error e :=
  ⟨_, rfl, run⟩

lemma deref_crash {γ : Type} {e : Fault} {p : Option γ} {f : γ → Prog κ β}
    (run : (deref p >>= f) env w = .error e) : p = none ∨ ∃ a, p = some a ∧ f a env w = .error e := by
  cases p with
  | none => exact .inl rfl
  | some a => exact .inr ⟨a, rfl, run⟩

lemma use_crash [DecidableEq κ] {h : Handle κ} {f : Unit → Prog κ β}
    (run : (use h >>= f) env w = .error .badPtr) : f () env w = .error .badPtr := by
  obtain crash | ⟨u, w1, first, run⟩ := bind_crash run
  · rw [use] at crash
    split at crash <;> cases crash
  · cases use_inv first
    exact run

lemma release_crash [DecidableEq κ] {h : Handle κ} {f : Unit → Prog κ β}
    (run : (release h >>= f) env w = .error .badPtr) :
    ∃ w1, w1.asked = w.asked ∧ f () env w1 = .error .badPtr := by
  obtain crash | ⟨u, w1, first, run⟩ := bind_crash run
  · rw [release] at crash
    split at crash <;> cases crash
  · rw [release] at first
    split at first
    · cases first
      exact ⟨{ w with live := w.live.erase h }, rfl, run⟩
    · cases first

end Parts

end Ownership
