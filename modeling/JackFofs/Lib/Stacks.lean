import JackFofs.Lib.Partition
import JackFofs.Lib.Seg

/-!
# Shared stacks and private cells

A pool of cells spread over places, some of which are stacks in shared memory (a head pointer and
`next` fields) while the others are private to a thread. `Stacks` says that every stack is
`NULL`-terminated in memory and that the places partition the pool.

The rules are what a lock-free stack does with single memory accesses, seen from its lists. A thread
may write the `next` fields of its private cells (`Stacks.write`). A compare-exchange of a head pointer
pops a cell (`Stacks.pop`), pushes a private chain that already ends in the old head (`Stacks.push`)
or takes the whole stack (`Stacks.take`). None of them asks who else is active: a pop only needs the
`next` field it installs to be the current one, and a push needs nothing about other threads at all.
-/

namespace Linked

variable {α κ : Type*} {cells : List α} {next : α → Option α} {top top' : κ → Option α}
  {S : κ → Prop} {L : κ → List α} {i k : κ} {a : α}

/-- The places in `S` are stacks in memory, and all places partition the pool. -/
structure Stacks (cells : List α) (next : α → Option α) (top : κ → Option α) (S : κ → Prop)
    (L : κ → List α) : Prop where
  list : ∀ {k}, S k → Seg next (top k) (L k) none
  part : Partition cells L

/-- The stack pointers other than `i` are the same. -/
def SameTops (S : κ → Prop) (i : κ) (top top' : κ → Option α) : Prop :=
  ∀ k, S k → k ≠ i → top' k = top k

/-- Stacks depend on the head pointers of stacks only. -/
lemma Stacks.congr (st : Stacks cells next top S L) (tops : ∀ k, S k → top' k = top k) :
    Stacks cells next top' S L := by
  refine ⟨fun {k} hk => ?_, st.part⟩
  rw [tops k hk]
  exact st.list hk

lemma ne_of_stack (hi : S i) (hk : ¬ S k) : i ≠ k := by
  intro e
  subst e
  exact hk hi

/-- Writing `next` fields of private cells. -/
lemma Stacks.write {next' : α → Option α} (st : Stacks cells next top S L) (hk : ¬ S k)
    (out : ∀ b, b ∉ L k → next' b = next b) : Stacks cells next' top S L := by
  refine ⟨fun {i} hi => (st.list hi).congr fun b mem => ?_, st.part⟩
  exact out b (st.part.notMem mem (ne_of_stack hi hk))

/-- No cell of a private place is reachable from the head of a stack. -/
lemma Stacks.not_reachable (st : Stacks cells next top S L) (hi : S i) (hk : ¬ S k) (mem : a ∈ L k)
    (l : List α) : ¬ Seg next (top i) l (some a) := by
  intro path
  have sg := st.list hi
  -- the path is a prefix of the stack, so `a` would be on the stack
  have on : a ∈ L i := by
    generalize top i = h at path sg
    generalize L i = m at sg
    induction l generalizing h m with
    | nil =>
      rw [Seg.nil_iff] at path
      subst path
      cases sg with
      | cons _ => exact List.mem_cons_self
    | cons b l ih =>
      rw [Seg.cons_iff] at path
      obtain ⟨rfl, path⟩ := path
      cases sg with
      | cons sg => exact List.mem_cons_of_mem b (ih _ path _ sg)
  exact st.part.notMem on (ne_of_stack hi hk) mem

variable [DecidableEq κ]

/-- Moving cells between private places. -/
lemma Stacks.move {l1 l2 : List α} (st : Stacks cells next top S L) (hi : ¬ S i) (hk : ¬ S k)
    (ne : i ≠ k) (pm : (l1 ++ l2).Perm (L i ++ L k)) :
    Stacks cells next top S (Function.update (Function.update L i l1) k l2) := by
  refine ⟨fun {j} hj => ?_, st.part.move ne pm⟩
  rw [Function.update_of_ne (ne_of_stack hj hk), Function.update_of_ne (ne_of_stack hj hi)]
  exact st.list hj

/-- A successful compare-exchange that pops the first cell of a stack. -/
lemma Stacks.pop (st : Stacks cells next top S L) (hi : S i) (hk : ¬ S k) (head : top i = some a)
    (tops : SameTops S i top top') (top_i : top' i = next a) :
    ∃ r, L i = a :: r ∧
      Stacks cells next top' S (Function.update (Function.update L i r) k (a :: L k)) := by
  have sg := st.list hi
  rw [head] at sg
  obtain ⟨r, er⟩ : ∃ r, L i = a :: r := by
    cases el : L i with
    | nil =>
      rw [el, Seg.nil_iff] at sg
      cases sg
    | cons b r =>
      rw [el, Seg.cons_iff] at sg
      cases sg.1
      exact ⟨r, rfl⟩
  rw [er, Seg.cons_iff] at sg
  refine ⟨r, er, fun {j} hj => ?_, ?_⟩
  · rw [Function.update_of_ne (ne_of_stack hj hk)]
    by_cases e : j = i
    · subst e
      rw [Function.update_self, top_i]
      exact sg.2
    · rw [Function.update_of_ne e, tops j hj e]
      exact st.list hj
  · apply st.part.move (ne_of_stack hi hk)
    rw [er]
    exact List.perm_middle

/-- A successful compare-exchange that pushes a private chain: it ends in the old head. -/
lemma Stacks.push {h : Option α} {l r : List α} (st : Stacks cells next top S L) (hi : S i)
    (hk : ¬ S k) (pm : (L k).Perm (l ++ r)) (chain : Seg next h l (top i))
    (tops : SameTops S i top top') (top_i : top' i = h) :
    Stacks cells next top' S (Function.update (Function.update L k r) i (l ++ L i)) := by
  have ne := ne_of_stack hi hk
  refine ⟨fun {j} hj => ?_, ?_⟩
  · by_cases e : j = i
    · subst e
      rw [Function.update_self, top_i]
      exact Seg.append_iff.2 ⟨top j, chain, st.list hi⟩
    · rw [Function.update_of_ne e, Function.update_of_ne (ne_of_stack hj hk), tops j hj e]
      exact st.list hj
  · apply st.part.move ne.symm
    have pm1 : (r ++ (l ++ L i)).Perm ((l ++ r) ++ L i) := by
      rw [← List.append_assoc]
      exact List.perm_append_comm.append_right _
    exact pm1.trans (pm.symm.append_right _)

/-- An exchange with `NULL` that takes a whole stack. -/
lemma Stacks.take (st : Stacks cells next top S L) (hi : S i) (hk : ¬ S k)
    (tops : SameTops S i top top') (top_i : top' i = none) :
    Stacks cells next top' S (Function.update (Function.update L i []) k (L i ++ L k)) := by
  refine ⟨fun {j} hj => ?_, st.part.move (ne_of_stack hi hk) (List.Perm.refl _)⟩
  rw [Function.update_of_ne (ne_of_stack hj hk)]
  by_cases e : j = i
  · subst e
    rw [Function.update_self, top_i]
    exact .nil
  · rw [Function.update_of_ne e, tops j hj e]
    exact st.list hj

end Linked
