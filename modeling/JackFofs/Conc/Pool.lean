import JackFofs.Conc.FreeList
import JackFofs.Lib.Run

/-!
# Any number of parties on one free list

Producers and the controller allocate cells, hand them over and free them, in any interleaving of
the steps of `JackFofs/Conc/FreeList`. A party owns a cell from the compare-exchange that pops it to
the compare-exchange that pushes it back; in between it may write the `next` field of the cell or
hand it to another party, as producers do through the slots.

The compare-exchange of `fof_queue_allocate_fof` installs a `next` value that it read earlier. While
it waits, other parties can pop the cell, pop its successor and push the cell back, and then the
value is stale and the free list ends up in a cell that is owned (`aba_given_twice`). In runs where
no stale value is installed every cell has one place (`cells_given_once`).
-/

namespace JackFofs
open Linked Runs

variable {α : Type}

/-- The parties: any number of API clients, and the controller. -/
inductive Party where
  | producer (i : Nat)
  | controller
deriving DecidableEq

/-- What a party is doing. A call that frees carries its chain of cells along. -/
inductive PartyPc where
  | idle
  | alloc (pc : AllocPc)
  | push (chain : List Addr) (head tail : Addr) (pc : PushPc)

/-- The shared memory, what each party is doing and the cells each party owns. -/
structure Pool (α : Type) where
  q : FofQueue α
  pc : Party → PartyPc
  own : Party → List Addr

/-- What a party can do next: start a call, make the next step of its call, hand a cell over, or link
    cells that it owns. Freeing a single cell is `free` with `head = tail`. -/
inductive PoolOp where
  | allocate (p : Party)
  | free (p : Party) (chain : List Addr) (head tail : Addr)
  | step (p : Party)
  | give (p dest : Party) (fof : Addr)
  | link (p : Party) (fof : Addr) (next : Option Addr)
deriving DecidableEq

/-- The cells from `head` to `tail` are those of `chain`, each pointing to the next one. -/
def isChain (q : FofQueue α) (tail : Addr) : Option Addr → List Addr → Bool
  | _, [] => false
  | head, [a] => head = some a && a = tail
  | head, a :: b :: l => head = some a && isChain q tail (q.next a) (b :: l)

/-- The state after a step of the party's call. -/
def Pool.step (s : Pool α) (p : Party) : Option (Pool α) :=
  match s.pc p with
  | .idle => none
  | .alloc pc =>
    let (res, q) := allocStep s.q pc
    match res with
    | .more (.clear fof) => some {
        q := q
        pc := Function.update s.pc p (.alloc (.clear fof))
        own := Function.update s.own p (fof :: s.own p) }
    | .more pc => some { s with q := q, pc := Function.update s.pc p (.alloc pc) }
    | _ => some { s with q := q, pc := Function.update s.pc p .idle }
  | .push chain head tail pc =>
    match pushStep s.q head tail pc with
    | (some pc, q) => some { s with q := q, pc := Function.update s.pc p (.push chain head tail pc) }
    | (none, q) => some {
        q := q
        pc := Function.update s.pc p .idle
        own := Function.update s.own p ((s.own p).filter (· ∉ chain)) }

/-- One operation of the pool. A party frees, hands over and links only cells that it owns, and only
    between two calls. -/
def Pool.exec (s : Pool α) : PoolOp → Option (Unit × Pool α)
  | .allocate p =>
    match s.pc p with
    | .idle => some ((), { s with pc := Function.update s.pc p (.alloc .load) })
    | _ => none
  | .free p chain head tail =>
    match s.pc p with
    | .idle =>
      if chain.Nodup ∧ (∀ c ∈ chain, c ∈ s.own p) ∧ isChain s.q tail (some head) chain then
        some ((), { s with pc := Function.update s.pc p (.push chain head tail .load) })
      else none
    | _ => none
  | .step p => (s.step p).map fun s => ((), s)
  | .give p dest fof =>
    match s.pc p with
    | .idle =>
      if p ≠ dest ∧ fof ∈ s.own p then
        some ((), { s with
          own := Function.update (Function.update s.own p ((s.own p).erase fof)) dest
            (fof :: s.own dest) })
      else none
    | _ => none
  | .link p fof next =>
    match s.pc p with
    | .idle => if fof ∈ s.own p then some ((), { s with q := s.q.setNext fof next }) else none
    | _ => none

/-- The pool right after `fof_queue_init`. -/
def Pool.init (setup : Setup) (q : FofQueue α) : Pool α where
  q := fofQueueInit q setup
  pc := fun _ => .idle
  own := fun _ => []

/-- An entry of the log of the pool. -/
abbrev PoolEntry (α : Type) := Entry (Pool α) PoolOp Unit

/-- The operation is a compare-exchange of `fof_queue_allocate_fof` that succeeds with a value for
    `fof->next` that is no longer the one in memory. -/
def stalePop (x : PoolEntry α) : Bool :=
  match x.op with
  | .step p =>
    match x.pre.pc p with
    | .alloc pc => staleCas x.pre.q pc
    | _ => false
  | _ => false

/-- No cell is owned by two parties, and none that a party owns is reachable from the free list. -/
def OwnedOnce (s : Pool α) : Prop :=
  (∀ c p p', c ∈ s.own p → c ∈ s.own p' → p = p') ∧
    ∀ c p, c ∈ s.own p → ∀ path, ¬ Seg s.q.next s.q.freeFofs path (some c)

/-! ## The invariant -/

/-- The places of a cell: on the free list, or with a party. -/
inductive PoolPlace where
  | free
  | own (p : Party)
deriving DecidableEq

/-- The free list is the only stack. -/
def PoolPlace.Shared (k : PoolPlace) : Prop := k = .free

lemma free_shared : PoolPlace.free.Shared := rfl

lemma own_not_shared (p : Party) : ¬ (PoolPlace.own p).Shared := by
  intro e
  cases e

lemma free_ne_own (p : Party) : PoolPlace.free ≠ .own p :=
  Ne.symm (own_not_shared p)

/-- The head pointer of the free list. -/
def poolTop (q : FofQueue α) (_ : PoolPlace) : Option Addr := q.freeFofs

/-- The cells of each place, with `free` the free list. -/
def poolLists (free : List Addr) (own : Party → List Addr) : PoolPlace → List Addr
  | .free => free
  | .own p => own p

/-- A party owns the cells its call is working on. -/
def PartyOk (q : FofQueue α) (own : List Addr) : PartyPc → Prop
  | .alloc (.clear fof) => fof ∈ own
  | .push chain head tail pc => (∀ c ∈ chain, c ∈ own) ∧ PushOk q head tail chain pc
  | _ => True

/-- What holds in every reachable state. -/
structure PoolInv (cells : List Addr) (s : Pool α) : Prop where
  lists : ∃ free,
    Stacks cells s.q.next (poolTop s.q) PoolPlace.Shared (poolLists free s.own)
  parties : ∀ p, PartyOk s.q (s.own p) (s.pc p)

variable {cells free own1 own2 : List Addr} {s s1 : Pool α} {q q' : FofQueue α} {p : Party}

lemma PartyOk.congr {pc : PartyPc} (ok : PartyOk q own1 pc)
    (next : ∀ c ∈ own1, q'.next c = q.next c) (sub : ∀ c ∈ own1, c ∈ own2) :
    PartyOk q' own2 pc := by
  cases pc with
  | idle => trivial
  | alloc pc =>
    cases pc with
    | clear fof => exact sub fof ok
    | load => trivial
    | read fof => trivial
    | cas fof nx => trivial
  | push chain head tail pc =>
    obtain ⟨mem, ok⟩ := ok
    exact ⟨fun c memc => sub c (mem c memc), ok.congr fun c memc => next c (mem c memc)⟩

lemma isChain_spec {tail : Addr} {head : Option Addr} {l : List Addr} (h : isChain q tail head l) :
    (∃ p, l = p ++ [tail]) ∧ Seg q.next head l (q.next tail) := by
  induction l generalizing head with
  | nil => exact absurd h Bool.false_ne_true
  | cons a l ih =>
    cases l with
    | nil =>
      rw [isChain, Bool.and_eq_true, decide_eq_true_eq, decide_eq_true_eq] at h
      obtain ⟨rfl, rfl⟩ := h
      refine ⟨⟨[], rfl⟩, ?_⟩
      rw [Seg.cons_iff, Seg.nil_iff]
      exact ⟨rfl, rfl⟩
    | cons b l =>
      rw [isChain, Bool.and_eq_true, decide_eq_true_eq] at h
      obtain ⟨rfl, h⟩ := h
      obtain ⟨⟨p, e⟩, sg⟩ := ih h
      refine ⟨⟨a :: p, congrArg (a :: ·) e⟩, ?_⟩
      rw [Seg.cons_iff]
      exact ⟨rfl, sg⟩

/-- An operation of party `p` that leaves the ownership as it is and writes `next` fields of cells of
    `p` only. -/
lemma PoolInv.of_write {pc : PartyPc} (inv : PoolInv cells s) (own : s1.own = s.own)
    (free : s1.q.freeFofs = s.q.freeFofs) (out : ∀ c, c ∉ s.own p → s1.q.next c = s.q.next c)
    (pcs : s1.pc = Function.update s.pc p pc) (ok : PartyOk s1.q (s.own p) pc) :
    PoolInv cells s1 := by
  obtain ⟨F, st⟩ := inv.lists
  refine ⟨⟨F, ?_⟩, fun p' => ?_⟩
  · have tops : poolTop s1.q = poolTop s.q := funext fun _ => free
    rw [tops, own]
    exact st.write (own_not_shared p) out
  · rw [own, pcs]
    by_cases e : p' = p
    · subst e
      rw [Function.update_self]
      exact ok
    · rw [Function.update_of_ne e]
      have ne : PoolPlace.own p' ≠ .own p := fun h => e (PoolPlace.own.inj h)
      exact (inv.parties p').congr (fun c mem => out c (st.part.notMem mem ne)) fun c mem => mem

lemma poolLists_own (F l : List Addr) (own : Party → List Addr) (p : Party) :
    Function.update (poolLists F own) (.own p) l = poolLists F (Function.update own p l) := by
  funext k
  cases k with
  | free => exact Function.update_of_ne (free_ne_own p) ..
  | own p' =>
    by_cases e : p' = p
    · subst e
      have el : poolLists F (Function.update own p' l) (.own p') = l := Function.update_self ..
      rw [Function.update_self, el]
    · have ne : PoolPlace.own p' ≠ .own p := fun h => e (PoolPlace.own.inj h)
      have el : poolLists F (Function.update own p l) (.own p') = own p' :=
        Function.update_of_ne e ..
      rw [Function.update_of_ne ne, el]
      rfl

/-- The free list is the only head pointer that an operation can change. -/
lemma sameTops_free (q q' : FofQueue α) :
    SameTops PoolPlace.Shared .free (poolTop q) (poolTop q') :=
  fun _ hk ne => absurd hk ne

lemma poolLists_free (F l : List Addr) (own : Party → List Addr) :
    Function.update (poolLists F own) .free l = poolLists l own := by
  funext k
  cases k with
  | free => exact Function.update_self ..
  | own p' => exact Function.update_of_ne (own_not_shared p') ..

/-- A compare-exchange that pops the cell whose `next` field it installs. -/
lemma PoolInv.of_pop {fof : Addr} (inv : PoolInv cells s) (head : s.q.freeFofs = some fof)
    (next : s1.q.next = s.q.next) (free : s1.q.freeFofs = s.q.next fof)
    (own : s1.own = Function.update s.own p (fof :: s.own p))
    (pcs : s1.pc = Function.update s.pc p (.alloc (.clear fof))) : PoolInv cells s1 := by
  obtain ⟨F, st⟩ := inv.lists
  obtain ⟨r, -, st1⟩ := st.pop free_shared (own_not_shared p) head (sameTops_free s.q s1.q) free
  rw [poolLists_free, poolLists_own] at st1
  refine ⟨⟨r, ?_⟩, fun p' => ?_⟩
  · rw [own, next]
    exact st1
  · rw [own, pcs]
    by_cases e : p' = p
    · subst e
      rw [Function.update_self, Function.update_self]
      exact List.mem_cons_self
    · rw [Function.update_of_ne e, Function.update_of_ne e]
      exact (inv.parties p').congr (fun c _ => by rw [next]) fun c mem => mem

/-- A compare-exchange that pushes a chain ending in the old head. -/
lemma PoolInv.of_push {chain : List Addr} {h : Option Addr} (inv : PoolInv cells s)
    (mem : ∀ c ∈ chain, c ∈ s.own p) (nd : chain.Nodup) (sg : Seg s.q.next h chain s.q.freeFofs)
    (next : s1.q.next = s.q.next) (free : s1.q.freeFofs = h)
    (own : s1.own = Function.update s.own p ((s.own p).filter (· ∉ chain)))
    (pcs : s1.pc = Function.update s.pc p .idle) : PoolInv cells s1 := by
  obtain ⟨F, st⟩ := inv.lists
  have ndp : (s.own p).Nodup := st.part.nodup (.own p)
  have pm : (s.own p).Perm (chain ++ (s.own p).filter (· ∉ chain)) := by
    rw [List.perm_ext_iff_of_nodup ndp]
    · intro c
      have mem := mem c
      simp only [List.mem_append, List.mem_filter, decide_eq_true_eq]
      tauto
    · refine List.nodup_append.2 ⟨nd, ndp.filter _, fun c memc c' memc' e => ?_⟩
      subst e
      exact of_decide_eq_true (List.mem_filter.1 memc').2 memc
  have st1 := st.push free_shared (own_not_shared p) pm sg (sameTops_free s.q s1.q) free
  rw [poolLists_own, poolLists_free] at st1
  refine ⟨⟨chain ++ F, ?_⟩, fun p' => ?_⟩
  · rw [own, next]
    exact st1
  · rw [own, pcs]
    by_cases e : p' = p
    · subst e
      rw [Function.update_self, Function.update_self]
      trivial
    · rw [Function.update_of_ne e, Function.update_of_ne e]
      exact (inv.parties p').congr (fun c _ => by rw [next]) fun c mem => mem

/-- Handing a cell over. -/
lemma PoolInv.of_give {dest : Party} {fof : Addr} (inv : PoolInv cells s) (idle : s.pc p = .idle)
    (ne : p ≠ dest) (mem : fof ∈ s.own p) (q : s1.q = s.q) (pcs : s1.pc = s.pc)
    (own : s1.own = Function.update (Function.update s.own p ((s.own p).erase fof)) dest
      (fof :: s.own dest)) : PoolInv cells s1 := by
  obtain ⟨F, st⟩ := inv.lists
  have pm : ((s.own p).erase fof ++ (fof :: s.own dest)).Perm (s.own p ++ s.own dest) :=
    List.perm_middle.trans ((List.perm_cons_erase mem).symm.append_right _)
  have st1 := st.move (own_not_shared p) (own_not_shared dest)
    (fun e => ne (PoolPlace.own.inj e)) pm
  rw [poolLists_own, poolLists_own] at st1
  refine ⟨⟨F, ?_⟩, fun p' => ?_⟩
  · rw [own, q]
    exact st1
  · rw [own, pcs, q]
    by_cases ed : p' = dest
    · subst ed
      rw [Function.update_self]
      exact (inv.parties p').congr (fun c _ => rfl) fun c mem => List.mem_cons_of_mem fof mem
    · rw [Function.update_of_ne ed]
      by_cases ep : p' = p
      · subst ep
        rw [idle]
        trivial
      · rw [Function.update_of_ne ep]
        exact inv.parties p'

/-- A step of a call keeps the invariant unless it pops with a stale value. -/
lemma poolInv_step (inv : PoolInv cells s)
    (fresh : ∀ pc, s.pc p = .alloc pc → ¬ staleCas s.q pc)
    (run : s.step p = some s1) : PoolInv cells s1 := by
  have ok := inv.parties p
  -- a step that touches no shared memory, to a program counter that needs nothing
  have quiet {pc : PartyPc} (pcOk : PartyOk s.q (s.own p) pc) :
      PoolInv cells { s with pc := Function.update s.pc p pc } :=
    inv.of_write rfl rfl (fun _ _ => rfl) rfl pcOk
  rw [Pool.step] at run
  cases pc : s.pc p with
  | idle =>
    rw [pc] at run
    cases run
  | alloc apc =>
    rw [pc] at run ok fresh
    cases apc with
    | load =>
      cases head : s.q.freeFofs with
      | none =>
        simp only [allocStep, head] at run
        cases run
        exact quiet trivial
      | some fof =>
        simp only [allocStep, head] at run
        cases run
        exact quiet trivial
    | read fof =>
      cases run
      exact quiet trivial
    | cas fof next =>
      by_cases head : s.q.freeFofs = some fof
      · have e := next_eq_of_fresh (fresh _ rfl) head
        simp only [allocStep, if_pos head] at run
        cases run
        exact inv.of_pop head rfl e rfl rfl
      · simp only [allocStep, if_neg head] at run
        cases run
        exact quiet trivial
    | clear fof =>
      cases run
      exact inv.of_write rfl rfl (fun _ out => next_eq_of_fof (fof_setNext_of_notMem ok out)) rfl trivial
  | push chain head tail ppc =>
    rw [pc] at run ok
    obtain ⟨mem, push⟩ := ok
    obtain ⟨pc', e, push'⟩ | ⟨pc', v, e, push'⟩ | ⟨e, sg⟩ := pushStep_cases push
    · simp only [e] at run
      cases run
      exact quiet ⟨mem, push'⟩
    · simp only [e] at run
      cases run
      exact inv.of_write rfl rfl (fun _ out => next_eq_of_fof (fof_setNext_of_notMem (mem tail push.mem_tail) out)) rfl
        ⟨mem, push'⟩
    · simp only [e] at run
      cases run
      exact inv.of_push mem push.nodup sg rfl rfl rfl rfl

/-- An operation that pops no stale value keeps the invariant. -/
lemma poolInv_exec {op : PoolOp} {out : Unit} (inv : PoolInv cells s)
    (fresh : ¬ stalePop ⟨s, op, out⟩) (run : s.exec op = some (out, s1)) : PoolInv cells s1 := by
  cases op with
  | allocate p =>
    cases pc : s.pc p <;> simp only [Pool.exec, pc] at run <;> cases run
    exact inv.of_write rfl rfl (fun _ _ => rfl) rfl trivial
  | free p chain head tail =>
    cases pc : s.pc p <;> simp only [Pool.exec, pc] at run <;> try cases run
    split at run
    · rename_i ok
      cases run
      obtain ⟨nd, mem, isc⟩ := ok
      obtain ⟨last, sg⟩ := isChain_spec isc
      exact inv.of_write rfl rfl (fun _ _ => rfl) rfl ⟨mem, last, nd, sg, fun e => nomatch e⟩
    · cases run
  | step p =>
    simp only [Pool.exec, Option.map_eq_some_iff] at run
    obtain ⟨s2, run, e⟩ := run
    cases e
    refine poolInv_step inv (fun pc epc stale => ?_) run
    simp only [stalePop, epc] at fresh
    exact fresh stale
  | give p dest fof =>
    cases pc : s.pc p <;> simp only [Pool.exec, pc] at run <;> try cases run
    split at run
    · rename_i ok
      cases run
      exact inv.of_give pc ok.1 ok.2 rfl rfl rfl
    · cases run
  | link p fof next =>
    cases pc : s.pc p <;> simp only [Pool.exec, pc] at run <;> try cases run
    split at run
    · rename_i ok
      cases run
      have pcs : s.pc = Function.update s.pc p .idle := by rw [← pc, Function.update_eq_self]
      exact inv.of_write rfl rfl (fun _ out => next_eq_of_fof (fof_setNext_of_notMem ok out)) pcs trivial
    · cases run

lemma poolInv_init (setup : Setup) (q : FofQueue α) :
    PoolInv (List.range (setup.nMaxFofs - 1 + 1)) (Pool.init setup q) := by
  refine ⟨⟨List.range (setup.nMaxFofs - 1 + 1), fun {k} hk => ?_, ?_⟩, fun p => trivial⟩
  · cases hk
    exact fofQueueInit_free q setup
  · refine Partition.of_single .free rfl List.nodup_range fun k ne => ?_
    cases k with
    | free => exact absurd rfl ne
    | own p => rfl

lemma PoolInv.ownedOnce (inv : PoolInv cells s) : OwnedOnce s := by
  obtain ⟨F, st⟩ := inv.lists
  refine ⟨fun c p p' mem mem' => ?_, fun c p mem path => ?_⟩
  · exact PoolPlace.own.inj (st.part.disjoint (k := .own p) mem mem')
  · exact st.not_reachable free_shared (own_not_shared p) mem path

/-- Cells are given out once, in any interleaving in which no stale value is popped. -/
theorem cells_given_once (setup : Setup) (q : FofQueue α) (ops : List PoolOp)
    {log : List (PoolEntry α)} (run : execAll Pool.exec (Pool.init setup q) ops = some (log, s))
    (fresh : ∀ x ∈ log, ¬ stalePop x) : OwnedOnce s := by
  have run := (run_of_execAll run).1
  have inv := run.inv (PoolInv (List.range (setup.nMaxFofs - 1 + 1)))
    (fun mem inv e => poolInv_exec inv (fresh _ mem) e) (poolInv_init setup q)
  exact inv.1.ownedOnce

/-- Two cells, the least for which a pop can be overtaken. -/
def twoCells : Setup where
  clockSource := 1
  nClients := 1
  nMaxFofs := 2
  nSlots := 1
  sampleRate := 48000
  maxBufferSize := 64

/-- The operations that start a call and the four steps of a call whose compare-exchange succeeds. -/
def call (start : PoolOp) (p : Party) : List PoolOp :=
  start :: List.replicate 4 (.step p)

/-- Two producers allocate, one after the other, and the second one frees its cell again. -/
def allocateTwice : List PoolOp :=
  call (.allocate (.producer 0)) (.producer 0) ++ call (.allocate (.producer 1)) (.producer 1) ++
    call (.free (.producer 1) [1] 1 1) (.producer 1)

/-- The run of `allocateTwice`. -/
theorem cells_given_once_two :
    ∃ log s, execAll Pool.exec (Pool.init twoCells (FofQueue.zero ())) allocateTwice = some (log, s) ∧
      OwnedOnce s ∧ s.own (.producer 0) = [0] ∧ s.own (.producer 1) = [] ∧
      s.q.freeFofs = some 1 := by
  refine ⟨_, _, rfl, cells_given_once twoCells (FofQueue.zero ()) allocateTwice rfl ?_, rfl, rfl, rfl⟩
  decide

/-- Producer 0 has read that the head `0` of the free list points to `1`. Producer 1 allocates both
    cells and hands `0` to the controller, which frees it. Cell `0` is the head again, so the
    compare-exchange of producer 0 succeeds and makes `1` the head, a cell of producer 1; the next
    allocation of producer 0 returns it. -/
def overtakenPop : List PoolOp :=
  [.allocate (.producer 0), .step (.producer 0), .step (.producer 0)] ++
    call (.allocate (.producer 1)) (.producer 1) ++ call (.allocate (.producer 1)) (.producer 1) ++
    [.give (.producer 1) .controller 0] ++ call (.free .controller [0] 0 0) .controller ++
    [.step (.producer 0), .step (.producer 0)] ++ call (.allocate (.producer 0)) (.producer 0)

/-- The run of `overtakenPop` ends with cell 1 owned by both producers. -/
theorem aba_given_twice :
    ∃ log s, execAll Pool.exec (Pool.init twoCells (FofQueue.zero ())) overtakenPop = some (log, s) ∧
      1 ∈ s.own (.producer 0) ∧ 1 ∈ s.own (.producer 1) ∧ ¬ OwnedOnce s := by
  have mem0 : 1 ∈ [1, 0] := by decide
  have mem1 : 1 ∈ [1] := List.mem_singleton_self 1
  refine ⟨_, _, rfl, mem0, mem1, fun once => ?_⟩
  exact absurd (once.1 1 (.producer 0) (.producer 1) mem0 mem1) (by decide)

end JackFofs
