import JackFofs.Conc.Slots

/-!
# The excess list

Producers push on `q->excess` with a plain read, a write of `fof->next` and a plain write, while
`fof_queue_flush` takes the whole list with an exchange and frees it. The push is right when the head
that it read is still the head when it writes (`PushesCurrent`): then the excess list is a stack like
the slots, and a cell stays on it until a flush takes it to the free list (`excess_kept`). The slots ask
the same of their compare-exchange; here nothing checks it, and a flush between the read and the write
leaves its cell on both lists (`excess_freed`).
-/

namespace JackFofs
open Linked Runs

variable {α : Type}

/-- The next step is the write of `q->excess`, and its value is no longer the one that the call has
    read. -/
def overwrites (q : FofQueue α) : AddPc → Bool
  | .excess fof .push => q.next fof ≠ q.excess
  | _ => false

/-- The action is no such write. -/
def PushesCurrent (s : Machine α) (act : Act α) : Prop :=
  overwrites s.q (act.pc s) = false

/-- The controller is about to exchange `q->excess`. -/
def TakesExcess (s : Machine α) (act : Act α) : Prop :=
  act = .ctrlStep ∧ ∃ after, s.cpc = .flush after .takeExcess

/-- The step ends a call of `fof_queue_release_list` in a flush, and the cell is in the list that it
    puts on the free list. -/
def FlushReleases (x : Step α) (c : Addr) : Prop :=
  ∃ after i head tail pc l, x.op = .ctrlStep ∧ x.pre.cpc = .flush after (.push i head tail pc) ∧
    x.out = .released head ∧ Seg x.pre.q.next (some head) l x.pre.q.freeFofs ∧ c ∈ l

/-- What holds in every state if allocations do not overlap and pushes on the excess list find the head
    that they have read. -/
structure ExcessInv (cells : List Addr) (s : Machine α) (L : Loc → List Addr) : Prop where
  conc : ConcInv cells s L
  excess : Seg s.q.next s.q.excess (L (.place .excess)) none
  allocs : ∀ p, AllocOk s.q (L (.place .free)) (s.thread p).pc

/-- The cell is on the excess list, or a flush has taken it and not freed it yet. -/
def Held (s : Machine α) (L : Loc → List Addr) (c : Addr) : Prop :=
  c ∈ L (.place .excess) ∨ c ∈ L .ctrl ∧ ∃ after pc, s.cpc = .flush after pc

section Step

variable {cells : List Addr} {s s' : Machine α} {L : Loc → List Addr} {ev : Ev α} {act : Act α}
  {c : Addr}

/-- A regular step takes no cell off the excess list. -/
lemma mem_moved_excess {who : Loc} (priv : ∀ i, who ≠ .place i) (mem : c ∈ L (.place .excess)) :
    c ∈ ev.moved who L (.place .excess) := by
  by_cases pushed : ∃ fof, ev = .excess fof
  · obtain ⟨fof, rfl⟩ := pushed
    rw [Ev.moved, Function.update_self]
    exact List.mem_append_right _ mem
  · rw [moved_excess priv fun fof h => pushed ⟨fof, h⟩]
    exact mem

/-- A flush keeps the cells it walks and frees until it puts them on the free list. -/
lemma flush_holds {q q' : FofQueue α} {ctrl ctrl' : CtrlClient} {after : AfterFlush} {pc : FlushPc}
    {cpc' : CtrlPc} {l : List Addr} (ok : FlushOk q l pc) (mem : c ∈ l)
    (e : ctrlStep q ctrl (.flush after pc) = some (ev, cpc', ctrl', q')) :
    (ev.Keeps ∧ ∃ pc', cpc' = .flush after pc') ∨
      ∃ i head tail ppc, pc = .push i head tail ppc ∧ ev = .released head := by
  have some_cell : l ≠ [] := List.ne_nil_of_mem mem
  cases ctrlStep_cases e with
  | flush step =>
    cases step with
    | take => exact absurd ok.2 some_cell
    | last => exact .inl ⟨trivial, _, rfl⟩
    | walk => exact .inl ⟨trivial, _, rfl⟩
    | push => exact .inl ⟨trivial, _, rfl⟩
    | @pushed i head tail ppc => exact .inr ⟨i, head, tail, ppc, rfl, rfl⟩
    | _ => exact absurd ok some_cell
  | flushed step =>
    cases step with
    | resetCheck => exact absurd ok some_cell

/-- The exchange of `q->excess` gives the excess list to the controller. -/
lemma ExcessInv.take (inv : ExcessInv cells s L) (takes : TakesExcess s act)
    (e : s.exec act = some (ev, s')) :
    L .ctrl = [] ∧ (∃ after pc, s'.cpc = .flush after pc) ∧
      ExcessInv cells s' (Function.update (Function.update L (.place .excess) []) .ctrl
        (L (.place .excess))) := by
  obtain ⟨rfl, after, cpc⟩ := takes
  have ok := inv.conc.ctrl
  rw [cpc] at ok
  have empty : L .ctrl = [] := ok
  generalize eL : Function.update (Function.update L (.place .excess) []) .ctrl (L (.place .excess)) = L'
  have ctrl : L' .ctrl = L (.place .excess) := by
    rw [← eL, Function.update_self]
  have excess : L' (.place .excess) = [] := by
    rw [← eL, Function.update_of_ne (ctrl_ne_place _).symm, Function.update_self]
  have others (k : Loc) (nc : k ≠ .ctrl) (ne : k ≠ .place .excess) : L' k = L k := by
    rw [← eL, Function.update_of_ne nc, Function.update_of_ne ne]
  have lists : Stacks cells s.q.next (locTop s.q) (IsStack s.q.nSlots) L' := by
    have pm : ([] ++ L (.place .excess)).Perm (L (.place .excess) ++ L .ctrl) := by
      rw [empty, List.append_nil, List.nil_append]
    rw [← eL]
    exact inv.conc.lists.move (excess_not_stack _) (ctrl_not_stack _) (ctrl_ne_place _).symm pm
  cases Machine.executed e with
  | ctrlStep step =>
    rw [cpc] at step
    simp only [ctrlStep, flushStep] at step
    cases step
    refine ⟨empty, ⟨after, _, rfl⟩, ⟨?_, ?_, ?_, ?_, ?_, ?_⟩, ?_, ?_⟩
    · apply lists.congr
      intro k hk
      cases k with
      | place k =>
        cases k with
        | excess => exact absurd hk id
        | _ => rfl
      | _ => rfl
    · intro j le
      rw [others (.place (.slot j)) (ctrl_ne_place _).symm (by simp)]
      exact inv.conc.unused j le
    · exact inv.conc.nSlots
    · intro p
      rw [others (.own p) (by simp) (by simp)]
      exact inv.conc.own p
    · exact fun p => (inv.conc.threads p).congr rfl fun _ _ => rfl
    · rw [ctrl]
      exact releaseFrom_ok (q := { s.q with excess := none }) (s.q.nSlots + 1) inv.excess
    · rw [excess]
      exact .nil
    · intro p
      rw [others (.place .free) (ctrl_ne_place _).symm (by simp)]
      exact (inv.allocs p).frame (fun _ mem => mem) fun _ _ => rfl

/-- Every other step is regular. -/
lemma ExcessInv.regular (inv : ExcessInv cells s L) (not : ¬ TakesExcess s act) : Regular s act :=
  ⟨fun p _ _ epc => (inv.allocs p).fresh epc,
    fun e after cpc => absurd ⟨e, after, cpc⟩ not⟩

/-- The excess list after a regular step. -/
lemma ExcessInv.excess_list (inv : ExcessInv cells s L) (reg : Regular s act)
    (current : PushesCurrent s act) (e : s.exec act = some (ev, s')) :
    Seg s'.q.next s'.q.excess (ev.moved act.who L (.place .excess)) none := by
  have framed := inv.conc.framed reg e
  have kept : Seg s'.q.next s.q.excess (L (.place .excess)) none := by
    refine inv.excess.congr fun c mem => next_eq_of_fof (framed.fof c ?_)
    exact inv.conc.lists.part.notMem mem (who_ne_place act .excess).symm
  by_cases pushed : ∃ fof, ev = .excess fof
  · obtain ⟨fof, rfl⟩ := pushed
    obtain ⟨p, rfl, pc⟩ := inv.conc.of_excess reg e
    have head : s.q.next fof = s.q.excess := by
      rw [PushesCurrent, Act.pc, pc, overwrites] at current
      exact of_not_not (of_decide_eq_false current)
    have own : L (.own p) = [fof] := by
      rw [inv.conc.own p, pc]
      rfl
    cases Machine.executed e with
    | step step =>
      rw [pc] at step
      cases step
      rw [Ev.moved, Act.who, Function.update_self, own]
      refine .cons ?_
      have sg : Seg s.q.next (s.q.next fof) (L (.place .excess)) none := by
        rw [head]
        exact inv.excess
      exact sg
  · have no (fof : Addr) : ev ≠ .excess fof := fun h => pushed ⟨fof, h⟩
    rw [moved_excess (who_ne_place act) no, inv.conc.excess_eq reg e no]
    exact kept

lemma ExcessInv.exec (inv : ExcessInv cells s L) (reg : Regular s act) (alone : AllocatesAlone s)
    (current : PushesCurrent s act) (e : s.exec act = some (ev, s')) :
    ExcessInv cells s' (ev.moved act.who L) :=
  ⟨inv.conc.exec reg e, inv.excess_list reg current e, inv.conc.allocs_exec reg inv.allocs alone e⟩

/-- A regular step keeps the cells of the excess list there, and those of a flush with the flush until
    they are free. -/
lemma ExcessInv.held_step (inv : ExcessInv cells s L) (reg : Regular s act)
    (e : s.exec act = some (ev, s')) (held : Held s L c) :
    FlushReleases ⟨s, act, ev⟩ c ∨ Held s' (ev.moved act.who L) c := by
  obtain mem | ⟨mem, after, pc, cpc⟩ := held
  · exact .inr (.inl (mem_moved_excess (who_ne_place act) mem))
  · by_cases own : act.who = .ctrl
    · have ok := inv.conc.ctrl
      cases Machine.executed e with
      | call => cases own
      | step => cases own
      | ctrlStep step =>
        have eff := ctrlStep_effect inv.conc.nSlots ok (reg.noExcess rfl) step
        rw [cpc] at step ok
        obtain ⟨keeps, pc', rfl⟩ | ⟨i, head, tail, ppc, rfl, rfl⟩ := flush_holds ok mem step
        · refine .inr (.inr ⟨?_, after, pc', rfl⟩)
          rw [moved_keeps keeps]
          exact mem
        · cases eff with
          | write keeps => exact absurd keeps id
          | free chain => exact .inl ⟨after, i, head, tail, ppc, _, rfl, cpc, rfl, chain, mem⟩
      | cycle idle =>
        rw [idle] at cpc
        cases cpc
      | flush idle =>
        rw [idle] at cpc
        cases cpc
      | storeClockSource => exact .inr (.inr ⟨mem, after, pc, cpc⟩)
    · refine .inr (.inr ⟨?_, after, pc, ?_⟩)
      · rw [moved_private (Ne.symm own) ctrl_ne_place]
        exact mem
      · rw [(inv.conc.framed reg e).cpc own]
        exact cpc

end Step

/-! ## Whole runs -/

section Runs

variable {cells : List Addr} {s s' : Machine α} {L : Loc → List Addr} {log : List (Step α)}
  {c : Addr}

/-- The conditions on every step of a run. -/
structure ExcessRun (log : List (Step α)) : Prop where
  alone : ∀ x ∈ log, AllocatesAlone x.pre
  current : ∀ x ∈ log, PushesCurrent x.pre x.op

lemma ExcessRun.append {l1 l2 : List (Step α)} (ok : ExcessRun (l1 ++ l2)) :
    ExcessRun l1 ∧ ExcessRun l2 := by
  obtain ⟨alone1, alone2⟩ := List.forall_mem_append.1 ok.alone
  obtain ⟨current1, current2⟩ := List.forall_mem_append.1 ok.current
  exact ⟨⟨alone1, current1⟩, ⟨alone2, current2⟩⟩

lemma ExcessRun.tail {x : Step α} (ok : ExcessRun (x :: log)) : ExcessRun log := by
  have ok : ExcessRun ([x] ++ log) := ok
  exact ok.append.2

/-- One step of a run: the lists stay in order, and what is held stays held or is freed by a flush. -/
lemma ExcessInv.step {x : Step α} (inv : ExcessInv cells x.pre L) (ok : ExcessRun (x :: log))
    (e : x.pre.exec x.op = some (x.out, s')) : ∃ L', ExcessInv cells s' L' ∧
      (∀ c, Held x.pre L c → FlushReleases x c ∨ Held s' L' c) ∧
      ∀ c, x.out = .excess c → Held s' L' c := by
  obtain ⟨s, act, ev⟩ := x
  have alone : AllocatesAlone s := ok.alone _ List.mem_cons_self
  have current : PushesCurrent s act := ok.current _ List.mem_cons_self
  by_cases takes : TakesExcess s act
  · obtain ⟨empty, flush, inv'⟩ := inv.take takes e
    refine ⟨_, inv', fun c held => .inr (.inr ⟨?_, flush⟩), fun c out => ?_⟩
    · rw [Function.update_self]
      obtain mem | ⟨mem, -⟩ := held
      · exact mem
      · rw [empty] at mem
        exact absurd mem List.not_mem_nil
    · obtain ⟨rfl, after, cpc⟩ := takes
      cases (out : ev = .excess c)
      cases Machine.executed e with
      | ctrlStep step =>
        rw [cpc] at step
        cases step
  · have reg := inv.regular takes
    refine ⟨_, inv.exec reg alone current e, fun c held => inv.held_step reg e held, fun c out => .inl ?_⟩
    cases (out : ev = .excess c)
    obtain ⟨p, rfl, pc⟩ := inv.conc.of_excess reg e
    rw [Ev.moved, Act.who, Function.update_self, inv.conc.own p, pc]
    exact List.mem_cons_self

lemma excess_run (run : Run Machine.exec s log s') (ok : ExcessRun log) (inv : ExcessInv cells s L) :
    ∃ L', ExcessInv cells s' L' ∧
      ∀ c, Held s L c → (∀ y ∈ log, ¬ FlushReleases y c) → Held s' L' c := by
  induction run generalizing L with
  | nil => exact ⟨L, inv, fun c held _ => held⟩
  | @cons s s1 s' act ev log e run ih =>
    obtain ⟨L1, inv1, held1, -⟩ := inv.step ok e
    obtain ⟨L', inv', held'⟩ := ih ok.tail inv1
    refine ⟨L', inv', fun c held none => held' c ?_ fun y mem => none y (List.mem_cons_of_mem _ mem)⟩
    exact (held1 c held).resolve_left (none _ List.mem_cons_self)

end Runs

/-- Every cell that `fof_queue_add` has put on the excess list, and that no flush has freed since, is on
    it exactly once, and no cell of the excess list is on the free list. -/
def ExcessKept (log : List (Step α)) (s : Machine α) : Prop :=
  ∃ l f, Seg s.q.next s.q.excess l none ∧ Seg s.q.next s.q.freeFofs f none ∧ (∀ c ∈ l, c ∉ f) ∧
    ∀ l1 x l2 c, log = l1 ++ x :: l2 → x.out = .excess c → (∀ y ∈ l2, ¬ FlushReleases y c) →
      l.count c = 1

lemma excessInv_init {setup : Setup} (nMaxFofs : 1 ≤ setup.nMaxFofs) (nSlots : 1 ≤ setup.nSlots)
    (q : FofQueue α) (argv : α) :
    ExcessInv (List.range setup.nMaxFofs) (Machine.init setup q argv)
      (restLists (initLists setup.nMaxFofs)) := by
  have init := slotInv_init nMaxFofs nSlots q argv
  refine ⟨init.conc, ?_, init.allocs⟩
  rw [init.excess, init.excess_nil]
  exact .nil

/-- In every run whose allocations do not overlap and whose pushes on the excess list find the head that
    they have read, the excess list loses nothing: whenever no call is in progress, its cells are there
    once and not free. -/
theorem excess_kept {setup : Setup} (nMaxFofs : 1 ≤ setup.nMaxFofs) (nSlots : 1 ≤ setup.nSlots)
    (q : FofQueue α) (argv : α) (acts : List (Act α)) {log : List (Step α)} {s : Machine α}
    (run : execAll Machine.exec (Machine.init setup q argv) acts = some (log, s))
    (alone : ∀ x ∈ log, AllocatesAlone x.pre) (current : ∀ x ∈ log, PushesCurrent x.pre x.op)
    (rest : AtRest s) : ExcessKept log s := by
  have run := (run_of_execAll run).1
  have cond : ExcessRun log := ⟨alone, current⟩
  have init := excessInv_init nMaxFofs nSlots q argv
  obtain ⟨L, inv, -⟩ := excess_run run cond init
  refine ⟨_, _, inv.excess, inv.conc.free_list, fun c mem => ?_, ?_⟩
  · exact inv.conc.lists.part.notMem mem fun h => nomatch h
  · rintro l1 x l2 c rfl out none
    obtain ⟨s1, run1, e, run2⟩ := run.split
    obtain ⟨L1, inv1, -⟩ := excess_run run1 cond.append.1 init
    obtain ⟨L2, inv2, -, held2⟩ := inv1.step cond.append.2 e
    obtain ⟨L3, inv3, held3⟩ := excess_run run2 cond.append.2.tail inv2
    -- with the controller idle the cell is on the list itself
    obtain mem | ⟨-, after, pc, cpc⟩ := held3 c (held2 c out) none
    · rw [← inv3.excess.unique inv.excess]
      exact List.count_eq_one_of_mem inv3.excess.nodup mem
    · rw [rest.ctrl] at cpc
      cases cpc

/-- The first `n` steps of a call of thread 0 for a time far beyond the ring, which takes nine. -/
def farCall (n : Nat) : List (Act Unit) :=
  .call 0 9 () :: List.replicate n (.step 0)

/-- Thread 0 puts both cells on the excess list. -/
theorem excess_kept_two :
    ∃ log s, execAll Machine.exec (Machine.init (twoSlots 2) (FofQueue.zero ()) ()) (farCall 9 ++ farCall 9) =
        some (log, s) ∧ s.q.excess = some 1 ∧ ExcessKept log s := by
  have single : ∀ x ∈ farCall 9 ++ farCall 9, x.single 0 := by decide
  cases run : execAll Machine.exec (Machine.init (twoSlots 2) (FofQueue.zero ()) ()) (farCall 9 ++ farCall 9) with
  | none => exact absurd run (by decide)
  | some r =>
    obtain ⟨log, s⟩ := r
    have single := forall_op_of_execAll run single
    obtain ⟨last, idle⟩ := idle_of_single (run_of_execAll run).1 single fun _ _ => rfl
    have current : ∀ x ∈ log, overwrites x.pre.q (x.op.pc x.pre) = false := by
      cases Option.some.inj (run.symm.trans rfl)
      decide
    have done : (s.thread 0).pc = .idle ∧ s.cpc = .idle ∧ s.q.excess = some 1 := by
      cases Option.some.inj (run.symm.trans rfl)
      exact ⟨rfl, rfl, rfl⟩
    have rest : AtRest s := .of_single last done.1 done.2.1
    exact ⟨log, s, rfl, done.2.2, excess_kept (by decide) (by decide) (FofQueue.zero ()) () _ run
      (fun x mem => .of_single (idle x mem)) current rest⟩

/-- Thread 0 has put cell `0` on the excess list, and its second call has read the head `0` when a flush
    takes the list and frees it. The call then writes its cell `1`, which points to `0`, so that cell `0`
    is on the excess list and on the free list. -/
def flushedPush : List (Act Unit) :=
  farCall 9 ++ farCall 8 ++ .flush :: List.replicate 10 .ctrlStep ++ [.step 0]

/-- A flush between the read and the write of `q->excess`, with a single producer. -/
theorem excess_freed :
    ∃ log s, execAll Machine.exec (Machine.init (twoSlots 2) (FofQueue.zero ()) ()) flushedPush =
        some (log, s) ∧
      (∀ x ∈ log, AllocatesAlone x.pre) ∧ AtRest s ∧ ¬ ExcessKept log s := by
  have single : ∀ x ∈ flushedPush, x.single 0 := by decide
  cases run : execAll Machine.exec (Machine.init (twoSlots 2) (FofQueue.zero ()) ()) flushedPush with
  | none => exact absurd run (by decide)
  | some r =>
    obtain ⟨log, s⟩ := r
    have single := forall_op_of_execAll run single
    obtain ⟨last, idle⟩ := idle_of_single (run_of_execAll run).1 single fun _ _ => rfl
    have done : (s.thread 0).pc = .idle ∧ s.cpc = .idle ∧ s.q.excess = some 1 ∧
        s.q.next 1 = some 0 ∧ s.q.next 0 = none ∧ s.q.freeFofs = some 0 := by
      cases Option.some.inj (run.symm.trans rfl)
      exact ⟨rfl, rfl, rfl, rfl, rfl, rfl⟩
    obtain ⟨idle0, cpc, excess, next1, next0, free⟩ := done
    refine ⟨log, s, rfl, fun x mem => .of_single (idle x mem), .of_single last idle0 cpc, ?_⟩
    rintro ⟨l, f, sgl, sgf, disjoint, -⟩
    have sg0 : Seg s.q.next (some 0) [0] none := by
      rw [Seg.cons_iff, Seg.nil_iff]
      exact ⟨rfl, next0⟩
    have sg1 : Seg s.q.next (some 1) [1, 0] none := by
      rw [Seg.cons_iff, next1]
      exact ⟨rfl, sg0⟩
    rw [excess] at sgl
    rw [free] at sgf
    cases sgl.unique sg1
    cases sgf.unique sg0
    exact disjoint 0 (by decide) (by decide)

end JackFofs
