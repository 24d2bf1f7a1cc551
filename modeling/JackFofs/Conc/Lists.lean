import JackFofs.Conc.Steps

/-!
# Where the cells are while the machine runs

The lists of the machine: the free list and the slots are stacks in memory, the excess list is a set
of cells only, and each thread and the controller have private cells. Which cells a thread has is a
function of its program counter (`AddPc.cells`); those of the controller are the chain it walks or
frees.

`ConcInv s L` says that the machine is in state `s` with the lists `L`. A step changes the lists by
`Ev.moved`, a function of its event: one lemma about each machine says what a step can do
(`addStep_effect`, `ctrlStep_effect`), and `ConcInv.step` puts them together. It needs that a pop of
the free list is not stale and that a flush finds no excess list.
-/

namespace JackFofs
open Linked Runs

variable {α : Type}

/-- Where a cell is: in a place of the queue, with a thread, or with the controller. -/
inductive Loc where
  | place (k : Place)
  | own (p : Nat)
  | ctrl
deriving DecidableEq

/-- The stacks in memory: the free list and the slots. -/
def IsStack (nSlots : Nat) : Loc → Prop
  | .place .free => True
  | .place (.slot j) => j < nSlots
  | _ => False

/-- The head pointer of a location. -/
def locTop (q : FofQueue α) : Loc → Option Addr
  | .place k => q.head k
  | _ => none

/-- The thread that acts. -/
def Act.who : Act α → Loc
  | .call p _ _ => .own p
  | .step p => .own p
  | .cycle _ _ => .ctrl
  | .flush => .ctrl
  | .ctrlStep => .ctrl
  | .storeClockSource _ => .ctrl

/-- The lists after a step of `who`. -/
def Ev.moved (who : Loc) (L : Loc → List Addr) : Ev α → Loc → List Addr
  | .allocated fof =>
    Function.update (Function.update L (.place .free) (L (.place .free)).tail) who (fof :: L who)
  | .linked _ slot =>
    Function.update (Function.update L who []) (.place (.slot slot)) (L who ++ L (.place (.slot slot)))
  | .excess _ =>
    Function.update (Function.update L who []) (.place .excess) (L who ++ L (.place .excess))
  | .late _ =>
    Function.update (Function.update L who []) (.place .free) (L who ++ L (.place .free))
  | .released _ =>
    Function.update (Function.update L who []) (.place .free) (L who ++ L (.place .free))
  | .took _ slot _ =>
    Function.update (Function.update L (.place (.slot slot)) []) who (L (.place (.slot slot)) ++ L who)
  | _ => L

/-- The events of the steps that move no cell. -/
def Ev.Keeps : Ev α → Prop
  | .quiet => True
  | .limit => True
  | .fetched _ => True
  | .tookExcess _ => True
  | .handed _ => True
  | _ => False

/-- The cells that a call of `fof_queue_add` owns. -/
def AddPc.cells : AddPc → List Addr
  | .idle => []
  | .alloc (.clear fof) => [fof]
  | .alloc _ => []
  | .fill fof => [fof]
  | .loadFrame fof => [fof]
  | .cache fof _ _ _ => [fof]
  | .far fof _ _ _ => [fof]
  | .near fof _ _ _ => [fof]
  | .excess fof _ => [fof]
  | .free fof _ => [fof]

/-- What a call of `fof_queue_add` relies on: its slot exists, and before a compare-exchange its cell
    points to the value it expects. -/
def AddOk (q : FofQueue α) : AddPc → Prop
  | .far fof _ slot pc => slot < q.nSlots ∧ ∀ e, pc = .cas e → q.next fof = e
  | .near fof _ slot pc => slot < q.nSlots ∧ ∀ h, pc = .check h ∨ pc = .cas h → q.next fof = h
  | .free fof pc => PushOk q fof fof [fof] pc
  | _ => True

/-- A walk along the list `l` from `h` has arrived at the cell `fof`. -/
def Walking (q : FofQueue α) (h : Option Addr) (fof : Addr) (l : List Addr) : Prop :=
  ∃ l1 l2, l = l1 ++ fof :: l2 ∧ Seg q.next h l1 (some fof) ∧ Seg q.next (q.next fof) l2 none

/-- What a flush relies on when the controller owns the cells `l`. -/
def FlushOk (q : FofQueue α) (l : List Addr) : FlushPc → Prop
  | .take i => i < q.nSlots ∧ l = []
  | .walk _ head tail => l.Nodup ∧ Walking q (some head) tail l
  | .push _ head tail pc => PushOk q head tail l pc
  | _ => l = []

/-- What the controller relies on when it owns the cells `l`. -/
def CtrlOk (q : FofQueue α) (l : List Addr) : CtrlPc → Prop
  | .flush _ pc => FlushOk q l pc
  | .hand _ fof _ => l.Nodup ∧ Walking q q.firstFof fof l
  | .give _ head tail pc => PushOk q head tail l pc
  | _ => l = []

/-- What holds in every state of the machine, with the lists `L`. -/
structure ConcInv (cells : List Addr) (s : Machine α) (L : Loc → List Addr) : Prop where
  lists : Stacks cells s.q.next (locTop s.q) (IsStack s.q.nSlots) L
  unused : ∀ j, s.q.nSlots ≤ j → L (.place (.slot j)) = []
  nSlots : 1 ≤ s.q.nSlots
  own : ∀ p, L (.own p) = (s.thread p).pc.cells
  threads : ∀ p, AddOk s.q (s.thread p).pc
  ctrl : CtrlOk s.q (L .ctrl) s.cpc

/-! ## What a step can do -/

/-- The head pointers and the fixed parameters of the queue are the same. -/
structure SameHeads (q q' : FofQueue α) : Prop where
  nSlots : q'.nSlots = q.nSlots
  sampleRate : q'.sampleRate = q.sampleRate
  bufferSize : q'.bufferSize = q.bufferSize
  free : q'.freeFofs = q.freeFofs
  slot : q'.slot = q.slot
  excess : q'.excess = q.excess

lemma SameHeads.refl (q : FofQueue α) : SameHeads q q := ⟨rfl, rfl, rfl, rfl, rfl, rfl⟩

lemma SameHeads.head {q q' : FofQueue α} (heads : SameHeads q q') (k : Place) :
    q'.head k = q.head k := by
  cases k with
  | free => exact heads.free
  | slot j => exact congrFun heads.slot j
  | excess => exact heads.excess

/-- The effect of a step of `fof_queue_add`. -/
inductive AddEffect (q : FofQueue α) (pc : AddPc) : Ev α → AddPc → FofQueue α → Prop where
  | write {ev pc' q'} :
    ev.Keeps →
    SameHeads q q' →
    q'.firstFof = q.firstFof →
    q'.nextFrame = q.nextFrame →
    (∀ c, c ∉ pc.cells → q'.fof c = q.fof c) →
    pc'.cells = pc.cells →
    AddOk q' pc' →
    AddEffect q pc ev pc' q'
  | pop {fof} :
    pc = .alloc (.cas fof (q.next fof)) →
    q.freeFofs = some fof →
    AddEffect q pc (.allocated fof) (.alloc (.clear fof)) { q with freeFofs := q.next fof }
  | link {fof nextFrame slot} :
    pc = .far fof nextFrame slot (.cas (q.slot slot)) ∨
      pc = .near fof nextFrame slot (.cas (q.slot slot)) →
    slot < q.nSlots →
    q.next fof = q.slot slot →
    AddEffect q pc (.linked fof slot) .idle (q.setSlot slot (some fof))
  | excess {fof} :
    pc = .excess fof .push →
    AddEffect q pc (.excess fof) .idle { q with excess := some fof }
  | free {fof ppc} :
    pc = .free fof ppc →
    q.next fof = q.freeFofs →
    AddEffect q pc (.late fof) .idle { q with freeFofs := some fof }

/-- The effect of a step of the controller when it owns the cells `l`. -/
inductive CtrlEffect (q : FofQueue α) (l : List Addr) : Ev α → CtrlPc → FofQueue α → Prop where
  | write {ev cpc' q'} :
    ev.Keeps →
    SameHeads q q' →
    (∀ c, c ∉ l → q'.fof c = q.fof c) →
    CtrlOk q' l cpc' →
    CtrlEffect q l ev cpc' q'
  | take {n slot cpc' q'} :
    l = [] →
    slot < q.nSlots →
    SameHeads (q.setSlot slot none) q' →
    q'.fof = q.fof →
    (∀ l', Seg q.next (q.slot slot) l' none → CtrlOk q' l' cpc') →
    CtrlEffect q l (.took n slot (q.slot slot)) cpc' q'
  | free {head cpc' q'} :
    Seg q.next (some head) l q.freeFofs →
    SameHeads { q with freeFofs := some head } q' →
    q'.fof = q.fof →
    CtrlOk q' [] cpc' →
    CtrlEffect q l (.released head) cpc' q'

section Frame

variable {q q' : FofQueue α} {l : List Addr}

lemma AddOk.congr {pc : AddPc} (ok : AddOk q pc) (nSlots : q'.nSlots = q.nSlots)
    (next : ∀ c ∈ pc.cells, q'.next c = q.next c) : AddOk q' pc := by
  cases pc with
  | far fof nf slot pc =>
    have e := next fof (List.mem_singleton_self fof)
    rw [AddOk, nSlots, e]
    exact ok
  | near fof nf slot pc =>
    have e := next fof (List.mem_singleton_self fof)
    rw [AddOk, nSlots, e]
    exact ok
  | free fof pc => exact PushOk.congr ok next
  | _ => trivial

lemma Walking.congr {h : Option Addr} {fof : Addr} (w : Walking q h fof l)
    (next : ∀ c ∈ l, q'.next c = q.next c) : Walking q' h fof l := by
  obtain ⟨l1, l2, rfl, sg1, sg2⟩ := w
  refine ⟨l1, l2, rfl, sg1.congr fun c mem => next c (by simp [mem]), ?_⟩
  rw [next fof (by simp)]
  exact sg2.congr fun c mem => next c (by simp [mem])

lemma CtrlOk.congr {cpc : CtrlPc} (ok : CtrlOk q l cpc) (nSlots : q'.nSlots = q.nSlots)
    (firstFof : q'.firstFof = q.firstFof) (next : ∀ c ∈ l, q'.next c = q.next c) :
    CtrlOk q' l cpc := by
  cases cpc with
  | flush after pc =>
    cases pc with
    | take i =>
      rw [CtrlOk, FlushOk, nSlots]
      exact ok
    | walk i head tail => exact ⟨ok.1, ok.2.congr next⟩
    | push i head tail pc => exact PushOk.congr ok next
    | _ => exact ok
  | hand n fof i =>
    rw [CtrlOk, firstFof]
    exact ⟨ok.1, ok.2.congr next⟩
  | give n head tail pc => exact PushOk.congr ok next
  | _ => exact ok

end Frame

/-! ## The steps of `fof_queue_add` -/

section Add

variable {q q' : FofQueue α} {fof : Addr} {ev : Ev α} {pc pc' : AddPc}

/-- A step that only moves the program counter. -/
lemma AddEffect.quiet (cells : pc'.cells = pc.cells) (ok : AddOk q pc') :
    AddEffect q pc .quiet pc' q :=
  .write trivial (SameHeads.refl q) rfl rfl (fun _ _ => rfl) cells ok

/-- A step that writes the `next` field of its cell. -/
lemma AddEffect.setNext {v : Option Addr} (cells0 : pc.cells = [fof]) (cells : pc'.cells = [fof])
    (ok : AddOk (q.setNext fof v) pc') : AddEffect q pc .quiet pc' (q.setNext fof v) := by
  refine .write trivial ⟨rfl, rfl, rfl, rfl, rfl, rfl⟩ rfl rfl (fun c nm => ?_) (cells.trans cells0.symm) ok
  have mem : fof ∈ pc.cells := by
    rw [cells0]
    exact List.mem_singleton_self fof
  exact fof_setNext_of_notMem mem nm

lemma recalculatePc_cells (q : FofQueue α) (fof : Addr) (s nextFrame : Nat) :
    (recalculatePc q fof s nextFrame).cells = [fof] := by
  unfold recalculatePc
  split
  · rfl
  · dsimp only
    split <;> rfl

lemma recalculatePc_ok (q : FofQueue α) (fof : Addr) (s nextFrame : Nat) :
    AddOk q (recalculatePc q fof s nextFrame) := by
  unfold recalculatePc
  generalize slotIndex q s nextFrame = slotIdx
  split
  · exact PushOk.single q fof
  · dsimp only
    split
    · exact trivial
    · exact trivial

/-- The effect of a step of `fof_queue_add` that does not pop a stale value. -/
lemma addStep_effect {timeUs : Nat} {argv : α} (pos : 1 ≤ q.nSlots) (ok : AddOk q pc)
    (fresh : ∀ apc, pc = .alloc apc → ¬ staleCas q apc)
    (e : addStep q timeUs argv pc = some (ev, pc', q')) : AddEffect q pc ev pc' q' := by
  cases addStep_cases e with
  | loaded => exact .quiet rfl trivial
  | empty => exact .write trivial (SameHeads.refl q) rfl rfl (fun _ _ => rfl) rfl trivial
  | read => exact .quiet rfl trivial
  | popped head =>
    cases next_eq_of_fresh (fresh _ rfl) head
    exact .pop rfl head
  | again => exact .quiet rfl trivial
  | got => exact .setNext rfl rfl trivial
  | filled =>
    refine .write trivial ⟨rfl, rfl, rfl, rfl, rfl, rfl⟩ rfl rfl (fun c nm => ?_) rfl trivial
    exact Function.update_of_ne (List.ne_of_not_mem_cons nm) ..
  | calculate => exact .quiet (recalculatePc_cells ..) (recalculatePc_ok ..)
  | cached => exact .quiet rfl trivial
  | outdated => exact .quiet rfl trivial
  | cacheSlot =>
    exact .write trivial ⟨rfl, rfl, rfl, rfl, rfl, rfl⟩ rfl rfl (fun _ _ => rfl) rfl trivial
  | cacheFrame =>
    exact .write trivial ⟨rfl, rfl, rfl, rfl, rfl, rfl⟩ rfl rfl (fun _ _ => rfl) rfl trivial
  | chooseFar => exact .quiet rfl ⟨targetSlot_lt_nSlots pos _, fun _ h => nomatch h⟩
  | chooseNear => exact .quiet rfl ⟨targetSlot_lt_nSlots pos _, fun _ h => nomatch h⟩
  | farLoad => exact .quiet rfl ⟨ok.1, fun _ h => nomatch h⟩
  | farWrite => exact .setNext rfl rfl ⟨ok.1, fun _ h => nomatch h⟩
  | recalculate => exact .quiet (recalculatePc_cells ..) (recalculatePc_ok ..)
  | farCheck => exact .quiet rfl ⟨ok.1, fun _ h => nomatch h⟩
  | farRead =>
    refine .quiet rfl ⟨ok.1, fun e h => ?_⟩
    cases h
    rfl
  | linkedFar head =>
    obtain ⟨lt, points⟩ := ok
    subst head
    exact .link (.inl rfl) lt (points _ rfl)
  | retry => exact .quiet rfl ⟨ok.1, fun _ h => nomatch h⟩
  | farWriteBack => exact .setNext rfl rfl ⟨ok.1, fun _ h => nomatch h⟩
  | nearLoad => exact .quiet rfl ⟨ok.1, fun _ h => by cases h <;> contradiction⟩
  | nearWrite =>
    refine .setNext rfl rfl ⟨ok.1, fun h eh => ?_⟩
    rw [next_setNext, Function.update_self]
    obtain eh | eh := eh <;> cases eh
    rfl
  | overtaken => exact .quiet rfl (PushOk.single ..)
  | nearCheck =>
    refine .quiet rfl ⟨ok.1, fun h eh => ok.2 h (.inl ?_)⟩
    obtain eh | eh := eh <;> cases eh
    rfl
  | linkedNear head =>
    obtain ⟨lt, points⟩ := ok
    subst head
    exact .link (.inr rfl) lt (points _ (.inr rfl))
  | beaten => exact .quiet rfl (PushOk.single ..)
  | excessRead => exact .quiet rfl trivial
  | excessWrite => exact .setNext rfl rfl trivial
  | pushed => exact .excess rfl
  | free push =>
    obtain ⟨ppc', ep, ok'⟩ | ⟨ppc', v, ep, ok'⟩ | ⟨ep, -⟩ := pushStep_cases ok <;>
      cases push.symm.trans ep
    · exact .quiet rfl ok'
    · exact .setNext rfl rfl ok'
  | freed push =>
    obtain ⟨ppc', ep, -⟩ | ⟨ppc', v, ep, -⟩ | ⟨ep, sg⟩ := pushStep_cases ok <;>
      cases push.symm.trans ep
    rw [Seg.cons_iff, Seg.nil_iff] at sg
    exact .free rfl sg.2

end Add

/-! ## The steps of the controller -/

section Ctrl

variable {q q' : FofQueue α} {l : List Addr} {h : Option Addr} {fof f : Addr} {ev : Ev α}
  {cpc cpc' : CtrlPc}

lemma Walking.start (sg : Seg q.next (some fof) l none) : Walking q (some fof) fof l := by
  cases sg with
  | cons sg => exact ⟨[], _, rfl, .nil, sg⟩

lemma Walking.advance (w : Walking q h fof l) (e : q.next fof = some f) : Walking q h f l := by
  obtain ⟨l1, l2, rfl, sg1, sg2⟩ := w
  rw [e] at sg2
  cases sg2 with
  | @cons _ l2 _ sg2 =>
    refine ⟨l1 ++ [fof], l2, List.append_cons .., ?_, sg2⟩
    exact Seg.snoc_iff.2 ⟨sg1, e⟩

/-- A walk that has reached the end of its list is ready to free it. -/
lemma Walking.pushOk {head : Addr} (w : Walking q (some head) fof l) (nd : l.Nodup)
    (e : q.next fof = none) : PushOk q head fof l .load := by
  obtain ⟨l1, l2, rfl, sg1, sg2⟩ := w
  rw [e] at sg2
  have e2 : l2 = [] := sg2.eq_nil_iff.2 rfl
  subst e2
  exact ⟨⟨l1, rfl⟩, nd, Seg.snoc_iff.2 ⟨sg1, rfl⟩, fun h => nomatch h⟩

/-- A walk is somewhere behind its first cell. -/
lemma Walking.head_ne_none (w : Walking q h fof l) : h ≠ none := by
  intro e
  obtain ⟨l1, l2, -, sg1, -⟩ := w
  subst e
  cases sg1

lemma flushFrom_ok (q : FofQueue α) (i : Nat) : FlushOk q [] (flushFrom q i) := by
  unfold flushFrom
  split
  · rename_i lt
    exact ⟨lt, rfl⟩
  · split
    · rfl
    · rfl

lemma releaseFrom_ok (i : Nat) (sg : Seg q.next h l none) : FlushOk q l (releaseFrom q i h) := by
  cases h with
  | none =>
    have e : l = [] := sg.eq_nil_iff.2 rfl
    subst e
    exact flushFrom_ok q i
  | some fof => exact ⟨sg.nodup, .start sg⟩

/-- What a flush relies on at its next step, if there is one. -/
def FlushRest (q : FofQueue α) (l : List Addr) : Option FlushPc → Prop
  | none => l = []
  | some pc => FlushOk q l pc

lemma FlushStep.effect {pc : FlushPc} {rest : Option FlushPc} (ok : FlushOk q l pc)
    (noExcess : pc = .takeExcess → q.excess = none) (step : FlushStep q pc ev rest q')
    (cont : ∀ l', FlushRest q' l' rest → CtrlOk q' l' cpc') : CtrlEffect q l ev cpc' q' := by
  cases step with
  | take =>
    obtain ⟨lt, rfl⟩ := ok
    exact .take rfl lt (SameHeads.refl _) rfl fun l' sg => cont l' (releaseFrom_ok _ sg)
  | takeExcess =>
    have none := noExcess rfl
    cases (ok : l = [])
    refine .write trivial ⟨rfl, rfl, rfl, rfl, rfl, none.symm⟩ (fun _ _ => rfl) (cont [] ?_)
    rw [none]
    exact flushFrom_ok { q with excess := .none } (q.nSlots + 1)
  | last next =>
    obtain ⟨nd, w⟩ := ok
    exact .write trivial (SameHeads.refl q) (fun _ _ => rfl) (cont l (w.pushOk nd next))
  | walk next =>
    obtain ⟨nd, w⟩ := ok
    exact .write trivial (SameHeads.refl q) (fun _ _ => rfl) (cont l ⟨nd, w.advance next⟩)
  | push push =>
    obtain ⟨pc', ep, ok'⟩ | ⟨pc', v, ep, ok'⟩ | ⟨ep, -⟩ := pushStep_cases ok <;>
      cases push.symm.trans ep
    · exact .write trivial (SameHeads.refl q) (fun _ _ => rfl) (cont l ok')
    · exact .write trivial ⟨rfl, rfl, rfl, rfl, rfl, rfl⟩
        (fun _ nm => fof_setNext_of_notMem (PushOk.mem_tail ok) nm) (cont l ok')
  | pushed push =>
    obtain ⟨pc', ep, -⟩ | ⟨pc', v, ep, -⟩ | ⟨ep, sg⟩ := pushStep_cases ok <;>
      cases push.symm.trans ep
    exact .free sg (SameHeads.refl _) rfl (cont [] (flushFrom_ok _ _))
  | resetSlot =>
    exact .write trivial ⟨rfl, rfl, rfl, rfl, rfl, rfl⟩ (fun _ _ => rfl) (cont l ok)
  | resetCheck =>
    exact .write trivial ⟨rfl, rfl, rfl, rfl, rfl, rfl⟩ (fun _ _ => rfl) (cont l ok)

lemma afterMode_ok (q : FofQueue α) (ctrl : CtrlClient) (c : Cycle) :
    CtrlOk q [] (afterMode q ctrl c) := by
  unfold afterMode
  split
  · exact flushFrom_ok q 0
  · rfl

lemma afterFlush_ok (q : FofQueue α) (ctrl : CtrlClient) (after : AfterFlush) :
    CtrlOk q [] (afterFlush q ctrl after).1 := by
  cases after with
  | done => rfl
  | mode c => exact afterMode_ok q _ c
  | jump c => rfl

lemma handFrom_ok (n i : Nat) (sg : Seg q.next h l none) :
    CtrlOk { q with firstFof := h } l (handFrom n i h) := by
  cases h with
  | none => exact sg.eq_nil_iff.2 rfl
  | some fof =>
    have w : Walking q (some fof) fof l := .start sg
    exact ⟨sg.nodup, w⟩

/-- The effect of a step of the controller that finds no excess list. -/
lemma ctrlStep_effect {ctrl ctrl' : CtrlClient} (pos : 1 ≤ q.nSlots) (ok : CtrlOk q l cpc)
    (noExcess : ∀ after, cpc = .flush after .takeExcess → q.excess = none)
    (e : ctrlStep q ctrl cpc = some (ev, cpc', ctrl', q')) : CtrlEffect q l ev cpc' q' := by
  cases ctrlStep_cases e with
  | changed =>
    cases (ok : l = [])
    exact .write trivial (SameHeads.refl q) (fun _ _ => rfl) (flushFrom_ok q 0)
  | unchanged =>
    cases (ok : l = [])
    exact .write trivial (SameHeads.refl q) (fun _ _ => rfl) (afterMode_ok ..)
  | @flush after pc _ pc' _ step =>
    have noExcess : pc = .takeExcess → q.excess = none := fun e => noExcess after (e ▸ rfl)
    exact step.effect ok noExcess fun l' ok' => ok'
  | @flushed after pc _ _ step =>
    have noExcess : pc = .takeExcess → q.excess = none := fun e => noExcess after (e ▸ rfl)
    apply step.effect ok noExcess
    intro l' e
    cases (e : l' = [])
    exact afterFlush_ok ..
  | publishTransport => exact .write trivial ⟨rfl, rfl, rfl, rfl, rfl, rfl⟩ (fun _ _ => rfl) ok
  | publish => exact .write trivial ⟨rfl, rfl, rfl, rfl, rfl, rfl⟩ (fun _ _ => rfl) ok
  | stamp => exact .write trivial ⟨rfl, rfl, rfl, rfl, rfl, rfl⟩ (fun _ _ => rfl) ok
  | @take n =>
    exact .take ok (slotOfFrame_lt_nSlots pos n) ⟨rfl, rfl, rfl, rfl, rfl, rfl⟩ rfl
      fun l' sg => handFrom_ok n _ sg
  | hand next =>
    obtain ⟨nd, w⟩ := ok
    exact .write trivial ⟨rfl, rfl, rfl, rfl, rfl, rfl⟩ (fun _ _ => rfl) ⟨nd, w.advance next⟩
  | handLast next first =>
    obtain ⟨nd, w⟩ := ok
    rw [first] at w
    refine .write trivial ⟨rfl, rfl, rfl, rfl, rfl, rfl⟩ (fun _ _ => rfl) ?_
    exact PushOk.congr (w.pushOk nd next) fun _ _ => rfl
  | handNone next first =>
    obtain ⟨nd, w⟩ := ok
    exact absurd first w.head_ne_none
  | give push =>
    obtain ⟨pc', ep, ok'⟩ | ⟨pc', v, ep, ok'⟩ | ⟨ep, -⟩ := pushStep_cases ok <;>
      cases push.symm.trans ep
    · exact .write trivial (SameHeads.refl q) (fun _ _ => rfl) ok'
    · exact .write trivial ⟨rfl, rfl, rfl, rfl, rfl, rfl⟩
        (fun _ nm => fof_setNext_of_notMem (PushOk.mem_tail ok) nm) ok'
  | given push =>
    obtain ⟨pc', ep, -⟩ | ⟨pc', v, ep, -⟩ | ⟨ep, sg⟩ := pushStep_cases ok <;>
      cases push.symm.trans ep
    exact .free sg ⟨rfl, rfl, rfl, rfl, rfl, rfl⟩ rfl rfl

end Ctrl

end JackFofs
