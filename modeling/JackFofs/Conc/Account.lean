import JackFofs.Conc.Plan

/-!
# The account of one call

One call of `fof_queue_add` in a `STATISTICS_ENABLE` build, whatever the other producers and the
controller do. The machine of the call is `addStep`, but each of its accesses finds the queue in an
arbitrary state, so every load may return any value and every compare-exchange may succeed or fail.
Only the parameters of the queue stay as they are.

The call keeps a list of what it did with cells and counters, in order. `add_account` says what is on
the list when it returns. The counters are those of the shared memory that the queue is a part of, so
`shmem_ptr()` is not `NULL` where they are incremented.
-/

namespace JackFofs
open Runs

variable {α : Type}

/-- What a call does with cells and counters. -/
inductive Effect where
  /-- the compare-exchange of `fof_queue_allocate_fof` -/
  | took (fof : Addr)
  /-- the compare-exchange of a slot -/
  | linked (fof : Addr) (slot : Nat)
  /-- the store to `q->excess` -/
  | excess (fof : Addr)
  /-- the compare-exchange of `fof_queue_free_fof` -/
  | freed (fof : Addr)
  /-- `INCR_SLOT_CNT(slot_idx)` -/
  | incrSlotCnt (slotIdx : Int)
  /-- `INCR_LATE_CNT()` -/
  | incrLateCnt
  /-- `INCR_EXCESS_CNT()` -/
  | incrExcessCnt
deriving DecidableEq, Repr

/-- A call of `fof_queue_add`: its program counter, the local variable `slot_idx`, whether
    `INCR_LATE_CNT()` comes after the free, the last value that it loaded from `q->next_frame`, what it
    has done, and the status that it has returned. -/
structure Call where
  pc : AddPc
  slotIdx : Int
  countLate : Bool
  nextFrame : Option Nat
  effects : List Effect
  status : Option JfofsStatus
deriving DecidableEq

/-- The call begins with the allocation of a cell. -/
def Call.start : Call := ⟨.alloc .load, 0, false, none, [], none⟩

/-- The counters that a call increments behind the label `recalculate`, before it frees its cell or
    puts it on the excess list. -/
def recalculateCounts : AddPc → AddPc → List Effect
  | .loadFrame _, .free _ _ => [.incrLateCnt]
  | .far _ _ _ _, .free _ _ => [.incrLateCnt]
  | .loadFrame _, .excess _ _ => [.incrExcessCnt]
  | .far _ _ _ _, .excess _ _ => [.incrExcessCnt]
  | _, _ => []

/-- What a step does with cells and counters. -/
def Call.effectsOf (c : Call) (pc' : AddPc) : Ev α → List Effect
  | .allocated fof => [.took fof]
  | .linked fof slot => [.linked fof slot, .incrSlotCnt c.slotIdx]
  | .excess fof => [.excess fof]
  | .late fof => if c.countLate then [.freed fof, .incrLateCnt] else [.freed fof]
  | _ => recalculateCounts c.pc pc'

/-- The call after a step to `pc'` that finds the queue in the state `q`. -/
def Call.after (c : Call) (q : FofQueue α) (pc' : AddPc) (ev : Ev α) : Call where
  pc := pc'
  slotIdx :=
    match pc' with
    | .cache _ _ slotIdx _ => slotIdx
    | _ => c.slotIdx
  countLate :=
    match c.pc, pc' with
    | .near _ _ _ _, .free _ _ => true
    | _, _ => c.countLate
  nextFrame := if c.pc.loadsFrame then some q.nextFrame else c.nextFrame
  effects := c.effects ++ c.effectsOf pc' ev
  status := ev.status

/-- One step of the call, when it finds the queue in the state `q`. -/
def callStep (timeUs : Nat) (argv : α) (c : Call) (q : FofQueue α) : Option (Ev α × Call) := do
  let (ev, pc', _) ← addStep q timeUs argv c.pc
  return (ev, c.after q pc' ev)

/-- The slot index of an event ahead of the `next_frame` that was loaded last, in the window of the
    ring. -/
structure Placed (n b s : Nat) (loaded : Option Nat) (slotIdx : Int) (nextFrame : Nat) : Prop where
  loaded : loaded = some nextFrame
  le : nextFrame ≤ s
  slotIdx : slotIdx = ((s - nextFrame) / b : Nat)
  lt : (s - nextFrame) / b < n

/-- What a call has done when it returns with the status. -/
def Accounted (n b s : Nat) (c : Call) : JfofsStatus → Prop
  | .success => ∃ fof slot nextFrame, Placed n b s c.nextFrame c.slotIdx nextFrame ∧ slot < n ∧
      c.effects = [.took fof, .linked fof slot, .incrSlotCnt c.slotIdx]
  | .fofExcessInfo => ∃ fof, c.effects = [.took fof, .incrExcessCnt, .excess fof]
  | .fofLateWarning => ∃ fof, c.effects = [.took fof, .incrLateCnt, .freed fof] ∨
      c.effects = [.took fof, .freed fof, .incrLateCnt]
  | .fofLimitError => c.effects = []
  | .memoryError => False

/-- A call that has its cell and has not given it away yet. -/
structure HasCell (c : Call) (fof : Addr) : Prop where
  status : c.status = none
  countLate : c.countLate = false
  effects : c.effects = [.took fof]

/-- What a call has done at each point. -/
def Progress (n b s : Nat) (c : Call) : Prop :=
  match c.pc with
  | .idle => ∃ st, c.status = some st ∧ Accounted n b s c st
  | .alloc (.clear fof) | .fill fof | .loadFrame fof => HasCell c fof
  | .alloc _ => c.status = none ∧ c.countLate = false ∧ c.effects = []
  | .cache fof nextFrame slotIdx _ =>
    HasCell c fof ∧ Placed n b s c.nextFrame slotIdx nextFrame ∧ c.slotIdx = slotIdx
  | .far fof nextFrame slot _ =>
    HasCell c fof ∧ Placed n b s c.nextFrame c.slotIdx nextFrame ∧ slot < n
  | .near fof nextFrame slot _ =>
    HasCell c fof ∧ Placed n b s c.nextFrame c.slotIdx nextFrame ∧ slot < n
  | .excess fof _ => c.status = none ∧ c.effects = [.took fof, .incrExcessCnt]
  | .free fof _ => c.status = none ∧ ((c.countLate = false ∧ c.effects = [.took fof, .incrLateCnt]) ∨
      (c.countLate = true ∧ c.effects = [.took fof]))

/-- The parameters of the queue. -/
structure Params (n b r : Nat) (q : FofQueue α) : Prop where
  nSlots : q.nSlots = n
  bufferSize : q.bufferSize = b
  sampleRate : q.sampleRate = r

section Steps

variable {n b r timeUs : Nat} {argv : α} {q q' : FofQueue α} {c c' : Call} {ev : Ev α} {fof : Addr}
  {pc pc' : AddPc} {nextFrame slot : Nat}

/-- The slot index of an event that is not late, for a buffer of at least two frames. -/
lemma slotIndex_div (two : 2 ≤ q.bufferSize) {nextFrame : Nat} :
    slotIndex q (startFrame q timeUs) nextFrame =
      ((startFrame q timeUs - nextFrame) / q.bufferSize : Nat) := by
  apply slotIndex_eq
  rw [Nat.div_lt_iff_lt_mul (by omega)]
  have lt := jfofsTimeToNframes_lt timeUs q.sampleRate
  rw [startFrame]
  omega

lemma HasCell.append (has : HasCell c fof) (l : List Effect) : c.effects ++ l = .took fof :: l := by
  rw [has.effects, List.singleton_append]

/-- A quiet step changes neither the list nor the status. -/
lemma HasCell.after (has : HasCell c fof) (late : (c.after q pc' (.quiet : Ev α)).countLate = c.countLate)
    (counts : recalculateCounts c.pc pc' = []) : HasCell (c.after q pc' (.quiet : Ev α)) fof := by
  refine ⟨rfl, late.trans has.countLate, ?_⟩
  show c.effects ++ recalculateCounts c.pc pc' = _
  rw [counts, List.append_nil, has.effects]

/-- Behind `recalculate` the event is late, in excess, or placed. -/
lemma progress_recalculate (params : Params n b r q) (two : 2 ≤ b) (has : HasCell c fof)
    (epc : c.pc = .loadFrame fof ∨ ∃ nextFrame slot, c.pc = .far fof nextFrame slot .check) :
    Progress n b (jfofsTimeToNframes timeUs r)
      (c.after q (recalculatePc q fof (startFrame q timeUs) q.nextFrame) (.quiet : Ev α)) := by
  obtain ⟨rfl, rfl, rfl⟩ := params
  have div : slotIndex q (startFrame q timeUs) q.nextFrame = _ := slotIndex_div two
  obtain ⟨pc, slotIdx, countLate, loaded, effects, status⟩ := c
  obtain ⟨-, e⟩ | ⟨-, -, e⟩ | ⟨le, lt, e⟩ := recalculatePc_cases q fof (startFrame q timeUs) q.nextFrame
  · rw [e]
    rcases epc with epc | ⟨nf, slot, epc⟩ <;> cases epc
    · exact ⟨rfl, .inl ⟨has.countLate, has.append [.incrLateCnt]⟩⟩
    · exact ⟨rfl, .inl ⟨has.countLate, has.append [.incrLateCnt]⟩⟩
  · rw [e]
    rcases epc with epc | ⟨nf, slot, epc⟩ <;> cases epc
    · exact ⟨rfl, has.append [.incrExcessCnt]⟩
    · exact ⟨rfl, has.append [.incrExcessCnt]⟩
  · rw [e]
    rw [div] at lt
    generalize slotIndex q (startFrame q timeUs) q.nextFrame = idx at *
    have placed : Placed q.nSlots q.bufferSize (startFrame q timeUs) (some q.nextFrame) idx
        q.nextFrame := ⟨rfl, le, div, Int.ofNat_lt.1 lt⟩
    rcases epc with epc | ⟨nf, slot, epc⟩ <;> cases epc
    · exact ⟨has.after rfl rfl, placed, rfl⟩
    · exact ⟨has.after rfl rfl, placed, rfl⟩

/-- One step of a call. -/
lemma progress_step (params : Params n b r q) (two : 2 ≤ b) (pos : 1 ≤ n)
    (progress : Progress n b (jfofsTimeToNframes timeUs r) c)
    (step : addStep q timeUs argv c.pc = some (ev, pc', q')) :
    Progress n b (jfofsTimeToNframes timeUs r) (c.after q pc' ev) := by
  obtain ⟨pc, slotIdx, countLate, nextFrame, effects, status⟩ := c
  cases addStep_cases step with
  | loaded =>
    obtain ⟨-, late, none⟩ := progress
    exact ⟨rfl, late, (List.append_nil effects).trans none⟩
  | empty =>
    obtain ⟨-, late, none⟩ := progress
    exact ⟨_, rfl, (List.append_nil effects).trans none⟩
  | read =>
    obtain ⟨-, late, none⟩ := progress
    exact ⟨rfl, late, (List.append_nil effects).trans none⟩
  | @popped fof =>
    obtain ⟨-, late, none⟩ := progress
    exact ⟨rfl, late, congrArg (· ++ [Effect.took fof]) none⟩
  | again =>
    obtain ⟨-, late, none⟩ := progress
    exact ⟨rfl, late, (List.append_nil effects).trans none⟩
  | @got fof =>
    have has : HasCell _ fof := progress
    exact has.after rfl rfl
  | @filled fof =>
    have has : HasCell _ fof := progress
    exact has.after rfl rfl
  | @calculate fof =>
    have has : HasCell _ fof := progress
    exact progress_recalculate params two has (.inl rfl)
  | cached | outdated | cacheSlot | cacheFrame =>
    obtain ⟨has, placed, here⟩ := progress
    exact ⟨has.after rfl rfl, placed, rfl⟩
  | @chooseFar fof nf idx | @chooseNear fof nf idx =>
    obtain ⟨has, placed, here⟩ := progress
    have here : slotIdx = idx := here
    subst here
    have lt := targetSlot_lt_nSlots (q := q) (params.nSlots ▸ pos) slotIdx
    rw [params.nSlots] at lt
    exact ⟨has.after rfl rfl, placed, lt⟩
  | @recalculate fof nf slot =>
    obtain ⟨has, -, -⟩ := progress
    exact progress_recalculate params two has (.inr ⟨nf, slot, rfl⟩)
  | farCheck same | nearCheck same =>
    obtain ⟨has, placed, lt⟩ := progress
    exact ⟨has.after rfl rfl, ⟨congrArg some same, placed.le, placed.slotIdx, placed.lt⟩, lt⟩
  | @linkedFar fof nf slot | @linkedNear fof nf slot =>
    obtain ⟨has, placed, lt⟩ := progress
    refine ⟨_, rfl, fof, slot, nf, placed, lt, ?_⟩
    exact has.append [.linked fof slot, .incrSlotCnt slotIdx]
  | farLoad | farWrite | farRead | retry | farWriteBack | nearLoad | nearWrite =>
    obtain ⟨has, placed, lt⟩ := progress
    exact ⟨has.after rfl rfl, placed, lt⟩
  | overtaken | beaten =>
    obtain ⟨has, -, -⟩ := progress
    exact ⟨rfl, .inr ⟨rfl, (List.append_nil effects).trans has.effects⟩⟩
  | excessRead | excessWrite =>
    obtain ⟨-, counted⟩ := progress
    exact ⟨rfl, (List.append_nil effects).trans counted⟩
  | @pushed fof =>
    obtain ⟨-, counted⟩ := progress
    exact ⟨_, rfl, fof, congrArg (· ++ [Effect.excess fof]) counted⟩
  | free =>
    obtain ⟨-, ⟨rfl, rfl⟩ | ⟨rfl, rfl⟩⟩ := progress
    · exact ⟨rfl, .inl ⟨rfl, rfl⟩⟩
    · exact ⟨rfl, .inr ⟨rfl, rfl⟩⟩
  | @freed fof =>
    obtain ⟨-, ⟨rfl, rfl⟩ | ⟨rfl, rfl⟩⟩ := progress
    · exact ⟨_, rfl, fof, .inl rfl⟩
    · exact ⟨_, rfl, fof, .inr rfl⟩

/-- Only a call that is over has a status. -/
lemma Progress.accounted {n b s : Nat} {c : Call} {st : JfofsStatus} (progress : Progress n b s c)
    (returned : c.status = some st) : Accounted n b s c st := by
  obtain ⟨pc, slotIdx, countLate, loaded, effects, status⟩ := c
  cases (returned : status = _)
  cases pc with
  | idle =>
    obtain ⟨st', e, accounted⟩ := progress
    cases e
    exact accounted
  | alloc apc =>
    cases apc with
    | clear fof => exact nomatch progress.status
    | _ => exact nomatch progress.1
  | fill fof => exact nomatch progress.status
  | loadFrame fof => exact nomatch progress.status
  | cache fof nf idx cpc => exact nomatch progress.1.status
  | far fof nf slot fpc => exact nomatch progress.1.status
  | near fof nf slot npc => exact nomatch progress.1.status
  | excess fof epc => exact nomatch progress.1
  | free fof ppc => exact nomatch progress.1

end Steps

/-! ## The call as a thread of the machine -/

/-- The queues that the steps of a thread find. -/
def queuesOf (p : Nat) : List (Step α) → List (FofQueue α)
  | [] => []
  | ⟨s, .step p', _⟩ :: log => if p' = p then s.q :: queuesOf p log else queuesOf p log
  | _ :: log => queuesOf p log

/-- In a run of the machine the steps of a thread, from any point of a call on, are steps of the call
    that find the queue as the other threads and the controller have left it. -/
theorem call_of_run {p : Nat} {s s' : Machine α} {log : List (Step α)} (run : Run Machine.exec s log s')
    (one : ∀ x ∈ log, ∀ timeUs argv, x.op ≠ .call p timeUs argv) (c : Call)
    (pc : c.pc = (s.thread p).pc) :
    ∃ log' c', execAll (callStep (s.thread p).timeUs (s.thread p).argv) c (queuesOf p log) =
      some (log', c') ∧ c'.pc = (s'.thread p).pc := by
  induction run generalizing c with
  | nil => exact ⟨[], c, rfl, pc⟩
  | @cons s s1 s' act ev log e run ih =>
    have one' := fun x mem => one x (List.mem_cons_of_mem _ mem)
    have other (e : s1.thread p = s.thread p) (skip : queuesOf p (⟨s, act, ev⟩ :: log) = queuesOf p log) :
        ∃ log' c', execAll (callStep (s.thread p).timeUs (s.thread p).argv) c
          (queuesOf p (⟨s, act, ev⟩ :: log)) = some (log', c') ∧ c'.pc = (s'.thread p).pc := by
      rw [skip, ← e]
      exact ih one' c (pc.trans (congrArg Thread.pc e).symm)
    cases Machine.executed e with
    | @call p' timeUs argv idle =>
      have ne : p ≠ p' := by
        rintro rfl
        exact one _ List.mem_cons_self timeUs argv rfl
      exact other (setThread_of_ne _ _ _ ne) rfl
    | @step p' _ pc' q' step =>
      by_cases same : p' = p
      · subst same
        have call : callStep (s.thread p').timeUs (s.thread p').argv c s.q =
            some (ev, c.after s.q pc' ev) := by
          rw [callStep, pc, step]
          rfl
        obtain ⟨log', c', e', pc'⟩ := ih one' (c.after s.q pc' ev) (by rw [setThread_self]; rfl)
        rw [setThread_self] at e'
        refine ⟨⟨c, s.q, ev⟩ :: log', c', ?_, pc'⟩
        rw [queuesOf, if_pos rfl, execAll, call]
        simp [e']
      · exact other (setThread_of_ne _ _ _ (Ne.symm same)) (by rw [queuesOf, if_neg same])
    | _ => exact other rfl rfl

/-! ## What a call has done when it returns -/

/-- Every call that returns, whatever it reads on the way: with `JFOFS_SUCCESS` it linked its cell into
    one slot of the ring, with `JFOFS_FOF_EXCESS_INFO` it put it on the excess list once, with
    `JFOFS_FOF_LATE_WARNING` it freed it once, and in each case it incremented the counter of that status
    once and did nothing else. With `JFOFS_FOF_LIMIT_ERROR` it did nothing at all. -/
theorem add_account {n b r : Nat} (pos : 1 ≤ n) (two : 2 ≤ b) (timeUs : Nat) (argv : α)
    (qs : List (FofQueue α)) (params : ∀ q ∈ qs, Params n b r q)
    {log : List (Entry Call (FofQueue α) (Ev α))} {c : Call} {st : JfofsStatus}
    (e : execAll (callStep timeUs argv) .start qs = some (log, c)) (returned : c.status = some st) :
    Accounted n b (jfofsTimeToNframes timeUs r) c st := by
  obtain ⟨run, -⟩ := run_of_execAll e
  have params := forall_op_of_execAll e params
  have progress : Progress n b (jfofsTimeToNframes timeUs r) c := by
    refine (run.inv (Progress n b (jfofsTimeToNframes timeUs r)) (fun {x c'} mem progress e => ?_)
      ⟨rfl, rfl, rfl⟩).1
    obtain ⟨⟨ev, pc', q'⟩, step, e⟩ := Option.bind_eq_some_iff.1 e
    cases e
    exact progress_step (params x mem) two pos progress step
  exact progress.accounted returned

/-- A call for frame 3, with a cycle in the middle that publishes frame 2. -/
def addAcrossCycle : List (Act Nat) :=
  .call 0 3 7 :: List.replicate 10 (.step 0) ++
    .cycle 2 ⟨0, .stopped, 0⟩ :: List.replicate 4 .ctrlStep ++ List.replicate 9 (.step 0)

/-- The call has loaded frame 0 when the cycle comes. It goes back, loads frame 2, and links its cell into
    one slot. -/
theorem add_account_one : ∃ steps s log c,
    execAll Machine.exec (Machine.init (twoSlots 1) (.zero 0) 0) addAcrossCycle = some (steps, s) ∧
      (queuesOf 0 steps).map FofQueue.nextFrame = List.replicate 10 0 ++ List.replicate 9 2 ∧
      execAll (callStep 3 7) .start (queuesOf 0 steps) = some (log, c) ∧ c.status = some .success ∧
      c.nextFrame = some 2 ∧
      ∃ fof slot nextFrame, Placed 2 2 3 c.nextFrame c.slotIdx nextFrame ∧ slot < 2 ∧
        c.effects = [.took fof, .linked fof slot, .incrSlotCnt c.slotIdx] := by
  have runs : ∃ steps s log c,
      execAll Machine.exec (Machine.init (twoSlots 1) (.zero 0) 0) addAcrossCycle = some (steps, s) ∧
        (queuesOf 0 steps).map FofQueue.nextFrame = List.replicate 10 0 ++ List.replicate 9 2 ∧
        (∀ q ∈ queuesOf 0 steps, q.nSlots = 2 ∧ q.bufferSize = 2 ∧ q.sampleRate = 1000000) ∧
        execAll (callStep 3 7) .start (queuesOf 0 steps) = some (log, c) ∧ c.status = some .success ∧
        c.nextFrame = some 2 :=
    ⟨_, _, _, _, rfl, rfl, by decide +kernel, rfl, rfl, rfl⟩
  obtain ⟨steps, s, log, c, run, frames, params, e, returned, loaded⟩ := runs
  have params : ∀ q ∈ queuesOf 0 steps, Params 2 2 1000000 q := by
    intro q mem
    obtain ⟨nSlots, bufferSize, sampleRate⟩ := params q mem
    exact ⟨nSlots, bufferSize, sampleRate⟩
  exact ⟨steps, s, log, c, run, frames, e, returned, loaded,
    add_account (by decide) (by decide) 3 7 (queuesOf 0 steps) params e returned⟩

end JackFofs
