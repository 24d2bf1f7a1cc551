import JackFofs.Conc.FreeList
import JackFofs.Ctrl.Basic
import JackFofs.Lib.Run

/-!
# Producers and controller, one shared access a step

`fof_queue_add`, `ctrl_client_process_cb` and `fof_queue_flush` as machines over the queue of
`JackFofs/Queue/Basic`. Any number of threads run `fof_queue_add`, the controller thread runs cycles
and flushes, and an action of the whole machine starts a call or makes the next step of one.

* A program counter names the next shared access of the C code and carries the local variables that
  are live there. Loads, exchanges, compare-exchanges and the plain accesses of `next` fields, of
  `q->excess` and of the cached `current_slot` and `next_frame_check` are one step each.
* Statements on memory that no other thread accesses go with the step before or after them:
  `set_fof` on the cell just allocated, the state of the controller, `first_fof` and `last_fof`.
* A step answers with an event that says what it did to the lists.
* As in `JackFofs/Conc/FreeList`, the counters of a `DEBUG_ENABLE` build are left out.
-/

namespace JackFofs
open Runs

variable {α : Type}

/-- What a step did. -/
inductive Ev (α : Type) where
  | quiet
  /-- `fof_queue_allocate_fof` popped a cell -/
  | allocated (fof : Addr)
  /-- `fof_queue_add` returns `JFOFS_FOF_LIMIT_ERROR` -/
  | limit
  /-- `fof_queue_add` linked its cell into a slot and returns `JFOFS_SUCCESS` -/
  | linked (fof : Addr) (slot : Nat)
  /-- `fof_queue_add` put its cell on the excess list and returns `JFOFS_FOF_EXCESS_INFO` -/
  | excess (fof : Addr)
  /-- `fof_queue_add` freed its cell and returns `JFOFS_FOF_LATE_WARNING` -/
  | late (fof : Addr)
  /-- a cycle fetched its frame and published the next one -/
  | fetched (n : Nat)
  /-- the exchange of a slot by a cycle with this frame, or by a flush -/
  | took (n : Option Nat) (slot : Nat) (head : Option Addr)
  /-- the exchange of the excess list by a flush -/
  | tookExcess (head : Option Addr)
  /-- a call of `dsp_client_add` -/
  | handed (d : DspAdd α)
  /-- `fof_queue_free_fofs` of the controller is over -/
  | released (head : Addr)
deriving DecidableEq

/-- The status that `fof_queue_add` returns with this step. -/
def Ev.status : Ev α → Option JfofsStatus
  | .limit => some .fofLimitError
  | .linked _ _ => some .success
  | .excess _ => some .fofExcessInfo
  | .late _ => some .fofLateWarning
  | _ => none

/-! ## `fof_queue_add` -/

/-- The steps from the label `recalculate` to the choice of the slot. -/
inductive CachePc where
  /-- the comparison with `q->next_frame_check` -/
  | check
  /-- the write of `q->current_slot` -/
  | slot
  /-- the write of `q->next_frame_check` -/
  | frame
  /-- the read of `q->current_slot` -/
  | read
deriving DecidableEq

/-- The steps of the loop that inserts into a slot that is not the current one. -/
inductive FarPc where
  /-- the load of the slot -/
  | load
  /-- `fof->next = ` the value loaded -/
  | write (head : Option Addr)
  /-- the load of `q->next_frame` for the recheck -/
  | check
  /-- the expected value `fof->next` of the compare-exchange -/
  | read
  /-- the compare-exchange of the slot -/
  | cas (expected : Option Addr)
  /-- a compare-exchange that failed stores the value it found in `fof->next` -/
  | writeBack (found : Option Addr)
deriving DecidableEq

/-- The steps of the single attempt to insert into the current slot. -/
inductive NearPc where
  /-- the load of the slot -/
  | load
  /-- `fof->next = slot` -/
  | write (head : Option Addr)
  /-- the load of `q->next_frame` for the recheck -/
  | check (head : Option Addr)
  /-- the compare-exchange of the slot -/
  | cas (head : Option Addr)
deriving DecidableEq

/-- The steps of the excess branch. -/
inductive ExcessPc where
  /-- the read of `q->excess` -/
  | read
  /-- `fof->next = ` the value read -/
  | write (head : Option Addr)
  /-- `q->excess = fof` -/
  | push
deriving DecidableEq

/-- The program counter of `fof_queue_add`. -/
inductive AddPc where
  | idle
  | alloc (pc : AllocPc)
  /-- `set_fof` -/
  | fill (fof : Addr)
  /-- the first load of `q->next_frame` -/
  | loadFrame (fof : Addr)
  | cache (fof : Addr) (nextFrame : Nat) (slotIdx : Int) (pc : CachePc)
  | far (fof : Addr) (nextFrame slot : Nat) (pc : FarPc)
  | near (fof : Addr) (nextFrame slot : Nat) (pc : NearPc)
  | excess (fof : Addr) (pc : ExcessPc)
  /-- `fof_queue_free_fof` of an event that is late -/
  | free (fof : Addr) (pc : PushPc)
deriving DecidableEq

/-- A thread that calls `fof_queue_add`: the arguments of its call and the program counter. -/
structure Thread (α : Type) where
  timeUs : Nat
  argv : α
  pc : AddPc

/-- `start_frame` -/
def startFrame (q : FofQueue α) (timeUs : Nat) : Nat :=
  jfofsTimeToNframes timeUs q.sampleRate

/-- The branches of `fof_queue_add` after the label `recalculate`. -/
def recalculatePc (q : FofQueue α) (fof : Addr) (s nextFrame : Nat) : AddPc :=
  if s < nextFrame then .free fof .load
  else
    let slotIdx := slotIndex q s nextFrame
    if slotIdx ≥ q.nSlots then .excess fof .read else .cache fof nextFrame slotIdx .check

/-- One step of the cache of `q->current_slot` and the choice between the two ways to insert. -/
def cacheStep (q : FofQueue α) (fof : Addr) (s nextFrame : Nat) (slotIdx : Int) :
    CachePc → AddPc × FofQueue α
  | .check =>
    if nextFrame ≠ q.nextFrameCheck then (.cache fof nextFrame slotIdx .slot, q)
    else (.cache fof nextFrame slotIdx .read, q)
  | .slot => (.cache fof nextFrame slotIdx .frame, { q with currentSlot := slotOfFrame q nextFrame })
  | .frame => (.cache fof nextFrame slotIdx .read, { q with nextFrameCheck := nextFrame })
  | .read =>
    let slot := targetSlot q slotIdx
    if s > u64 (nextFrame + q.bufferSize) then (.far fof nextFrame slot .load, q)
    else (.near fof nextFrame slot .load, q)

/-- One step of the loop that inserts into a slot that is not the current one. -/
def farStep (q : FofQueue α) (fof : Addr) (s nextFrame slot : Nat) :
    FarPc → Ev α × AddPc × FofQueue α
  | .load => (.quiet, .far fof nextFrame slot (.write (q.slot slot)), q)
  | .write head => (.quiet, .far fof nextFrame slot .check, q.setNext fof head)
  | .check =>
    if q.nextFrame ≠ nextFrame then (.quiet, recalculatePc q fof s q.nextFrame, q)
    else (.quiet, .far fof nextFrame slot .read, q)
  | .read => (.quiet, .far fof nextFrame slot (.cas (q.next fof)), q)
  | .cas expected =>
    if q.slot slot = expected then (.linked fof slot, .idle, q.setSlot slot (some fof))
    else (.quiet, .far fof nextFrame slot (.writeBack (q.slot slot)), q)
  | .writeBack found => (.quiet, .far fof nextFrame slot .load, q.setNext fof found)

/-- One step of the attempt to insert into the current slot. -/
def nearStep (q : FofQueue α) (fof : Addr) (nextFrame slot : Nat) :
    NearPc → Ev α × AddPc × FofQueue α
  | .load => (.quiet, .near fof nextFrame slot (.write (q.slot slot)), q)
  | .write head => (.quiet, .near fof nextFrame slot (.check head), q.setNext fof head)
  | .check head =>
    if q.nextFrame ≠ nextFrame then (.quiet, .free fof .load, q)
    else (.quiet, .near fof nextFrame slot (.cas head), q)
  | .cas head =>
    if q.slot slot = head then (.linked fof slot, .idle, q.setSlot slot (some fof))
    else (.quiet, .free fof .load, q)

/-- One step of the excess branch. -/
def excessStep (q : FofQueue α) (fof : Addr) : ExcessPc → Ev α × AddPc × FofQueue α
  | .read => (.quiet, .excess fof (.write q.excess), q)
  | .write head => (.quiet, .excess fof .push, q.setNext fof head)
  | .push => (.excess fof, .idle, { q with excess := some fof })

/-- One step of `fof_queue_add`. -/
def addStep (q : FofQueue α) (timeUs : Nat) (argv : α) : AddPc → Option (Ev α × AddPc × FofQueue α)
  | .idle => none
  | .alloc pc =>
    match allocStep q pc with
    | (.more (.clear fof), q) => some (.allocated fof, .alloc (.clear fof), q)
    | (.more pc, q) => some (.quiet, .alloc pc, q)
    | (.failed, q) => some (.limit, .idle, q)
    | (.got fof, q) => some (.quiet, .fill fof, q)
  | .fill fof => some (.quiet, .loadFrame fof, setFof q fof timeUs argv)
  | .loadFrame fof => some (.quiet, recalculatePc q fof (startFrame q timeUs) q.nextFrame, q)
  | .cache fof nextFrame slotIdx pc =>
    some (.quiet, cacheStep q fof (startFrame q timeUs) nextFrame slotIdx pc)
  | .far fof nextFrame slot pc => some (farStep q fof (startFrame q timeUs) nextFrame slot pc)
  | .near fof nextFrame slot pc => some (nearStep q fof nextFrame slot pc)
  | .excess fof pc => some (excessStep q fof pc)
  | .free fof pc =>
    match pushStep q fof fof pc with
    | (some pc, q) => some (.quiet, .free fof pc, q)
    | (none, q) => some (.late fof, .idle, q)

lemma addStep_busy {q q' : FofQueue α} {timeUs : Nat} {argv : α} {pc pc' : AddPc} {ev : Ev α}
    (e : addStep q timeUs argv pc = some (ev, pc', q')) : pc ≠ .idle := by
  rintro rfl
  cases e

/-! ## The controller -/

/-- What a cycle knows about itself when it has asked JACK. -/
structure Cycle where
  nframes : Nat
  m : Nat
  transportState : TransportState
deriving DecidableEq

/-- What comes after a flush: nothing, or the rest of the cycle that follows a change of the clock
    source or a jump of the transport. -/
inductive AfterFlush where
  | done
  | mode (c : Cycle)
  | jump (c : Cycle)
deriving DecidableEq

/-- The steps of `fof_queue_flush`. -/
inductive FlushPc where
  /-- the exchange of `q->slot[i]` -/
  | take (i : Nat)
  /-- the exchange of `q->excess` -/
  | takeExcess
  /-- the read of `tail->next` in `fof_queue_release_list`; slot `i` comes next -/
  | walk (i : Nat) (head tail : Addr)
  /-- `fof_queue_free_fofs`; slot `i` comes next -/
  | push (i : Nat) (head tail : Addr) (pc : PushPc)
  /-- the write of `q->current_slot` -/
  | resetSlot
  /-- the write of `q->next_frame_check` -/
  | resetCheck
deriving DecidableEq

/-- The program counter of the controller thread. -/
inductive CtrlPc where
  | idle
  /-- the load of `q->clock_source` -/
  | readClock (nframes : Nat) (jack : JackReading)
  | flush (after : AfterFlush) (pc : FlushPc)
  /-- the store to `q->next_frame`, or the fetch-and-add -/
  | publish (c : Cycle)
  /-- the store to `q->frame_stamp` -/
  | stamp (n : Nat) (c : Cycle)
  /-- the exchange of the slot -/
  | take (n : Nat)
  /-- `dsp_client_add` and the read of `fof->next` -/
  | hand (n : Nat) (fof : Addr) (i : Nat)
  /-- `fof_queue_free_fofs` -/
  | give (n : Nat) (head tail : Addr) (pc : PushPc)
deriving DecidableEq

/-- The loop of `fof_queue_flush` arrives at slot `i`, with `n_slots` standing for the excess list
    and `n_slots + 1` for the writes at the end. -/
def flushFrom (q : FofQueue α) (i : Nat) : FlushPc :=
  if i < q.nSlots then .take i else if i = q.nSlots then .takeExcess else .resetSlot

/-- `fof_queue_release_list`; slot `i` comes next. -/
def releaseFrom (q : FofQueue α) (i : Nat) : Option Addr → FlushPc
  | none => flushFrom q i
  | some head => .walk i head head

/-- The test for a jump of the transport. -/
def afterMode (q : FofQueue α) (ctrl : CtrlClient) (c : Cycle) : CtrlPc :=
  if ctrlTransportDiscontinuity ctrl c.nframes c.transportState c.m then
    .flush (.jump c) (flushFrom q 0)
  else .publish c

/-- What the controller does after a flush. -/
def afterFlush (q : FofQueue α) (ctrl : CtrlClient) : AfterFlush → CtrlPc × CtrlClient
  | .done => (.idle, ctrl)
  | .mode c =>
    let ctrl := { ctrl with syncronized := false }
    (afterMode q ctrl c, ctrl)
  | .jump c => (.publish c, { ctrl with syncronized := false })

/-- One step of `fof_queue_flush`; `none` when it is over. -/
def flushStep (q : FofQueue α) : FlushPc → Ev α × Option FlushPc × FofQueue α
  | .take i =>
    let (head, q) := fofQueueTakeSlot q i
    (.took none i head, some (releaseFrom q (i + 1) head), q)
  | .takeExcess =>
    let head := q.excess
    (.tookExcess head, some (releaseFrom q (q.nSlots + 1) head), { q with excess := none })
  | .walk i head tail =>
    match q.next tail with
    | none => (.quiet, some (.push i head tail .load), q)
    | some tail => (.quiet, some (.walk i head tail), q)
  | .push i head tail pc =>
    match pushStep q head tail pc with
    | (some pc, q) => (.quiet, some (.push i head tail pc), q)
    | (none, q) => (.released head, some (flushFrom q i), q)
  | .resetSlot =>
    (.quiet, some .resetCheck, { q with firstFof := none, lastFof := none, currentSlot := 0 })
  | .resetCheck => (.quiet, none, { q with nextFrameCheck := 0 })

/-- The state of the controller after the store to `q->frame_stamp`. -/
def stampCtrl (ctrl : CtrlClient) (n : Nat) (c : Cycle) : CtrlClient :=
  let ctrl := { ctrl with transportFrame := c.m, transportState := c.transportState }
  if !ctrl.syncronized || jfofsClockUsesTransport ctrl.clockSource then
    { ctrl with
      dspTimeI := fun i => if i < ctrl.nClients then n else ctrl.dspTimeI i
      syncronized := true }
  else ctrl

/-- The loop that hands a list to the DSP clients arrives at a cell, or at the end at once. -/
def handFrom (n i : Nat) : Option Addr → CtrlPc
  | none => .idle
  | some fof => .hand n fof i

/-- One step of the controller. -/
def ctrlStep (q : FofQueue α) (ctrl : CtrlClient) :
    CtrlPc → Option (Ev α × CtrlPc × CtrlClient × FofQueue α)
  | .idle => none
  | .readClock nframes jack =>
    let clockSource := ctrlCurrentClockSource q
    let (m, transportState) := getFramestamp clockSource jack
    let c := ⟨nframes, m, transportState⟩
    if clockSource ≠ ctrl.clockSource then
      some (.quiet, .flush (.mode c) (flushFrom q 0), { ctrl with clockSource := clockSource }, q)
    else some (.quiet, afterMode q ctrl c, ctrl, q)
  | .flush after pc =>
    match flushStep q pc with
    | (ev, some pc, q) => some (ev, .flush after pc, ctrl, q)
    | (ev, none, q) =>
      let (cpc, ctrl) := afterFlush q ctrl after
      some (ev, cpc, ctrl, q)
  | .publish c =>
    if jfofsClockUsesTransport ctrl.clockSource then
      some (.fetched c.m, .stamp c.m c, ctrl, { q with nextFrame := c.m })
    else
      some (.fetched q.nextFrame, .stamp q.nextFrame c, ctrl,
        { q with nextFrame := u64 (q.nextFrame + c.nframes) })
  | .stamp n c => some (.quiet, .take n, stampCtrl ctrl n c, { q with frameStamp := c.m })
  | .take n =>
    let slot := slotOfFrame q n
    let (head, q) := fofQueueTakeSlot q slot
    some (.took (some n) slot head, handFrom n ctrl.lastDsp head, ctrl, { q with firstFof := head })
  | .hand n fof i =>
    let d : DspAdd α := ⟨i, fof, (q.fof fof).timeUs, (q.fof fof).argv⟩
    let q' := { q with lastFof := some fof }
    let i := (i + 1) % ctrl.nClients
    match q.next fof, q.firstFof with
    | some fof, _ => some (.handed d, .hand n fof i, ctrl, q')
    | none, some first => some (.handed d, .give n first fof .load, { ctrl with lastDsp := i }, q')
    | none, none => some (.handed d, .idle, { ctrl with lastDsp := i }, q')
  | .give n head tail pc =>
    match pushStep q head tail pc with
    | (some pc, q) => some (.quiet, .give n head tail pc, ctrl, q)
    | (none, q) => some (.released head, .idle, ctrl, { q with firstFof := none, lastFof := none })

/-! ## The machine -/

/-- The shared memory, the controller and the threads. -/
structure Machine (α : Type) where
  q : FofQueue α
  ctrl : CtrlClient
  thread : Nat → Thread α
  cpc : CtrlPc

/-- What happens next: thread `p` calls `fof_queue_add` or makes a step, the controller starts a
    cycle or a flush or makes a step, or a client stores a clock source. -/
inductive Act (α : Type) where
  | call (p : Nat) (timeUs : Nat) (argv : α)
  | step (p : Nat)
  | cycle (nframes : Nat) (jack : JackReading)
  | flush
  | ctrlStep
  | storeClockSource (clockSource : Int)

/-- Where the thread is that acts. -/
def Act.pc (s : Machine α) : Act α → AddPc
  | .step p => (s.thread p).pc
  | _ => .idle

/-- The thread `p` in a new state. -/
def Machine.setThread (s : Machine α) (p : Nat) (t : Thread α) : Machine α :=
  { s with thread := Function.update s.thread p t }

section SetThread

variable (s : Machine α) (p : Nat) (t : Thread α)

@[simp] lemma setThread_q : (s.setThread p t).q = s.q := rfl

@[simp] lemma setThread_cpc : (s.setThread p t).cpc = s.cpc := rfl

@[simp] lemma setThread_self : (s.setThread p t).thread p = t := Function.update_self ..

lemma setThread_of_ne {i : Nat} (ne : i ≠ p) : (s.setThread p t).thread i = s.thread i :=
  Function.update_of_ne ne ..

/-- What holds of the new state and of all other threads holds of all threads. -/
lemma setThread_forall {P : Nat → Thread α → Prop} (self : P p t)
    (other : ∀ i, i ≠ p → P i (s.thread i)) (i : Nat) : P i ((s.setThread p t).thread i) := by
  by_cases e : i = p
  · subst e
    rw [setThread_self]
    exact self
  · rw [setThread_of_ne _ _ _ e]
    exact other i e

end SetThread

/-- One action. -/
def Machine.exec (s : Machine α) : Act α → Option (Ev α × Machine α)
  | .call p timeUs argv =>
    match (s.thread p).pc with
    | .idle => some (.quiet, s.setThread p ⟨timeUs, argv, .alloc .load⟩)
    | _ => none
  | .step p => do
    let t := s.thread p
    let (ev, pc, q) ← addStep s.q t.timeUs t.argv t.pc
    return (ev, { s with q := q }.setThread p { t with pc := pc })
  | .cycle nframes jack =>
    match s.cpc with
    | .idle => some (.quiet, { s with cpc := .readClock nframes jack })
    | _ => none
  | .flush =>
    match s.cpc with
    | .idle => some (.quiet, { s with cpc := .flush .done (flushFrom s.q 0) })
    | _ => none
  | .ctrlStep => do
    let (ev, cpc, ctrl, q) ← ctrlStep s.q s.ctrl s.cpc
    return (ev, { s with q := q, ctrl := ctrl, cpc := cpc })
  | .storeClockSource clockSource =>
    some (.quiet, { s with q := { s.q with clockSource := clockSource } })

/-- The actions, as a relation. -/
inductive Executed (s : Machine α) : Act α → Ev α → Machine α → Prop where
  | call {p timeUs argv} :
    (s.thread p).pc = .idle →
    Executed s (.call p timeUs argv) .quiet (s.setThread p ⟨timeUs, argv, .alloc .load⟩)
  | step {p ev pc q} :
    addStep s.q (s.thread p).timeUs (s.thread p).argv (s.thread p).pc = some (ev, pc, q) →
    Executed s (.step p) ev ({ s with q := q }.setThread p { s.thread p with pc := pc })
  | cycle {nframes jack} :
    s.cpc = .idle →
    Executed s (.cycle nframes jack) .quiet { s with cpc := .readClock nframes jack }
  | flush :
    s.cpc = .idle →
    Executed s .flush .quiet { s with cpc := .flush .done (flushFrom s.q 0) }
  | ctrlStep {ev cpc ctrl q} :
    JackFofs.ctrlStep s.q s.ctrl s.cpc = some (ev, cpc, ctrl, q) →
    Executed s .ctrlStep ev { s with q := q, ctrl := ctrl, cpc := cpc }
  | storeClockSource {clockSource} :
    Executed s (.storeClockSource clockSource) .quiet
      { s with q := { s.q with clockSource := clockSource } }

lemma Machine.executed {s s' : Machine α} {act : Act α} {ev : Ev α}
    (e : s.exec act = some (ev, s')) : Executed s act ev s' := by
  cases act with
  | call p timeUs argv =>
    cases pc : (s.thread p).pc <;> simp only [Machine.exec, pc] at e <;> cases e
    exact .call pc
  | step p =>
    cases step : addStep s.q (s.thread p).timeUs (s.thread p).argv (s.thread p).pc with
    | none => simp [Machine.exec, step] at e
    | some r =>
      simp only [Machine.exec, step] at e
      cases e
      exact .step step
  | cycle nframes jack =>
    cases cpc : s.cpc <;> simp only [Machine.exec, cpc] at e <;> cases e
    exact .cycle cpc
  | flush =>
    cases cpc : s.cpc <;> simp only [Machine.exec, cpc] at e <;> cases e
    exact .flush cpc
  | ctrlStep =>
    cases step : JackFofs.ctrlStep s.q s.ctrl s.cpc with
    | none => simp [Machine.exec, step] at e
    | some r =>
      simp only [Machine.exec, step] at e
      cases e
      exact .ctrlStep step
  | storeClockSource clockSource =>
    cases e
    exact .storeClockSource

/-- The action is not one of a thread other than `p`. -/
def Act.single (p : Nat) : Act α → Bool
  | .call p' _ _ => p' = p
  | .step p' => p' = p
  | _ => true

lemma idle_exec {s s' : Machine α} {p : Nat} {act : Act α} {ev : Ev α} (single : act.single p = true)
    (idle : ∀ i, i ≠ p → (s.thread i).pc = .idle) (e : s.exec act = some (ev, s')) :
    ∀ i, i ≠ p → (s'.thread i).pc = .idle := by
  intro i ne
  cases Machine.executed e with
  | @call p' timeUs argv pc =>
    cases of_decide_eq_true single
    rw [setThread_of_ne _ _ _ ne]
    exact idle i ne
  | @step p' _ pc q step =>
    cases of_decide_eq_true single
    rw [setThread_of_ne _ _ _ ne]
    exact idle i ne
  | _ => exact idle i ne

/-- With a single producer all other threads stay idle. -/
lemma idle_of_single {s s' : Machine α} {p : Nat} {log : List (Entry (Machine α) (Act α) (Ev α))}
    (run : Run Machine.exec s log s') (single : ∀ x ∈ log, x.op.single p)
    (idle : ∀ i, i ≠ p → (s.thread i).pc = .idle) :
    (∀ i, i ≠ p → (s'.thread i).pc = .idle) ∧
      ∀ x ∈ log, ∀ i, i ≠ p → (x.pre.thread i).pc = .idle :=
  run.inv (fun s => ∀ i, i ≠ p → (s.thread i).pc = .idle)
    (fun mem idle e => idle_exec (single _ mem) idle e) idle

/-- The machine after `fof_queue_init` and `ctrl_client_new`; `q` is the memory it found. -/
def Machine.init (setup : Setup) (q : FofQueue α) (argv : α) : Machine α where
  q := fofQueueInit q setup
  ctrl := ctrlClientNew setup
  thread := fun _ => ⟨0, argv, .idle⟩
  cpc := .idle

/-- An entry of the log of the machine. -/
abbrev Step (α : Type) := Entry (Machine α) (Act α) (Ev α)

end JackFofs
