import JackFofs.Conc.Machine

/-!
# What a step can do

`AddStep`, `FlushStep` and `CtrlStep` say once what the steps of `fof_queue_add`, of `fof_queue_flush`
and of the controller test, report and change. Facts about a step are case analyses of them, and only
this module opens `addStep`, `flushStep` and `ctrlStep` at a program counter that is not known.
-/

namespace JackFofs

variable {α : Type}

/-! ## The steps of `fof_queue_add` -/

/-- The steps of `fof_queue_add`: from a program counter, with the test that the step makes, to what
    it reports, where it leads and the queue it leaves. -/
inductive AddStep (q : FofQueue α) (timeUs : Nat) (argv : α) :
    AddPc → Ev α → AddPc → FofQueue α → Prop where
  | loaded {fof} :
    q.freeFofs = some fof →
    AddStep q timeUs argv (.alloc .load) .quiet (.alloc (.read fof)) q
  | empty :
    q.freeFofs = none →
    AddStep q timeUs argv (.alloc .load) .limit .idle q
  | read {fof} :
    AddStep q timeUs argv (.alloc (.read fof)) .quiet (.alloc (.cas fof (q.next fof))) q
  | popped {fof next} :
    q.freeFofs = some fof →
    AddStep q timeUs argv (.alloc (.cas fof next)) (.allocated fof) (.alloc (.clear fof))
      { q with freeFofs := next }
  | again {fof next} :
    q.freeFofs ≠ some fof →
    AddStep q timeUs argv (.alloc (.cas fof next)) .quiet (.alloc .load) q
  | got {fof} :
    AddStep q timeUs argv (.alloc (.clear fof)) .quiet (.fill fof) (q.setNext fof none)
  | filled {fof} :
    AddStep q timeUs argv (.fill fof) .quiet (.loadFrame fof) (setFof q fof timeUs argv)
  | calculate {fof} :
    AddStep q timeUs argv (.loadFrame fof) .quiet
      (recalculatePc q fof (startFrame q timeUs) q.nextFrame) q
  | cached {fof nextFrame slotIdx} :
    nextFrame = q.nextFrameCheck →
    AddStep q timeUs argv (.cache fof nextFrame slotIdx .check) .quiet
      (.cache fof nextFrame slotIdx .read) q
  | outdated {fof nextFrame slotIdx} :
    nextFrame ≠ q.nextFrameCheck →
    AddStep q timeUs argv (.cache fof nextFrame slotIdx .check) .quiet
      (.cache fof nextFrame slotIdx .slot) q
  | cacheSlot {fof nextFrame slotIdx} :
    AddStep q timeUs argv (.cache fof nextFrame slotIdx .slot) .quiet
      (.cache fof nextFrame slotIdx .frame) { q with currentSlot := slotOfFrame q nextFrame }
  | cacheFrame {fof nextFrame slotIdx} :
    AddStep q timeUs argv (.cache fof nextFrame slotIdx .frame) .quiet
      (.cache fof nextFrame slotIdx .read) { q with nextFrameCheck := nextFrame }
  | chooseFar {fof nextFrame slotIdx} :
    u64 (nextFrame + q.bufferSize) < startFrame q timeUs →
    AddStep q timeUs argv (.cache fof nextFrame slotIdx .read) .quiet
      (.far fof nextFrame (targetSlot q slotIdx) .load) q
  | chooseNear {fof nextFrame slotIdx} :
    ¬ u64 (nextFrame + q.bufferSize) < startFrame q timeUs →
    AddStep q timeUs argv (.cache fof nextFrame slotIdx .read) .quiet
      (.near fof nextFrame (targetSlot q slotIdx) .load) q
  | farLoad {fof nextFrame slot} :
    AddStep q timeUs argv (.far fof nextFrame slot .load) .quiet
      (.far fof nextFrame slot (.write (q.slot slot))) q
  | farWrite {fof nextFrame slot head} :
    AddStep q timeUs argv (.far fof nextFrame slot (.write head)) .quiet
      (.far fof nextFrame slot .check) (q.setNext fof head)
  | recalculate {fof nextFrame slot} :
    q.nextFrame ≠ nextFrame →
    AddStep q timeUs argv (.far fof nextFrame slot .check) .quiet
      (recalculatePc q fof (startFrame q timeUs) q.nextFrame) q
  | farCheck {fof nextFrame slot} :
    q.nextFrame = nextFrame →
    AddStep q timeUs argv (.far fof nextFrame slot .check) .quiet (.far fof nextFrame slot .read) q
  | farRead {fof nextFrame slot} :
    AddStep q timeUs argv (.far fof nextFrame slot .read) .quiet
      (.far fof nextFrame slot (.cas (q.next fof))) q
  | linkedFar {fof nextFrame slot expected} :
    q.slot slot = expected →
    AddStep q timeUs argv (.far fof nextFrame slot (.cas expected)) (.linked fof slot) .idle
      (q.setSlot slot (some fof))
  | retry {fof nextFrame slot expected} :
    q.slot slot ≠ expected →
    AddStep q timeUs argv (.far fof nextFrame slot (.cas expected)) .quiet
      (.far fof nextFrame slot (.writeBack (q.slot slot))) q
  | farWriteBack {fof nextFrame slot found} :
    AddStep q timeUs argv (.far fof nextFrame slot (.writeBack found)) .quiet
      (.far fof nextFrame slot .load) (q.setNext fof found)
  | nearLoad {fof nextFrame slot} :
    AddStep q timeUs argv (.near fof nextFrame slot .load) .quiet
      (.near fof nextFrame slot (.write (q.slot slot))) q
  | nearWrite {fof nextFrame slot head} :
    AddStep q timeUs argv (.near fof nextFrame slot (.write head)) .quiet
      (.near fof nextFrame slot (.check head)) (q.setNext fof head)
  | overtaken {fof nextFrame slot head} :
    q.nextFrame ≠ nextFrame →
    AddStep q timeUs argv (.near fof nextFrame slot (.check head)) .quiet (.free fof .load) q
  | nearCheck {fof nextFrame slot head} :
    q.nextFrame = nextFrame →
    AddStep q timeUs argv (.near fof nextFrame slot (.check head)) .quiet
      (.near fof nextFrame slot (.cas head)) q
  | linkedNear {fof nextFrame slot head} :
    q.slot slot = head →
    AddStep q timeUs argv (.near fof nextFrame slot (.cas head)) (.linked fof slot) .idle
      (q.setSlot slot (some fof))
  | beaten {fof nextFrame slot head} :
    q.slot slot ≠ head →
    AddStep q timeUs argv (.near fof nextFrame slot (.cas head)) .quiet (.free fof .load) q
  | excessRead {fof} :
    AddStep q timeUs argv (.excess fof .read) .quiet (.excess fof (.write q.excess)) q
  | excessWrite {fof head} :
    AddStep q timeUs argv (.excess fof (.write head)) .quiet (.excess fof .push)
      (q.setNext fof head)
  | pushed {fof} :
    AddStep q timeUs argv (.excess fof .push) (.excess fof) .idle { q with excess := some fof }
  | free {fof pc pc' q'} :
    pushStep q fof fof pc = (some pc', q') →
    AddStep q timeUs argv (.free fof pc) .quiet (.free fof pc') q'
  | freed {fof pc q'} :
    pushStep q fof fof pc = (none, q') →
    AddStep q timeUs argv (.free fof pc) (.late fof) .idle q'

section Steps

variable {q q' : FofQueue α} {timeUs : Nat} {argv : α} {pc pc' : AddPc} {ev : Ev α}

lemma AddStep.eq (step : AddStep q timeUs argv pc ev pc' q') :
    addStep q timeUs argv pc = some (ev, pc', q') := by
  cases step with
  | loaded head => simp only [addStep, allocStep, head]
  | empty head => simp only [addStep, allocStep, head]
  | popped head => simp only [addStep, allocStep, if_pos head]
  | again head => simp only [addStep, allocStep, if_neg head]
  | cached same => simp only [addStep, cacheStep, if_neg (not_not_intro same)]
  | outdated ne => simp only [addStep, cacheStep, if_pos ne]
  | chooseFar ahead => simp only [addStep, cacheStep, gt_iff_lt, if_pos ahead]
  | chooseNear near => simp only [addStep, cacheStep, gt_iff_lt, if_neg near]
  | recalculate ne => simp only [addStep, farStep, if_pos ne]
  | farCheck same => simp only [addStep, farStep, if_neg (not_not_intro same)]
  | linkedFar head => simp only [addStep, farStep, if_pos head]
  | retry head => simp only [addStep, farStep, if_neg head]
  | overtaken ne => simp only [addStep, nearStep, if_pos ne]
  | nearCheck same => simp only [addStep, nearStep, if_neg (not_not_intro same)]
  | linkedNear head => simp only [addStep, nearStep, if_pos head]
  | beaten head => simp only [addStep, nearStep, if_neg head]
  | free push => simp only [addStep, push]
  | freed push => simp only [addStep, push]
  | _ => rfl

/-- Every step of `addStep` is one of these. -/
lemma addStep_cases (e : addStep q timeUs argv pc = some (ev, pc', q')) :
    AddStep q timeUs argv pc ev pc' q' := by
  -- a step that is found makes `addStep` return its result
  have found {ev1 : Ev α} {pc1 : AddPc} {q1 : FofQueue α}
      (step : AddStep q timeUs argv pc ev1 pc1 q1) : AddStep q timeUs argv pc ev pc' q' := by
    cases step.eq.symm.trans e
    exact step
  cases pc with
  | idle => cases e
  | alloc apc =>
    cases apc with
    | load =>
      cases head : q.freeFofs with
      | none => exact found (.empty head)
      | some fof => exact found (.loaded head)
    | read fof => exact found .read
    | cas fof next =>
      by_cases head : q.freeFofs = some fof
      · exact found (.popped head)
      · exact found (.again head)
    | clear fof => exact found .got
  | fill fof => exact found .filled
  | loadFrame fof => exact found .calculate
  | cache fof nextFrame slotIdx cpc =>
    cases cpc with
    | check =>
      by_cases same : nextFrame = q.nextFrameCheck
      · exact found (.cached same)
      · exact found (.outdated same)
    | slot => exact found .cacheSlot
    | frame => exact found .cacheFrame
    | read =>
      by_cases ahead : u64 (nextFrame + q.bufferSize) < startFrame q timeUs
      · exact found (.chooseFar ahead)
      · exact found (.chooseNear ahead)
  | far fof nextFrame slot fpc =>
    cases fpc with
    | load => exact found .farLoad
    | write head => exact found .farWrite
    | check =>
      by_cases same : q.nextFrame = nextFrame
      · exact found (.farCheck same)
      · exact found (.recalculate same)
    | read => exact found .farRead
    | cas expected =>
      by_cases head : q.slot slot = expected
      · exact found (.linkedFar head)
      · exact found (.retry head)
    | writeBack v => exact found .farWriteBack
  | near fof nextFrame slot npc =>
    cases npc with
    | load => exact found .nearLoad
    | write head => exact found .nearWrite
    | check head =>
      by_cases same : q.nextFrame = nextFrame
      · exact found (.nearCheck same)
      · exact found (.overtaken same)
    | cas head =>
      by_cases same : q.slot slot = head
      · exact found (.linkedNear same)
      · exact found (.beaten same)
  | excess fof epc =>
    cases epc with
    | read => exact found .excessRead
    | write head => exact found .excessWrite
    | push => exact found .pushed
  | free fof ppc =>
    cases push : pushStep q fof fof ppc with
    | mk res q1 =>
      cases res with
      | none => exact found (.freed push)
      | some ppc' => exact found (.free push)

end Steps

/-! ## The steps of `fof_queue_flush` -/

/-- The steps of `fof_queue_flush`, with the program counter that comes next unless it is over. -/
inductive FlushStep (q : FofQueue α) : FlushPc → Ev α → Option FlushPc → FofQueue α → Prop where
  | take {i} :
    FlushStep q (.take i) (.took none i (q.slot i))
      (some (releaseFrom (q.setSlot i none) (i + 1) (q.slot i))) (q.setSlot i none)
  | takeExcess :
    FlushStep q .takeExcess (.tookExcess q.excess)
      (some (releaseFrom q (q.nSlots + 1) q.excess)) { q with excess := none }
  | last {i head tail} :
    q.next tail = none →
    FlushStep q (.walk i head tail) .quiet (some (.push i head tail .load)) q
  | walk {i head tail fof} :
    q.next tail = some fof →
    FlushStep q (.walk i head tail) .quiet (some (.walk i head fof)) q
  | push {i head tail pc pc' q'} :
    pushStep q head tail pc = (some pc', q') →
    FlushStep q (.push i head tail pc) .quiet (some (.push i head tail pc')) q'
  | pushed {i head tail pc q'} :
    pushStep q head tail pc = (none, q') →
    FlushStep q (.push i head tail pc) (.released head) (some (flushFrom q' i)) q'
  | resetSlot :
    FlushStep q .resetSlot .quiet (some .resetCheck)
      { q with firstFof := none, lastFof := none, currentSlot := 0 }
  | resetCheck :
    FlushStep q .resetCheck .quiet none { q with nextFrameCheck := 0 }

lemma FlushStep.eq {q q' : FofQueue α} {pc : FlushPc} {ev : Ev α} {rest : Option FlushPc}
    (step : FlushStep q pc ev rest q') : flushStep q pc = (ev, rest, q') := by
  cases step with
  | last next => simp only [flushStep, next]
  | walk next => simp only [flushStep, next]
  | push push => simp only [flushStep, push]
  | pushed push => simp only [flushStep, push]
  | _ => rfl

lemma flushStep_cases {q q' : FofQueue α} {pc : FlushPc} {ev : Ev α} {rest : Option FlushPc}
    (e : flushStep q pc = (ev, rest, q')) : FlushStep q pc ev rest q' := by
  have found {ev1 : Ev α} {rest1 : Option FlushPc} {q1 : FofQueue α}
      (step : FlushStep q pc ev1 rest1 q1) : FlushStep q pc ev rest q' := by
    cases step.eq.symm.trans e
    exact step
  cases pc with
  | take i => exact found .take
  | takeExcess => exact found .takeExcess
  | walk i head tail =>
    cases next : q.next tail with
    | none => exact found (.last next)
    | some fof => exact found (.walk next)
  | push i head tail ppc =>
    cases push : pushStep q head tail ppc with
    | mk res q1 =>
      cases res with
      | none => exact found (.pushed push)
      | some ppc' => exact found (.push push)
  | resetSlot => exact found .resetSlot
  | resetCheck => exact found .resetCheck

/-! ## The steps of the controller -/

/-- What a cycle of `nframes` frames asks JACK. -/
def readCycle (q : FofQueue α) (nframes : Nat) (jack : JackReading) : Cycle :=
  ⟨nframes, (getFramestamp (ctrlCurrentClockSource q) jack).1,
    (getFramestamp (ctrlCurrentClockSource q) jack).2⟩

/-- The call of `dsp_client_add` for the cell `fof` by the DSP client `i`. -/
def dspAdd (q : FofQueue α) (i : Nat) (fof : Addr) : DspAdd α :=
  ⟨i, fof, (q.fof fof).timeUs, (q.fof fof).argv⟩

/-- The steps of the controller. -/
inductive CtrlStep (q : FofQueue α) (ctrl : CtrlClient) :
    CtrlPc → Ev α → CtrlPc → CtrlClient → FofQueue α → Prop where
  | changed {nframes jack} :
    ctrlCurrentClockSource q ≠ ctrl.clockSource →
    CtrlStep q ctrl (.readClock nframes jack) .quiet
      (.flush (.mode (readCycle q nframes jack)) (flushFrom q 0))
      { ctrl with clockSource := ctrlCurrentClockSource q } q
  | unchanged {nframes jack} :
    ctrlCurrentClockSource q = ctrl.clockSource →
    CtrlStep q ctrl (.readClock nframes jack) .quiet (afterMode q ctrl (readCycle q nframes jack))
      ctrl q
  | flush {after pc ev pc' q'} :
    FlushStep q pc ev (some pc') q' →
    CtrlStep q ctrl (.flush after pc) ev (.flush after pc') ctrl q'
  | flushed {after pc ev q'} :
    FlushStep q pc ev none q' →
    CtrlStep q ctrl (.flush after pc) ev (afterFlush q' ctrl after).1 (afterFlush q' ctrl after).2 q'
  | publishTransport {c} :
    jfofsClockUsesTransport ctrl.clockSource = true →
    CtrlStep q ctrl (.publish c) (.fetched c.m) (.stamp c.m c) ctrl { q with nextFrame := c.m }
  | publish {c} :
    jfofsClockUsesTransport ctrl.clockSource = false →
    CtrlStep q ctrl (.publish c) (.fetched q.nextFrame) (.stamp q.nextFrame c) ctrl
      { q with nextFrame := u64 (q.nextFrame + c.nframes) }
  | stamp {n c} :
    CtrlStep q ctrl (.stamp n c) .quiet (.take n) (stampCtrl ctrl n c) { q with frameStamp := c.m }
  | take {n} :
    CtrlStep q ctrl (.take n) (.took (some n) (slotOfFrame q n) (q.slot (slotOfFrame q n)))
      (handFrom n ctrl.lastDsp (q.slot (slotOfFrame q n))) ctrl
      { q.setSlot (slotOfFrame q n) none with firstFof := q.slot (slotOfFrame q n) }
  | hand {n fof i next} :
    q.next fof = some next →
    CtrlStep q ctrl (.hand n fof i) (.handed (dspAdd q i fof))
      (.hand n next ((i + 1) % ctrl.nClients)) ctrl { q with lastFof := some fof }
  | handLast {n fof i first} :
    q.next fof = none →
    q.firstFof = some first →
    CtrlStep q ctrl (.hand n fof i) (.handed (dspAdd q i fof)) (.give n first fof .load)
      { ctrl with lastDsp := (i + 1) % ctrl.nClients } { q with lastFof := some fof }
  | handNone {n fof i} :
    q.next fof = none →
    q.firstFof = none →
    CtrlStep q ctrl (.hand n fof i) (.handed (dspAdd q i fof)) .idle
      { ctrl with lastDsp := (i + 1) % ctrl.nClients } { q with lastFof := some fof }
  | give {n head tail pc pc' q'} :
    pushStep q head tail pc = (some pc', q') →
    CtrlStep q ctrl (.give n head tail pc) .quiet (.give n head tail pc') ctrl q'
  | given {n head tail pc q'} :
    pushStep q head tail pc = (none, q') →
    CtrlStep q ctrl (.give n head tail pc) (.released head) .idle ctrl
      { q' with firstFof := none, lastFof := none }

section Ctrl

variable {q q' : FofQueue α} {ctrl ctrl' : CtrlClient} {cpc cpc' : CtrlPc} {ev : Ev α}

lemma CtrlStep.eq (step : CtrlStep q ctrl cpc ev cpc' ctrl' q') :
    ctrlStep q ctrl cpc = some (ev, cpc', ctrl', q') := by
  cases step with
  | changed ne => exact if_pos ne
  | unchanged same => exact if_neg (not_not_intro same)
  | flush step => simp only [ctrlStep, step.eq]
  | flushed step => simp only [ctrlStep, step.eq]
  | publishTransport transport => exact if_pos transport
  | publish frames => exact if_neg (Bool.eq_false_iff.1 frames)
  | hand next => simp only [ctrlStep, dspAdd, next]
  | handLast next first => simp only [ctrlStep, dspAdd, next, first]
  | handNone next first => simp only [ctrlStep, dspAdd, next, first]
  | give push => simp only [ctrlStep, push]
  | given push => simp only [ctrlStep, push]
  | _ => rfl

lemma ctrlStep_cases (e : ctrlStep q ctrl cpc = some (ev, cpc', ctrl', q')) :
    CtrlStep q ctrl cpc ev cpc' ctrl' q' := by
  have found {ev1 : Ev α} {cpc1 : CtrlPc} {ctrl1 : CtrlClient} {q1 : FofQueue α}
      (step : CtrlStep q ctrl cpc ev1 cpc1 ctrl1 q1) : CtrlStep q ctrl cpc ev cpc' ctrl' q' := by
    cases step.eq.symm.trans e
    exact step
  cases cpc with
  | idle => cases e
  | readClock nframes jack =>
    by_cases same : ctrlCurrentClockSource q = ctrl.clockSource
    · exact found (.unchanged same)
    · exact found (.changed same)
  | flush after pc =>
    cases step : flushStep q pc with
    | mk ev1 r =>
      obtain ⟨rest, q1⟩ := r
      cases rest with
      | none => exact found (.flushed (flushStep_cases step))
      | some pc' => exact found (.flush (flushStep_cases step))
  | publish c =>
    cases transport : jfofsClockUsesTransport ctrl.clockSource with
    | true => exact found (.publishTransport transport)
    | false => exact found (.publish transport)
  | stamp n c => exact found .stamp
  | take n => exact found .take
  | hand n fof i =>
    cases next : q.next fof with
    | some fof' => exact found (.hand next)
    | none =>
      cases first : q.firstFof with
      | some head => exact found (.handLast next first)
      | none => exact found (.handNone next first)
  | give n head tail ppc =>
    cases push : pushStep q head tail ppc with
    | mk res q1 =>
      cases res with
      | none => exact found (.given push)
      | some ppc' => exact found (.give push)

/-- What follows a flush leaves the turns of the DSP clients alone. -/
lemma afterFlush_turn (q : FofQueue α) (ctrl : CtrlClient) (after : AfterFlush) :
    (afterFlush q ctrl after).2.nClients = ctrl.nClients ∧
      (afterFlush q ctrl after).2.lastDsp = ctrl.lastDsp := by
  cases after with
  | done => exact ⟨rfl, rfl⟩
  | mode c => exact ⟨rfl, rfl⟩
  | jump c => exact ⟨rfl, rfl⟩

/-- So does the write of `frame_stamp`. -/
lemma stampCtrl_turn (ctrl : CtrlClient) (n : Nat) (c : Cycle) :
    (stampCtrl ctrl n c).nClients = ctrl.nClients ∧ (stampCtrl ctrl n c).lastDsp = ctrl.lastDsp := by
  rw [stampCtrl]
  dsimp only
  split
  · exact ⟨rfl, rfl⟩
  · exact ⟨rfl, rfl⟩

/-- The number of DSP clients does not change. -/
lemma ctrlStep_nClients (e : ctrlStep q ctrl cpc = some (ev, cpc', ctrl', q')) :
    ctrl'.nClients = ctrl.nClients := by
  cases ctrlStep_cases e with
  | flushed step => exact (afterFlush_turn ..).1
  | stamp => exact (stampCtrl_turn ..).1
  | _ => rfl

end Ctrl

end JackFofs
