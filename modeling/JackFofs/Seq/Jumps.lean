import JackFofs.Seq.Conservation

/-!
# When a cycle flushes

In transport mode a cycle flushes the queue when the transport is not where the controller expects
it. The controller remembers the frame and the state of the previous cycle and takes the length of
the step from the current one. The transport itself moves on by the period of the previous cycle if
it was rolling in that cycle, whatever it does now. `transport_flush_iff` says when the two come to
the same.
-/

namespace JackFofs
open Runs

variable {α : Type}

/-- Whether a cycle calls `fof_queue_flush`. -/
def callsFlush (nframes : Nat) (jack : JackReading) (ctrl : CtrlClient) (q : FofQueue α) : Bool :=
  let clockSource := ctrlCurrentClockSource q
  let (m, transportState) := getFramestamp clockSource jack
  clockSource ≠ ctrl.clockSource || ctrlTransportDiscontinuity ctrl nframes transportState m

/-- A cycle calls `fof_queue_flush` at most once, before it publishes its frame, and does so exactly
    if `callsFlush` holds. -/
theorem ctrlClientProcessCb_flush (fuel nframes : Nat) (jack : JackReading) (ctrl : CtrlClient)
    (q : FofQueue α) :
    ctrlClientProcessCb fuel nframes jack ctrl q =
      let clockSource := ctrlCurrentClockSource q
      let (m, transportState) := getFramestamp clockSource jack
      if callsFlush nframes jack ctrl q then do
        let q ← fofQueueFlush fuel q
        let (ctrl, q, n) := publish { ctrl with clockSource := clockSource, syncronized := false } q
          nframes m transportState
        consumeSlot fuel ctrl q n
      else
        let (ctrl, q, n) := publish ctrl q nframes m transportState
        consumeSlot fuel ctrl q n := by
  rw [ctrlClientProcessCb, callsFlush]
  dsimp only
  generalize ctrlCurrentClockSource q = clockSource
  generalize getFramestamp clockSource jack = stamp
  obtain ⟨m, transportState⟩ := stamp
  dsimp only
  by_cases mode : clockSource ≠ ctrl.clockSource
  · -- after a change of the mode the controller is not synchronized and does not look for a jump
    cases flush : fofQueueFlush fuel q with
    | none => simp [changeMode, mode, flush]
    | some q1 => simp [changeMode, mode, flush, followTransport, ctrlTransportDiscontinuity]
  · rw [Decidable.not_not] at mode
    subst mode
    by_cases jump : ctrlTransportDiscontinuity ctrl nframes transportState m = true
    · cases flush : fofQueueFlush fuel q with
      | none => simp [changeMode, followTransport, jump, flush]
      | some q1 => simp [changeMode, followTransport, jump, flush]
    · simp [changeMode, followTransport, jump]

/-! ## What the controller remembers -/

section Memory

variable {ctrl ctrl' : CtrlClient} {q q' : FofQueue α} {fuel nframes m : Nat}
  {transportState : TransportState}

lemma changeMode_clockSource {clockSource : Int}
    (e : changeMode fuel ctrl q clockSource = some (ctrl', q')) : ctrl'.clockSource = clockSource := by
  obtain ⟨-, rfl⟩ | ⟨same, rfl, -⟩ := changeMode_cases e
  · rfl
  · exact same.symm

lemma followTransport_clockSource
    (e : followTransport fuel ctrl q nframes m transportState = some (ctrl', q')) :
    ctrl'.clockSource = ctrl.clockSource := by
  obtain ⟨-, rfl⟩ | ⟨rfl, -⟩ := followTransport_cases e
  · rfl
  · rfl

/-- What the controller knows at the end of a cycle that read the frame `m` and the state. -/
structure Remembers (clockSource : Int) (m : Nat) (transportState : TransportState)
    (ctrl : CtrlClient) : Prop where
  clockSource : ctrl.clockSource = clockSource
  transportFrame : ctrl.transportFrame = m
  transportState : ctrl.transportState = transportState
  syncronized : ctrl.syncronized = true

/-- A cycle remembers its clock, its frame and its state, and is synchronized. -/
lemma ctrlClientProcessCb_remembers {jack : JackReading} {out : CycleOut α}
    (e : ctrlClientProcessCb fuel nframes jack ctrl q = some (ctrl', q', out)) :
    Remembers (ctrlCurrentClockSource q) (getFramestamp (ctrlCurrentClockSource q) jack).1
      (getFramestamp (ctrlCurrentClockSource q) jack).2 ctrl' := by
  obtain ⟨m, transportState, ctrl1, q1, ctrl2, q2, ctrl3, q3, n, stamp, mode, jump, pub, consume⟩ :=
    ctrlClientProcessCb_parts e
  have source := (followTransport_clockSource jump).trans (changeMode_clockSource mode)
  obtain ⟨⟨i, rfl⟩, -⟩ := consumeSlot_ctrl consume
  rw [publish_ctrl] at pub
  cases pub
  rw [stamp]
  exact ⟨source, rfl, rfl, rfl⟩

end Memory

/-! ## Two cycles in a row -/

/-- The frame of the next cycle unless the transport jumps, from the period and the transport of this
    one. -/
def predicted (nframes : Nat) (jack : JackReading) : Nat :=
  if jack.transportState = .rolling then jack.transportFrame + nframes else jack.transportFrame

/-- The transport does not roll in the earlier cycle, or the two cycles roll with one period, or the
    frame of the later cycle is neither the predicted one nor the one that the controller expects. -/
def Agree (nframes nframes' : Nat) (jack jack' : JackReading) : Prop :=
  jack.transportState ≠ .rolling ∨ (jack'.transportState = .rolling ∧ nframes' = nframes) ∨
    (jack'.transportFrame ≠ jack.transportFrame + nframes ∧
      jack'.transportFrame ≠ jack.transportFrame +
        if jack'.transportState = .rolling then nframes' else 0) ∨
    (jack'.transportState ≠ .rolling ∧ nframes = 0)

section Runs

variable {s s' : Sys α} {fuel : Nat} {log : List (LogEntry α)}

/-- Only cycles change the controller. -/
lemma exec_ctrl {op : Op α} {out : Out α} (e : exec fuel s op = some (out, s'))
    (no : ∀ nframes jack, op ≠ .cycle nframes jack) : s'.ctrl = s.ctrl := by
  cases op with
  | add timeUs argv =>
    cases e
    rfl
  | flush =>
    obtain ⟨q, -, e⟩ := Option.bind_eq_some_iff.1 e
    cases e
    rfl
  | storeClockSource c =>
    cases e
    rfl
  | cycle nframes jack => exact absurd rfl (no nframes jack)

lemma run_ctrl (run : Run (exec fuel) s log s')
    (no : ∀ x ∈ log, ∀ nframes jack, x.op ≠ .cycle nframes jack) : s'.ctrl = s.ctrl := by
  induction run with
  | nil => rfl
  | cons e run ih =>
    have rest := ih fun x mem => no x (List.mem_cons_of_mem _ mem)
    exact rest.trans (exec_ctrl e (no _ List.mem_cons_self))

/-- A cycle of the server leaves behind what it remembers. -/
lemma exec_remembers {nframes : Nat} {jack : JackReading} {out : Out α}
    (e : exec fuel s (.cycle nframes jack) = some (out, s')) :
    Remembers (ctrlCurrentClockSource s.q) (getFramestamp (ctrlCurrentClockSource s.q) jack).1
      (getFramestamp (ctrlCurrentClockSource s.q) jack).2 s'.ctrl := by
  obtain ⟨⟨ctrl, q, cout⟩, cb, e⟩ := Option.bind_eq_some_iff.1 e
  cases e
  exact ctrlClientProcessCb_remembers cb

end Runs

/-- In transport mode both cycles read the transport. -/
lemma getFramestamp_transport {q : FofQueue α} (uses : jfofsClockUsesTransport q.clockSource = true)
    (jack : JackReading) : getFramestamp (ctrlCurrentClockSource q) jack =
      (jack.transportFrame, jack.transportState) := by
  rw [getFramestamp, ctrlCurrentClockSource, jfofsClockUsesTransport_code, if_pos uses]

/-- The clock source that a cycle in transport mode reads. -/
lemma ctrlCurrentClockSource_transport {q : FofQueue α}
    (uses : jfofsClockUsesTransport q.clockSource = true) :
    ctrlCurrentClockSource q = ClockSource.jackTransport.code := by
  rw [ctrlCurrentClockSource, of_decide_eq_true uses]

/-- The test of the controller, after a cycle in transport mode. -/
lemma callsFlush_iff {ctrl : CtrlClient} {q : FofQueue α} {nframes : Nat} {jack jack0 : JackReading}
    (uses : jfofsClockUsesTransport q.clockSource = true)
    (re : Remembers ClockSource.jackTransport.code jack0.transportFrame jack0.transportState ctrl)
    (small : jack0.transportFrame + nframes < 2 ^ 64) :
    callsFlush nframes jack ctrl q = true ↔
      jack.transportFrame ≠ jack0.transportFrame +
        if jack.transportState = .rolling ∧ jack0.transportState = .rolling then nframes else 0 := by
  have transport : jfofsClockUsesTransport ClockSource.jackTransport.code = true := rfl
  rw [callsFlush]
  dsimp only
  rw [getFramestamp_transport uses, ctrlCurrentClockSource_transport uses, ctrlTransportDiscontinuity,
    re.clockSource, re.syncronized, re.transportFrame, re.transportState, transport]
  by_cases both : jack.transportState = .rolling ∧ jack0.transportState = .rolling
  · rw [if_pos both, both.1, both.2]
    simp [u64_of_lt small]
  · rw [if_neg both]
    by_cases now : jack.transportState = .rolling
    · have before : jack0.transportState ≠ .rolling := fun h => both ⟨now, h⟩
      simp [before]
    · simp [now]

/-- Two cycles in a row in transport mode of any run of the server, with calls of `fof_queue_add` and
    the like between them. That the second one flushes if and only if its frame is not the one
    predicted from the first is true if and only if `Agree` holds of them. -/
theorem transport_flush_iff (setup : Setup) (nMaxFofs : 1 ≤ setup.nMaxFofs)
    (nSlots : 1 ≤ setup.nSlots) (nClients : 1 ≤ setup.nClients) (fuel : Nat)
    (enough : setup.nMaxFofs ≤ fuel) (q : FofQueue α) (ops : List (Op α))
    (ranges : ∀ op ∈ ops, ∀ nframes jack, op = .cycle nframes jack →
      nframes < 2 ^ 32 ∧ jack.transportFrame < 2 ^ 32) :
    ∃ log s, execAll (exec fuel) (Sys.init setup q) ops = some (log, s) ∧
      ∀ l1 x l2 y l3 nframes nframes' jack jack', log = l1 ++ x :: (l2 ++ y :: l3) →
        x.op = .cycle nframes jack → y.op = .cycle nframes' jack' →
        (∀ z ∈ l2, ∀ n j, z.op ≠ .cycle n j) → jfofsClockUsesTransport x.pre.q.clockSource = true →
        jfofsClockUsesTransport y.pre.q.clockSource = true →
        ((callsFlush nframes' jack' y.pre.ctrl y.pre.q = true ↔
          jack'.transportFrame ≠ predicted nframes jack) ↔ Agree nframes nframes' jack jack') := by
  obtain ⟨log, s, e, -⟩ := run_total (SetupOk.mk nMaxFofs nSlots nClients) enough q ops
  obtain ⟨run, emap⟩ := run_of_execAll e
  refine ⟨log, s, e, ?_⟩
  rintro l1 ⟨s1, op, out⟩ l2 ⟨s2, op', out'⟩ l3 nframes nframes' jack jack' rfl opx opy between usesx
    usesy
  cases (opx : op = _)
  cases (opy : op' = _)
  obtain ⟨s3, -, ex, run2⟩ := run.split
  obtain ⟨s4, run3, -, -⟩ := run2.split
  have re := exec_remembers ex
  rw [getFramestamp_transport usesx, ctrlCurrentClockSource_transport usesx,
    ← run_ctrl run3 between] at re
  have small := ranges _ (by rw [← emap]; simp) nframes jack rfl
  have small' := ranges _ (by rw [← emap]; simp) nframes' jack' rfl
  rw [callsFlush_iff usesy re (by omega), predicted, Agree]
  by_cases before : jack.transportState = .rolling
  · by_cases now : jack'.transportState = .rolling
    · rw [if_pos before, if_pos ⟨now, before⟩, if_pos now]
      simp only [before, now, ne_eq, not_true_eq_false, false_or, true_and, false_and, or_false]
      omega
    · -- the transport moves on by the period in which it stops, which the controller does not expect
      rw [if_pos before, if_neg fun h => now h.1, if_neg now]
      simp only [before, now, ne_eq, not_true_eq_false, false_or, false_and, not_false_eq_true,
        true_and]
      omega
  · rw [if_neg before, if_neg fun h => before h.2]
    simp [before]

/-- A server with one cell on the transport. -/
def onTransport : Setup where
  clockSource := 2
  nClients := 1
  nMaxFofs := 1
  nSlots := 2
  sampleRate := 48000
  maxBufferSize := 64

/-- Two cycles of 64 frames on the rolling transport, from frame 0 on: the second one goes on where the
    first one ends, and does not flush. -/
theorem transport_flush_rolling : ∃ (log : List (LogEntry Nat)) (s : Sys Nat) (y : LogEntry Nat),
    execAll (exec 1) (Sys.init onTransport (.zero 0))
        [.cycle 64 ⟨0, .rolling, 0⟩, .cycle 64 ⟨64, .rolling, 64⟩] = some (log, s) ∧
      log[1]? = some y ∧ callsFlush 64 ⟨64, .rolling, 64⟩ y.pre.ctrl y.pre.q = false := by
  obtain ⟨log, s, run, post⟩ := transport_flush_iff onTransport (by decide) (by decide) (by decide) 1
    (by decide) (.zero 0) [.cycle 64 ⟨0, .rolling, 0⟩, .cycle 64 ⟨64, .rolling, 64⟩] (by
      intro op mem nframes jack e
      subst e
      simp only [List.mem_cons, Op.cycle.injEq, List.not_mem_nil, or_false] at mem
      obtain ⟨rfl, rfl⟩ | ⟨rfl, rfl⟩ := mem <;> decide)
  have two : ∃ x y, log = [] ++ x :: ([] ++ y :: []) ∧ x.op = .cycle 64 ⟨0, .rolling, 0⟩ ∧
      y.op = .cycle 64 ⟨64, .rolling, 64⟩ ∧ jfofsClockUsesTransport x.pre.q.clockSource = true ∧
      jfofsClockUsesTransport y.pre.q.clockSource = true := by
    cases Option.some.inj (run.symm.trans rfl)
    exact ⟨_, _, rfl, rfl, rfl, rfl, rfl⟩
  obtain ⟨x, y, e, opx, opy, usesx, usesy⟩ := two
  have iff := (post [] x [] y [] 64 64 _ _ e opx opy (fun z mem => nomatch mem) usesx usesy).2
    (.inr (.inl ⟨rfl, rfl⟩))
  refine ⟨log, s, y, run, by rw [e]; rfl, ?_⟩
  rw [Bool.eq_false_iff]
  exact fun flushes => iff.1 flushes rfl

/-- The transport rolls through a cycle of 64 frames and stops at frame 64, where that cycle ends. There
    was no jump, but the cycle at frame 64 flushes. -/
theorem flush_on_stop : ∃ (log : List (LogEntry Nat)) (s : Sys Nat) (y : LogEntry Nat),
    execAll (exec 1) (Sys.init onTransport (.zero 0))
        [.cycle 64 ⟨0, .rolling, 0⟩, .cycle 64 ⟨64, .stopped, 64⟩] = some (log, s) ∧
      log[1]? = some y ∧ predicted 64 ⟨0, .rolling, 0⟩ = 64 ∧
      callsFlush 64 ⟨64, .stopped, 64⟩ y.pre.ctrl y.pre.q = true :=
  ⟨_, _, _, rfl, rfl, rfl, rfl⟩

end JackFofs
