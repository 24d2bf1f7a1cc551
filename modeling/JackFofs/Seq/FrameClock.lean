import JackFofs.Seq.Events

/-!
# Delivery on the frame clock

On the JACK frame clock a cycle takes its frame from `next_frame` and adds `nframes` to it, so the
frames of the cycles after a call of `fof_queue_add` are known from the arguments alone. The slot of
an accepted event is the slot of a block at most one revolution ahead, and the cycles come by every
block on the way if none of them is longer than a slot.
-/

namespace JackFofs
open Linked Runs Wheel

variable {α : Type} {setup : Setup} {s s' s1 : Sys α} {L : Place → List Addr} {fuel : Nat}
  {log : List (LogEntry α)} {x : LogEntry α}

/-- The clock source is not the transport, and the controller has followed it. -/
structure OnFrameClock (s : Sys α) : Prop where
  clockSource : ctrlCurrentClockSource s.q = s.ctrl.clockSource
  noTransport : jfofsClockUsesTransport s.ctrl.clockSource = false

/-- The controller starts on the clock of the setup. -/
lemma onFrameClock_init (off : jfofsClockUsesTransport setup.clockSource = false) (q : FofQueue α) :
    OnFrameClock (Sys.init setup q) := by
  refine ⟨?_, ?_⟩
  · have e : (Sys.init setup q).q.clockSource = _ := (fofQueueInit_fields q setup).2.2.2.1
    rw [ctrlCurrentClockSource, e, jfofsClockSourceNormalize_code]
    rfl
  · exact (jfofsClockUsesTransport_code setup.clockSource).trans off

lemma OnFrameClock.congr (clock : OnFrameClock s) (ctrl : s'.ctrl.clockSource = s.ctrl.clockSource)
    (queue : s'.q.clockSource = s.q.clockSource) : OnFrameClock s' := by
  constructor
  case clockSource =>
    rw [ctrlCurrentClockSource, queue, ctrl]
    exact clock.clockSource
  case noTransport =>
    rw [ctrl]
    exact clock.noTransport

/-- On the frame clock a cycle never flushes. -/
lemma OnFrameClock.quiet (clock : OnFrameClock s) (nframes : Nat) (jack : JackReading) :
    Quiet nframes jack s.ctrl s.q := by
  refine ⟨clock.clockSource, ?_⟩
  rw [ctrlTransportDiscontinuity, clock.noTransport]
  rfl

/-- Calls of `fof_queue_add` and cycles, with a condition on the periods. -/
def Op.Periods (P : Nat → Prop) : Op α → Prop
  | .add _ _ => True
  | .cycle nframes _ => P nframes
  | _ => False

instance (P : Nat → Prop) [DecidablePred P] : (op : Op α) → Decidable (op.Periods P)
  | .add _ _ => isTrue trivial
  | .cycle nframes _ => inferInstanceAs (Decidable (P nframes))
  | .flush => isFalse id
  | .storeClockSource _ => isFalse id

variable {P due : Nat → Prop}

lemma Op.Periods.mono {P' : Nat → Prop} {op : Op α} (periods : op.Periods P)
    (sub : ∀ {nframes}, P nframes → P' nframes) : op.Periods P' := by
  cases op with
  | add timeUs argv => trivial
  | flush => exact absurd periods id
  | storeClockSource c => exact absurd periods id
  | cycle nframes jack => exact sub periods

/-- The operations of a run on the frame clock: a call of `fof_queue_add`, or a cycle that takes its
    frame from `next_frame`. -/
inductive FrameStep (P : Nat → Prop) (x : LogEntry α) (s1 : Sys α) : Prop where
  | add {timeUs argv status} :
    x.op = .add timeUs argv →
    x.out = .added status →
    s1.q.nextFrame = x.pre.q.nextFrame →
    FrameStep P x s1
  | cycle {nframes jack handed} :
    x.op = .cycle nframes jack →
    P nframes →
    x.out = .cycled x.pre.q.nextFrame handed →
    s1.q.nextFrame = u64 (x.pre.q.nextFrame + nframes) →
    FrameStep P x s1

lemma frame_step (ok : SetupOk setup) (enough : setup.nMaxFofs ≤ fuel) (inv : SysInv setup x.pre L)
    (clock : OnFrameClock x.pre) (periods : x.op.Periods P)
    (run : exec fuel x.pre x.op = some (x.out, s1)) :
    QuietEntry x ∧ (∃ L1, SysInv setup s1 L1) ∧ OnFrameClock s1 ∧ FrameStep P x s1 := by
  obtain ⟨s, op, out⟩ := x
  cases op with
  | add timeUs argv =>
    obtain ⟨status, s2, L1, e, inv1, ad, -⟩ := exec_add fuel inv ok.nSlots timeUs argv rfl
    rw [run] at e
    cases e
    have clock1 := clock.congr (congrArg _ ad.ctrl) ad.clock.clockSource
    exact ⟨trivial, ⟨L1, inv1⟩, clock1, .add rfl rfl ad.clock.nextFrame⟩
  | flush => exact absurd periods id
  | storeClockSource c => exact absurd periods id
  | cycle nframes jack =>
    have quiet : Quiet nframes jack s.ctrl s.q := clock.quiet nframes jack
    obtain ⟨s2, e, inv1, -, -, -, ctrlSource, queueSource, -, -, nextFrame⟩ :=
      exec_cycle_quiet inv ok.nSlots enough quiet rfl
    rw [run, Option.some.injEq, Prod.mk.injEq] at e
    obtain ⟨eo, rfl⟩ := e
    have off : jfofsClockUsesTransport s.ctrl.clockSource = false := clock.noTransport
    rw [off, if_neg Bool.false_ne_true] at nextFrame eo
    have clock1 := clock.congr ctrlSource queueSource
    exact ⟨quiet, ⟨_, inv1⟩, clock1, .cycle rfl periods eo nextFrame⟩

/-- A run on the frame clock stays on it, and its cycles are quiet. -/
lemma frame_run (ok : SetupOk setup) (enough : setup.nMaxFofs ≤ fuel)
    (run : Run (exec fuel) s log s') (periods : ∀ x ∈ log, x.op.Periods P) (inv : SysInv setup s L)
    (clock : OnFrameClock s) :
    (∀ x ∈ log, QuietEntry x) ∧ (∃ L', SysInv setup s' L') ∧ OnFrameClock s' := by
  induction run generalizing L with
  | nil => exact ⟨fun x mem => absurd mem List.not_mem_nil, ⟨L, inv⟩, clock⟩
  | @cons s s1 s' op out log run1 run ih =>
    obtain ⟨quiet, ⟨L1, inv1⟩, clock1, -⟩ := frame_step (x := ⟨s, op, out⟩) ok enough inv clock
      (periods _ List.mem_cons_self) run1
    obtain ⟨all, rest⟩ := ih (fun z mem => periods z (List.mem_cons_of_mem _ mem)) inv1 clock1
    refine ⟨fun y mem => ?_, rest⟩
    cases mem with
    | head => exact quiet
    | tail _ mem => exact all y mem

/-- A property of `next_frame` that every cycle keeps as long as none is due holds until one is. -/
lemma frame_until_due (Num : Nat → Prop) (ok : SetupOk setup) (enough : setup.nMaxFofs ≤ fuel)
    (next : ∀ {n nframes}, Num n → P nframes → ¬ due n → Num (u64 (n + nframes)))
    (run : Run (exec fuel) s log s') (periods : ∀ x ∈ log, x.op.Periods P) (inv : SysInv setup s L)
    (clock : OnFrameClock s) (start : Num s.q.nextFrame) (none : ∀ x ∈ log, ¬ CycleAt due x) :
    Num s'.q.nextFrame := by
  induction run generalizing L with
  | nil => exact start
  | @cons s s1 s' op out log run1 run ih =>
    obtain ⟨-, ⟨L1, inv1⟩, clock1, step⟩ := frame_step (x := ⟨s, op, out⟩) ok enough inv clock
      (periods _ List.mem_cons_self) run1
    have start1 : Num s1.q.nextFrame := by
      cases step with
      | add _ _ nextFrame =>
        rw [nextFrame]
        exact start
      | cycle _ p out nextFrame =>
        rw [nextFrame]
        exact next start p fun now => none _ List.mem_cons_self ⟨_, _, out, now⟩
    exact ih (fun z mem => periods z (List.mem_cons_of_mem _ mem)) inv1 clock1 start1
      fun z mem => none z (List.mem_cons_of_mem _ mem)

lemma FrameStep.cycleAt_frame (step : FrameStep P x s1) :
    CycleAt due x ↔ due x.pre.q.nextFrame ∧ ∃ n handed, x.out = .cycled n handed := by
  cases step with
  | add _ out _ =>
    refine ⟨fun now => absurd now (not_cycleAt out), fun h => ?_⟩
    obtain ⟨n, handed, e⟩ := h.2
    rw [out] at e
    cases e
  | @cycle _ _ handed _ _ out _ =>
    rw [cycleAt_iff out]
    exact ⟨fun now => ⟨now, _, handed, out⟩, fun h => h.1⟩

/-! ## Accepted events -/

/-- Where a run on the frame clock is right after a call of `fof_queue_add` that accepted an
    event. -/
structure FrameAccepted (setup : Setup) (fuel : Nat) (before : List (LogEntry α)) (a : LogEntry α)
    (after : List (LogEntry α)) (s1 s' : Sys α) (L1 : Place → List Addr) (t timeUs : Nat)
    (argv : α) : Prop extends Accepted setup fuel before a after s1 s' L1 t timeUs argv where
  clock : OnFrameClock s1

variable {before after l1 l2 : List (LogEntry α)} {a : LogEntry α} {L1 : Place → List Addr}
  {t timeUs : Nat} {argv : α}

lemma frame_accepted {q : FofQueue α} (ring : RingSetup setup) (enough : setup.nMaxFofs ≤ fuel)
    (off : jfofsClockUsesTransport setup.clockSource = false)
    (run : Run (exec fuel) (Sys.init setup q) log s') (periods : ∀ x ∈ log, x.op.Periods P)
    (split : log = before ++ a :: after) (add : a.op = .add timeUs argv)
    (accepted : a.out = .added .success) (et : t = jfofsTimeToNframes timeUs setup.sampleRate) :
    ∃ s1 L1, FrameAccepted setup fuel before a after s1 s' L1 t timeUs argv := by
  subst split
  have inv := sysInv_init ring.ok q
  have clock := onFrameClock_init off q
  obtain ⟨quiet, -⟩ := frame_run ring.ok enough run periods inv clock
  obtain ⟨s1, run1, runa, run2⟩ := run.split
  obtain ⟨-, ⟨La, inva⟩, clocka⟩ := frame_run ring.ok enough run1
    (fun x mem => periods x (List.mem_append_left _ mem)) inv clock
  obtain ⟨-, -, clock1, -⟩ := frame_step ring.ok enough inva clocka
    (periods a (List.mem_append_right _ List.mem_cons_self)) runa
  obtain ⟨L1, acc⟩ := Accepted.of_run ring enough inv inva run1 runa run2 quiet add accepted et
  exact ⟨s1, L1, acc, clock1⟩

/-- A property of `next_frame` that every cycle keeps as long as none is due holds at every cycle
    until one is. -/
lemma FrameAccepted.num_at (Num : Nat → Prop) (ring : RingSetup setup)
    (enough : setup.nMaxFofs ≤ fuel)
    (acc : FrameAccepted setup fuel before a after s1 s' L1 t timeUs argv)
    (periods : ∀ x ∈ after, x.op.Periods P) (start : Num a.pre.q.nextFrame)
    (next : ∀ {n nframes}, Num n → P nframes → ¬ due n → Num (u64 (n + nframes)))
    (split : after = l1 ++ x :: l2) (none : ∀ y ∈ l1, ¬ CycleAt due y) :
    Num x.pre.q.nextFrame ∧ ∃ s2, FrameStep P x s2 := by
  have run := acc.run
  rw [split] at run periods
  obtain ⟨s2, run1, runx, -⟩ := run.split
  have periods1 (y : LogEntry α) (mem : y ∈ l1) : y.op.Periods P :=
    periods y (List.mem_append_left _ mem)
  obtain ⟨-, ⟨L2, inv2⟩, clock2⟩ := frame_run ring.ok enough run1 periods1 acc.inv acc.clock
  have num := frame_until_due Num ring.ok enough next run1 periods1 acc.inv acc.clock
    (acc.queue.nextFrame ▸ start) none
  obtain ⟨-, -, -, step⟩ := frame_step ring.ok enough inv2 clock2
    (periods x (List.mem_append_right _ List.mem_cons_self)) runx
  exact ⟨num, s2, step⟩

/-- The event is handed over by the first cycle that is due, for any notion of being due that agrees
    with the slots as long as none is. -/
lemma FrameAccepted.delivered (Num : Nat → Prop) (ring : RingSetup setup)
    (enough : setup.nMaxFofs ≤ fuel)
    (acc : FrameAccepted setup fuel before a after s1 s' L1 t timeUs argv)
    (periods : ∀ x ∈ after, x.op.Periods P) (start : Num a.pre.q.nextFrame)
    (next : ∀ {n nframes}, Num n → P nframes → ¬ due n → Num (u64 (n + nframes)))
    (agree : ∀ {n}, Num n → (setup.slotOf n = setup.slotFor t a.pre.q.nextFrame ↔ due n)) :
    Delivered due a.pre.count setup.nClients timeUs argv after := by
  have del := delivered_of_pending ring.ok enough acc.run acc.quiet acc.inv acc.pending
  apply del.congr
  intro l1 x l2 split none
  obtain ⟨num, s2, step⟩ := acc.num_at Num ring enough periods start next split none
  rw [step.cycleAt_frame, step.cycleAt_frame, agree num]

/-- Every run on the frame clock from an initial state ends, and is as `FrameAccepted` says around
    each accepted event. -/
lemma frame_clock_run (ring : RingSetup setup) (enough : setup.nMaxFofs ≤ fuel)
    (clock : jfofsClockSourceNormalize setup.clockSource = .jackFrameTime) (q : FofQueue α)
    {ops : List (Op α)} (periods : ∀ op ∈ ops, op.Periods P) :
    ∃ log s', execAll (exec fuel) (Sys.init setup q) ops = some (log, s') ∧
      ∀ {before a after timeUs argv t}, log = before ++ a :: after → a.op = .add timeUs argv →
        a.out = .added .success → t = jfofsTimeToNframes timeUs setup.sampleRate →
        (∀ x ∈ after, x.op.Periods P) ∧
          ∃ s1 L1, FrameAccepted setup fuel before a after s1 s' L1 t timeUs argv := by
  obtain ⟨log, s', e, -⟩ := run_total ring.ok enough q ops
  obtain ⟨run, -⟩ := run_of_execAll e
  have all := forall_op_of_execAll e periods
  have off : jfofsClockUsesTransport setup.clockSource = false := by
    rw [jfofsClockUsesTransport, clock]
    rfl
  refine ⟨log, s', e, fun split add accepted et => ⟨fun x mem => all x ?_, ?_⟩⟩
  · rw [split]
    exact List.mem_append_right _ (List.mem_cons_of_mem _ mem)
  · exact frame_accepted ring enough off run all split add accepted et

/-- With periods of one slot the event is handed over by the cycle that contains its start frame. -/
lemma FrameAccepted.delivered_exact (ring : RingSetup setup) (enough : setup.nMaxFofs ≤ fuel)
    (two_le : 2 ≤ setup.maxBufferSize)
    (acc : FrameAccepted setup fuel before a after s1 s' L1 t timeUs argv)
    (periods : ∀ x ∈ after, x.op.Periods (· = setup.maxBufferSize)) :
    Delivered (fun n => n ≤ t ∧ t < n + setup.maxBufferSize) a.pre.count setup.nClients timeUs argv
      after := by
  have pos := ring.bufferSize_pos
  have ltt := acc.lt
  have ltb := ring.bufferSize_lt
  have small : (t - a.pre.q.nextFrame) / setup.maxBufferSize < 2 ^ 31 := by
    have le : (t - a.pre.q.nextFrame) / setup.maxBufferSize ≤ (t - a.pre.q.nextFrame) / 2 :=
      Nat.div_le_div_left two_le (by decide)
    omega
  -- the frame stays at or before the start frame, and the slot stays the one an add would pick now
  refine acc.delivered
    (fun n => n ≤ t ∧ (t - n) / setup.maxBufferSize < setup.nSlots ∧
      setup.slotFor t n = setup.slotFor t a.pre.q.nextFrame)
    ring enough periods ⟨acc.le, acc.inside small, rfl⟩ ?_ ?_
  · intro n nframes num period later
    obtain ⟨le, inside, slot⟩ := num
    subst period
    have le1 : n + setup.maxBufferSize ≤ t := by
      apply Nat.le_of_not_lt
      exact fun lt => later ⟨le, lt⟩
    obtain ⟨e1, e2⟩ := ahead_step pos le1
    rw [u64_of_lt (by omega)]
    refine ⟨le1, by omega, ?_⟩
    rw [← slot, Setup.slotFor, Setup.slotFor, e1, e2]
    congr 1
    omega
  · intro n num
    obtain ⟨le, inside, slot⟩ := num
    rw [ring.slotOf_eq, ← slot, Setup.slotFor, ahead_slot_iff pos le inside]
    exact ⟨fun lt => ⟨le, lt⟩, fun now => now.2⟩

/-- On the JACK frame clock with periods of `buffer_size`, an accepted event with start frame `t` is
    handed to exactly one DSP client, with its own data, by the first cycle after the call whose
    frame `n` satisfies `n ≤ t < n + buffer_size`, and by no other cycle of the run. -/
theorem frame_clock_delivery (setup : Setup) (ring : RingSetup setup)
    (two_le : 2 ≤ setup.maxBufferSize)
    (clock : jfofsClockSourceNormalize setup.clockSource = .jackFrameTime)
    (fuel : Nat) (enough : setup.nMaxFofs ≤ fuel) (q : FofQueue α) (ops : List (Op α))
    (periods : ∀ op ∈ ops, op.Periods (· = setup.maxBufferSize)) :
    ∃ log s', execAll (exec fuel) (Sys.init setup q) ops = some (log, s') ∧
      ∀ before a after timeUs argv t, log = before ++ a :: after → a.op = .add timeUs argv →
        a.out = .added .success → t = jfofsTimeToNframes timeUs setup.sampleRate →
        ExactDelivery setup before a after t timeUs argv := by
  obtain ⟨log, s', e, main⟩ := frame_clock_run ring enough clock q periods
  refine ⟨log, s', e, fun before a after timeUs argv t split add accepted et => ?_⟩
  obtain ⟨periods, s1, L1, acc⟩ := main split add accepted et
  exact acc.exact (acc.delivered_exact ring enough two_le periods)

/-- An event for frame `3`, added at the start. -/
theorem frame_clock_delivery_two : ∃ a after, ExactDelivery (twoSlots 1) [] a after 3 3 7 ∧
    a.out = .added .success ∧ ∃ x ∈ after, Hands x a.pre.count := by
  obtain ⟨log, s', e, main⟩ := frame_clock_delivery (twoSlots 1) (twoSlots_ring (Nat.le_refl 1))
    (Nat.le_refl 2) rfl 1 (Nat.le_refl 1) (.zero 0)
    [.add 3 7, .cycle 2 ⟨0, .stopped, 0⟩, .cycle 2 ⟨0, .stopped, 0⟩] (by decide)
  cases Option.some.inj (e.symm.trans rfl)
  exact ⟨_, _, main [] _ _ 3 7 3 rfl rfl rfl rfl, rfl, _, List.mem_cons_of_mem _ List.mem_cons_self,
    ⟨0, 0, 3, 7⟩, List.mem_cons_self, rfl⟩

/-! ## Periods up to the length of a slot -/

/-- The block of an event with start frame `t` accepted at `next_frame`. -/
def Setup.blockFor (setup : Setup) (t nextFrame : Nat) : Nat :=
  nextFrame / setup.maxBufferSize + (t - nextFrame) / setup.maxBufferSize

/-- A period of at most one slot skips no block. -/
lemma block_step {n nframes b c : Nat} (pos : 1 ≤ b) (le : nframes ≤ b) (lt : n / b < c) :
    (n + nframes) / b ≤ c := by
  have h : (n + nframes) / b ≤ (n + b) / b := Nat.div_le_div_right (by omega)
  rw [Nat.add_div_right n pos] at h
  omega

/-- Until the block of the event has come, the cycles are at or before it. -/
lemma block_next (ring : RingSetup setup) {nf n nframes : Nat} (le : nf ≤ t) (lt : t < 2 ^ 32)
    (num : nf / setup.maxBufferSize ≤ n / setup.maxBufferSize ∧
      n / setup.maxBufferSize ≤ setup.blockFor t nf)
    (period : nframes ≤ setup.maxBufferSize)
    (later : ¬ n / setup.maxBufferSize = setup.blockFor t nf) :
    nf / setup.maxBufferSize ≤ u64 (n + nframes) / setup.maxBufferSize ∧
      u64 (n + nframes) / setup.maxBufferSize ≤ setup.blockFor t nf := by
  have pos := ring.bufferSize_pos
  have ltb := ring.bufferSize_lt
  have ltn : n / setup.maxBufferSize < setup.blockFor t nf := by omega
  have len : n < setup.blockFor t nf * setup.maxBufferSize := (Nat.div_lt_iff_lt_mul pos).1 ltn
  have let_ : setup.blockFor t nf * setup.maxBufferSize ≤ t := (block_bounds pos le).1
  rw [u64_of_lt (by omega)]
  refine ⟨Nat.le_trans num.1 (Nat.div_le_div_right (Nat.le_add_right n nframes)), ?_⟩
  exact block_step pos period ltn

/-- With periods of at most one slot the event is handed over by the first cycle in its block. -/
lemma FrameAccepted.delivered_block (ring : RingSetup setup) (enough : setup.nMaxFofs ≤ fuel)
    (two_le : 2 ≤ setup.maxBufferSize)
    (acc : FrameAccepted setup fuel before a after s1 s' L1 t timeUs argv)
    (periods : ∀ x ∈ after, x.op.Periods (· ≤ setup.maxBufferSize)) :
    Delivered (fun n => n / setup.maxBufferSize = setup.blockFor t a.pre.q.nextFrame) a.pre.count
      setup.nClients timeUs argv after := by
  have small : (t - a.pre.q.nextFrame) / setup.maxBufferSize < 2 ^ 31 := by
    have lt := acc.lt
    have le : (t - a.pre.q.nextFrame) / setup.maxBufferSize ≤ (t - a.pre.q.nextFrame) / 2 :=
      Nat.div_le_div_left two_le (by decide)
    omega
  refine acc.delivered
    (fun n => a.pre.q.nextFrame / setup.maxBufferSize ≤ n / setup.maxBufferSize ∧
      n / setup.maxBufferSize ≤ setup.blockFor t a.pre.q.nextFrame)
    ring enough periods ⟨Nat.le_refl _, Nat.le_add_right _ _⟩
    (fun num period later => block_next ring acc.le acc.lt num period later) ?_
  intro n num
  have inside := acc.inside small
  rw [ring.slotOf_eq, Setup.slotFor, ← Setup.blockFor]
  refine ⟨fun e => block_eq_of_mod_eq num.2 ?_ e, fun e => congrArg (· % setup.nSlots) e⟩
  have num := num.1
  rw [Setup.blockFor]
  omega

/-- With periods of at most one slot, the block of the event has come before any cycle after the
    start frame ends. -/
lemma FrameAccepted.block_comes (ring : RingSetup setup) (enough : setup.nMaxFofs ≤ fuel)
    (acc : FrameAccepted setup fuel before a after s1 s' L1 t timeUs argv)
    (periods : ∀ x ∈ after, x.op.Periods (· ≤ setup.maxBufferSize)) (split : after = l1 ++ x :: l2)
    (late : CycleAt (t < ·) x) :
    ∃ y ∈ l1 ++ [x],
      CycleAt (fun n => n / setup.maxBufferSize = setup.blockFor t a.pre.q.nextFrame) y := by
  apply Classical.byContradiction
  intro no
  have none (y : LogEntry α) (mem : y ∈ l1) :
      ¬ CycleAt (fun n => n / setup.maxBufferSize = setup.blockFor t a.pre.q.nextFrame) y :=
    fun now => no ⟨y, List.mem_append_left _ mem, now⟩
  obtain ⟨num, s2, step⟩ := acc.num_at
    (fun n => a.pre.q.nextFrame / setup.maxBufferSize ≤ n / setup.maxBufferSize ∧
      n / setup.maxBufferSize ≤ setup.blockFor t a.pre.q.nextFrame)
    ring enough periods ⟨Nat.le_refl _, Nat.le_add_right _ _⟩
    (fun num period later => block_next ring acc.le acc.lt num period later) split none
  obtain ⟨lt, n, handed, out⟩ := step.cycleAt_frame.1 late
  refine no ⟨x, List.mem_append_right _ (List.mem_singleton_self x), step.cycleAt_frame.2
    ⟨Nat.le_antisymm num.2 ?_, n, handed, out⟩⟩
  have start := (block_bounds ring.bufferSize_pos acc.le).1
  exact (Nat.le_div_iff_mul_le ring.bufferSize_pos).2 (Nat.le_trans start (Nat.le_of_lt lt))

/-- On the JACK frame clock with periods from `1` to `buffer_size`, an accepted event with start
    frame `t` is handed over at most once, by the end of the first cycle with `t < n`, and the cycle
    that does it satisfies `t - 2 * buffer_size < n < t + buffer_size`. -/
theorem changing_period_delivery (setup : Setup) (ring : RingSetup setup)
    (two_le : 2 ≤ setup.maxBufferSize)
    (clock : jfofsClockSourceNormalize setup.clockSource = .jackFrameTime)
    (fuel : Nat) (enough : setup.nMaxFofs ≤ fuel) (q : FofQueue α) (ops : List (Op α))
    (periods : ∀ op ∈ ops, op.Periods (fun nframes => 1 ≤ nframes ∧ nframes ≤ setup.maxBufferSize)) :
    ∃ log s', execAll (exec fuel) (Sys.init setup q) ops = some (log, s') ∧
      ∀ before a after timeUs argv t, log = before ++ a :: after → a.op = .add timeUs argv →
        a.out = .added .success → t = jfofsTimeToNframes timeUs setup.sampleRate →
        (∀ l1 x l2, log = l1 ++ x :: l2 → Hands x a.pre.count →
          HandsOnce x a.pre.count setup.nClients timeUs argv ∧
            (∀ y ∈ l1, ¬ Hands y a.pre.count) ∧ ∀ y ∈ l2, ¬ Hands y a.pre.count) ∧
        (∀ l1 x l2, after = l1 ++ x :: l2 → CycleAt (t < ·) x →
          ∃ y ∈ l1 ++ [x], Hands y a.pre.count) ∧
        ∀ x ∈ log, Hands x a.pre.count →
          CycleAt (fun n => t < n + 2 * setup.maxBufferSize ∧ n < t + setup.maxBufferSize) x := by
  obtain ⟨log, s', e, main⟩ := frame_clock_run ring enough clock q periods
  refine ⟨log, s', e, fun before a after timeUs argv t split add accepted et => ?_⟩
  obtain ⟨periods, s1, L1, acc⟩ := main split add accepted et
  have periods (x : LogEntry α) (mem : x ∈ after) : x.op.Periods (· ≤ setup.maxBufferSize) :=
    (periods x mem).mono fun p => p.2
  have del := acc.delivered_block ring enough two_le periods
  have pos := ring.bufferSize_pos
  subst split
  refine ⟨fun l1 x l2 split hands => (acc.once del split hands).2, fun l1 x l2 eafter late => ?_,
    fun x mem hands => ?_⟩
  · have comes := acc.block_comes ring enough periods eafter late
    rw [eafter, List.append_cons] at del
    exact del.hands_of_due comes
  · obtain ⟨m1, m2, split⟩ := List.append_of_mem mem
    obtain ⟨⟨n, handed, out, block⟩, -⟩ := acc.once del split hands
    obtain ⟨ge, lt⟩ := block_bounds pos acc.le
    rw [← Setup.blockFor, ← block] at ge lt
    refine ⟨n, handed, out, ?_, ?_⟩
    · have le := Nat.div_mul_le_self n setup.maxBufferSize
      rw [Nat.add_mul] at lt
      omega
    · have lt := Nat.lt_div_mul_add pos (a := n)
      omega

/-- An event for frame `3` and periods of one frame and two frames. -/
theorem changing_period_delivery_two : ∃ (a : LogEntry Nat) (x : LogEntry Nat),
    (Hands x a.pre.count →
      CycleAt (fun n => 3 < n + 2 * (twoSlots 1).maxBufferSize ∧ n < 3 + (twoSlots 1).maxBufferSize) x) ∧
    Hands x a.pre.count ∧ a.op = .add 3 7 ∧ a.out = .added .success := by
  obtain ⟨log, s', e, main⟩ := changing_period_delivery (twoSlots 1) (twoSlots_ring (Nat.le_refl 1))
    (Nat.le_refl 2) rfl 1 (Nat.le_refl 1) (.zero 0)
    [.add 3 7, .cycle 1 ⟨0, .stopped, 0⟩, .cycle 2 ⟨0, .stopped, 0⟩, .cycle 1 ⟨0, .stopped, 0⟩]
    (by decide)
  cases Option.some.inj (e.symm.trans rfl)
  obtain ⟨-, -, near⟩ := main [] _ _ 3 7 3 rfl rfl rfl rfl
  exact ⟨_, _, near _ (List.mem_cons_of_mem _ (List.mem_cons_of_mem _ (List.mem_cons_of_mem _
    List.mem_cons_self))), ⟨⟨0, 0, 3, 7⟩, List.mem_cons_self, rfl⟩, rfl, rfl⟩

end JackFofs
