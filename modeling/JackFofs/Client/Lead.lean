import JackFofs.Base.Conversion
import JackFofs.Client.Reads
import JackFofs.Queue.Admission
import JackFofs.Seq.FrameClock

/-!
# Events with lead time

A client is told to compute the time of an event as `jfofs_get_time` plus a lead time. Between the
two calls the server may have run some cycles, and each of them uses up one buffer of the lead. As
long as some of it is left and the event still fits into the ring, `jfofs_add` accepts the event and
the cycle that contains its frame plays it, at the frame the client meant or at the one before it
(`lead_time_delivery`). The frame before is due to the two conversions.
-/

namespace JackFofs
open Runs

variable {α : Type} {setup : Setup} {s s' : Sys α} {L : Place → List Addr} {fuel b : Nat}
  {log : List (LogEntry α)}

/-- Whether an operation is a cycle. -/
def Op.isCycle : Op α → Bool
  | .cycle _ _ => true
  | _ => false

/-- The number of cycles in a log. -/
def cyclesIn (log : List (LogEntry α)) : Nat := log.countP fun x => x.op.isCycle

/-- Every cycle of a run on the frame clock takes `next_frame` one buffer ahead. -/
lemma frame_advance (ok : SetupOk setup) (enough : setup.nMaxFofs ≤ fuel)
    (run : Run (exec fuel) s log s') (periods : ∀ x ∈ log, x.op.Periods (· = b))
    (inv : SysInv setup s L) (clock : OnFrameClock s)
    (small : s.q.nextFrame + cyclesIn log * b < 2 ^ 64) :
    s'.q.nextFrame = s.q.nextFrame + cyclesIn log * b := by
  induction run generalizing L with
  | nil =>
    rw [cyclesIn, List.countP_nil, Nat.zero_mul]
    rfl
  | @cons s s1 s' op out log run1 run ih =>
    obtain ⟨-, ⟨L1, inv1⟩, clock1, step⟩ := frame_step (x := ⟨s, op, out⟩) ok enough inv clock
      (periods _ List.mem_cons_self) run1
    have rest := ih (fun z mem => periods z (List.mem_cons_of_mem _ mem)) inv1 clock1
    cases step with
    | @add timeUs argv status eop _ nextFrame =>
      have nextFrame : s1.q.nextFrame = s.q.nextFrame := nextFrame
      have none : cyclesIn (⟨s, op, out⟩ :: log) = cyclesIn log := by
        cases (eop : op = _)
        exact List.countP_cons_of_neg Bool.false_ne_true
      rw [none] at small ⊢
      rw [nextFrame] at rest
      exact rest small
    | @cycle nframes jack handed eop period _ nextFrame =>
      subst period
      have nextFrame : s1.q.nextFrame = u64 (s.q.nextFrame + nframes) := nextFrame
      have one : cyclesIn (⟨s, op, out⟩ :: log) = cyclesIn log + 1 := by
        cases (eop : op = _)
        exact List.countP_cons_of_pos rfl
      rw [one, Nat.succ_mul] at small ⊢
      rw [u64_of_lt (by omega)] at nextFrame
      rw [nextFrame] at rest
      rw [rest (by omega)]
      omega

/-- What a call of `fof_queue_add` answers in a state of the server, when its frame is in the window. -/
lemma SysInv.add_status {timeUs t : Nat} {argv : α} {out : Out α} (ring : RingSetup setup)
    (two_le : 2 ≤ setup.maxBufferSize) (inv : SysInv setup s L)
    (et : t = jfofsTimeToNframes timeUs setup.sampleRate) (le : s.q.nextFrame ≤ t)
    (lt : t < s.q.nextFrame + setup.nSlots * setup.maxBufferSize)
    (e : exec fuel s (.add timeUs argv) = some (out, s')) :
    (s.q.freeFofs = none ∧ out = .added .fofLimitError) ∨ out = .added .success := by
  have eo : out = .added (fofQueueAdd s.q timeUs argv).1 := exec_add_status e
  rw [eo]
  cases free : s.q.freeFofs with
  | none =>
    rw [fofQueueAdd_none free]
    exact .inl ⟨rfl, rfl⟩
  | some c =>
    have es : t = jfofsTimeToNframes timeUs s.q.sampleRate := by rw [et, inv.sampleRate]
    have pos : 1 ≤ s.q.bufferSize := inv.bufferSize ▸ ring.bufferSize_pos
    have small : (t - s.q.nextFrame) / s.q.bufferSize < 2 ^ 31 := by
      have lt : t < 2 ^ 32 := et ▸ jfofsTimeToNframes_lt timeUs setup.sampleRate
      have le : (t - s.q.nextFrame) / s.q.bufferSize ≤ (t - s.q.nextFrame) / 2 :=
        Nat.div_le_div_left (inv.bufferSize ▸ two_le) (by decide)
      omega
    have inside : t < s.q.windowEnd := by
      rw [FofQueue.windowEnd, inv.nSlots, inv.bufferSize]
      exact lt
    rw [fofQueueAdd_status free timeUs argv es pos small, if_neg (Nat.not_lt.2 le), if_pos inside]
    exact .inr rfl

/-- The frame of a time that a client computes from `jfofs_get_time`. -/
lemma lead_frame {f t sampleRate : Nat} (pos : 1 ≤ sampleRate) (rate : sampleRate ≤ 1000000)
    (lt : f + t * sampleRate / 1000000 < 2 ^ 32) :
    jfofsTimeToNframes (timeOfFrame f sampleRate + t) sampleRate ≤
        f + t * sampleRate / 1000000 ∧
      f + t * sampleRate / 1000000 ≤
        jfofsTimeToNframes (timeOfFrame f sampleRate + t) sampleRate + 1 := by
  have fits : f * 1000000 < 2 ^ 64 := by omega
  obtain ⟨upper, lower⟩ := rescale_add (f := f) (t := t) pos rate
  have there : f * 1000000 / sampleRate * sampleRate ≤ f * 1000000 := Nat.div_mul_le_self _ _
  rw [timeOfFrame, u64_of_lt fits, jfofsTimeToNframes_eq ?_ (Nat.lt_of_le_of_lt upper lt)]
  · exact ⟨upper, lower⟩
  · rw [Nat.add_mul]
    omega

/-- Events with lead time, on the JACK frame clock with periods of `buffer_size`. A client reads
    `jfofs_get_time` at some point of a run and adds a lead time to it, `F + lead` in frames. If the
    lead is longer than the `k` buffers that are played before the call of `jfofs_add`, and does not
    reach beyond the ring, the event is accepted, unless there is no free cell. It is handed over for
    frame `F + lead` or the one before it, by the cycle that contains this frame and by no other. The
    frames of the code are cut to 32 bits, so `F + lead` has to stay below that. -/
theorem lead_time_delivery (setup : Setup) (ring : RingSetup setup) (two_le : 2 ≤ setup.maxBufferSize)
    (pos : 1 ≤ setup.sampleRate) (rate : setup.sampleRate ≤ 1000000)
    (clock : jfofsClockSourceNormalize setup.clockSource = .jackFrameTime)
    (fuel : Nat) (enough : setup.nMaxFofs ≤ fuel) (q : FofQueue α) (ops : List (Op α))
    (periods : ∀ op ∈ ops, op.Periods (· = setup.maxBufferSize)) :
    ∃ log s', execAll (exec fuel) (Sys.init setup q) ops = some (log, s') ∧
      ∀ before y rest between a after jack leadUs timeUs argv F lead k,
        log = before ++ y :: rest → y :: rest = between ++ a :: after →
        timeUs = timeOfFrame (currentFrame y.pre.q setup.clockSource jack) setup.sampleRate + leadUs →
        a.op = .add timeUs argv →
        F = y.pre.q.nextFrame + (jack.frameTime - y.pre.q.frameStamp) →
        lead = leadUs * setup.sampleRate / 1000000 → k = cyclesIn between →
        k * setup.maxBufferSize < lead →
        F + lead < y.pre.q.nextFrame + (k + setup.nSlots) * setup.maxBufferSize →
        F + lead < 2 ^ 32 →
        (a.pre.q.freeFofs = none ∧ a.out = .added .fofLimitError) ∨ (a.out = .added .success ∧
          ∃ t, t ≤ F + lead ∧ F + lead ≤ t + 1 ∧
            ExactDelivery setup (before ++ between) a after t timeUs argv) := by
  obtain ⟨log, s', e, main⟩ := frame_clock_run ring enough clock q periods
  refine ⟨log, s', e, ?_⟩
  rintro before y rest between a after jack leadUs timeUs argv F lead k split1 split2 time op eF el ek
    used room small
  obtain ⟨run, -⟩ := run_of_execAll e
  have all := forall_op_of_execAll e periods
  have off : jfofsClockUsesTransport setup.clockSource = false := by
    rw [jfofsClockUsesTransport, clock]
    rfl
  have init := sysInv_init ring.ok q
  have start := onFrameClock_init off q
  -- the server where the client reads its clock
  rw [split1] at run all
  obtain ⟨sy, run1, ey, run2⟩ := run.split
  obtain ⟨-, ⟨Ly, invy⟩, clocky⟩ := frame_run ring.ok enough run1
    (fun x mem => all x (List.mem_append_left _ mem)) init start
  have reading : currentFrame y.pre.q setup.clockSource jack = F := by
    have read : jack.read (clockOf setup.clockSource) = jack.frameTime := by
      rw [clockOf, off]
      rfl
    rw [currentFrame, read, estimate, eF]
    split
    case isTrue le => omega
    case isFalse gt => exact u64_of_lt (by omega)
  rw [reading] at time
  have run2 : Run (exec fuel) y.pre (y :: rest) s' := .cons ey run2
  have all2 (x : LogEntry α) (mem : x ∈ y :: rest) : x.op.Periods (· = setup.maxBufferSize) :=
    all x (List.mem_append_right _ mem)
  rw [split2] at run2 all2
  -- the server where it adds the event
  obtain ⟨sa, run3, ea, -⟩ := run2.split
  have all3 (x : LogEntry α) (mem : x ∈ between) := all2 x (List.mem_append_left _ mem)
  obtain ⟨-, ⟨La, inva⟩, -⟩ := frame_run ring.ok enough run3 all3 invy clocky
  have advance := frame_advance ring.ok enough run3 all3 invy clocky (by rw [← ek]; omega)
  rw [← ek] at advance
  rw [Nat.add_mul] at room
  rw [op] at ea
  rw [el] at used room small
  obtain ⟨upper, lower⟩ := lead_frame (f := F) (t := leadUs) pos rate small
  rw [← time] at upper lower
  have status := inva.add_status ring two_le rfl (by omega) (by omega) ea
  have split : log = (before ++ between) ++ a :: after := by
    rw [split1, split2, List.append_assoc]
  rw [el]
  refine status.imp id fun accepted => ⟨accepted, _, upper, lower, ?_⟩
  obtain ⟨periods, s1, L1, acc⟩ := main split op accepted rfl
  exact acc.exact (acc.delivered_exact ring enough two_le periods)

/-- A client reads frame `3`, one cycle after the start. Another cycle later it adds an event for three
    frames on. -/
theorem lead_time_delivery_two :
    ∃ (between : List (LogEntry Nat)) (a : LogEntry Nat) (after : List (LogEntry Nat)) (t : Nat),
      t ≤ 6 ∧ 6 ≤ t + 1 ∧ ExactDelivery (twoSlots 1) between a after t 6 7 ∧ a.out = .added .success ∧
        ∃ x ∈ after, Hands x a.pre.count := by
  obtain ⟨log, s', e, main⟩ := lead_time_delivery (twoSlots 1) (twoSlots_ring (by decide))
    (Nat.le_refl 2) (by decide) (by decide) rfl 1 (Nat.le_refl 1) (.zero 0)
    [.cycle 2 ⟨0, .stopped, 0⟩, .cycle 2 ⟨0, .stopped, 2⟩, .add 6 7, .cycle 2 ⟨0, .stopped, 4⟩,
      .cycle 2 ⟨0, .stopped, 6⟩] (by decide)
  cases Option.some.inj (e.symm.trans rfl)
  obtain full | ⟨accepted, t, upper, lower, exact⟩ := main [_] _ _ [_] _ _ ⟨0, 1⟩ 3 6 7 3 3 1 rfl rfl
    rfl rfl rfl rfl rfl (by decide) (by decide) (by decide)
  · cases full.2
  · exact ⟨_, _, _, t, upper, lower, exact, accepted, _, List.mem_cons_of_mem _ List.mem_cons_self,
      ⟨0, 0, 6, 7⟩, List.mem_cons_self, rfl⟩

end JackFofs
