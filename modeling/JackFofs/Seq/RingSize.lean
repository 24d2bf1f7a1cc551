import Mathlib.Data.Nat.Bitwise
import Mathlib.Data.Nat.Log
import JackFofs.Base.Conversion
import JackFofs.Queue.Admission
import JackFofs.Seq.FrameClock

/-!
# The size of the ring

The documentation asks for a power of two for `n_slots`, and nothing checks it: the number comes from
the command line. The slots are computed with the mask `n_slots - 1`. For any other number there is a
block that the mask takes for block `0`, and an event for it is handed over by the first cycle of the
server, too early. So the powers of two are exactly the sizes with which accepted events are played
when they are due (`exact_delivery_iff_pow`).
-/

namespace JackFofs
open Linked Runs

/-! ## Masks -/

/-- The mask of a number that is no power of two clears a smaller power of two. -/
lemma exists_pow_cleared {n : Nat} (pos : 1 ≤ n) (no : ¬ ∃ e, n = 2 ^ e) :
    ∃ m, 2 ^ m < n ∧ 2 ^ m &&& (n - 1) = 0 := by
  by_contra none
  -- otherwise all bits of the mask are set below the length of the number
  have set (m : Nat) (lt : 2 ^ m < n) : (n - 1).testBit m = true := by
    by_contra clear
    refine none ⟨m, lt, ?_⟩
    rw [Nat.two_pow_and, Bool.eq_false_iff.2 clear]
    rfl
  have le : n ≤ 2 ^ Nat.clog 2 n := Nat.le_pow_clog (by decide) n
  have mask : n - 1 = 2 ^ Nat.clog 2 n - 1 := by
    apply Nat.eq_of_testBit_eq
    intro i
    rw [Nat.testBit_two_pow_sub_one]
    by_cases lt : i < Nat.clog 2 n
    · rw [set i ((Nat.lt_clog_iff_pow_lt (by decide)).1 lt), decide_eq_true lt]
    · have small : n - 1 < 2 ^ i := by
        have mono : 2 ^ Nat.clog 2 n ≤ 2 ^ i := Nat.pow_le_pow_right (by decide) (Nat.not_lt.1 lt)
        omega
      rw [Nat.testBit_lt_two_pow small, decide_eq_false lt]
  exact no ⟨Nat.clog 2 n, by omega⟩

/-! ## The first cycle -/

section First

variable {α : Type} {setup : Setup} {fuel : Nat}

/-- What is asked of a setup here: the ranges of the C types, and a ring that fits into the frames of
    an event. -/
structure SizedSetup (setup : Setup) : Prop where
  nMaxFofs : 1 ≤ setup.nMaxFofs
  nSlots : 1 ≤ setup.nSlots
  nSlots_lt : setup.nSlots < 2 ^ 31
  two_le : 2 ≤ setup.maxBufferSize
  bufferSize_lt : setup.maxBufferSize < 2 ^ 31
  nClients : 1 ≤ setup.nClients
  rate_pos : 1 ≤ setup.sampleRate
  rate_le : setup.sampleRate ≤ 1000000
  window : setup.nSlots * setup.maxBufferSize < 2 ^ 32

lemma SizedSetup.ok (sized : SizedSetup setup) : SetupOk setup :=
  ⟨sized.nMaxFofs, sized.nSlots, sized.nClients⟩

lemma SizedSetup.ring (sized : SizedSetup setup) (pow : ∃ e, setup.nSlots = 2 ^ e) : RingSetup setup :=
  ⟨sized.nMaxFofs, pow, sized.nSlots_lt, Nat.le_of_succ_le sized.two_le, sized.bufferSize_lt,
    sized.nClients⟩

/-- Every frame is the start frame of some time. -/
lemma SizedSetup.time_of_frame (sized : SizedSetup setup) {t : Nat} (lt : t < 2 ^ 32) :
    t = jfofsTimeToNframes (t * 1000000 ⌈/⌉ setup.sampleRate) setup.sampleRate := by
  have pos := sized.rate_pos
  have rate := sized.rate_le
  have ge : t * 1000000 ≤ setup.sampleRate * (t * 1000000 ⌈/⌉ setup.sampleRate) :=
    (ceilDiv_le_iff_le_mul pos).1 (Nat.le_refl _)
  have le : t * 1000000 ⌈/⌉ setup.sampleRate * setup.sampleRate ≤ t * 1000000 + setup.sampleRate - 1 := by
    rw [Nat.ceilDiv_eq_add_pred_div]
    exact Nat.div_mul_le_self _ _
  rw [Nat.mul_comm setup.sampleRate] at ge
  have frame : t * 1000000 ⌈/⌉ setup.sampleRate * setup.sampleRate / 1000000 = t :=
    Nat.div_eq_of_lt_le ge (by omega)
  rw [jfofsTimeToNframes_eq (by omega) (by rw [frame]; exact lt), frame]

/-- An event in the first cell that goes to slot `0` when nothing has been played yet. -/
lemma SizedSetup.early_pending (sized : SizedSetup setup) (fuel : Nat) (q : FofQueue α) (argv : α)
    {k t timeUs : Nat} (lt : k < setup.nSlots) (cleared : k &&& (setup.nSlots - 1) = 0)
    (et : t = k * setup.maxBufferSize) (time : t = jfofsTimeToNframes timeUs setup.sampleRate) :
    ∃ s1 L1, exec fuel (Sys.init setup q) (.add timeUs argv) = some (.added .success, s1) ∧
      SysInv setup s1 L1 ∧ s1.ctrl = (Sys.init setup q).ctrl ∧
      SameClock (Sys.init setup q).q s1.q ∧ Pending s1 L1 (Sys.init setup q).count 0 timeUs argv := by
  have inv := sysInv_init sized.ok q
  have frame : (Sys.init setup q).q.nextFrame = 0 := (fofQueueInit_fields q setup).1
  have pos : 1 ≤ (Sys.init setup q).q.bufferSize := inv.bufferSize ▸ Nat.le_of_succ_le sized.two_le
  have blocks : (t - (Sys.init setup q).q.nextFrame) / (Sys.init setup q).q.bufferSize = k := by
    rw [frame, inv.bufferSize, Nat.sub_zero, et, Nat.mul_div_cancel _ (Nat.le_of_succ_le sized.two_le)]
  have small : (t - (Sys.init setup q).q.nextFrame) / (Sys.init setup q).q.bufferSize < 2 ^ 31 := by
    rw [blocks]
    exact Nat.lt_trans lt sized.nSlots_lt
  obtain ⟨status, s1, L1, e, inv1, added, success⟩ := exec_add fuel inv sized.nSlots timeUs argv time
  have answer : status = (fofQueueAdd (Sys.init setup q).q timeUs argv).1 :=
    Out.added.inj (exec_add_status e)
  have accepted : status = .success := by
    cases free : (Sys.init setup q).q.freeFofs with
    | none =>
      have list : Seg _ (Sys.init setup q).q.freeFofs (List.range setup.nMaxFofs) none :=
        inv.holds.list (k := .free) trivial
      rw [free] at list
      have empty := list.eq_nil_iff.2 rfl
      rw [List.range_eq_nil] at empty
      exact absurd empty (Nat.ne_of_gt sized.nMaxFofs)
    | some c =>
      have time : t = jfofsTimeToNframes timeUs (Sys.init setup q).q.sampleRate := by
        rw [inv.sampleRate]
        exact time
      have inside : t < (Sys.init setup q).q.windowEnd := by
        rw [FofQueue.windowEnd, frame, inv.nSlots, inv.bufferSize, et, Nat.zero_add]
        exact Nat.mul_lt_mul_of_pos_right lt (Nat.le_of_succ_le sized.two_le)
      have not_late : ¬ t < (Sys.init setup q).q.nextFrame := by
        rw [frame]
        exact Nat.not_lt_zero t
      rw [answer, fofQueueAdd_status free timeUs argv time pos small, if_neg not_late, if_pos inside]
  obtain ⟨-, -, c, j, ej, mem, tag, payload⟩ := success accepted
  have clock := cacheCurrentSlot_sameClock (Sys.init setup q).q (Sys.init setup q).q.nextFrame
  have zero : j = 0 := by
    rw [ej, slotIndex_eq small, blocks, targetSlot, cacheCurrentSlot_currentSlot inv.cacheOk,
      clock.nSlots, inv.nSlots, slotOfFrame, frame, Nat.zero_div, Nat.zero_and]
    have cast : (((k : Int) + (0 : Nat)) % 2 ^ 64).toNat = k := by
      have lt := sized.nSlots_lt
      omega
    rw [cast]
    exact cleared
  subst zero
  rw [accepted] at e
  exact ⟨s1, L1, e, inv1, added.ctrl, added.clock, c, mem, tag, payload⟩

/-- All accepted events of all runs with periods of `buffer_size` are delivered when they are due. -/
def DeliversExactly (setup : Setup) (fuel : Nat) (q : FofQueue α) : Prop :=
  ∀ ops : List (Op α), (∀ op ∈ ops, op.Periods (· = setup.maxBufferSize)) →
    ∃ log s', execAll (exec fuel) (Sys.init setup q) ops = some (log, s') ∧
      ∀ before a after timeUs argv t, log = before ++ a :: after → a.op = .add timeUs argv →
        a.out = .added .success → t = jfofsTimeToNframes timeUs setup.sampleRate →
        ExactDelivery setup before a after t timeUs argv

/-- Some run with periods of `buffer_size` has an accepted event that is handed over by a cycle whose
    block ends before the start frame of the event. -/
def PlaysEarly (setup : Setup) (fuel : Nat) (q : FofQueue α) : Prop :=
  ∃ (ops : List (Op α)) (log : List (LogEntry α)) (s' : Sys α) (before : List (LogEntry α))
    (a : LogEntry α) (after : List (LogEntry α)) (timeUs : Nat) (argv : α) (t : Nat),
    (∀ op ∈ ops, op.Periods (· = setup.maxBufferSize)) ∧
      execAll (exec fuel) (Sys.init setup q) ops = some (log, s') ∧ log = before ++ a :: after ∧
      a.op = .add timeUs argv ∧ a.out = .added .success ∧
      t = jfofsTimeToNframes timeUs setup.sampleRate ∧
      ∃ x ∈ after, CycleAt (fun n => n + setup.maxBufferSize ≤ t) x ∧ Hands x a.pre.count

lemma PlaysEarly.not_exact {q : FofQueue α} (early : PlaysEarly setup fuel q) :
    ¬ DeliversExactly setup fuel q := by
  intro exact
  obtain ⟨ops, _, s', before, a, after, timeUs, argv, t, periods, run, rfl, add, accepted, time, x, mem,
    now, hands⟩ := early
  obtain ⟨log1, s1, run1, main⟩ := exact ops periods
  cases Option.some.inj (run.symm.trans run1)
  exact (main before a after timeUs argv t rfl add accepted time).early x
    (List.mem_append_right _ (List.mem_cons_of_mem a mem)) now hands

/-- The first cycle hands over an event that the mask has put into slot `0`. -/
lemma SizedSetup.plays_early (sized : SizedSetup setup) (enough : setup.nMaxFofs ≤ fuel)
    (clock : jfofsClockSourceNormalize setup.clockSource = .jackFrameTime) (q : FofQueue α) {k : Nat}
    (pos : 1 ≤ k) (lt : k < setup.nSlots) (cleared : k &&& (setup.nSlots - 1) = 0) :
    PlaysEarly setup fuel q := by
  have small : k * setup.maxBufferSize < 2 ^ 32 :=
    Nat.lt_of_le_of_lt (Nat.mul_le_mul_right _ (Nat.le_of_lt lt)) sized.window
  have time := sized.time_of_frame small
  generalize k * setup.maxBufferSize * 1000000 ⌈/⌉ setup.sampleRate = timeUs at time
  obtain ⟨s1, L1, add, inv1, ctrl, queue, pending⟩ :=
    sized.early_pending fuel q (q.fof 0).argv lt cleared rfl time
  have off : jfofsClockUsesTransport setup.clockSource = false := by
    rw [jfofsClockUsesTransport, clock]
    rfl
  have clock1 : OnFrameClock s1 := (onFrameClock_init off q).congr (congrArg _ ctrl) queue.clockSource
  obtain ⟨n, handed, s2, L2, cycle, -⟩ :=
    exec_cycle inv1 sized.nSlots enough setup.maxBufferSize ⟨0, .stopped, 0⟩
  -- the cycle has frame `0`, and takes slot `0`
  obtain ⟨quiet, -, -, step⟩ :=
    frame_step (x := ⟨s1, .cycle setup.maxBufferSize ⟨0, .stopped, 0⟩, .cycled n handed⟩)
      (P := (· = setup.maxBufferSize)) sized.ok enough inv1 clock1 rfl cycle
  have frame : s1.q.nextFrame = 0 := queue.nextFrame.trans (fofQueueInit_fields q setup).1
  have slot : setup.slotOf 0 = 0 := by
    rw [Setup.slotOf, Nat.zero_div, Nat.zero_and]
  cases step with
  | add e _ _ => cases e
  | @cycle nframes jack handed _ _ eo _ =>
  rw [frame] at eo
  have delivered := delivered_of_pending sized.ok enough (.cons cycle .nil)
    (fun x mem => by cases List.mem_singleton.1 mem; exact quiet) inv1 pending
  have hands := (delivered.1 ((cycleAt_iff eo).2 slot)).1.hands
  have run := (Run.cons add (.cons cycle .nil)).execAll
  refine ⟨_, _, s2, [], _, [_], timeUs, _, _, ?_, run, rfl, rfl, rfl, time, _,
    List.mem_singleton_self _, (cycleAt_iff eo).2 ?_, hands⟩
  · simp [Op.Periods]
  rw [Nat.zero_add]
  exact Nat.le_mul_of_pos_left _ pos

/-- On the JACK frame clock with periods of `buffer_size` the accepted events of all runs are
    delivered when they are due if and only if `n_slots` is a power of two. For any other number some
    accepted event is played too early. -/
theorem exact_delivery_iff_pow (setup : Setup) (sized : SizedSetup setup)
    (clock : jfofsClockSourceNormalize setup.clockSource = .jackFrameTime) (fuel : Nat)
    (enough : setup.nMaxFofs ≤ fuel) (q : FofQueue α) :
    (DeliversExactly setup fuel q ↔ ∃ e, setup.nSlots = 2 ^ e) ∧
      ((¬ ∃ e, setup.nSlots = 2 ^ e) → PlaysEarly setup fuel q) := by
  have early (no : ¬ ∃ e, setup.nSlots = 2 ^ e) : PlaysEarly setup fuel q := by
    obtain ⟨m, lt, cleared⟩ := exists_pow_cleared sized.nSlots no
    exact sized.plays_early enough clock q Nat.one_le_two_pow lt cleared
  refine ⟨⟨fun exact => ?_, fun pow ops periods => ?_⟩, early⟩
  · by_contra no
    exact (early no).not_exact exact
  · have ring := sized.ring pow
    obtain ⟨log, s', e, main⟩ := frame_clock_run ring enough clock q periods
    refine ⟨log, s', e, fun before a after timeUs argv t split add accepted et => ?_⟩
    obtain ⟨periods, s1, L1, acc⟩ := main split add accepted et
    exact acc.exact (acc.delivered_exact ring enough sized.two_le periods)

/-- A ring of three slots of two frames, with one cell. -/
def threeSlots : Setup := { twoSlots 1 with nSlots := 3 }

lemma threeSlots_sized : SizedSetup threeSlots :=
  ⟨by decide, by decide, by decide, by decide, by decide, by decide, by decide, by decide, by decide⟩

/-- Three slots are not a power of two. -/
lemma threeSlots_no_pow : ¬ ∃ e, threeSlots.nSlots = 2 ^ e := by
  rintro ⟨e, pow⟩
  have odd : 3 = 2 ^ e := pow
  cases e with
  | zero => cases odd
  | succ e =>
    rw [Nat.pow_succ] at odd
    omega

/-- With three slots an event is played too early. -/
theorem exact_delivery_iff_pow_three :
    ¬ DeliversExactly threeSlots 1 (.zero 0 : FofQueue Nat) ∧
      PlaysEarly threeSlots 1 (.zero 0 : FofQueue Nat) := by
  obtain ⟨exact, early⟩ :=
    exact_delivery_iff_pow threeSlots threeSlots_sized rfl 1 (Nat.le_refl 1) (.zero 0 : FofQueue Nat)
  exact ⟨fun all => threeSlots_no_pow (exact.1 all), early threeSlots_no_pow⟩

end First

end JackFofs
