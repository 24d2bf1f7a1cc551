import JackFofs.Seq.Effect
import JackFofs.Seq.FrameClock

/-!
# How the pool recovers

On the JACK frame clock with periods of one slot a cycle empties the slot of its block, and no event
in a slot is more than a revolution ahead. So after `n_slots` cycles without an add the slots are
empty (`drained`). The excess list is another matter: on the frame clock nothing empties it. All cells
are free again exactly if no call put its event there (`pool_recovers_iff`).
-/

namespace JackFofs
open Linked Runs

variable {α : Type} {setup : Setup} {s s' : Sys α} {L : Place → List Addr} {fuel : Nat}
  {log : List (LogEntry α)} {x : LogEntry α}

/-- The entry is a call of `fof_queue_add` for a time beyond the window of the ring that finds a free
    cell. -/
def Parks (setup : Setup) (x : LogEntry α) : Prop :=
  ∃ timeUs argv, x.op = .add timeUs argv ∧ x.pre.q.freeFofs ≠ none ∧
    x.pre.q.nextFrame + setup.nSlots * setup.maxBufferSize ≤
      jfofsTimeToNframes timeUs setup.sampleRate

/-- Every event in a slot is due within `K` cycles. -/
structure Soon (setup : Setup) (K : Nat) (s : Sys α) (L : Place → List Addr) : Prop where
  inv : SysInv setup s L
  clock : OnFrameClock s
  due : ∀ {j c}, c ∈ L (.slot j) → ∃ k, k < K ∧
    setup.slotOf (s.q.nextFrame + k * setup.maxBufferSize) = j ∧
    s.q.nextFrame + k * setup.maxBufferSize < 2 ^ 32

lemma Soon.mono {K K' : Nat} (soon : Soon setup K s L) (le : K ≤ K') : Soon setup K' s L := by
  refine ⟨soon.inv, soon.clock, fun mem => ?_⟩
  obtain ⟨k, lt, rest⟩ := soon.due mem
  exact ⟨k, Nat.lt_of_lt_of_le lt le, rest⟩

/-! ## A call -/

/-- The comparison with `n_slots` is the comparison with the end of the window. -/
lemma slotIndex_ge_iff {q : FofQueue α} (two : 2 ≤ q.bufferSize) {t : Nat} (lt : t < 2 ^ 32)
    (le : q.nextFrame ≤ t) :
    (q.nSlots : Int) ≤ slotIndex q t q.nextFrame ↔ q.nextFrame + q.nSlots * q.bufferSize ≤ t := by
  have pos : 0 < q.bufferSize := by omega
  have small : (t - q.nextFrame) / q.bufferSize < 2 ^ 31 := by
    rw [Nat.div_lt_iff_lt_mul pos]
    omega
  rw [slotIndex_eq small, Int.ofNat_le, Nat.le_div_iff_mul_le pos]
  omega

/-- The slot of a block `k` blocks ahead. -/
lemma RingSetup.slotOf_ahead (ring : RingSetup setup) (n k : Nat) :
    setup.slotOf (n + k * setup.maxBufferSize) = (n / setup.maxBufferSize + k) % setup.nSlots := by
  have pos : 0 < setup.maxBufferSize := ring.bufferSize_pos
  rw [ring.slotOf_eq, Nat.add_mul_div_right _ _ pos]

/-- The calls that park a cell are those that answer `JFOFS_FOF_EXCESS_INFO`. -/
lemma parks_iff (inv : SysInv setup s L) (two : 2 ≤ setup.maxBufferSize) {q' : FofQueue α}
    {L' : Place → List Addr} {timeUs : Nat} {argv : α} (out : Out α) {status : JfofsStatus}
    (exact : ExactAdd s.q q' L L' (jfofsTimeToNframes timeUs s.q.sampleRate) timeUs argv status) :
    Parks setup ⟨s, .add timeUs argv, out⟩ ↔ status = .fofExcessInfo := by
  have lt := jfofsTimeToNframes_lt timeUs s.q.sampleRate
  rw [exact.excess_iff]
  rw [← inv.bufferSize] at two
  constructor
  · rintro ⟨timeUs', argv', op, free, beyond⟩
    cases op
    rw [← inv.sampleRate, ← inv.nSlots, ← inv.bufferSize] at beyond
    have le := Nat.le_trans (Nat.le_add_right _ _) beyond
    exact ⟨free, le, (slotIndex_ge_iff two lt le).2 beyond⟩
  · rintro ⟨free, le, big⟩
    have beyond := (slotIndex_ge_iff two lt le).1 big
    rw [inv.nSlots, inv.bufferSize, inv.sampleRate] at beyond
    exact ⟨timeUs, argv, rfl, free, beyond⟩

/-- A call puts its event less than a revolution ahead, or on the excess list. -/
lemma Soon.add (ring : RingSetup setup) (two : 2 ≤ setup.maxBufferSize)
    (soon : Soon setup setup.nSlots s L) {timeUs : Nat} {argv : α} {out : Out α}
    (e : exec fuel s (.add timeUs argv) = some (out, s')) :
    ∃ L', Soon setup setup.nSlots s' L' ∧
      (L' .excess = [] ↔ L .excess = [] ∧ ¬ Parks setup ⟨s, .add timeUs argv, out⟩) := by
  obtain ⟨status, L', rfl, inv', ctrl, clock, exact⟩ := exec_add_exact ring soon.inv e
  have parks := parks_iff soon.inv two (.added status) exact
  have clock' := soon.clock.congr (congrArg _ ctrl) clock.clockSource
  have lt := jfofsTimeToNframes_lt timeUs s.q.sampleRate
  rw [parks]
  refine ⟨L', ⟨inv', clock', ?_⟩, ?_⟩
  · rw [exact.nextFrame]
    intro j c mem
    by_cases ok : status = .success
    · obtain ⟨a, l, j', -, -, ej, eL, -⟩ := exact.success ok
      by_cases same : j = j'
      · obtain ⟨le, inside⟩ := exact.window ok
        rw [(soon.inv.ringOk ring).mask_eq, soon.inv.bufferSize, soon.inv.nSlots] at ej
        rw [← soon.inv.bufferSize] at two
        have inside := mt (slotIndex_ge_iff two lt le).2 (Int.not_le.2 inside)
        rw [soon.inv.bufferSize] at two inside
        rw [soon.inv.nSlots] at inside
        have pos : 0 < setup.maxBufferSize := by omega
        have mul := Nat.div_mul_le_self (jfofsTimeToNframes timeUs s.q.sampleRate - s.q.nextFrame)
          setup.maxBufferSize
        refine ⟨(jfofsTimeToNframes timeUs s.q.sampleRate - s.q.nextFrame) / setup.maxBufferSize,
          ?_, ?_, ?_⟩
        · rw [Nat.div_lt_iff_lt_mul pos]
          omega
        · rw [ring.slotOf_ahead, same, ej]
        · omega
      · have ne : Place.slot j ≠ .slot j' := fun h => same (Place.slot.inj h)
        rw [eL, Function.update_of_ne ne, Function.update_of_ne (slot_ne_free j)] at mem
        exact soon.due mem
    · rw [exact.slot_eq ok] at mem
      exact soon.due mem
  · by_cases excess : status = .fofExcessInfo
    · obtain ⟨a, l, -, -, eL⟩ := exact.excess excess
      rw [eL, Function.update_self]
      exact ⟨nofun, fun h => absurd excess h.2⟩
    · rw [exact.excess_eq excess]
      exact ⟨fun h => ⟨h, excess⟩, fun h => h.1⟩

/-! ## A cycle -/

/-- A cycle brings every event one block nearer, and those of its own block are gone. -/
lemma Soon.cycle {K : Nat} (ring : RingSetup setup) (enough : setup.nMaxFofs ≤ fuel)
    (soon : Soon setup K s L) (jack : JackReading) :
    ∃ out s' L', exec fuel s (.cycle setup.maxBufferSize jack) = some (out, s') ∧
      Soon setup (K - 1) s' L' ∧ L' .excess = L .excess := by
  have quiet : Quiet setup.maxBufferSize jack s.ctrl s.q := soon.clock.quiet _ jack
  obtain ⟨s', e, inv', -, -, -, ctrlSource, queueSource, -, -, nextFrame⟩ :=
    exec_cycle_quiet soon.inv ring.ok.nSlots enough quiet rfl
  rw [soon.clock.noTransport, if_neg Bool.false_ne_true] at nextFrame inv' e
  rw [soon.inv.slotOf] at inv' e
  have clock' : OnFrameClock s' := soon.clock.congr ctrlSource queueSource
  have busy : (Place.slot (setup.slotOf s.q.nextFrame)).Busy := slot_ne_free _
  refine ⟨_, s', _, e, ⟨inv', clock', fun {j c} mem => ?_⟩, ?_⟩
  · by_cases same : j = setup.slotOf s.q.nextFrame
    · subst same
      rw [released_self busy] at mem
      exact absurd mem List.not_mem_nil
    · rw [released_of_ne (slot_ne_free j) fun h => same (Place.slot.inj h)] at mem
      obtain ⟨k, lt, slot, small⟩ := soon.due mem
      cases k with
      | zero =>
        rw [Nat.zero_mul, Nat.add_zero] at slot
        exact absurd slot.symm same
      | succ k =>
        -- the event is due after this cycle, so the frame counter does not wrap
        rw [Nat.succ_mul] at slot small
        rw [u64_of_lt (by omega)] at nextFrame
        have e : s'.q.nextFrame + k * setup.maxBufferSize =
            s.q.nextFrame + (k * setup.maxBufferSize + setup.maxBufferSize) := by omega
        refine ⟨k, by omega, ?_, ?_⟩
        · rw [e]
          exact slot
        · rw [e]
          exact small
  · exact released_of_ne excess_ne_free (by simp)

/-! ## Whole runs -/

/-- After any calls and cycles every event in a slot is less than a revolution away, and the excess
    list is as empty as it was unless a call has parked its cell. -/
lemma soon_run (ring : RingSetup setup) (two : 2 ≤ setup.maxBufferSize)
    (enough : setup.nMaxFofs ≤ fuel) (run : Run (exec fuel) s log s')
    (periods : ∀ x ∈ log, x.op.Periods (· = setup.maxBufferSize))
    (soon : Soon setup setup.nSlots s L) :
    ∃ L', Soon setup setup.nSlots s' L' ∧
      (L' .excess = [] ↔ L .excess = [] ∧ ∀ x ∈ log, ¬ Parks setup x) := by
  induction run generalizing L with
  | nil => exact ⟨L, soon, fun h => ⟨h, fun x mem => absurd mem List.not_mem_nil⟩, fun h => h.1⟩
  | @cons s s1 s' op out log e run ih =>
    have step : ∃ L1, Soon setup setup.nSlots s1 L1 ∧
        (L1 .excess = [] ↔ L .excess = [] ∧ ¬ Parks setup ⟨s, op, out⟩) := by
      have period := periods _ List.mem_cons_self
      cases op with
      | add timeUs argv => exact soon.add ring two e
      | flush => exact absurd period id
      | storeClockSource c => exact absurd period id
      | cycle nframes jack =>
        cases (period : nframes = setup.maxBufferSize)
        obtain ⟨out1, s2, L1, e1, soon1, same⟩ := soon.cycle ring enough jack
        cases e.symm.trans e1
        refine ⟨L1, soon1.mono (Nat.sub_le ..), ?_⟩
        have no : ¬ Parks setup (⟨s, .cycle setup.maxBufferSize jack, out⟩ : LogEntry α) := by
          rintro ⟨timeUs, argv, op, -⟩
          cases op
        rw [same]
        exact ⟨fun h => ⟨h, no⟩, fun h => h.1⟩
    obtain ⟨L1, soon1, iff1⟩ := step
    obtain ⟨L', soon', iff⟩ := ih (fun x mem => periods x (List.mem_cons_of_mem _ mem)) soon1
    refine ⟨L', soon', ?_⟩
    rw [iff, iff1, List.forall_mem_cons, and_assoc]

/-- `K` cycles without a call empty the slots. -/
lemma drained (ring : RingSetup setup) (enough : setup.nMaxFofs ≤ fuel) {K : Nat}
    (soon : Soon setup K s L) (jacks : List JackReading) :
    ∃ log s' L', execAll (exec fuel) s (jacks.map (.cycle setup.maxBufferSize ·)) = some (log, s') ∧
      Soon setup (K - jacks.length) s' L' ∧ L' .excess = L .excess := by
  induction jacks generalizing s L K with
  | nil => exact ⟨[], s, L, rfl, soon, rfl⟩
  | cons jack jacks ih =>
    obtain ⟨out, s1, L1, e1, soon1, same1⟩ := soon.cycle ring enough jack
    obtain ⟨log, s', L', e, soon', same⟩ := ih soon1
    refine ⟨⟨s, .cycle setup.maxBufferSize jack, out⟩ :: log, s', L', ?_, ?_, same.trans same1⟩
    · simp [execAll, e1, e]
    · rw [List.length_cons, Nat.add_comm, ← Nat.sub_sub]
      exact soon'

/-- With empty slots all cells are on the free list exactly if the excess list is empty. -/
lemma Soon.free_iff (soon : Soon setup 0 s L) :
    (∃ l, Seg s.q.next s.q.freeFofs l none ∧ l.Perm (List.range setup.nMaxFofs)) ↔
      L .excess = [] := by
  have free := soon.inv.holds.list (k := .free) trivial
  have part := soon.inv.holds.part
  constructor
  · rintro ⟨l, sg, perm⟩
    cases free.unique sg
    apply List.eq_nil_iff_forall_not_mem.2
    intro c mem
    have memf : c ∈ L .free := perm.mem_iff.2 (part.mem_cells mem)
    exact absurd (part.disjoint memf mem) fun h => nomatch h
  · intro empty
    refine ⟨L .free, free, part.perm_of_empty List.nodup_range fun k ne => ?_⟩
    cases k with
    | free => exact absurd rfl ne
    | slot j =>
      apply List.eq_nil_iff_forall_not_mem.2
      intro c mem
      obtain ⟨k, lt, -⟩ := soon.due mem
      exact absurd lt (Nat.not_lt_zero k)
    | excess => exact empty

/-- On the JACK frame clock with periods of one slot, after any calls and cycles: `n_slots` further
    cycles bring all cells back to the free list, where the next call finds one, if and only if no
    call before them was for a time beyond the window of the ring and found a free cell. -/
theorem pool_recovers_iff (setup : Setup) (ring : RingSetup setup) (two : 2 ≤ setup.maxBufferSize)
    (clock : jfofsClockSourceNormalize setup.clockSource = .jackFrameTime) (fuel : Nat)
    (enough : setup.nMaxFofs ≤ fuel) (q : FofQueue α) (ops : List (Op α))
    (periods : ∀ op ∈ ops, op.Periods (· = setup.maxBufferSize)) (jacks : List JackReading)
    (revolution : jacks.length = setup.nSlots) :
    ∃ log s log' s', execAll (exec fuel) (Sys.init setup q) ops = some (log, s) ∧
      execAll (exec fuel) s (jacks.map (.cycle setup.maxBufferSize ·)) = some (log', s') ∧
      (((∃ l, Seg s'.q.next s'.q.freeFofs l none ∧ l.Perm (List.range setup.nMaxFofs)) ∧
          ∀ timeUs argv, (fofQueueAdd s'.q timeUs argv).1 ≠ .fofLimitError) ↔
        ∀ x ∈ log, ¬ Parks setup x) := by
  have off : jfofsClockUsesTransport setup.clockSource = false := by
    rw [jfofsClockUsesTransport, clock]
    rfl
  have init : Soon setup setup.nSlots (Sys.init setup q) (initLists setup.nMaxFofs) :=
    ⟨sysInv_init ring.ok q, onFrameClock_init off q, fun mem => absurd mem List.not_mem_nil⟩
  obtain ⟨log, s, e, -⟩ := run_total ring.ok enough q ops
  obtain ⟨run, -⟩ := run_of_execAll e
  have periods := forall_op_of_execAll e periods
  obtain ⟨L1, soon1, iff1⟩ := soon_run ring two enough run periods init
  obtain ⟨log', s', L', e', soon', same⟩ := drained ring enough soon1 jacks
  rw [revolution, Nat.sub_self] at soon'
  have excess : L' .excess = [] ↔ ∀ x ∈ log, ¬ Parks setup x := by
    rw [same, iff1]
    exact ⟨fun h => h.2, fun h => ⟨rfl, h⟩⟩
  refine ⟨log, s, log', s', e, e', ?_⟩
  rw [← excess, ← soon'.free_iff]
  refine ⟨fun h => h.1, fun free => ⟨free, fun timeUs argv refused => ?_⟩⟩
  obtain ⟨status, q', L2, add, -, exact⟩ :=
    fofQueueAdd_exact soon'.inv.holds (soon'.inv.ringOk ring) soon'.inv.cacheOk timeUs argv
  rw [add] at refused
  have none := exact.limit.1 refused
  obtain ⟨l, sg, perm⟩ := free
  have length := perm.length_eq
  rw [sg.eq_nil_iff.2 none, List.length_range] at length
  exact absurd ring.nMaxFofs (by rw [← length]; exact Nat.not_succ_le_zero 0)

/-- An event for frame 3, in the last slot, is gone after two cycles. -/
theorem pool_recovers_one : ∃ (log log' : List (LogEntry Nat)) (s s' : Sys Nat),
    execAll (exec 1) (Sys.init (twoSlots 1) (.zero 0)) [.add 3 7] = some (log, s) ∧
      execAll (exec 1) s [.cycle 2 ⟨0, .stopped, 0⟩, .cycle 2 ⟨0, .stopped, 2⟩] = some (log', s') ∧
      s.q.freeFofs = none ∧ (∃ l, Seg s'.q.next s'.q.freeFofs l none ∧ l.Perm [0]) ∧
      (fofQueueAdd s'.q 5 8).1 ≠ .fofLimitError := by
  obtain ⟨log, s, log', s', e, e', iff⟩ := pool_recovers_iff (twoSlots 1) (twoSlots_ring (by decide))
    (by decide) rfl 1 (by decide) (.zero 0) [.add 3 7] (by decide) [⟨0, .stopped, 0⟩, ⟨0, .stopped, 2⟩] rfl
  have inside : (∀ x ∈ log, ¬ Parks (twoSlots 1) x) ∧ s.q.freeFofs = none := by
    cases Option.some.inj (e.symm.trans rfl)
    refine ⟨?_, rfl⟩
    rintro x mem ⟨timeUs, argv, op, -, beyond⟩
    cases List.mem_singleton.1 mem
    cases op
    exact absurd beyond (by decide)
  obtain ⟨free, add⟩ := iff.2 inside.1
  exact ⟨log, log', s, s', e, e', inside.2, free, add 5 8⟩

/-- An event for frame 4, beyond the window of two slots, keeps the only cell for good: two cycles
    later the free list is empty, and a call for frame 5, in the window from frame 4 on, is refused. -/
theorem pool_starved : ∃ (log log' : List (LogEntry Nat)) (s s' : Sys Nat),
    execAll (exec 1) (Sys.init (twoSlots 1) (.zero 0)) [.add 4 7] = some (log, s) ∧
      execAll (exec 1) s [.cycle 2 ⟨0, .stopped, 0⟩, .cycle 2 ⟨0, .stopped, 2⟩] = some (log', s') ∧
      s'.q.freeFofs = none ∧ s'.q.nextFrame = 4 ∧ jfofsTimeToNframes 5 s'.q.sampleRate = 5 ∧
      (fofQueueAdd s'.q 5 8).1 = .fofLimitError :=
  ⟨_, _, _, _, rfl, rfl, rfl, rfl, by decide, rfl⟩

end JackFofs
