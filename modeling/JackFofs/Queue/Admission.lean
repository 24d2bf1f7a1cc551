import JackFofs.Queue.Ring

/-!
# The admission window

Which status `fof_queue_add` returns, run alone on a queue with a free cell, for the start frame `s`
it computes (`fofQueueAdd_status`), and when this is what the documentation promises for the exact
frame `f` (`admission_iff`). The two differ because `jfofs_time_to_nframes` keeps 32 bits of `f`.
-/

namespace JackFofs

variable {α : Type} {q : FofQueue α}

/-- The first frame after the window. -/
def FofQueue.windowEnd (q : FofQueue α) : Nat := q.nextFrame + q.nSlots * q.bufferSize

/-- The documented rule for the exact frame `f`. -/
def Documented (q : FofQueue α) (f : Nat) (status : JfofsStatus) : Prop :=
  (status = .fofLateWarning ↔ f < q.nextFrame) ∧
  (status = .success ↔ q.nextFrame ≤ f ∧ f < q.windowEnd) ∧
  (status = .fofExcessInfo ↔ q.windowEnd ≤ f)

lemma recalculate_status {c s nextFrame : Nat} (same : q.nextFrame = nextFrame)
    (small : (s - nextFrame) / q.bufferSize < 2 ^ 31) :
    (recalculate q c s nextFrame).1 =
      if s < nextFrame then .fofLateWarning
      else if q.nSlots ≤ (s - nextFrame) / q.bufferSize then .fofExcessInfo
      else .success := by
  by_cases late : s < nextFrame
  · rw [recalculate, if_pos late, if_pos late]
  · rw [if_neg late]
    have e := slotIndex_eq small
    by_cases far : q.nSlots ≤ (s - nextFrame) / q.bufferSize
    · have far' : q.nSlots ≤ slotIndex q s nextFrame := by
        rw [e]
        omega
      rw [recalculate_excess (Nat.le_of_not_lt late) far', if_pos far]
    · have inside : slotIndex q s nextFrame < q.nSlots := by
        rw [e]
        omega
      rw [recalculate_success same (Nat.le_of_not_lt late) inside, if_neg far]

/-- The three exits of `fof_queue_add` on a queue with a free cell. -/
lemma fofQueueAdd_status {c s : Nat} (free : q.freeFofs = some c) (timeUs : Nat) (argv : α)
    (es : s = jfofsTimeToNframes timeUs q.sampleRate) (pos : 1 ≤ q.bufferSize)
    (small : (s - q.nextFrame) / q.bufferSize < 2 ^ 31) :
    (fofQueueAdd q timeUs argv).1 =
      if s < q.nextFrame then .fofLateWarning
      else if s < q.windowEnd then .success
      else .fofExcessInfo := by
  rw [fofQueueAdd_some free, ← es]
  apply (recalculate_status (filled_sameClock ..).nextFrame small).trans
  show (if s < q.nextFrame then JfofsStatus.fofLateWarning
    else if q.nSlots ≤ (s - q.nextFrame) / q.bufferSize then .fofExcessInfo else .success) = _
  by_cases late : s < q.nextFrame
  · rw [if_pos late, if_pos late]
  · have window : q.nSlots ≤ (s - q.nextFrame) / q.bufferSize ↔ ¬ s < q.windowEnd := by
      rw [Nat.le_div_iff_mul_le pos, FofQueue.windowEnd]
      omega
    rw [if_neg late, if_neg late]
    by_cases inside : s < q.windowEnd
    · rw [if_pos inside, if_neg fun far => window.1 far inside]
    · rw [if_neg inside, if_pos (window.2 inside)]

/-- The documented rule for the frame the code computes. -/
lemma documented_of_status {s : Nat} (status : JfofsStatus)
    (e : status = if s < q.nextFrame then .fofLateWarning
      else if s < q.windowEnd then .success else .fofExcessInfo) : Documented q s status := by
  have le : q.nextFrame ≤ q.windowEnd := Nat.le_add_right _ _
  subst e
  by_cases late : s < q.nextFrame
  · rw [if_pos late]
    refine ⟨⟨fun _ => late, fun _ => rfl⟩, ⟨nofun, fun h => ?_⟩, ⟨nofun, fun h => ?_⟩⟩
    · omega
    · omega
  · rw [if_neg late]
    by_cases inside : s < q.windowEnd
    · rw [if_pos inside]
      refine ⟨⟨nofun, fun h => absurd h late⟩, ⟨fun _ => ?_, fun _ => rfl⟩, ⟨nofun, fun h => ?_⟩⟩
      · exact ⟨Nat.le_of_not_lt late, inside⟩
      · omega
    · rw [if_neg inside]
      refine ⟨⟨nofun, fun h => absurd h late⟩, ⟨nofun, fun h => absurd h.2 inside⟩,
        ⟨fun _ => Nat.le_of_not_lt inside, fun _ => rfl⟩⟩

/-- The rule for two frames gives the same status if and only if they are on the same side of both
    bounds of the window. -/
lemma documented_iff {s f : Nat} {status : JfofsStatus} (doc : Documented q s status) :
    Documented q f status ↔
      (s < q.nextFrame ↔ f < q.nextFrame) ∧ (s < q.windowEnd ↔ f < q.windowEnd) := by
  have le : q.nextFrame ≤ q.windowEnd := Nat.le_add_right _ _
  obtain ⟨late, inside, far⟩ := doc
  rw [Documented, late, inside, far]
  omega

/-- A call of `fof_queue_add` run alone on a queue with a free cell, with `f` the exact frame of its
    time, returns what the documentation says if and only if cutting `f` to 32 bits does not move it
    across a bound of the window. -/
theorem admission_iff (q : FofQueue α) (ring : RingOk q) (two_le : 2 ≤ q.bufferSize) (c : Addr)
    (free : q.freeFofs = some c) (timeUs : Nat) (argv : α)
    (small : timeUs * q.sampleRate < 2 ^ 64) (f : Nat) (ef : f = timeUs * q.sampleRate / 1000000) :
    (((fofQueueAdd q timeUs argv).1 = .fofLateWarning ↔ f < q.nextFrame) ∧
      ((fofQueueAdd q timeUs argv).1 = .success ↔
        q.nextFrame ≤ f ∧ f < q.nextFrame + q.nSlots * q.bufferSize) ∧
      ((fofQueueAdd q timeUs argv).1 = .fofExcessInfo ↔
        q.nextFrame + q.nSlots * q.bufferSize ≤ f)) ↔
    (f < 2 ^ 32 ∨ f < q.nextFrame ∨ (q.nextFrame ≤ f % 2 ^ 32 ∧
      (f % 2 ^ 32 < q.nextFrame + q.nSlots * q.bufferSize ↔
        f < q.nextFrame + q.nSlots * q.bufferSize))) := by
  have es : f % 2 ^ 32 = jfofsTimeToNframes timeUs q.sampleRate := by
    rw [jfofsTimeToNframes, u64_of_lt small, ← ef]
    rfl
  have lt : f % 2 ^ 32 < 2 ^ 32 := Nat.mod_lt _ (by decide)
  have le_f : f % 2 ^ 32 ≤ f := Nat.mod_le _ _
  have index : (f % 2 ^ 32 - q.nextFrame) / q.bufferSize < 2 ^ 31 := by
    have le : (f % 2 ^ 32 - q.nextFrame) / q.bufferSize ≤ (f % 2 ^ 32 - q.nextFrame) / 2 :=
      Nat.div_le_div_left two_le (by decide)
    omega
  have status := fofQueueAdd_status free timeUs argv es ring.bufferSize_pos index
  have doc := documented_of_status _ status
  have le : q.nextFrame ≤ q.windowEnd := Nat.le_add_right _ _
  apply (documented_iff doc).trans
  rw [← FofQueue.windowEnd]
  by_cases low : f < 2 ^ 32
  · rw [Nat.mod_eq_of_lt low]
    omega
  · omega

/-- A ring of 32 slots of 256 frames at 48 kHz, with one cell. -/
def smallServer : Setup where
  clockSource := 1
  nClients := 1
  nMaxFofs := 1
  nSlots := 32
  sampleRate := 48000
  maxBufferSize := 256

lemma smallServer_ring : RingOk (fofQueueInit (.zero 0) smallServer) :=
  ⟨⟨5, rfl⟩, by decide, by decide, by decide⟩

/-- An event for frame `48` of an empty queue is admitted. -/
theorem admission_iff_initial :
    ((fofQueueAdd (fofQueueInit (.zero 0) smallServer) 1000 7).1 = .success ↔
      0 ≤ 48 ∧ 48 < 0 + 32 * 256) :=
  ((admission_iff _ smallServer_ring (by decide) 0 rfl 1000 7 (by decide) 48 rfl).2
    (.inl (by decide))).2.1

/-- At the start, an event `2 ^ 32` frames ahead is accepted into the first slot,
    though the window ends at frame `8192`. -/
theorem admission_wraps :
    89478485334 * smallServer.sampleRate < 2 ^ 64 ∧
      (fofQueueAdd (fofQueueInit (.zero 0) smallServer) 89478485334 7).1 = .success ∧
      (fofQueueInit (.zero 0) smallServer).nextFrame +
        (fofQueueInit (.zero 0) smallServer).nSlots *
          (fofQueueInit (.zero 0) smallServer).bufferSize ≤
        89478485334 * (fofQueueInit (.zero 0) smallServer).sampleRate / 1000000 := by
  decide

end JackFofs
