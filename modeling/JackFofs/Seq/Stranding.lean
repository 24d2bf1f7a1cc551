import JackFofs.Seq.FrameClock

/-!
# Periods longer than a slot

The buffer size callback of the controller does nothing, so JACK may run with periods longer than
`buffer_size`. A cycle then moves on by more than one block and can pass over slots. An event is
stranded when no cycle comes by its slot; which slots the cycles come by follows from `next_frame`
and the periods alone (`framesFrom`).
-/

namespace JackFofs
open Linked Runs

variable {α : Type} {setup : Setup} {s s' s1 : Sys α} {L L1 : Place → List Addr} {fuel e : Nat}
  {log before after : List (LogEntry α)} {a x : LogEntry α} {P due : Nat → Prop}
  {t timeUs : Nat} {argv : α}

/-- The event is in some slot list. -/
def Queued (setup : Setup) (s : Sys α) (e : Nat) : Prop :=
  ∃ j < setup.nSlots, ∃ c ∈ walk s.q.next setup.nMaxFofs (s.q.slot j), s.tag c = e

instance (setup : Setup) (s : Sys α) (e : Nat) : Decidable (Queued setup s e) :=
  inferInstanceAs (Decidable (∃ j < setup.nSlots, _))

/-- The frames of the cycles of a log. -/
def cycleFrames (log : List (LogEntry α)) : List Nat :=
  log.filterMap fun x => match x.out with
    | .cycled n _ => some n
    | _ => none

/-- The frames of the cycles among the operations, on the frame clock, from `next_frame = n` on. -/
def framesFrom (n : Nat) : List (Op α) → List Nat
  | [] => []
  | .cycle nframes _ :: ops => n :: framesFrom (u64 (n + nframes)) ops
  | _ :: ops => framesFrom n ops

lemma mem_cycleFrames {n : Nat} :
    n ∈ cycleFrames log ↔ ∃ x ∈ log, ∃ handed, x.out = .cycled n handed := by
  rw [cycleFrames, List.mem_filterMap]
  constructor
  · intro ⟨x, mem, e⟩
    cases out : x.out with
    | added status => simp [out] at e
    | done => simp [out] at e
    | cycled m handed =>
      simp only [out, Option.some.injEq] at e
      exact ⟨x, mem, handed, by rw [out, e]⟩
  · intro ⟨x, mem, handed, out⟩
    exact ⟨x, mem, by rw [out]⟩

lemma cycleAt_iff_frames (due : Nat → Prop) :
    (∃ x ∈ log, CycleAt due x) ↔ ∃ n ∈ cycleFrames log, due n := by
  constructor
  · intro ⟨x, mem, n, handed, out, now⟩
    exact ⟨n, mem_cycleFrames.2 ⟨x, mem, handed, out⟩, now⟩
  · intro ⟨n, mem, now⟩
    obtain ⟨x, mem, handed, out⟩ := mem_cycleFrames.1 mem
    exact ⟨x, mem, n, handed, out, now⟩

/-- On the frame clock the frames follow from `next_frame` and the periods. -/
lemma cycleFrames_eq (ok : SetupOk setup) (enough : setup.nMaxFofs ≤ fuel)
    (run : Run (exec fuel) s log s') (periods : ∀ x ∈ log, x.op.Periods P) (inv : SysInv setup s L)
    (clock : OnFrameClock s) :
    cycleFrames log = framesFrom s.q.nextFrame (log.map Entry.op) := by
  induction run generalizing L with
  | nil => rfl
  | @cons s s1 s' op out log run1 run ih =>
    obtain ⟨-, ⟨L1, inv1⟩, clock1, step⟩ := frame_step (x := ⟨s, op, out⟩) ok enough inv clock
      (periods _ List.mem_cons_self) run1
    have ih := ih (fun z mem => periods z (List.mem_cons_of_mem _ mem)) inv1 clock1
    cases step with
    | add op out nextFrame =>
      cases op
      cases out
      rw [nextFrame] at ih
      exact ih
    | cycle op _ out nextFrame =>
      cases op
      rw [nextFrame] at ih
      rw [cycleFrames, List.filterMap_cons, out, ← cycleFrames, ih]
      rfl

/-- Walking a slot list of the memory visits its cells. -/
lemma SysInv.walk_slot {j : Nat} (inv : SysInv setup s L) (has : s.q.Has (.slot j)) :
    walk s.q.next setup.nMaxFofs (s.q.slot j) = L (.slot j) := by
  have len := inv.holds.length_le (.slot j)
  rw [List.length_range] at len
  exact (inv.holds.list has).walk_eq len

lemma queued_of_pending {j : Nat} (inv : SysInv setup s L) (pd : Pending s L e j timeUs argv) :
    Queued setup s e := by
  obtain ⟨c, mem, tag, -⟩ := pd
  have has : s.q.Has (.slot j) := by
    apply Classical.byContradiction
    intro no
    rw [inv.holds.unused no] at mem
    exact List.not_mem_nil mem
  refine ⟨j, inv.nSlots ▸ has, c, ?_, tag⟩
  rw [inv.walk_slot has]
  exact mem

lemma not_queued_of_gone (inv : SysInv setup s L) (gone : Gone s L e) : ¬ Queued setup s e := by
  intro ⟨j, lt, c, mem, tag⟩
  rw [← inv.nSlots] at lt
  rw [inv.walk_slot lt] at mem
  have busy : (Place.slot j).Busy := slot_ne_free j
  exact gone.2 _ c busy mem tag

/-- An accepted event has left its slot exactly when a cycle has come by the slot. -/
lemma FrameAccepted.queued_iff (ring : RingSetup setup) (enough : setup.nMaxFofs ≤ fuel)
    (acc : FrameAccepted setup fuel before a after s1 s' L1 t timeUs argv) :
    ¬ Queued setup s' a.pre.count ↔
      ∃ n ∈ cycleFrames after, setup.slotOf n = setup.slotFor t a.pre.q.nextFrame := by
  rw [← cycleAt_iff_frames (setup.slotOf · = setup.slotFor t a.pre.q.nextFrame)]
  obtain ⟨comes, L', inv', gone⟩ | ⟨none, L', inv', pd⟩ :=
    pending_end ring.ok enough acc.run acc.quiet acc.inv acc.pending
  · exact ⟨fun _ => comes, fun _ => not_queued_of_gone inv' gone⟩
  · exact ⟨fun no => absurd (queued_of_pending inv' pd) no, fun ⟨x, mem, now⟩ => absurd now (none x mem)⟩

/-- With periods of at most one slot, no accepted event is left in a slot once a cycle after its
    start frame has ended. -/
lemma FrameAccepted.not_queued (ring : RingSetup setup) (enough : setup.nMaxFofs ≤ fuel)
    (acc : FrameAccepted setup fuel before a after s1 s' L1 t timeUs argv)
    (periods : ∀ x ∈ after, x.op.Periods (· ≤ setup.maxBufferSize))
    (late : ∃ n ∈ cycleFrames after, t < n) : ¬ Queued setup s' a.pre.count := by
  rw [acc.queued_iff ring enough,
    ← cycleAt_iff_frames (setup.slotOf · = setup.slotFor t a.pre.q.nextFrame)]
  obtain ⟨x, mem, late⟩ := (cycleAt_iff_frames (t < ·)).2 late
  obtain ⟨l1, l2, split⟩ := List.append_of_mem mem
  obtain ⟨y, memy, n, handed, out, block⟩ := acc.block_comes ring enough periods split late
  refine ⟨y, ?_, n, handed, out, ?_⟩
  · rw [split, List.append_cons]
    exact List.mem_append_left _ memy
  · show setup.slotOf n = setup.slotFor t a.pre.q.nextFrame
    rw [ring.slotOf_eq, block, Setup.slotFor, Setup.blockFor]

/-- On the JACK frame clock, with any positive periods: an accepted event has left its slot when
    `n_slots + 1` cycles after its start frame have ended if and only if some cycle since the call
    came by its slot. With periods of at most `buffer_size` one always does. -/
theorem stranding_iff (setup : Setup) (ring : RingSetup setup)
    (clock : jfofsClockSourceNormalize setup.clockSource = .jackFrameTime)
    (fuel : Nat) (enough : setup.nMaxFofs ≤ fuel) (q : FofQueue α) (ops : List (Op α))
    (periods : ∀ op ∈ ops, op.Periods (1 ≤ ·)) :
    ∃ log s', execAll (exec fuel) (Sys.init setup q) ops = some (log, s') ∧
      ∀ before a after timeUs argv t, log = before ++ a :: after → a.op = .add timeUs argv →
        a.out = .added .success → t = jfofsTimeToNframes timeUs setup.sampleRate →
        ∀ frames, frames = framesFrom a.pre.q.nextFrame (after.map Entry.op) →
          cycleFrames after = frames ∧
          ((setup.nSlots + 1 ≤ (frames.filter (t < ·)).length → ¬ Queued setup s' a.pre.count) ↔
            (setup.nSlots + 1 ≤ (frames.filter (t < ·)).length →
              ∃ n ∈ frames, setup.slotOf n = setup.slotFor t a.pre.q.nextFrame)) ∧
          ((∀ op ∈ after.map Entry.op, op.Periods (· ≤ setup.maxBufferSize)) →
            setup.nSlots + 1 ≤ (frames.filter (t < ·)).length →
              ¬ Queued setup s' a.pre.count) := by
  obtain ⟨log, s', e, main⟩ := frame_clock_run ring enough clock q periods
  refine ⟨log, s', e, fun before a after timeUs argv t split add accepted et frames ef => ?_⟩
  obtain ⟨periods, s1, L1, acc⟩ := main split add accepted et
  have frames_eq := cycleFrames_eq ring.ok enough acc.run periods acc.inv acc.clock
  rw [acc.queue.nextFrame, ← ef] at frames_eq
  have iff := acc.queued_iff ring enough
  rw [frames_eq] at iff
  refine ⟨frames_eq, imp_congr_right fun _ => iff, fun small many => ?_⟩
  apply acc.not_queued ring enough
  · exact fun x mem => small x.op (List.mem_map_of_mem mem)
  · rw [frames_eq]
    have pos : 0 < (frames.filter (t < ·)).length := by omega
    obtain ⟨n, mem⟩ := List.exists_mem_of_length_pos pos
    obtain ⟨mem, lt⟩ := List.mem_filter.1 mem
    exact ⟨n, mem, of_decide_eq_true lt⟩

/-- With periods of two frames an event for frame `2` has left its slot. -/
theorem stranding_iff_two : ∃ (a : LogEntry Nat) (after : List (LogEntry Nat)) (s' : Sys Nat),
    ((twoSlots 1).nSlots + 1 ≤ ([0, 2, 4, 6, 8].filter (2 < ·)).length →
      ¬ Queued (twoSlots 1) s' a.pre.count) ∧
    cycleFrames after = [0, 2, 4, 6, 8] ∧ a.op = .add 2 7 ∧ a.out = .added .success := by
  obtain ⟨log, s', e, main⟩ := stranding_iff (twoSlots 1) (twoSlots_ring (by decide)) rfl 1
    (Nat.le_refl 1) (.zero 0) (.add 2 7 :: List.replicate 5 (.cycle 2 ⟨0, .stopped, 0⟩)) (by decide)
  cases Option.some.inj (e.symm.trans rfl)
  obtain ⟨frames, -, small⟩ := main [] _ _ 2 7 2 rfl rfl rfl rfl [0, 2, 4, 6, 8] rfl
  exact ⟨_, _, _, small (by decide), frames, rfl, rfl⟩

/-- With periods of four frames the cycles only come by the first slot: an event for frame `2` is
    still in the second one after three cycles that begin after it. -/
theorem stranded : ∃ log s' a after,
    execAll (exec 1) (Sys.init (twoSlots 1) (.zero 0))
      (.add 2 7 :: List.replicate 4 (.cycle 4 ⟨0, .stopped, 0⟩)) = some (log, s') ∧
    log = a :: after ∧ a.op = .add 2 7 ∧ a.out = .added .success ∧
    (twoSlots 1).nSlots + 1 ≤
      ((cycleFrames after).filter (jfofsTimeToNframes 2 (twoSlots 1).sampleRate < ·)).length ∧
    Queued (twoSlots 1) s' a.pre.count :=
  ⟨_, _, _, _, rfl, rfl, rfl, rfl, by decide, by decide⟩

end JackFofs
