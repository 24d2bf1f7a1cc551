import JackFofs.Conc.Flow
import JackFofs.Conc.Lists
import JackFofs.Queue.Ring

/-!
# What a call of `fof_queue_add` has worked out

Behind `recalculate` a call knows the value of `next_frame` it works with, the number of blocks from
there to its event, and, once it has read the cached `current_slot`, its slot. `Planned` says that
these values fit its event, and that its cell carries the event. Every step keeps it (`Planned.step`)
as long as the pair in the cache fits when the call finds its own value of `next_frame` there.
-/

namespace JackFofs

variable {α : Type}

/-- The slot of the block of `s` when blocks are counted from `next_frame`. -/
def ringSlot (q : FofQueue α) (s nextFrame : Nat) : Nat :=
  (nextFrame / q.bufferSize + (s - nextFrame) / q.bufferSize) % q.nSlots

/-- The event is not late, and its slot index passes the test for the excess branch. -/
structure Ahead (q : FofQueue α) (s nextFrame : Nat) : Prop where
  le : nextFrame ≤ s
  lt : slotIndex q s nextFrame < q.nSlots

/-- The cell of a call carries its event. -/
def Carries (q : FofQueue α) (fof timeUs : Nat) (argv : α) : Prop :=
  q.payload fof = (timeUs, argv)

/-- What a call for the event has worked out. -/
def Planned (q : FofQueue α) (timeUs : Nat) (argv : α) : AddPc → Prop
  | .loadFrame fof => Carries q fof timeUs argv
  | .cache fof nextFrame slotIdx pc =>
    Carries q fof timeUs argv ∧ Ahead q (startFrame q timeUs) nextFrame ∧
      slotIdx = slotIndex q (startFrame q timeUs) nextFrame ∧
      (pc = .frame ∨ pc = .read → q.currentSlot = slotOfFrame q nextFrame)
  | .far fof nextFrame slot _ =>
    Carries q fof timeUs argv ∧ Ahead q (startFrame q timeUs) nextFrame ∧
      slot = ringSlot q (startFrame q timeUs) nextFrame
  | .near fof nextFrame slot _ =>
    Carries q fof timeUs argv ∧ Ahead q (startFrame q timeUs) nextFrame ∧
      slot = ringSlot q (startFrame q timeUs) nextFrame
  | .excess fof _ => Carries q fof timeUs argv
  | _ => True

/-- The part of a plan that is about the place of the event. -/
def Sited (q : FofQueue α) (timeUs : Nat) : AddPc → Prop
  | .cache _ nextFrame slotIdx pc =>
    Ahead q (startFrame q timeUs) nextFrame ∧
      slotIdx = slotIndex q (startFrame q timeUs) nextFrame ∧
      (pc = .frame ∨ pc = .read → q.currentSlot = slotOfFrame q nextFrame)
  | .far _ nextFrame slot _ | .near _ nextFrame slot _ =>
    Ahead q (startFrame q timeUs) nextFrame ∧ slot = ringSlot q (startFrame q timeUs) nextFrame
  | _ => True

/-- The cell that a call has filled and not yet given up. -/
def AddPc.filled : AddPc → Option Addr
  | .loadFrame fof => some fof
  | .cache fof _ _ _ => some fof
  | .far fof _ _ _ => some fof
  | .near fof _ _ _ => some fof
  | .excess fof _ => some fof
  | _ => none

lemma filled_mem {pc : AddPc} {fof : Addr} (filled : pc.filled = some fof) : fof ∈ pc.cells := by
  cases pc <;> cases filled <;> exact List.mem_singleton_self fof

/-- A plan is a filled cell and a place. -/
lemma planned_iff {q : FofQueue α} {timeUs : Nat} {argv : α} {pc : AddPc} :
    Planned q timeUs argv pc ↔
      (∀ fof, pc.filled = some fof → Carries q fof timeUs argv) ∧ Sited q timeUs pc := by
  cases pc <;> simp [Planned, Sited, AddPc.filled]

/-! ## What a step writes besides lists -/

section Writes

variable {q q' : FofQueue α}

/-- The events in the cells, the cached pair and the parameters of the queue are the same. -/
structure SameCache (q q' : FofQueue α) : Prop where
  clock : SameClock q q'
  payload : q'.payload = q.payload
  currentSlot : q'.currentSlot = q.currentSlot
  nextFrameCheck : q'.nextFrameCheck = q.nextFrameCheck

lemma SameCache.refl (q : FofQueue α) : SameCache q q := ⟨SameClock.refl q, rfl, rfl, rfl⟩

lemma SameCache.setNext (q : FofQueue α) (fof : Addr) (v : Option Addr) :
    SameCache q (q.setNext fof v) :=
  ⟨⟨rfl, rfl, rfl, rfl, rfl⟩, payload_setNext .., rfl, rfl⟩

lemma SameCache.of_fof (clock : SameClock q q') (fof : q'.fof = q.fof)
    (currentSlot : q'.currentSlot = q.currentSlot)
    (nextFrameCheck : q'.nextFrameCheck = q.nextFrameCheck) : SameCache q q' :=
  ⟨clock, payload_congr fof, currentSlot, nextFrameCheck⟩

lemma pushStep_sameCache {head tail : Addr} {pc : PushPc} {r : Option PushPc}
    (e : pushStep q head tail pc = (r, q')) : SameCache q q' := by
  cases pc with
  | load =>
    cases e
    exact .refl q
  | write fof =>
    cases e
    exact .setNext ..
  | read =>
    cases e
    exact .refl q
  | cas expected =>
    simp only [pushStep] at e
    split at e <;> cases e
    · exact .of_fof ⟨rfl, rfl, rfl, rfl, rfl⟩ rfl rfl rfl
    · exact .refl q
  | writeBack found =>
    cases e
    exact .setNext ..

/-- The steps of `fof_queue_add` that write events or the cache, and all others. -/
inductive AddWrites (q : FofQueue α) (timeUs : Nat) (argv : α) (pc : AddPc) : FofQueue α → Prop where
  | fill {fof} :
    pc = .fill fof →
    AddWrites q timeUs argv pc (setFof q fof timeUs argv)
  | slot {fof nextFrame slotIdx} :
    pc = .cache fof nextFrame slotIdx .slot →
    AddWrites q timeUs argv pc { q with currentSlot := slotOfFrame q nextFrame }
  | frame {fof nextFrame slotIdx} :
    pc = .cache fof nextFrame slotIdx .frame →
    AddWrites q timeUs argv pc { q with nextFrameCheck := nextFrame }
  | lists {q1} :
    (∀ fof, pc ≠ .fill fof) →
    (∀ fof nextFrame slotIdx, pc ≠ .cache fof nextFrame slotIdx .slot) →
    SameCache q q1 →
    AddWrites q timeUs argv pc q1

lemma addStep_writes {timeUs : Nat} {argv : α} {pc pc' : AddPc} {ev : Ev α}
    (e : addStep q timeUs argv pc = some (ev, pc', q')) : AddWrites q timeUs argv pc q' := by
  cases addStep_cases e with
  | filled => exact .fill rfl
  | cacheSlot => exact .slot rfl
  | cacheFrame => exact .frame rfl
  | got | farWrite | farWriteBack | nearWrite | excessWrite =>
    exact .lists (by simp) (by simp) (.setNext ..)
  | popped | linkedFar | linkedNear | pushed =>
    exact .lists (by simp) (by simp) (.of_fof ⟨rfl, rfl, rfl, rfl, rfl⟩ rfl rfl rfl)
  | free push => exact .lists (by simp) (by simp) (pushStep_sameCache push)
  | freed push => exact .lists (by simp) (by simp) (pushStep_sameCache push)
  | _ => exact .lists (by simp) (by simp) (.refl q)

lemma addStep_clock {timeUs : Nat} {argv : α} {pc pc' : AddPc} {ev : Ev α}
    (e : addStep q timeUs argv pc = some (ev, pc', q')) : SameClock q q' := by
  cases addStep_writes e with
  | lists _ _ same => exact same.clock
  | _ => exact ⟨rfl, rfl, rfl, rfl, rfl⟩

end Writes

/-! ## The plan is kept -/

section Plan

variable {q q' : FofQueue α} {timeUs : Nat} {argv : α} {pc pc' : AddPc}

/-- The parameters of the queue are the same. -/
structure SameParams (q q' : FofQueue α) : Prop where
  nSlots : q'.nSlots = q.nSlots
  sampleRate : q'.sampleRate = q.sampleRate
  bufferSize : q'.bufferSize = q.bufferSize

lemma SameClock.params (clock : SameClock q q') : SameParams q q' :=
  ⟨clock.nSlots, clock.sampleRate, clock.bufferSize⟩

lemma SameParams.startFrame (same : SameParams q q') (timeUs : Nat) :
    startFrame q' timeUs = startFrame q timeUs := by
  rw [JackFofs.startFrame, JackFofs.startFrame, same.sampleRate]

lemma SameParams.slotIndex (same : SameParams q q') (s nextFrame : Nat) :
    slotIndex q' s nextFrame = slotIndex q s nextFrame := by
  rw [JackFofs.slotIndex, JackFofs.slotIndex, same.bufferSize]

lemma SameParams.slotOfFrame (same : SameParams q q') (n : Nat) :
    slotOfFrame q' n = slotOfFrame q n := by
  rw [JackFofs.slotOfFrame, JackFofs.slotOfFrame, same.bufferSize, same.nSlots]

lemma SameParams.ringSlot (same : SameParams q q') (s nextFrame : Nat) :
    ringSlot q' s nextFrame = ringSlot q s nextFrame := by
  rw [JackFofs.ringSlot, JackFofs.ringSlot, same.bufferSize, same.nSlots]

lemma SameParams.ahead (same : SameParams q q') {s nextFrame : Nat} (ahead : Ahead q s nextFrame) :
    Ahead q' s nextFrame := by
  refine ⟨ahead.le, ?_⟩
  rw [same.slotIndex, same.nSlots]
  exact ahead.lt

/-- A place survives what keeps a cached slot that it relies on. -/
lemma Sited.congr (sited : Sited q timeUs pc) (same : SameParams q q')
    (cached : ∀ fof nextFrame slotIdx cpc, pc = .cache fof nextFrame slotIdx cpc →
      cpc = .frame ∨ cpc = .read → q.currentSlot = slotOfFrame q nextFrame →
      q'.currentSlot = slotOfFrame q' nextFrame) : Sited q' timeUs pc := by
  cases pc with
  | cache fof nextFrame slotIdx cpc =>
    obtain ⟨ahead, idx, slot⟩ := sited
    rw [← same.startFrame] at ahead idx
    rw [← same.slotIndex] at idx
    exact ⟨same.ahead ahead, idx, fun h => cached fof nextFrame slotIdx cpc rfl h (slot h)⟩
  | far fof nextFrame slot fpc =>
    obtain ⟨ahead, eq⟩ := sited
    rw [← same.startFrame] at ahead eq
    rw [← same.ringSlot] at eq
    exact ⟨same.ahead ahead, eq⟩
  | near fof nextFrame slot npc =>
    obtain ⟨ahead, eq⟩ := sited
    rw [← same.startFrame] at ahead eq
    rw [← same.ringSlot] at eq
    exact ⟨same.ahead ahead, eq⟩
  | _ => trivial

lemma Sited.of_sameCache (sited : Sited q timeUs pc) (same : SameCache q q') :
    Sited q' timeUs pc := by
  apply sited.congr same.clock.params
  intro fof nextFrame slotIdx cpc _ _ cached
  rw [same.currentSlot, same.clock.params.slotOfFrame]
  exact cached

/-- A plan survives what leaves its cell alone and keeps a cached slot that it relies on. -/
lemma Planned.congr (plan : Planned q timeUs argv pc) (same : SameParams q q')
    (payload : ∀ fof ∈ pc.cells, q'.payload fof = q.payload fof)
    (cached : ∀ fof nextFrame slotIdx cpc, pc = .cache fof nextFrame slotIdx cpc →
      q.currentSlot = slotOfFrame q nextFrame → q'.currentSlot = slotOfFrame q' nextFrame) :
    Planned q' timeUs argv pc := by
  obtain ⟨carries, sited⟩ := planned_iff.1 plan
  refine planned_iff.2 ⟨fun fof filled => ?_,
    sited.congr same fun fof nf idx cpc epc _ => cached fof nf idx cpc epc⟩
  exact (payload fof (filled_mem filled)).trans (carries fof filled)

/-- Any value of `next_frame` is a good one to start with. -/
lemma sited_recalculatePc (fof : Addr) (nextFrame : Nat) :
    Sited q timeUs (recalculatePc q fof (startFrame q timeUs) nextFrame) := by
  obtain ⟨-, e⟩ | ⟨-, -, e⟩ | ⟨le, lt, e⟩ :=
    recalculatePc_cases q fof (startFrame q timeUs) nextFrame
  · rw [e]
    trivial
  · rw [e]
    trivial
  · rw [e]
    refine ⟨⟨le, lt⟩, rfl, fun h => ?_⟩
    obtain h | h := h <;> cases h

lemma filled_recalculatePc {fof fof' : Addr} {s nextFrame : Nat}
    (filled : (recalculatePc q fof s nextFrame).filled = some fof') : fof' = fof := by
  obtain ⟨-, e⟩ | ⟨-, -, e⟩ | ⟨-, -, e⟩ := recalculatePc_cases q fof s nextFrame <;>
    rw [e] at filled <;> cases filled <;> rfl

/-- The slot that a call picks is the slot of the block of its event. -/
lemma targetSlot_ringSlot (ring : RingOk q) (timeUs : Nat) {nextFrame : Nat}
    (cached : q.currentSlot = slotOfFrame q nextFrame) :
    targetSlot q (slotIndex q (startFrame q timeUs) nextFrame) =
      ringSlot q (startFrame q timeUs) nextFrame := by
  apply targetSlot_of_cached ring cached
  have le := Nat.div_le_self (startFrame q timeUs - nextFrame) q.bufferSize
  have lt : startFrame q timeUs < 2 ^ 32 := jfofsTimeToNframes_lt ..
  omega

/-- Every step of a call keeps its place, if the cache fits when the call uses it. -/
lemma Sited.step {ev : Ev α} (ring : RingOk q) (sited : Sited q timeUs pc)
    (cache : ∀ fof slotIdx, pc = .cache fof q.nextFrameCheck slotIdx .check → CacheOk q)
    (e : addStep q timeUs argv pc = some (ev, pc', q')) : Sited q' timeUs pc' := by
  have writes := addStep_writes e
  have flow := addStep_flow e
  cases writes with
  | @fill fof epc =>
    subst epc
    cases flow
    trivial
  | @slot fof nextFrame slotIdx epc =>
    subst epc
    cases flow
    obtain ⟨ahead, idx, -⟩ := sited
    exact ⟨⟨ahead.le, ahead.lt⟩, idx, fun _ => rfl⟩
  | @frame fof nextFrame slotIdx epc =>
    subst epc
    cases flow
    obtain ⟨ahead, idx, slot⟩ := sited
    exact ⟨⟨ahead.le, ahead.lt⟩, idx, fun _ => slot (.inl rfl)⟩
  | lists noFill noSlot same =>
    refine Sited.of_sameCache ?_ same
    cases flow with
    | filled => exact absurd rfl (noFill _)
    | cacheSlot => exact absurd rfl (noSlot _ _ _)
    | calculate => exact sited_recalculatePc _ _
    | recalculate => exact sited_recalculatePc _ _
    | @cached fof slotIdx =>
      obtain ⟨ahead, idx, -⟩ := sited
      exact ⟨ahead, idx, fun _ => cache fof slotIdx rfl⟩
    | outdated =>
      obtain ⟨ahead, idx, -⟩ := sited
      refine ⟨ahead, idx, fun h => ?_⟩
      obtain h | h := h <;> cases h
    | cacheFrame =>
      obtain ⟨ahead, idx, slot⟩ := sited
      exact ⟨ahead, idx, fun _ => slot (.inl rfl)⟩
    | chooseFar =>
      obtain ⟨ahead, idx, slot⟩ := sited
      have eq := targetSlot_ringSlot ring timeUs (slot (.inr rfl))
      rw [← idx] at eq
      exact ⟨ahead, eq⟩
    | chooseNear =>
      obtain ⟨ahead, idx, slot⟩ := sited
      have eq := targetSlot_ringSlot ring timeUs (slot (.inr rfl))
      rw [← idx] at eq
      exact ⟨ahead, eq⟩
    | far => exact sited
    | near => exact sited
    | _ => trivial

/-- A step fills the cell that `set_fof` is about, or the call has filled it before. -/
lemma AddFlow.filled_of {s : Nat} {fof : Addr} (flow : AddFlow q s pc pc')
    (filled : pc'.filled = some fof) : pc = .fill fof ∨ pc.filled = some fof := by
  cases flow with
  | filled =>
    cases filled
    exact .inl rfl
  | calculate => exact .inr (congrArg some (filled_recalculatePc filled).symm)
  | recalculate => exact .inr (congrArg some (filled_recalculatePc filled).symm)
  | cached => exact .inr filled
  | outdated => exact .inr filled
  | cacheSlot => exact .inr filled
  | cacheFrame => exact .inr filled
  | chooseFar => exact .inr filled
  | chooseNear => exact .inr filled
  | far => exact .inr filled
  | near => exact .inr filled
  | excess => exact .inr filled
  | _ => cases filled

/-- The cell that a call has filled keeps its event at every step. -/
lemma carries_step {ev : Ev α} (carries : ∀ fof, pc.filled = some fof → Carries q fof timeUs argv)
    (e : addStep q timeUs argv pc = some (ev, pc', q')) :
    ∀ fof, pc'.filled = some fof → Carries q' fof timeUs argv := by
  intro fof filled
  obtain epc | before := (addStep_flow e).filled_of filled
  · subst epc
    cases e
    rw [Carries, payload_setFof, Function.update_self]
  · cases addStep_writes e with
    | @fill fof' epc =>
      subst epc
      cases before
    | slot => exact carries fof before
    | frame => exact carries fof before
    | lists _ _ same =>
      rw [Carries, same.payload]
      exact carries fof before

/-- Every step of a call keeps its plan, if the cache fits when the call uses it. -/
lemma Planned.step {ev : Ev α} (ring : RingOk q) (plan : Planned q timeUs argv pc)
    (cache : ∀ fof slotIdx, pc = .cache fof q.nextFrameCheck slotIdx .check → CacheOk q)
    (e : addStep q timeUs argv pc = some (ev, pc', q')) : Planned q' timeUs argv pc' := by
  obtain ⟨carries, sited⟩ := planned_iff.1 plan
  exact planned_iff.2 ⟨carries_step carries e, sited.step ring cache e⟩

end Plan

end JackFofs
