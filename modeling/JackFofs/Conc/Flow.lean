import JackFofs.Conc.Steps

/-!
# The control flow of `fof_queue_add`

The steps of `fof_queue_add` as edges between program counters, each with the test that leads along
it. Facts about where a call can get are case analyses of `AddFlow`.
-/

namespace JackFofs

variable {α : Type}

/-- The edges of `fof_queue_add` for an event with start frame `s` when the queue is `q`. -/
inductive AddFlow (q : FofQueue α) (s : Nat) : AddPc → AddPc → Prop where
  | loaded {fof} :
    q.freeFofs = some fof →
    AddFlow q s (.alloc .load) (.alloc (.read fof))
  | empty :
    q.freeFofs = none →
    AddFlow q s (.alloc .load) .idle
  | read {fof} :
    AddFlow q s (.alloc (.read fof)) (.alloc (.cas fof (q.next fof)))
  | popped {fof next} :
    q.freeFofs = some fof →
    AddFlow q s (.alloc (.cas fof next)) (.alloc (.clear fof))
  | again {fof next} :
    q.freeFofs ≠ some fof →
    AddFlow q s (.alloc (.cas fof next)) (.alloc .load)
  | got {fof} :
    AddFlow q s (.alloc (.clear fof)) (.fill fof)
  | filled {fof} :
    AddFlow q s (.fill fof) (.loadFrame fof)
  | calculate {fof} :
    AddFlow q s (.loadFrame fof) (recalculatePc q fof s q.nextFrame)
  | recalculate {fof nextFrame slot} :
    q.nextFrame ≠ nextFrame →
    AddFlow q s (.far fof nextFrame slot .check) (recalculatePc q fof s q.nextFrame)
  | cached {fof slotIdx} :
    AddFlow q s (.cache fof q.nextFrameCheck slotIdx .check)
      (.cache fof q.nextFrameCheck slotIdx .read)
  | outdated {fof nextFrame slotIdx} :
    nextFrame ≠ q.nextFrameCheck →
    AddFlow q s (.cache fof nextFrame slotIdx .check) (.cache fof nextFrame slotIdx .slot)
  | cacheSlot {fof nextFrame slotIdx} :
    AddFlow q s (.cache fof nextFrame slotIdx .slot) (.cache fof nextFrame slotIdx .frame)
  | cacheFrame {fof nextFrame slotIdx} :
    AddFlow q s (.cache fof nextFrame slotIdx .frame) (.cache fof nextFrame slotIdx .read)
  | chooseFar {fof nextFrame slotIdx} :
    u64 (nextFrame + q.bufferSize) < s →
    AddFlow q s (.cache fof nextFrame slotIdx .read)
      (.far fof nextFrame (targetSlot q slotIdx) .load)
  | chooseNear {fof nextFrame slotIdx} :
    ¬ u64 (nextFrame + q.bufferSize) < s →
    AddFlow q s (.cache fof nextFrame slotIdx .read)
      (.near fof nextFrame (targetSlot q slotIdx) .load)
  | far {fof nextFrame slot pc pc'} :
    AddFlow q s (.far fof nextFrame slot pc) (.far fof nextFrame slot pc')
  | near {fof nextFrame slot pc pc'} :
    AddFlow q s (.near fof nextFrame slot pc) (.near fof nextFrame slot pc')
  | overtaken {fof nextFrame slot head} :
    q.nextFrame ≠ nextFrame →
    AddFlow q s (.near fof nextFrame slot (.check head)) (.free fof .load)
  | beaten {fof nextFrame slot head} :
    q.slot slot ≠ head →
    AddFlow q s (.near fof nextFrame slot (.cas head)) (.free fof .load)
  | linkedFar {fof nextFrame slot} :
    AddFlow q s (.far fof nextFrame slot (.cas (q.slot slot))) .idle
  | linkedNear {fof nextFrame slot} :
    AddFlow q s (.near fof nextFrame slot (.cas (q.slot slot))) .idle
  | excess {fof pc pc'} :
    AddFlow q s (.excess fof pc) (.excess fof pc')
  | pushed {fof} :
    AddFlow q s (.excess fof .push) .idle
  | free {fof pc pc'} :
    AddFlow q s (.free fof pc) (.free fof pc')
  | freed {fof pc} :
    AddFlow q s (.free fof pc) .idle

/-- Every step of `fof_queue_add` follows an edge. -/
lemma addStep_flow {q q' : FofQueue α} {timeUs : Nat} {argv : α} {pc pc' : AddPc} {ev : Ev α}
    (e : addStep q timeUs argv pc = some (ev, pc', q')) :
    AddFlow q (startFrame q timeUs) pc pc' := by
  cases addStep_cases e with
  | loaded head => exact .loaded head
  | empty head => exact .empty head
  | read => exact .read
  | popped head => exact .popped head
  | again head => exact .again head
  | got => exact .got
  | filled => exact .filled
  | calculate => exact .calculate
  | cached same =>
    subst same
    exact .cached
  | outdated ne => exact .outdated ne
  | cacheSlot => exact .cacheSlot
  | cacheFrame => exact .cacheFrame
  | chooseFar ahead => exact .chooseFar ahead
  | chooseNear near => exact .chooseNear near
  | recalculate ne => exact .recalculate ne
  | linkedFar head =>
    subst head
    exact .linkedFar
  | overtaken ne => exact .overtaken ne
  | linkedNear head =>
    subst head
    exact .linkedNear
  | beaten ne => exact .beaten ne
  | farLoad | farWrite | farCheck | farRead | retry | farWriteBack => exact .far
  | nearLoad | nearWrite | nearCheck => exact .near
  | excessRead | excessWrite => exact .excess
  | pushed => exact .pushed
  | free => exact .free
  | freed => exact .freed

/-! ## Loads of `next_frame` -/

/-- Whether the step loads `q->next_frame`. -/
def AddPc.loadsFrame : AddPc → Bool
  | .loadFrame _ => true
  | .far _ _ _ .check => true
  | .near _ _ _ (.check _) => true
  | _ => false

/-- The local variable `next_frame`, where it is live. -/
def AddPc.nextFrame : AddPc → Option Nat
  | .cache _ nextFrame _ _ => some nextFrame
  | .far _ nextFrame _ _ => some nextFrame
  | .near _ nextFrame _ _ => some nextFrame
  | _ => none

/-! ## Where `recalculate` leads -/

/-- The three branches behind the label `recalculate`. -/
lemma recalculatePc_cases (q : FofQueue α) (fof : Addr) (s nextFrame : Nat) :
    (s < nextFrame ∧ recalculatePc q fof s nextFrame = .free fof .load) ∨
    (nextFrame ≤ s ∧ q.nSlots ≤ slotIndex q s nextFrame ∧
      recalculatePc q fof s nextFrame = .excess fof .read) ∨
    (nextFrame ≤ s ∧ slotIndex q s nextFrame < q.nSlots ∧ recalculatePc q fof s nextFrame =
      .cache fof nextFrame (slotIndex q s nextFrame) .check) := by
  unfold recalculatePc
  generalize slotIndex q s nextFrame = slotIdx
  by_cases late : s < nextFrame
  · exact .inl ⟨late, if_pos late⟩
  · rw [if_neg late]
    have le := Nat.not_lt.1 late
    by_cases big : slotIdx ≥ q.nSlots
    · exact .inr (.inl ⟨le, big, if_pos big⟩)
    · exact .inr (.inr ⟨le, Int.not_le.1 big, if_neg big⟩)

/-- The local variable is what the step loads, or what it was before. -/
lemma addStep_nextFrame {q q' : FofQueue α} {timeUs : Nat} {argv : α} {pc pc' : AddPc} {ev : Ev α}
    {nextFrame : Nat} (e : addStep q timeUs argv pc = some (ev, pc', q'))
    (live : pc'.nextFrame = some nextFrame) :
    if pc.loadsFrame then nextFrame = q.nextFrame else pc.nextFrame = some nextFrame := by
  have calculated {fof : Addr} {s : Nat}
      (live : (recalculatePc q fof s q.nextFrame).nextFrame = some nextFrame) :
      nextFrame = q.nextFrame := by
    obtain ⟨-, e⟩ | ⟨-, -, e⟩ | ⟨-, -, e⟩ := recalculatePc_cases q fof s q.nextFrame <;>
      rw [e] at live <;> cases live
    rfl
  cases addStep_cases e with
  | calculate => exact calculated live
  | recalculate => exact calculated live
  | farCheck same =>
    cases live
    exact same.symm
  | nearCheck same =>
    cases live
    exact same.symm
  | overtaken => cases live
  | linkedFar => cases live
  | linkedNear => cases live
  | beaten => cases live
  | _ => exact live

/-- An event inside the window of the ring, or late, does not take the excess branch. -/
lemma slotIndex_window {q : FofQueue α} {s nextFrame : Nat}
    (window : s < nextFrame + q.nSlots * q.bufferSize) (le : nextFrame ≤ s) :
    slotIndex q s nextFrame < q.nSlots := by
  have pos : 0 < q.bufferSize := by
    apply Nat.pos_of_ne_zero
    intro zero
    rw [zero] at window
    omega
  have lt : (s - nextFrame) / q.bufferSize < q.nSlots := by
    rw [Nat.div_lt_iff_lt_mul pos]
    omega
  have le : slotIndex q s nextFrame ≤ ((s - nextFrame) / q.bufferSize : Nat) := toInt32_le _
  omega

/-! ## Insertions -/

/-- The cell that the step inserts, and where. -/
def Ev.inserted : Ev α → Option (Addr × Place)
  | .linked fof slot => some (fof, .slot slot)
  | .excess fof => some (fof, .excess)
  | _ => none

/-- The cell that the step hands to a DSP client. -/
def Ev.given : Ev α → Option Addr
  | .handed d => some d.fof
  | _ => none

/-- The events of `fof_queue_add` that insert nothing. -/
def Ev.plain : Ev α → Bool
  | .quiet => true
  | .allocated _ => true
  | .limit => true
  | .late _ => true
  | _ => false

lemma Ev.of_plain {ev : Ev α} (plain : ev.plain = true) :
    ev.inserted = none ∧ ev.given = none ∧ ∀ n j head, ev ≠ .took n j head := by
  cases ev <;> cases plain <;> exact ⟨rfl, rfl, nofun⟩

/-- The steps that insert the cell of a call into a list of events. -/
inductive Insertion (q : FofQueue α) : AddPc → Ev α → FofQueue α → Prop where
  | far {fof nextFrame slot} :
    Insertion q (.far fof nextFrame slot (.cas (q.slot slot))) (.linked fof slot)
      (q.setSlot slot (some fof))
  | near {fof nextFrame slot} :
    Insertion q (.near fof nextFrame slot (.cas (q.slot slot))) (.linked fof slot)
      (q.setSlot slot (some fof))
  | excess {fof} :
    Insertion q (.excess fof .push) (.excess fof) { q with excess := some fof }

section Insertions

variable {q q' : FofQueue α} {timeUs : Nat} {argv : α} {pc pc' : AddPc} {ev : Ev α}

/-- Freeing touches no list of events. -/
lemma pushStep_heads {head tail : Addr} {ppc : PushPc} {r : Option PushPc}
    (e : pushStep q head tail ppc = (r, q')) : q'.slot = q.slot ∧ q'.excess = q.excess := by
  cases ppc with
  | cas expected =>
    simp only [pushStep] at e
    split at e <;> cases e <;> exact ⟨rfl, rfl⟩
  | _ =>
    cases e
    exact ⟨rfl, rfl⟩

/-- A step of `fof_queue_add` inserts its cell and is the last one, or it leaves the lists of events
    alone. -/
lemma addStep_inserts (e : addStep q timeUs argv pc = some (ev, pc', q')) :
    (Insertion q pc ev q' ∧ pc' = .idle) ∨
      (ev.plain = true ∧ q'.slot = q.slot ∧ q'.excess = q.excess) := by
  cases addStep_cases e with
  | linkedFar head =>
    subst head
    exact .inl ⟨.far, rfl⟩
  | linkedNear head =>
    subst head
    exact .inl ⟨.near, rfl⟩
  | pushed => exact .inl ⟨.excess, rfl⟩
  | free push => exact .inr ⟨rfl, pushStep_heads push⟩
  | freed push => exact .inr ⟨rfl, pushStep_heads push⟩
  | _ => exact .inr ⟨rfl, rfl, rfl⟩

/-- An event is linked by the compare-exchange of the far or of the near insertion. -/
lemma addStep_linked {fof : Addr} {slot : Nat}
    (e : addStep q timeUs argv pc = some (.linked fof slot, pc', q')) :
    ∃ nextFrame, (pc = .far fof nextFrame slot (.cas (q.slot slot)) ∨
        pc = .near fof nextFrame slot (.cas (q.slot slot))) ∧
      pc' = .idle ∧ q' = q.setSlot slot (some fof) := by
  obtain ⟨ins, done⟩ | ⟨no, -⟩ := addStep_inserts e
  · cases ins with
    | far => exact ⟨_, .inl rfl, done, rfl⟩
    | near => exact ⟨_, .inr rfl, done, rfl⟩
  · cases no

end Insertions

end JackFofs
