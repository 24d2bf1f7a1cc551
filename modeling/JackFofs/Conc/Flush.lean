import JackFofs.Conc.Cache
import JackFofs.Conc.Lists

/-!
# Insertions and flushes

What one step of `fof_queue_add` and one step of a cycle do to the lists of events, the slots and the
excess list. A flush exchanges the slots in order and then the excess list; `CtrlPc.ahead` says that it
has yet to come to a list. Until then the list stays or is emptied (`ctrlStep_ahead`), afterwards only
the cycle's own exchange takes it (`ctrlStep_behind`). Nothing is assumed about the rest of the queue.
-/

namespace JackFofs

variable {α : Type}

/-- The lists of events: the slots of the ring and the excess list. -/
def HoldsEvents (n : Nat) : Place → Prop
  | .free => False
  | .slot j => j < n
  | .excess => True

/-- How many lists a flush exchanges before this one. -/
def Place.rank (n : Nat) : Place → Nat
  | .slot j => j
  | _ => n

/-- How many lists the flush has exchanged. -/
def FlushPc.rank (n : Nat) : FlushPc → Nat
  | .take i => i
  | .takeExcess => n
  | .walk i _ _ => i
  | .push i _ _ _ => i
  | .resetSlot => n + 1
  | .resetCheck => n + 1

/-- The cycle flushes, and has yet to exchange the list at `k`. -/
def CtrlPc.ahead (n : Nat) (k : Place) : CtrlPc → Bool
  | .readClock _ _ => true
  | .flush _ pc => pc.rank n ≤ k.rank n
  | _ => false

/-- The cycle has not published its `next_frame`. -/
def CtrlPc.unpublished : CtrlPc → Bool
  | .readClock _ _ => true
  | .flush _ _ => true
  | .publish _ => true
  | _ => false

/-- The step computes a slot from the `next_frame` it loads. -/
def computesSlot (q : FofQueue α) : AddPc → Bool
  | .loadFrame _ => true
  | .far _ nextFrame _ .check => q.nextFrame ≠ nextFrame
  | _ => false

/-- The clock source has changed or the transport has jumped. -/
def seesChange (q : FofQueue α) (ctrl : CtrlClient) (nframes : Nat) (jack : JackReading) : Bool :=
  let clockSource := ctrlCurrentClockSource q
  let stamp := getFramestamp clockSource jack
  clockSource ≠ ctrl.clockSource || ctrlTransportDiscontinuity ctrl nframes stamp.2 stamp.1

/-! ## The steps of the call -/

section Add

variable {q q' : FofQueue α} {timeUs : Nat} {argv : α} {pc pc' : AddPc} {ev : Ev α}

/-- The slot of an insertion under way exists. -/
def AddPc.Aims (n : Nat) : AddPc → Prop
  | .far _ _ slot _ => slot < n
  | .near _ _ slot _ => slot < n
  | _ => True

/-- The call has computed a slot. -/
def AddPc.computed : AddPc → Bool
  | .cache _ _ _ _ => true
  | .far _ _ _ _ => true
  | .near _ _ _ _ => true
  | .excess _ _ => true
  | _ => false

/-- On lists that are empty the cell of the call points to the value that its insertion expects. -/
def Expects (q : FofQueue α) : AddPc → Prop
  | .far fof _ _ (.cas expected) => q.next fof = expected
  | .near fof _ _ (.check head) => q.next fof = head
  | .near fof _ _ (.cas head) => q.next fof = head
  | .excess _ (.write head) => head = none
  | .excess fof .push => q.next fof = none
  | _ => True

lemma AddFlow.aims {t : Nat} (flow : AddFlow q t pc pc') (pos : 1 ≤ q.nSlots)
    (aims : pc.Aims q.nSlots) : pc'.Aims q.nSlots := by
  have calculated (fof : Addr) : (recalculatePc q fof t q.nextFrame).Aims q.nSlots := by
    obtain ⟨-, e⟩ | ⟨-, -, e⟩ | ⟨-, -, e⟩ := recalculatePc_cases q fof t q.nextFrame <;> rw [e] <;>
      trivial
  cases flow with
  | calculate => exact calculated _
  | recalculate => exact calculated _
  | chooseFar => exact targetSlot_lt_nSlots pos _
  | chooseNear => exact targetSlot_lt_nSlots pos _
  | far => exact aims
  | near => exact aims
  | _ => trivial

lemma AddFlow.computed {t : Nat} (flow : AddFlow q t pc pc') (done : pc'.computed = true) :
    computesSlot q pc = true ∨ pc.computed = true := by
  cases flow with
  | calculate => exact .inl rfl
  | recalculate ne => exact .inl (decide_eq_true ne)
  | _ => first | exact .inr done | exact .inr rfl

/-- A step keeps what the insertion relies on as long as the excess list is empty. -/
lemma addStep_expects (empty : q.excess = none)
    (expects : computesSlot q pc = false → Expects q pc)
    (e : addStep q timeUs argv pc = some (ev, pc', q')) : Expects q' pc' := by
  have calculated (fof : Addr) (s nextFrame : Nat) : Expects q (recalculatePc q fof s nextFrame) := by
    obtain ⟨-, e⟩ | ⟨-, -, e⟩ | ⟨-, -, e⟩ := recalculatePc_cases q fof s nextFrame <;> rw [e] <;>
      trivial
  cases addStep_cases e with
  | calculate => exact calculated ..
  | recalculate => exact calculated ..
  | farRead => rfl
  | nearWrite => rw [Expects, next_setNext, Function.update_self]
  | nearCheck => exact expects rfl
  | excessRead => exact empty
  | excessWrite =>
    rw [Expects, next_setNext, Function.update_self]
    exact expects rfl
  | _ => trivial

lemma Expects.congr (expects : Expects q pc) (next : ∀ c, q'.next c = q.next c) : Expects q' pc := by
  cases pc with
  | far fof nf slot fpc =>
    cases fpc with
    | cas expected => exact (next fof).trans expects
    | _ => trivial
  | near fof nf slot npc =>
    cases npc with
    | check head => exact (next fof).trans expects
    | cas head => exact (next fof).trans expects
    | _ => trivial
  | excess fof epc =>
    cases epc with
    | push => exact (next fof).trans expects
    | _ => exact expects
  | _ => trivial

section Insertion

variable {c : Addr} {k : Place}

lemma Insertion.heads (ins : Insertion q pc ev q') (at_k : ev.inserted = some (c, k)) :
    q'.head k = some c ∧ ∀ k', k' ≠ k → k' ≠ .free → q'.head k' = q.head k' := by
  cases ins with
  | far =>
    cases at_k
    exact ⟨head_setSlot_self .., fun k' ne _ => head_setSlot_of_ne ne⟩
  | near =>
    cases at_k
    exact ⟨head_setSlot_self .., fun k' ne _ => head_setSlot_of_ne ne⟩
  | excess =>
    cases at_k
    refine ⟨rfl, fun k' ne nf => ?_⟩
    cases k' with
    | free => exact absurd rfl nf
    | slot j => rfl
    | excess => exact absurd rfl ne

lemma Insertion.holdsEvents {n : Nat} (ins : Insertion q pc ev q') (at_k : ev.inserted = some (c, k))
    (aims : pc.Aims n) : HoldsEvents n k := by
  cases ins <;> cases at_k
  · exact aims
  · exact aims
  · trivial

/-- A cell that is inserted into an empty list points nowhere. -/
lemma Insertion.next_none (ins : Insertion q pc ev q') (at_k : ev.inserted = some (c, k))
    (expects : Expects q pc) (empty : q.head k = none) : q'.next c = none := by
  cases ins <;> cases at_k
  · exact Eq.trans expects empty
  · exact Eq.trans expects empty
  · exact expects

lemma Insertion.computed (ins : Insertion q pc ev q') :
    pc.computed = true ∧ computesSlot q pc = false := by
  cases ins <;> exact ⟨rfl, rfl⟩

lemma Insertion.event (ins : Insertion q pc ev q') :
    ∃ c k, ev.inserted = some (c, k) ∧ ev.given = none := by
  cases ins <;> exact ⟨_, _, rfl, rfl⟩

end Insertion

end Add

/-! ## The steps of the cycle -/

section Cycle

variable {q q' : FofQueue α} {ctrl ctrl' : CtrlClient} {cpc cpc' : CtrlPc} {ev : Ev α} {k : Place}
  {i m : Nat}

lemma HoldsEvents.ne_free {n : Nat} (holds : HoldsEvents n k) : k ≠ .free := by
  rintro rfl
  exact holds

lemma HoldsEvents.head_congr {n : Nat} (holds : HoldsEvents n k) (slot : q'.slot = q.slot)
    (excess : q'.excess = q.excess) : q'.head k = q.head k := by
  cases k with
  | free => exact absurd holds id
  | slot j => exact congrFun slot j
  | excess => exact excess

lemma HoldsEvents.rank_le {n : Nat} (holds : HoldsEvents n k) : k.rank n ≤ n := by
  cases k with
  | slot j => exact Nat.le_of_lt holds
  | _ => exact Nat.le_refl n

lemma flushFrom_rank (le : m ≤ q.nSlots) : (flushFrom q i).rank q.nSlots ≤ m ↔ i ≤ m := by
  rw [flushFrom]
  split
  · rfl
  · split
    · rename_i e
      rw [e]
      rfl
    · rw [FlushPc.rank]
      omega

lemma releaseFrom_rank {head : Option Addr} (le : m ≤ q.nSlots) :
    (releaseFrom q i head).rank q.nSlots ≤ m ↔ i ≤ m := by
  cases head with
  | none => exact flushFrom_rank le
  | some head => rfl

/-- The flush belongs to a cycle, and its next slot exists. -/
def CtrlPc.InCycle (n : Nat) : CtrlPc → Prop
  | .flush after pc => after ≠ .done ∧ ∀ i, pc = .take i → i < n
  | _ => True

lemma flushFrom_take (h : flushFrom q m = .take i) : i < q.nSlots := by
  rw [flushFrom] at h
  split at h
  · rename_i lt
    cases h
    exact lt
  · split at h <;> cases h

lemma releaseFrom_take {head : Option Addr} (h : releaseFrom q m head = .take i) : i < q.nSlots := by
  cases head with
  | none => exact flushFrom_take h
  | some head => cases h

/-- The flush goes on. -/
lemma FlushStep.take_lt {pc pc' : FlushPc} (step : FlushStep q pc ev (some pc') q')
    (h : pc' = .take i) : i < q.nSlots := by
  cases step with
  | @take j => exact releaseFrom_take (q := q.setSlot j none) h
  | takeExcess => exact releaseFrom_take h
  | pushed push =>
    have same := (pushStep_sameCache push).pair.params.nSlots
    rw [← same]
    exact flushFrom_take h
  | _ => cases h

/-- A flush that has not got to a list empties it or is still on its way there. -/
lemma FlushStep.ahead {pc : FlushPc} {rest : Option FlushPc} (holds : HoldsEvents q.nSlots k)
    (lt : ∀ i, pc = .take i → i < q.nSlots) (ahead : pc.rank q.nSlots ≤ k.rank q.nSlots)
    (step : FlushStep q pc ev rest q') :
    q'.head k = none ∨ ∃ pc', rest = some pc' ∧ pc'.rank q.nSlots ≤ k.rank q.nSlots := by
  have le := holds.rank_le
  cases step with
  | @take i =>
    have lt := lt i rfl
    by_cases here : k = .slot i
    · subst here
      exact .inl (Function.update_self ..)
    · have next : i + 1 ≤ k.rank q.nSlots := by
        cases k with
        | slot j =>
          have ne : j ≠ i := fun e => here (e ▸ rfl)
          exact Nat.lt_of_le_of_ne ahead (Ne.symm ne)
        | _ => exact lt
      exact .inr ⟨_, rfl, (releaseFrom_rank (q := q.setSlot i none) le).2 next⟩
  | takeExcess =>
    cases k with
    | free => exact absurd holds id
    | slot j => exact absurd holds (Nat.not_lt.2 ahead)
    | excess => exact .inl rfl
  | last => exact .inr ⟨_, rfl, ahead⟩
  | walk => exact .inr ⟨_, rfl, ahead⟩
  | push => exact .inr ⟨_, rfl, ahead⟩
  | pushed push =>
    have same := (pushStep_sameCache push).pair.params.nSlots
    refine .inr ⟨_, rfl, ?_⟩
    rw [← same] at le ahead ⊢
    exact (flushFrom_rank le).2 ahead
  | resetSlot =>
    have ahead : q.nSlots + 1 ≤ k.rank q.nSlots := ahead
    omega
  | resetCheck =>
    have ahead : q.nSlots + 1 ≤ k.rank q.nSlots := ahead
    omega

/-- A flush does not come back to a list. -/
lemma FlushStep.behind {pc : FlushPc} {rest : Option FlushPc} (holds : HoldsEvents q.nSlots k)
    (behind : k.rank q.nSlots < pc.rank q.nSlots) (step : FlushStep q pc ev rest q') :
    q'.head k = q.head k ∧ ∀ pc', rest = some pc' → k.rank q.nSlots < pc'.rank q.nSlots := by
  have le := holds.rank_le
  have released (q1 : FofQueue α) (i : Nat) (head : Option Addr) (same : q1.nSlots = q.nSlots)
      (lt : k.rank q.nSlots < i) (pc') (h : some (releaseFrom q1 i head) = some pc') :
      k.rank q.nSlots < pc'.rank q.nSlots := by
    cases h
    rw [← same] at le lt ⊢
    exact Nat.not_le.1 fun h => Nat.not_le.2 lt ((releaseFrom_rank le).1 h)
  have stays (pc1 : FlushPc) (lt : k.rank q.nSlots < pc1.rank q.nSlots) (pc') (h : some pc1 = some pc') :
      k.rank q.nSlots < pc'.rank q.nSlots := by
    cases h
    exact lt
  cases step with
  | take =>
    refine ⟨?_, released _ _ _ rfl (Nat.lt_succ_of_lt behind)⟩
    cases k with
    | slot j => exact Function.update_of_ne (Nat.ne_of_lt behind) ..
    | _ => rfl
  | takeExcess =>
    refine ⟨?_, released _ _ _ rfl (Nat.lt_succ_of_lt behind)⟩
    cases k with
    | excess => exact absurd behind (Nat.lt_irrefl _)
    | _ => rfl
  | last => exact ⟨rfl, stays _ behind⟩
  | walk => exact ⟨rfl, stays _ behind⟩
  | push push =>
    obtain ⟨slot, excess⟩ := pushStep_heads push
    exact ⟨holds.head_congr slot excess, stays _ behind⟩
  | @pushed i _ _ _ _ push =>
    obtain ⟨slot, excess⟩ := pushStep_heads push
    exact ⟨holds.head_congr slot excess,
      released q' i none (pushStep_sameCache push).pair.params.nSlots behind⟩
  | resetSlot => exact ⟨holds.head_congr rfl rfl, stays _ behind⟩
  | resetCheck => exact ⟨holds.head_congr rfl rfl, fun pc' h => absurd h.symm (Option.some_ne_none pc')⟩

/-- A cycle that has flushed does not flush again: without `syncronized` it sees no jump. -/
lemma afterFlush_publish (q : FofQueue α) (ctrl : CtrlClient) {after : AfterFlush}
    (cycle : after ≠ .done) :
    ∃ c, (afterFlush q ctrl after).1 = .publish c := by
  cases after with
  | done => exact absurd rfl cycle
  | mode c =>
    have still : ctrlTransportDiscontinuity { ctrl with syncronized := false } c.nframes
        c.transportState c.m = false := by
      simp [ctrlTransportDiscontinuity]
    exact ⟨c, by simp [afterFlush, afterMode, still]⟩
  | jump c => exact ⟨c, rfl⟩

lemma CtrlPc.inCycle_flushFrom (q : FofQueue α) (m : Nat) {after : AfterFlush} (cycle : after ≠ .done) :
    (CtrlPc.flush after (flushFrom q m)).InCycle q.nSlots :=
  ⟨cycle, fun _ h => flushFrom_take h⟩

lemma CtrlPc.inCycle_afterMode {c : Cycle} : (afterMode q ctrl c).InCycle q.nSlots := by
  rw [afterMode]
  split
  · exact inCycle_flushFrom q 0 (by simp)
  · trivial

lemma ctrlStep_inCycle (inCycle : cpc.InCycle q.nSlots)
    (e : ctrlStep q ctrl cpc = some (ev, cpc', ctrl', q')) : cpc'.InCycle q.nSlots := by
  cases ctrlStep_cases e with
  | changed => exact CtrlPc.inCycle_flushFrom q 0 (by simp)
  | unchanged => exact CtrlPc.inCycle_afterMode
  | flush step => exact ⟨inCycle.1, fun i h => step.take_lt h⟩
  | flushed step =>
    obtain ⟨c, publish⟩ := afterFlush_publish q' ctrl inCycle.1
    rw [publish]
    trivial
  | @take n =>
    generalize q.slot (slotOfFrame q n) = head
    cases head <;> trivial
  | _ => trivial

/-- A cycle that sees a change empties every list of events, or is still on its way to it. -/
lemma ctrlStep_ahead (holds : HoldsEvents q.nSlots k) (inCycle : cpc.InCycle q.nSlots)
    (observes : ∀ nframes jack, cpc = .readClock nframes jack →
      seesChange q ctrl nframes jack = true)
    (ahead : cpc.ahead q.nSlots k = true)
    (e : ctrlStep q ctrl cpc = some (ev, cpc', ctrl', q')) :
    q'.head k = none ∨ cpc'.ahead q.nSlots k = true := by
  have start (after : AfterFlush) : (CtrlPc.flush after (flushFrom q 0)).ahead q.nSlots k = true :=
    decide_eq_true ((flushFrom_rank holds.rank_le).2 (Nat.zero_le _))
  cases ctrlStep_cases e with
  | changed => exact .inr (start _)
  | @unchanged nframes jack same =>
    have sees := observes nframes jack rfl
    rw [seesChange, Bool.or_eq_true, decide_eq_true_eq] at sees
    have jump := sees.resolve_left (not_not_intro same)
    rw [afterMode, if_pos (by exact jump)]
    exact .inr (start _)
  | flush step =>
    obtain empty | ⟨pc1, h, ahead'⟩ := step.ahead holds inCycle.2 (of_decide_eq_true ahead)
    · exact .inl empty
    · cases h
      exact .inr (decide_eq_true ahead')
  | flushed step =>
    obtain empty | ⟨pc1, h, -⟩ := step.ahead holds inCycle.2 (of_decide_eq_true ahead)
    · exact .inl empty
    · cases h
  | _ => cases ahead

/-- Behind the flush only the cycle's own exchange takes a list. -/
lemma ctrlStep_behind (holds : HoldsEvents q.nSlots k) (inCycle : cpc.InCycle q.nSlots)
    (behind : cpc.ahead q.nSlots k = false)
    (e : ctrlStep q ctrl cpc = some (ev, cpc', ctrl', q')) :
    cpc'.ahead q.nSlots k = false ∧
      (q'.head k = q.head k ∨ ∃ n, cpc = .take n ∧ k = .slot (slotOfFrame q n)) := by
  cases ctrlStep_cases e with
  | changed => cases behind
  | unchanged => cases behind
  | flush step =>
    obtain ⟨same, behind'⟩ := step.behind holds (Nat.not_le.1 (of_decide_eq_false behind))
    exact ⟨decide_eq_false (Nat.not_le.2 (behind' _ rfl)), .inl same⟩
  | flushed step =>
    obtain ⟨same, -⟩ := step.behind holds (Nat.not_le.1 (of_decide_eq_false behind))
    obtain ⟨c, publish⟩ := afterFlush_publish q' ctrl inCycle.1
    rw [publish]
    exact ⟨rfl, .inl same⟩
  | @take n =>
    refine ⟨?_, ?_⟩
    · generalize q.slot (slotOfFrame q n) = head
      cases head <;> rfl
    · by_cases here : k = .slot (slotOfFrame q n)
      · exact .inr ⟨n, rfl, here⟩
      · have taken := holds.head_congr (q := q.setSlot (slotOfFrame q n) none) rfl rfl
        exact .inl (taken.trans (head_setSlot_of_ne here))
  | give push =>
    obtain ⟨slot, excess⟩ := pushStep_heads push
    exact ⟨rfl, .inl (holds.head_congr slot excess)⟩
  | given push =>
    obtain ⟨slot, excess⟩ := pushStep_heads push
    exact ⟨rfl, .inl (holds.head_congr slot excess)⟩
  | _ => exact ⟨rfl, .inl (holds.head_congr rfl rfl)⟩

/-- The controller inserts nothing, and hands the cell it has come to. -/
lemma ctrlStep_event (e : ctrlStep q ctrl cpc = some (ev, cpc', ctrl', q')) :
    ev.inserted = none ∧ ∀ c, ev.given = some c → ∃ n i, cpc = .hand n c i := by
  have plain {ev : Ev α} (given : ev.given = none) (c : Addr) (h : ev.given = some c) :
      ∃ n i, cpc = .hand n c i := nomatch given.symm.trans h
  have here {n i : Nat} {fof : Addr} (c : Addr) (h : (Ev.handed (dspAdd q i fof)).given = some c) :
      ∃ n' i', CtrlPc.hand n fof i = .hand n' c i' := by
    cases h
    exact ⟨n, i, rfl⟩
  cases ctrlStep_cases e with
  | flush step => cases step <;> exact ⟨rfl, plain rfl⟩
  | flushed step =>
    cases step with
    | resetCheck => exact ⟨rfl, plain rfl⟩
  | hand => exact ⟨rfl, here⟩
  | handLast => exact ⟨rfl, here⟩
  | handNone => exact ⟨rfl, here⟩
  | _ => exact ⟨rfl, plain rfl⟩

/-- A cycle publishes once, after its flush. -/
lemma ctrlStep_unpublished (inCycle : cpc.InCycle q.nSlots)
    (e : ctrlStep q ctrl cpc = some (ev, cpc', ctrl', q')) :
    if cpc.unpublished then cpc'.unpublished = true ∨ ∃ n c, cpc' = .stamp n c
    else cpc'.unpublished = false := by
  cases ctrlStep_cases e with
  | changed => exact .inl rfl
  | unchanged =>
    refine .inl ?_
    rw [afterMode]
    split <;> rfl
  | flush => exact .inl rfl
  | flushed =>
    obtain ⟨c, publish⟩ := afterFlush_publish q' ctrl inCycle.1
    rw [publish]
    exact .inl rfl
  | publishTransport => exact .inr ⟨_, _, rfl⟩
  | publish => exact .inr ⟨_, _, rfl⟩
  | @take n =>
    generalize q.slot (slotOfFrame q n) = head
    cases head <;> rfl
  | _ => rfl

lemma unpublished_of_ahead {n : Nat} (ahead : cpc.ahead n k = true) : cpc.unpublished = true := by
  cases cpc with
  | readClock nframes jack => rfl
  | flush after pc => rfl
  | _ => cases ahead

end Cycle

end JackFofs
