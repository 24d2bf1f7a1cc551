import JackFofs.Conc.Flush

/-!
# A flush and an add

One call of `fof_queue_add` and one cycle that flushes, in any interleaving. The cycle exchanges the
slots in order and then the excess list, and publishes its `next_frame` afterwards. An event whose slot
was computed before that belongs to the old timeline: it goes away if its insertion comes before the
exchange of its list, and survives otherwise (`nothing_old_iff`).
-/

namespace JackFofs
open Linked Runs

variable {α : Type}

/-- The last step that computes a slot. -/
def lastComputing (log : List (Step α)) : Option (Step α) :=
  log.reverse.find? fun x => computesSlot x.pre.q (x.op.pc x.pre)

/-- Whether `next_frame` was one from before the cycle when the call computed its slot. -/
def computedOld (log : List (Step α)) : Option Bool :=
  (lastComputing log).map fun x => x.pre.cpc.unpublished

/-- If the cycle reads its clock with the action, it sees a change. -/
def Act.observes (s : Machine α) : Act α → Bool
  | .ctrlStep =>
    match s.cpc with
    | .readClock nframes jack => seesChange s.q s.ctrl nframes jack
    | _ => true
  | _ => true

/-- The steps of the call and of the cycle; clients may store clock sources. -/
def Act.among (p : Nat) : Act α → Bool
  | .step p' => p' = p
  | .ctrlStep => true
  | .storeClockSource _ => true
  | _ => false

/-- The cell is on the list at `k`. -/
def OnList (q : FofQueue α) (k : Place) (c : Addr) : Prop :=
  ∃ l, Seg q.next (q.head k) l (some c)

/-- The event in the cell was inserted by the call, with a slot computed from the `next_frame` that the
    cycle has published. -/
def Renewed (log : List (Step α)) (c : Addr) : Prop :=
  computedOld log = some false ∧ ∃ y ∈ log, ∃ k, y.out.inserted = some (c, k)

/-- No event of the old timeline is left on a list, and the cycle has handed none to a DSP client. -/
def NothingOld (log : List (Step α)) (s : Machine α) : Prop :=
  (∀ k c, HoldsEvents s.q.nSlots k → OnList s.q k c → Renewed log c) ∧
    ∀ y ∈ log, ∀ c, y.out.given = some c → Renewed log c

/-- If the slot was computed before the cycle published, the insertion comes before the exchange of its
    list. -/
def InsertsAhead (log : List (Step α)) : Prop :=
  computedOld log = some true → ∀ y ∈ log, ∀ c k, y.out.inserted = some (c, k) →
    y.pre.cpc.ahead y.pre.q.nSlots k = true

/-! ## The invariant -/

section Log

variable {l : List (Step α)} {x : Step α} {p : Nat}

lemma computedOld_snoc (l : List (Step α)) (x : Step α) :
    computedOld (l ++ [x]) =
      if computesSlot x.pre.q (x.op.pc x.pre) then some x.pre.cpc.unpublished else computedOld l := by
  rw [computedOld, lastComputing, List.reverse_append, List.reverse_singleton, List.singleton_append,
    List.find?_cons]
  cases computesSlot x.pre.q (x.op.pc x.pre) <;> rfl

lemma computedOld_other (no : ∀ p, x.op ≠ .step p) : computedOld (l ++ [x]) = computedOld l := by
  have idle : x.op.pc x.pre = .idle := by
    cases op : x.op with
    | step p => exact absurd op (no p)
    | _ => rfl
  rw [computedOld_snoc, idle]
  rfl

/-- The cycle has nothing in its hands. -/
def CtrlPc.emptyHanded : CtrlPc → Bool
  | .stamp _ _ => true
  | .take _ => true
  | .idle => true
  | _ => false

/-- After the cycle has published, the event of the call is the only one on the lists or in the hands of
    the cycle, and it belongs to the new timeline. -/
inductive NewOnly (n p : Nat) (l : List (Step α)) (s : Machine α) : Prop where
  | empty :
    (∀ k, HoldsEvents n k → s.q.head k = none) →
    s.cpc.emptyHanded = true →
    (∀ y ∈ l, y.out.given = none) →
    (computedOld l = some false → Expects s.q (s.thread p).pc) →
    NewOnly n p l s
  | inserted {c k} :
    Renewed l c →
    s.q.head k = some c →
    s.q.next c = none →
    (∀ k', HoldsEvents n k' → k' ≠ k → s.q.head k' = none) →
    s.cpc.emptyHanded = true →
    (∀ y ∈ l, y.out.given = none) →
    NewOnly n p l s
  | taken {c} :
    Renewed l c →
    (∀ k, HoldsEvents n k → s.q.head k = none) →
    (∀ y ∈ l, ∀ c', y.out.given = some c' → c' = c) →
    ((∃ m i, s.cpc = .hand m c i) ∧ s.q.firstFof = some c ∧ s.q.next c = none ∨
      (∃ m pc, s.cpc = .give m c c pc) ∨ s.cpc = .idle) →
    NewOnly n p l s

/-- What holds after each step of the call and the cycle. -/
structure OneFlush (n p : Nat) (l : List (Step α)) (s : Machine α) : Prop where
  nSlots : s.q.nSlots = n
  inCycle : s.cpc.InCycle n
  aims : (s.thread p).pc.Aims n
  once : ∀ y ∈ l, y.out.inserted ≠ none → (s.thread p).pc = .idle
  computed : (s.thread p).pc.computed = true → computedOld l ≠ none
  early : s.cpc.unpublished = true → computedOld l ≠ some false ∧ ∀ y ∈ l, y.out.given = none
  before : s.cpc.unpublished = true → InsertsAhead l →
    ∀ k, HoldsEvents n k → s.q.head k = none ∨ s.cpc.ahead n k = true
  after : s.cpc.unpublished = false → InsertsAhead l → NewOnly n p l s

/-- An insertion behind the flush cannot be undone. -/
lemma InsertsAhead.init (ahead : InsertsAhead (l ++ [x]))
    (kept : (∃ y ∈ l, y.out.inserted ≠ none) → computedOld (l ++ [x]) = computedOld l) :
    InsertsAhead l := by
  intro old y mem c k ins
  have some_ins : ∃ y ∈ l, y.out.inserted ≠ none := by
    refine ⟨y, mem, ?_⟩
    rw [ins]
    exact Option.some_ne_none _
  exact ahead ((kept some_ins).trans old) y (List.mem_append_left _ mem) c k ins

lemma Renewed.some_inserted {c : Addr} (new : Renewed l c) : ∃ y ∈ l, y.out.inserted ≠ none := by
  obtain ⟨-, y, mem, k, ins⟩ := new
  refine ⟨y, mem, ?_⟩
  rw [ins]
  exact Option.some_ne_none _

lemma Renewed.snoc {c : Addr} (new : Renewed l c) (kept : computedOld (l ++ [x]) = computedOld l) :
    Renewed (l ++ [x]) c := by
  obtain ⟨old, y, mem, ins⟩ := new
  exact ⟨kept.trans old, y, List.mem_append_left _ mem, ins⟩

lemma given_snoc (none_l : ∀ y ∈ l, y.out.given = none) (none_x : x.out.given = none) :
    ∀ y ∈ l ++ [x], y.out.given = none :=
  List.forall_mem_append.2 ⟨none_l, List.forall_mem_singleton.2 none_x⟩

end Log

/-! ## The step -/

section Step

variable {n p : Nat} {l : List (Step α)} {s s' : Machine α} {ev : Ev α}

/-- The invariant holds when the call and the cycle have been started. -/
lemma OneFlush.of_start {nframes : Nat} {jack : JackReading} (nSlots : s.q.nSlots = n)
    (pc : (s.thread p).pc = .alloc .load) (cpc : s.cpc = .readClock nframes jack)
    (quiet : ∀ y ∈ l, y.out = .quiet) (old : computedOld l = none) : OneFlush n p l s := by
  constructor
  case nSlots => exact nSlots
  case inCycle =>
    rw [cpc]
    trivial
  case aims =>
    rw [pc]
    trivial
  case once =>
    intro y mem ins
    rw [quiet y mem] at ins
    exact absurd rfl ins
  case computed =>
    intro done
    rw [pc] at done
    cases done
  case early =>
    intro _
    refine ⟨?_, fun y mem => ?_⟩
    · rw [old]
      exact nofun
    · rw [quiet y mem]
      rfl
  case before =>
    intro _ _ k _
    rw [cpc]
    exact .inr rfl
  case after =>
    intro published
    rw [cpc] at published
    cases published

/-- The published part of the invariant after a step of the call. -/
lemma NewOnly.add {pc' : AddPc} {q' : FofQueue α} (inv : OneFlush n p l s)
    (published : s.cpc.unpublished = false)
    (step : addStep s.q (s.thread p).timeUs (s.thread p).argv (s.thread p).pc = some (ev, pc', q'))
    (ahead : InsertsAhead (l ++ [⟨s, .step p, ev⟩])) (new : NewOnly n p l s) :
    NewOnly n p (l ++ [⟨s, .step p, ev⟩])
      ({ s with q := q' }.setThread p { s.thread p with pc := pc' }) := by
  have busy := addStep_busy step
  cases new with
  | empty heads hands given expects =>
    have snoc := computedOld_snoc l ⟨s, .step p, ev⟩
    obtain ⟨ins, rfl⟩ | ⟨plain, slot, excess⟩ := addStep_inserts step
    · obtain ⟨done, computes⟩ := ins.computed
      have kept : computedOld (l ++ [⟨s, .step p, ev⟩]) = computedOld l := by
        rw [snoc, Act.pc, computes]
        rfl
      obtain ⟨c, k, at_k, given_x⟩ := ins.event
      have holds := ins.holdsEvents at_k inv.aims
      obtain ⟨head, others⟩ := ins.heads at_k
      cases old : computedOld l with
      | none => exact absurd old (inv.computed done)
      | some b =>
        cases b with
        | true =>
          -- the insertion would come after the flush
          have ahead := ahead (kept.trans old) _ (List.mem_append_right l (List.mem_singleton_self _)) c k at_k
          have early := unpublished_of_ahead ahead
          exact nomatch early.symm.trans published
        | false =>
          refine .inserted (c := c) (k := k) ⟨kept.trans old, _,
            List.mem_append_right l (List.mem_singleton_self _), k, at_k⟩ head ?_ ?_ hands
            (given_snoc given given_x)
          · exact ins.next_none at_k (expects old) (heads k holds)
          · intro k' holds' ne
            exact (others k' ne holds'.ne_free).trans (heads k' holds')
    · refine .empty (fun k holds => (holds.head_congr slot excess).trans (heads k holds)) hands
        (given_snoc given (Ev.of_plain plain).2.1) fun new => ?_
      rw [setThread_self]
      refine addStep_expects (heads .excess trivial) (fun computes => expects ?_) step
      rw [snoc, Act.pc, computes] at new
      exact new
  | inserted new =>
    obtain ⟨y, mem, ins⟩ := new.some_inserted
    exact absurd (inv.once y mem ins) busy
  | taken new =>
    obtain ⟨y, mem, ins⟩ := new.some_inserted
    exact absurd (inv.once y mem ins) busy

/-- A step of the call keeps the invariant. -/
lemma OneFlush.add {pc' : AddPc} {q' : FofQueue α} (inv : OneFlush n p l s) (pos : 1 ≤ n)
    (step : addStep s.q (s.thread p).timeUs (s.thread p).argv (s.thread p).pc = some (ev, pc', q')) :
    OneFlush n p (l ++ [⟨s, .step p, ev⟩])
      ({ s with q := q' }.setThread p { s.thread p with pc := pc' }) := by
  have busy := addStep_busy step
  have none_before (some_ins : ∃ y ∈ l, y.out.inserted ≠ none) :
      computedOld (l ++ [⟨s, .step p, ev⟩]) = computedOld l := by
    obtain ⟨y, mem, ins⟩ := some_ins
    exact absurd (inv.once y mem ins) busy
  have snoc := computedOld_snoc l ⟨s, .step p, ev⟩
  have flow := addStep_flow step
  constructor
  case nSlots => exact (addStep_params step).nSlots.trans inv.nSlots
  case inCycle => exact inv.inCycle
  case aims =>
    have aims := inv.aims
    rw [setThread_self, ← inv.nSlots]
    rw [← inv.nSlots] at pos aims
    exact flow.aims pos aims
  case once =>
    intro y mem ins
    rw [setThread_self]
    obtain mem | mem := List.mem_append.1 mem
    · exact absurd (inv.once y mem ins) busy
    · cases List.mem_singleton.1 mem
      obtain ⟨-, idle⟩ | ⟨plain, -⟩ := addStep_inserts step
      · exact idle
      · exact absurd (Ev.of_plain plain).1 ins
  case computed =>
    intro done
    rw [setThread_self] at done
    rw [snoc, Act.pc]
    cases computes : computesSlot s.q (s.thread p).pc with
    | true => exact fun h => nomatch h
    | false =>
      obtain h | h := flow.computed done
      · exact nomatch computes.symm.trans h
      · exact inv.computed h
  case early =>
    intro early
    obtain ⟨old, given⟩ := inv.early early
    refine ⟨?_, given_snoc given ?_⟩
    · rw [snoc, Act.pc]
      cases computesSlot s.q (s.thread p).pc with
      | true =>
        intro h
        exact nomatch early.symm.trans (Option.some.inj h)
      | false => exact old
    · obtain ⟨ins, -⟩ | ⟨plain, -⟩ := addStep_inserts step
      · obtain ⟨-, -, -, given_x⟩ := ins.event
        exact given_x
      · exact (Ev.of_plain plain).2.1
  case before =>
    intro early ahead k holds
    obtain head | before := inv.before early (ahead.init none_before) k holds
    · obtain ⟨ins, -⟩ | ⟨-, slot, excess⟩ := addStep_inserts step
      · obtain ⟨done, computes⟩ := ins.computed
        obtain ⟨c, k', at_k, -⟩ := ins.event
        by_cases here : k = k'
        · subst here
          have kept : computedOld (l ++ [⟨s, .step p, ev⟩]) = computedOld l := by
            rw [snoc, Act.pc, computes]
            rfl
          have old : computedOld l = some true := by
            cases old : computedOld l with
            | none => exact absurd old (inv.computed done)
            | some b =>
              cases b with
              | true => rfl
              | false => exact absurd old (inv.early early).1
          have now := ahead (kept.trans old) _ (List.mem_append_right l (List.mem_singleton_self _)) c k at_k
          rw [← inv.nSlots]
          exact .inr now
        · exact .inl (((ins.heads at_k).2 k here holds.ne_free).trans head)
      · exact .inl ((holds.head_congr slot excess).trans head)
    · exact .inr before
  case after =>
    intro published ahead
    exact (inv.after published (ahead.init none_before)).add inv published step ahead

/-- The published part of the invariant after a step of the cycle. -/
lemma NewOnly.control {cpc' : CtrlPc} {ctrl' : CtrlClient} {q' : FofQueue α} (pos : 1 ≤ n)
    (nSlots : s.q.nSlots = n)
    (step : ctrlStep s.q s.ctrl s.cpc = some (ev, cpc', ctrl', q')) (new : NewOnly n p l s) :
    NewOnly n p (l ++ [⟨s, .ctrlStep, ev⟩]) { s with q := q', ctrl := ctrl', cpc := cpc' } := by
  have kept : computedOld (l ++ [⟨s, .ctrlStep, ev⟩]) = computedOld l :=
    computedOld_other (by simp)
  have exchanged (j : Nat) (k : Place) :
      (s.q.setSlot j none).head k = if k = .slot j then none else s.q.head k := by
    split
    · rename_i e
      rw [e, head_setSlot_self]
    · rename_i ne
      exact head_setSlot_of_ne ne
  have lt (m : Nat) : HoldsEvents n (.slot (slotOfFrame s.q m)) := by
    rw [← nSlots] at pos ⊢
    exact slotOfFrame_lt_nSlots pos m
  cases new with
  | empty heads hands given expects =>
    cases cpc : s.cpc with
    | stamp m c =>
      rw [cpc] at step
      cases step
      refine .empty (fun k holds => (holds.head_congr rfl rfl).trans (heads k holds)) rfl
        (given_snoc given rfl) fun new => ?_
      exact (expects (kept.symm.trans new)).congr fun _ => rfl
    | take m =>
      have head : s.q.slot (slotOfFrame s.q m) = none := heads _ (lt m)
      rw [cpc] at step
      simp only [ctrlStep, fofQueueTakeSlot, head] at step
      cases step
      refine .empty (fun k holds => ?_) rfl (given_snoc given rfl) fun new => ?_
      · refine (holds.head_congr rfl rfl).trans ((exchanged (slotOfFrame s.q m) k).trans ?_)
        rw [heads k holds, ite_self]
      · exact (expects (kept.symm.trans new)).congr fun _ => rfl
    | idle =>
      rw [cpc] at step
      cases step
    | _ =>
      rw [cpc] at hands
      cases hands
  | @inserted c k new head next others hands given =>
    cases cpc : s.cpc with
    | stamp m c' =>
      rw [cpc] at step
      cases step
      refine .inserted (k := k) (new.snoc kept) ?_ next (fun k' holds ne => ?_) rfl (given_snoc given rfl)
      · exact head
      · exact (holds.head_congr rfl rfl).trans (others k' holds ne)
    | take m =>
      rw [cpc] at step
      by_cases here : k = .slot (slotOfFrame s.q m)
      · subst here
        have head : s.q.slot (slotOfFrame s.q m) = some c := head
        simp only [ctrlStep, fofQueueTakeSlot, head] at step
        cases step
        refine .taken (new.snoc kept) (fun k' holds => ?_) ?_ (.inl ⟨⟨m, _, rfl⟩, rfl, next⟩)
        · refine (holds.head_congr rfl rfl).trans ((exchanged (slotOfFrame s.q m) k').trans ?_)
          split
          · rfl
          · rename_i ne
            exact others k' holds ne
        · intro y mem c' h
          cases (given_snoc (x := ⟨s, .ctrlStep, .took (some m) _ _⟩) given rfl y mem).symm.trans h
      · have empty : s.q.slot (slotOfFrame s.q m) = none := others _ (lt m) (Ne.symm here)
        simp only [ctrlStep, fofQueueTakeSlot, empty] at step
        cases step
        refine .inserted (k := k) (new.snoc kept) ?_ next (fun k' holds ne => ?_) rfl
          (given_snoc given rfl)
        · have same := SameHeads.head (q := s.q.setSlot (slotOfFrame s.q m) none)
            ⟨rfl, rfl, rfl, rfl, rfl, rfl⟩ k
          exact same.trans ((head_setSlot_of_ne here).trans head)
        · refine (holds.head_congr rfl rfl).trans ((exchanged (slotOfFrame s.q m) k').trans ?_)
          rw [others k' holds ne, ite_self]
    | idle =>
      rw [cpc] at step
      cases step
    | _ =>
      rw [cpc] at hands
      cases hands
  | @taken c new heads given ctrl =>
    have snoc (none_x : ∀ c', ev.given = some c' → c' = c) :
        ∀ y ∈ l ++ [(⟨s, .ctrlStep, ev⟩ : Step α)], ∀ c', y.out.given = some c' → c' = c :=
      List.forall_mem_append.2 ⟨given, List.forall_mem_singleton.2 none_x⟩
    obtain ⟨⟨m, i, cpc⟩, first, next⟩ | ⟨m, pc, cpc⟩ | cpc := ctrl <;> rw [cpc] at step
    · simp only [ctrlStep, next, first] at step
      cases step
      refine .taken (new.snoc kept) (fun k holds => (holds.head_congr rfl rfl).trans (heads k holds))
        (snoc fun c' h => ?_) (.inr (.inl ⟨m, .load, rfl⟩))
      cases h
      rfl
    · cases ctrlStep_cases step with
      | @give _ _ _ _ pc' _ push =>
        obtain ⟨slot, excess⟩ := pushStep_heads push
        exact .taken (new.snoc kept)
          (fun k holds => (holds.head_congr slot excess).trans (heads k holds))
          (snoc fun c' h => absurd h.symm (Option.some_ne_none c')) (.inr (.inl ⟨m, pc', rfl⟩))
      | given push =>
        obtain ⟨slot, excess⟩ := pushStep_heads push
        exact .taken (new.snoc kept)
          (fun k holds => (holds.head_congr slot excess).trans (heads k holds))
          (snoc fun c' h => absurd h.symm (Option.some_ne_none c')) (.inr (.inr rfl))
    · cases step

lemma NewOnly.storeClockSource (new : NewOnly n p l s) (v : Int) :
    NewOnly n p (l ++ [⟨s, .storeClockSource v, .quiet⟩])
      { s with q := { s.q with clockSource := v } } := by
  have kept : computedOld (l ++ [⟨s, .storeClockSource v, .quiet⟩]) = computedOld l :=
    computedOld_other fun _ h => nomatch h
  have same : ∀ k, FofQueue.head { s.q with clockSource := v } k = s.q.head k :=
    SameHeads.head ⟨rfl, rfl, rfl, rfl, rfl, rfl⟩
  cases new with
  | empty heads hands given expects =>
    refine .empty (fun k holds => (same k).trans (heads k holds)) hands (given_snoc given rfl) fun new => ?_
    exact (expects (kept.symm.trans new)).congr fun _ => rfl
  | @inserted c k new head next others hands given =>
    exact .inserted (k := k) (new.snoc kept) ((same k).trans head) next
      (fun k' holds ne => (same k').trans (others k' holds ne)) hands (given_snoc given rfl)
  | @taken c new heads given ctrl =>
    refine .taken (new.snoc kept) (fun k holds => (same k).trans (heads k holds))
      (List.forall_mem_append.2 ⟨given, List.forall_mem_singleton.2 fun c' h => ?_⟩) ctrl
    cases h

/-- A step that is not one of the call adds an entry that changes nothing about the call. -/
lemma OneFlush.kept {act : Act α} (inv : OneFlush n p l s) (no : ∀ p, act ≠ .step p)
    (ins : ev.inserted = none) (nSlots : s'.q.nSlots = s.q.nSlots)
    (thread : s'.thread p = s.thread p) (inCycle : s'.cpc.InCycle n)
    (early : s'.cpc.unpublished = true → s.cpc.unpublished = true ∧ ev.given = none)
    (before : s'.cpc.unpublished = true → InsertsAhead l →
      ∀ k, HoldsEvents n k → s'.q.head k = none ∨ s'.cpc.ahead n k = true)
    (after : s'.cpc.unpublished = false → InsertsAhead l → NewOnly n p (l ++ [⟨s, act, ev⟩]) s') :
    OneFlush n p (l ++ [⟨s, act, ev⟩]) s' := by
  have kept : computedOld (l ++ [⟨s, act, ev⟩]) = computedOld l := computedOld_other no
  constructor
  case nSlots => exact nSlots.trans inv.nSlots
  case inCycle => exact inCycle
  case aims =>
    rw [thread]
    exact inv.aims
  case once =>
    rw [thread]
    exact List.forall_mem_append.2 ⟨inv.once, List.forall_mem_singleton.2 fun h => absurd ins h⟩
  case computed =>
    intro done
    rw [thread] at done
    rw [kept]
    exact inv.computed done
  case early =>
    intro h
    obtain ⟨early, given_x⟩ := early h
    obtain ⟨old, given⟩ := inv.early early
    rw [kept]
    exact ⟨old, given_snoc given given_x⟩
  case before => exact fun h ahead => before h (ahead.init fun _ => kept)
  case after => exact fun h ahead => after h (ahead.init fun _ => kept)

/-- A step of the cycle keeps the invariant. -/
lemma OneFlush.control {cpc' : CtrlPc} {ctrl' : CtrlClient} {q' : FofQueue α} (inv : OneFlush n p l s)
    (pos : 1 ≤ n) (observes : Act.observes s .ctrlStep = true)
    (step : ctrlStep s.q s.ctrl s.cpc = some (ev, cpc', ctrl', q')) :
    OneFlush n p (l ++ [⟨s, .ctrlStep, ev⟩]) { s with q := q', ctrl := ctrl', cpc := cpc' } := by
  have inCycle := inv.inCycle
  rw [← inv.nSlots] at inCycle
  have next := ctrlStep_unpublished inCycle step
  obtain ⟨ins, given⟩ := ctrlStep_event step
  have quiet (early : s.cpc.unpublished = true) : ev.given = none := by
    cases h : ev.given with
    | none => rfl
    | some c =>
      obtain ⟨m, i, cpc⟩ := given c h
      rw [cpc] at early
      cases early
  have nSlots := (ctrlStep_params step).nSlots
  -- what the flush has done and has yet to do
  have before (early : s.cpc.unpublished = true) (ahead : InsertsAhead l) (k : Place)
      (holds : HoldsEvents n k) : q'.head k = none ∨ cpc'.ahead n k = true := by
    have old := inv.before early ahead k holds
    rw [← inv.nSlots] at holds old ⊢
    cases now : s.cpc.ahead s.q.nSlots k with
    | true =>
      refine ctrlStep_ahead holds inCycle (fun nframes jack cpc => ?_) now step
      rw [Act.observes, cpc] at observes
      exact observes
    | false =>
      rw [now] at old
      obtain head | h := old
      · obtain ⟨-, same | ⟨m, cpc, -⟩⟩ := ctrlStep_behind holds inCycle now step
        · exact .inl (same.trans head)
        · rw [cpc] at early
          cases early
      · cases h
  have cycle := ctrlStep_inCycle inCycle step
  rw [inv.nSlots] at cycle
  refine inv.kept (fun _ h => nomatch h) ins nSlots rfl cycle ?_ ?_ ?_
  · intro early'
    cases early : s.cpc.unpublished with
    | true => exact ⟨rfl, quiet early⟩
    | false =>
      rw [early] at next
      exact nomatch early'.symm.trans next
  · intro early' ahead k holds
    refine before ?_ ahead k holds
    cases early : s.cpc.unpublished with
    | true => rfl
    | false =>
      rw [early] at next
      exact nomatch early'.symm.trans next
  · intro published' ahead
    cases early : s.cpc.unpublished with
    | true =>
      -- the publication: all lists are empty
      rw [early] at next
      obtain early' | ⟨m, c, rfl⟩ := next
      · exact nomatch early'.symm.trans published'
      · obtain ⟨old, given⟩ := inv.early early
        refine .empty (fun k holds => (before early ahead k holds).resolve_right nofun) rfl
          (given_snoc given (quiet early)) fun new => ?_
        have kept : computedOld (l ++ [⟨s, .ctrlStep, ev⟩]) = computedOld l :=
          computedOld_other fun _ h => nomatch h
        exact absurd (kept.symm.trans new) old
    | false => exact (inv.after early ahead).control pos inv.nSlots step

/-- Every step of the call, of the cycle or of a client keeps the invariant. -/
lemma OneFlush.step {x : Step α} (inv : OneFlush n p l x.pre) (pos : 1 ≤ n)
    (among : x.op.among p = true) (observes : x.op.observes x.pre = true)
    (e : x.pre.exec x.op = some (x.out, s')) : OneFlush n p (l ++ [x]) s' := by
  obtain ⟨s, act, ev⟩ := x
  cases Machine.executed e with
  | step step =>
    cases of_decide_eq_true among
    exact inv.add pos step
  | ctrlStep step => exact inv.control pos observes step
  | @storeClockSource v =>
    have same (k : Place) (holds : HoldsEvents n k) :
        FofQueue.head { s.q with clockSource := v } k = s.q.head k := holds.head_congr rfl rfl
    refine inv.kept (fun _ h => nomatch h) rfl rfl rfl inv.inCycle (fun early => ⟨early, rfl⟩) ?_ ?_
    · intro early ahead k holds
      rw [same k holds]
      exact inv.before early ahead k holds
    · exact fun published ahead => (inv.after published ahead).storeClockSource v
  | call => cases among
  | cycle => cases among
  | flush => cases among

end Step

/-! ## Whole runs -/

section Runs

variable {n p : Nat} {s s' : Machine α} {log : List (Step α)} {c : Addr} {k : Place}

/-- An event that is inserted behind the flush stays on its list, or the cycle hands it to a DSP
    client. -/
lemma kept_run (run : Run Machine.exec s log s') (among : ∀ x ∈ log, x.op.among p = true)
    (idle : (s.thread p).pc = .idle) (holds : HoldsEvents s.q.nSlots k)
    (inCycle : s.cpc.InCycle s.q.nSlots) (behind : s.cpc.ahead s.q.nSlots k = false)
    (there : s.q.head k = some c ∨ ∃ m i, s.cpc = .hand m c i) (done : s'.cpc = .idle) :
    s'.q.head k = some c ∨ ∃ y ∈ log, y.out.given = some c := by
  induction run with
  | nil =>
    obtain there | ⟨m, i, cpc⟩ := there
    · exact .inl there
    · rw [done] at cpc
      cases cpc
  | @cons s s1 s' act ev log e run ih =>
    have rest : (∃ y ∈ log, y.out.given = some c) →
        ∃ y ∈ (⟨s, act, ev⟩ : Step α) :: log, y.out.given = some c := by
      rintro ⟨y, mem, given⟩
      exact ⟨y, List.mem_cons_of_mem _ mem, given⟩
    have ih := ih fun x mem => among x (List.mem_cons_of_mem _ mem)
    have among1 := among _ List.mem_cons_self
    cases Machine.executed e with
    | step step =>
      cases of_decide_eq_true among1
      exact absurd idle (addStep_busy step)
    | @ctrlStep ev cpc' ctrl' q' step =>
      have nSlots := (ctrlStep_params step).nSlots
      obtain ⟨behind', kept⟩ := ctrlStep_behind holds inCycle behind step
      have inCycle' := ctrlStep_inCycle inCycle step
      have go (there' : q'.head k = some c ∨ ∃ m i, cpc' = .hand m c i) := by
        rw [← nSlots] at holds behind' inCycle'
        exact (ih idle holds inCycle' behind' there' done).imp_right rest
      obtain there | ⟨m, i, cpc⟩ := there
      · obtain same | ⟨m, cpc, rfl⟩ := kept
        · exact go (.inl (same.trans there))
        · have head : s.q.slot (slotOfFrame s.q m) = some c := there
          rw [cpc] at step
          simp only [ctrlStep, fofQueueTakeSlot, head] at step
          cases step
          exact go (.inr ⟨m, _, rfl⟩)
      · refine .inr ⟨_, List.mem_cons_self, ?_⟩
        rw [cpc] at step
        cases ctrlStep_cases step <;> rfl
    | storeClockSource =>
      refine (ih idle holds inCycle behind ?_ done).imp_right rest
      obtain there | there := there
      · exact .inl ((holds.head_congr rfl rfl).trans there)
      · exact .inr there
    | call => cases among1
    | cycle => cases among1
    | flush => cases among1

lemma oneFlush_run {s0 : Machine α} {l0 : List (Step α)} (run : Run Machine.exec s0 log s')
    (pos : 1 ≤ n) (among : ∀ x ∈ log, x.op.among p = true) (observes : ∀ x ∈ log, x.op.observes x.pre = true)
    (start : OneFlush n p l0 s0) : OneFlush n p (l0 ++ log) s' := by
  refine run.inv_log (fun l s => OneFlush n p (l0 ++ l) s) (fun {l x s1} mem inv e => ?_) ?_
  · rw [← List.append_assoc]
    exact inv.step pos (among x mem) (observes x mem) e
  · rw [List.append_nil]
    exact start

/-- The events that are new are the only ones that can be found. -/
lemma NewOnly.nothingOld {l : List (Step α)} (new : NewOnly n p l s) (nSlots : s.q.nSlots = n) :
    NothingOld l s := by
  subst nSlots
  have nothing {k : Place} (head : s.q.head k = none) (c : Addr) : ¬ OnList s.q k c := by
    rintro ⟨l, sg⟩
    rw [head] at sg
    cases sg
  cases new with
  | empty heads _ given _ =>
    refine ⟨fun k c holds on => absurd on (nothing (heads k holds) c), fun y mem c h => ?_⟩
    exact nomatch (given y mem).symm.trans h
  | @inserted c k new head next others _ given =>
    refine ⟨fun k' c' holds on => ?_, fun y mem c h => nomatch (given y mem).symm.trans h⟩
    by_cases here : k' = k
    · subst here
      obtain ⟨l, sg⟩ := on
      rw [head] at sg
      cases sg with
      | nil => exact new
      | cons sg =>
        rw [next] at sg
        cases sg
    · exact absurd on (nothing (others k' holds here) c')
  | @taken c new heads given _ =>
    refine ⟨fun k c' holds on => absurd on (nothing (heads k holds) c'), fun y mem c' h => ?_⟩
    rw [given y mem c' h]
    exact new

/-- An event that the call inserts behind the flush can be found at the end. -/
lemma stale_found {l0 : List (Step α)} {s0 : Machine α} {y : Step α} (pos : 1 ≤ n)
    (run : Run Machine.exec s0 log s') (among : ∀ x ∈ log, x.op.among p = true)
    (observes : ∀ x ∈ log, x.op.observes x.pre = true) (start : OneFlush n p l0 s0) (done : s'.cpc = .idle)
    (mem : y ∈ log) (ins : y.out.inserted = some (c, k)) (behind : y.pre.cpc.ahead y.pre.q.nSlots k = false) :
    HoldsEvents s'.q.nSlots k ∧ (OnList s'.q k c ∨ ∃ z ∈ log, z.out.given = some c) := by
  obtain ⟨l1, l2, rfl⟩ := List.append_of_mem mem
  obtain ⟨s1, run1, e, run2⟩ := run.split
  have inv := oneFlush_run run1 pos (fun x h => among x (List.mem_append_left _ h))
    (fun x h => observes x (List.mem_append_left _ h)) start
  have last := oneFlush_run run pos among observes start
  have among2 : ∀ x ∈ l2, x.op.among p = true :=
    fun x h => among x (List.mem_append_right _ (List.mem_cons_of_mem _ h))
  have amongy := among y mem
  obtain ⟨s, act, ev⟩ := y
  cases Machine.executed e with
  | @step p' _ pc' q' step =>
    cases of_decide_eq_true amongy
    obtain ⟨insertion, rfl⟩ | ⟨plain, -⟩ := addStep_inserts step
    · have holds := insertion.holdsEvents ins inv.aims
      obtain ⟨head, -⟩ := insertion.heads ins
      have inv1 := inv.add pos step
      have nSlots := inv.nSlots
      subst nSlots
      have params : q'.nSlots = s.q.nSlots := inv1.nSlots
      have idle : (({ s with q := q' }.setThread p { s.thread p with pc := .idle }).thread p).pc = .idle := by
        rw [setThread_self]
      refine ⟨last.nSlots ▸ holds, ?_⟩
      have kept := kept_run (c := c) (k := k) run2 among2 idle (params.symm ▸ holds) (params.symm ▸ inv.inCycle)
        (params.symm ▸ behind) (.inl head) done
      obtain head | ⟨z, memz, given⟩ := kept
      · refine .inl ⟨[], ?_⟩
        rw [Seg.nil_iff]
        exact head
      · exact .inr ⟨z, List.mem_append_right _ (List.mem_cons_of_mem _ memz), given⟩
    · exact nomatch (Ev.of_plain plain).1.symm.trans ins
  | ctrlStep step => exact nomatch (ctrlStep_event step).1.symm.trans ins
  | _ => cases ins

end Runs

/-- One call of `fof_queue_add` and one cycle that sees a new clock source or a jump of the transport, on
    any queue and in any interleaving: when both are over, no event of the old timeline is on a list or
    has been handed to a DSP client if and only if the call, in case it computed its slot before the cycle
    published, inserted its event before the flush exchanged the list. -/
theorem nothing_old_iff {s0 : Machine α} (pos : 1 ≤ s0.q.nSlots) (p timeUs : Nat) (argv : α)
    (nframes : Nat) (jack : JackReading) (acts : List (Act α)) (among : ∀ a ∈ acts, a.among p = true)
    {log : List (Step α)} {s : Machine α}
    (run : execAll Machine.exec s0 (.call p timeUs argv :: .cycle nframes jack :: acts) = some (log, s))
    (observes : ∀ x ∈ log, x.op.observes x.pre = true) (done : (s.thread p).pc = .idle ∧ s.cpc = .idle) :
    NothingOld log s ↔ InsertsAhead log := by
  obtain ⟨runs, ops⟩ := run_of_execAll run
  -- the first two steps start the call and the cycle
  obtain ⟨l0, rest, s2, rfl, run2, start, out, ops2⟩ : ∃ l0 rest s2, log = l0 ++ rest ∧
      Run Machine.exec s2 rest s ∧ OneFlush s0.q.nSlots p l0 s2 ∧
      (∀ y ∈ l0, y.out.inserted = none) ∧ rest.map Entry.op = acts := by
    cases runs with
    | nil => cases ops
    | @cons _ s1 _ act1 ev1 log e1 runs =>
      cases runs with
      | nil => cases ops
      | @cons _ s2 _ act2 ev2 log e2 runs =>
        simp only [List.map_cons, List.cons.injEq] at ops
        obtain ⟨rfl, rfl, ops⟩ := ops
        cases Machine.executed e1 with
        | call idle =>
          cases Machine.executed e2 with
          | cycle cpc =>
            have quiet : ∀ y ∈ [(⟨s0, .call p timeUs argv, .quiet⟩ : Step α),
                ⟨s0.setThread p ⟨timeUs, argv, .alloc .load⟩, .cycle nframes jack, .quiet⟩],
                y.out = .quiet := by
              simp
            refine ⟨_, log, _, rfl, runs, .of_start rfl ?_ rfl quiet rfl, fun y mem => ?_, ops⟩
            · exact congrArg Thread.pc (setThread_self ..)
            · rw [quiet y mem]
              rfl
  have among2 : ∀ x ∈ rest, x.op.among p = true :=
    fun x mem => among _ (ops2 ▸ List.mem_map_of_mem mem)
  have observes2 : ∀ x ∈ rest, x.op.observes x.pre = true :=
    fun x mem => observes x (List.mem_append_right l0 mem)
  have last := oneFlush_run run2 pos among2 observes2 start
  constructor
  · rintro ⟨lists, given⟩ old y mem c k ins
    by_contra behind
    obtain mem | mem := List.mem_append.1 mem
    · exact nomatch (out y mem).symm.trans ins
    · obtain ⟨holds, found⟩ := stale_found pos run2 among2 observes2 start done.2 mem ins
        (Bool.not_eq_true _ ▸ behind)
      obtain ⟨new, -⟩ : Renewed (l0 ++ rest) c := by
        obtain on | ⟨z, memz, h⟩ := found
        · exact lists k c holds on
        · exact given z (List.mem_append_right l0 memz) c h
      exact nomatch old.symm.trans new
  · intro ahead
    have published : s.cpc.unpublished = false := by
      rw [done.2]
      rfl
    exact (last.after published ahead).nothingOld last.nSlots

/-- A client has switched to the transport, which is at frame 1000. The cycle makes `early` steps, the call
    for frame 2 its twelve, and then the cycle `late` steps. -/
def switchClock (early late : Nat) : List (Act Unit) :=
  .storeClockSource 2 :: (List.replicate early .ctrlStep ++ List.replicate 12 (.step 0) ++
    List.replicate late .ctrlStep)

/-- The call is over before the flush comes to its slot. -/
theorem nothing_old_flushed :
    ∃ log s, execAll Machine.exec (Machine.init (twoSlots 1) (FofQueue.zero ()) ())
        (.call 0 2 () :: .cycle 2 ⟨1000, .rolling, 0⟩ :: switchClock 1 13) = some (log, s) ∧
      NothingOld log s := by
  cases run : execAll Machine.exec (Machine.init (twoSlots 1) (FofQueue.zero ()) ())
      (.call 0 2 () :: .cycle 2 ⟨1000, .rolling, 0⟩ :: switchClock 1 13) with
  | none => exact absurd run (by decide)
  | some r =>
    obtain ⟨log, s⟩ := r
    have observes : ∀ x ∈ log, x.op.observes x.pre = true := by
      cases Option.some.inj (run.symm.trans rfl)
      decide
    have done : (s.thread 0).pc = .idle ∧ s.cpc = .idle := by
      cases Option.some.inj (run.symm.trans rfl)
      exact ⟨rfl, rfl⟩
    have places : ∀ y ∈ log, y.out.inserted = none ∨
        y.out.inserted = some (0, .slot 1) ∧ y.pre.cpc.ahead y.pre.q.nSlots (.slot 1) = true := by
      cases Option.some.inj (run.symm.trans rfl)
      decide
    refine ⟨log, s, rfl, (nothing_old_iff (by decide) 0 2 () 2 ⟨1000, .rolling, 0⟩ _ (by decide) run
      observes done).2 fun _ y mem c k ins => ?_⟩
    obtain no | ⟨at_k, ahead⟩ := places y mem
    · exact nomatch no.symm.trans ins
    · cases at_k.symm.trans ins
      exact ahead

/-- The call runs between the flush and the publication of frame 1000: its event for frame 2 of the old
    timeline is left in slot 1, which the cycle for frame 1002 takes. -/
theorem old_event_survives :
    ∃ log s, execAll Machine.exec (Machine.init (twoSlots 1) (FofQueue.zero ()) ())
        (.call 0 2 () :: .cycle 2 ⟨1000, .rolling, 0⟩ :: switchClock 6 3) = some (log, s) ∧
      (∀ x ∈ log, x.op.observes x.pre = true) ∧ (s.thread 0).pc = .idle ∧ s.cpc = .idle ∧
      s.q.nextFrame = 1000 ∧ slotOfFrame s.q 1002 = 1 ∧ OnList s.q (.slot 1) 0 ∧
      computedOld log = some true ∧ ¬ NothingOld log s := by
  cases run : execAll Machine.exec (Machine.init (twoSlots 1) (FofQueue.zero ()) ())
      (.call 0 2 () :: .cycle 2 ⟨1000, .rolling, 0⟩ :: switchClock 6 3) with
  | none => exact absurd run (by decide)
  | some r =>
    obtain ⟨log, s⟩ := r
    have observes : ∀ x ∈ log, x.op.observes x.pre = true := by
      cases Option.some.inj (run.symm.trans rfl)
      decide
    have done : (s.thread 0).pc = .idle ∧ s.cpc = .idle ∧ s.q.nextFrame = 1000 ∧
        s.q.bufferSize = 2 ∧ s.q.nSlots = 2 ∧ s.q.slot 1 = some 0 := by
      cases Option.some.inj (run.symm.trans rfl)
      exact ⟨rfl, rfl, rfl, rfl, rfl, by decide⟩
    have old : computedOld log = some true := by
      cases Option.some.inj (run.symm.trans rfl)
      decide
    obtain ⟨idle, cpc, nextFrame, bufferSize, nSlots, head⟩ := done
    have slot : slotOfFrame s.q 1002 = 1 := by
      rw [slotOfFrame, bufferSize, nSlots]
      rfl
    have on : OnList s.q (.slot 1) 0 := by
      refine ⟨[], ?_⟩
      rw [Seg.nil_iff]
      exact head
    refine ⟨log, s, rfl, observes, idle, cpc, nextFrame, slot, on, old, fun nothing => ?_⟩
    have holds : HoldsEvents s.q.nSlots (.slot 1) := by
      rw [nSlots]
      exact Nat.one_lt_two
    obtain ⟨new, -⟩ := nothing.1 (.slot 1) 0 holds on
    cases old.symm.trans new

end JackFofs
