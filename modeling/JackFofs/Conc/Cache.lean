import JackFofs.Conc.Plan

/-!
# The cached slot

All producers share one pair of words: `current_slot` and its tag `next_frame_check`. A call that
finds its `next_frame` in the tag takes the slot from the pair, any other call writes the slot and then
the tag, and a flush resets both in the same order. Nothing keeps two writers, or a writer and a
reader, apart.

A run is undivided if no write of `current_slot` comes between the accesses of somebody else to the
pair, and no tag is believed while its slot has been replaced and the tag not yet. In an undivided run
every event ends up in the slot of its block (`cache_coherent`).
-/

namespace JackFofs
open Runs

variable {α : Type}

/-- The call has written `current_slot`, and the tag comes next. -/
def AddPc.midWrite : AddPc → Bool
  | .cache _ _ _ .frame => true
  | _ => false

/-- The call relies on `current_slot` until it reads it. -/
def AddPc.usesSlot : AddPc → Bool
  | .cache _ _ _ .frame => true
  | .cache _ _ _ .read => true
  | _ => false

/-- The flush has written `current_slot`, and the tag comes next. -/
def CtrlPc.midReset : CtrlPc → Bool
  | .flush _ .resetCheck => true
  | _ => false

/-- What an action writes to `current_slot`. -/
def writesSlot (s : Machine α) : Act α → Option Nat
  | .step p =>
    match (s.thread p).pc with
    | .cache _ nextFrame _ .slot => some (slotOfFrame s.q nextFrame)
    | _ => none
  | .ctrlStep =>
    match s.cpc with
    | .flush _ .resetSlot => some 0
    | _ => none
  | _ => none

/-- The action does not divide what another party does with the pair. -/
structure Undivided (s : Machine α) (act : Act α) : Prop where
  /-- no write changes `current_slot` while another call relies on it, or while a flush is between
      its two writes -/
  write : ∀ v, writesSlot s act = some v → v ≠ s.q.currentSlot →
    (∀ p, act ≠ .step p → (s.thread p).pc.usesSlot = false) ∧ s.cpc.midReset = false
  /-- no call believes a tag whose slot has been replaced by somebody who is about to replace the tag -/
  hit : ∀ p fof nextFrame slotIdx, act = .step p →
    (s.thread p).pc = .cache fof nextFrame slotIdx .check → nextFrame = s.q.nextFrameCheck →
    s.q.currentSlot ≠ slotOfFrame s.q nextFrame →
    (∀ p', (s.thread p').pc.midWrite = false) ∧ s.cpc.midReset = false

/-- What thread `p` loads from `next_frame` with the action. -/
def loadedBy (p : Nat) (s : Machine α) : Act α → Option Nat
  | .step p' => if p' = p ∧ (s.thread p).pc.loadsFrame = true then some s.q.nextFrame else none
  | _ => none

/-- What thread `p` loaded from `next_frame` last. -/
def lastLoaded (p : Nat) : List (Step α) → Option Nat
  | [] => none
  | x :: log => (lastLoaded p log).or (loadedBy p x.pre x.op)

/-! ## What the steps write to the pair -/

section Writes

variable {q q' : FofQueue α}

/-- The parameters of the queue and the pair are the same. -/
structure SamePair (q q' : FofQueue α) : Prop where
  params : SameParams q q'
  currentSlot : q'.currentSlot = q.currentSlot
  nextFrameCheck : q'.nextFrameCheck = q.nextFrameCheck

lemma SameCache.pair (same : SameCache q q') : SamePair q q' :=
  ⟨same.clock.params, same.currentSlot, same.nextFrameCheck⟩

lemma SamePair.refl (q : FofQueue α) : SamePair q q := ⟨⟨rfl, rfl, rfl⟩, rfl, rfl⟩

lemma SamePair.cacheOk (same : SamePair q q') (ok : CacheOk q) : CacheOk q' :=
  ok.congr same.currentSlot same.nextFrameCheck same.params.nSlots same.params.bufferSize

/-- The steps of a call that write the pair, and all others. -/
inductive PairWrites (q : FofQueue α) (pc pc' : AddPc) : FofQueue α → Prop where
  | slot {fof nextFrame slotIdx} :
    pc = .cache fof nextFrame slotIdx .slot →
    pc' = .cache fof nextFrame slotIdx .frame →
    PairWrites q pc pc' { q with currentSlot := slotOfFrame q nextFrame }
  | check {fof nextFrame slotIdx} :
    pc = .cache fof nextFrame slotIdx .frame →
    PairWrites q pc pc' { q with nextFrameCheck := nextFrame }
  | other {q1} :
    pc.midWrite = false →
    SamePair q q1 →
    PairWrites q pc pc' q1

lemma addStep_pair {timeUs : Nat} {argv : α} {pc pc' : AddPc} {ev : Ev α}
    (e : addStep q timeUs argv pc = some (ev, pc', q')) : PairWrites q pc pc' q' := by
  cases mid : pc.midWrite with
  | true =>
    cases pc with
    | cache fof nextFrame slotIdx cpc =>
      cases cpc with
      | frame =>
        cases e
        exact .check rfl
      | _ => cases mid
    | _ => cases mid
  | false =>
    cases addStep_writes e with
    | fill => exact .other mid ⟨⟨rfl, rfl, rfl⟩, rfl, rfl⟩
    | slot epc =>
      subst epc
      cases e
      exact .slot rfl rfl
    | frame epc =>
      subst epc
      cases mid
    | lists _ _ same => exact .other mid same.pair

/-- The steps of the controller that write the pair, and all others. -/
inductive CtrlWrites (q : FofQueue α) (cpc cpc' : CtrlPc) : FofQueue α → Prop where
  | slot {after} :
    cpc = .flush after .resetSlot →
    cpc' = .flush after .resetCheck →
    CtrlWrites q cpc cpc' { q with firstFof := none, lastFof := none, currentSlot := 0 }
  | check {after} :
    cpc = .flush after .resetCheck →
    cpc'.midReset = false →
    CtrlWrites q cpc cpc' { q with nextFrameCheck := 0 }
  | other {q1} :
    cpc.midReset = false →
    cpc'.midReset = false →
    SamePair q q1 →
    CtrlWrites q cpc cpc' q1

lemma flushFrom_midReset (q : FofQueue α) (after : AfterFlush) (i : Nat) :
    (CtrlPc.flush after (flushFrom q i)).midReset = false := by
  rw [flushFrom]
  split
  · rfl
  · split <;> rfl

lemma releaseFrom_midReset (q : FofQueue α) (after : AfterFlush) (i : Nat) (head : Option Addr) :
    (CtrlPc.flush after (releaseFrom q i head)).midReset = false := by
  cases head with
  | none => exact flushFrom_midReset q after i
  | some head => rfl

lemma afterMode_midReset (q : FofQueue α) (ctrl : CtrlClient) (c : Cycle) :
    (afterMode q ctrl c).midReset = false := by
  rw [afterMode]
  split
  · exact flushFrom_midReset q (.jump c) 0
  · rfl

lemma afterFlush_midReset (q : FofQueue α) (ctrl : CtrlClient) (after : AfterFlush) :
    (afterFlush q ctrl after).1.midReset = false := by
  cases after with
  | done => rfl
  | mode c => exact afterMode_midReset ..
  | jump c => rfl

lemma handFrom_midReset (n i : Nat) (head : Option Addr) : (handFrom n i head).midReset = false := by
  cases head <;> rfl

lemma ctrlStep_writes {ctrl ctrl' : CtrlClient} {cpc cpc' : CtrlPc} {ev : Ev α}
    (e : ctrlStep q ctrl cpc = some (ev, cpc', ctrl', q')) : CtrlWrites q cpc cpc' q' := by
  cases ctrlStep_cases e with
  | changed => exact .other rfl (flushFrom_midReset ..) (.refl q)
  | unchanged => exact .other rfl (afterMode_midReset ..) (.refl q)
  | flush step =>
    cases step with
    | take => exact .other rfl (releaseFrom_midReset ..) ⟨⟨rfl, rfl, rfl⟩, rfl, rfl⟩
    | takeExcess => exact .other rfl (releaseFrom_midReset ..) ⟨⟨rfl, rfl, rfl⟩, rfl, rfl⟩
    | last => exact .other rfl rfl (.refl q)
    | walk => exact .other rfl rfl (.refl q)
    | push push => exact .other rfl rfl (pushStep_sameCache push).pair
    | pushed push => exact .other rfl (flushFrom_midReset ..) (pushStep_sameCache push).pair
    | resetSlot => exact .slot rfl rfl
  | flushed step =>
    cases step with
    | resetCheck => exact .check rfl (afterFlush_midReset ..)
  | take => exact .other rfl (handFrom_midReset ..) ⟨⟨rfl, rfl, rfl⟩, rfl, rfl⟩
  | give push => exact .other rfl rfl (pushStep_sameCache push).pair
  | given push =>
    obtain ⟨params, slot, check⟩ := (pushStep_sameCache push).pair
    exact .other rfl rfl ⟨⟨params.nSlots, params.sampleRate, params.bufferSize⟩, slot, check⟩
  | _ => exact .other rfl rfl ⟨⟨rfl, rfl, rfl⟩, rfl, rfl⟩

end Writes

/-! ## Undivided runs -/

/-- What holds in every state of an undivided run. -/
structure Coherent (s : Machine α) : Prop where
  ring : RingOk s.q
  sited : ∀ p, Sited s.q (s.thread p).timeUs (s.thread p).pc
  /-- the tag belongs to the slot, unless somebody is about to write it -/
  pair : (∀ p, (s.thread p).pc.midWrite = false) → s.cpc.midReset = false → CacheOk s.q
  reset : s.cpc.midReset = true → s.q.currentSlot = 0

section Step

variable {s s' : Machine α} {act : Act α} {ev : Ev α}

/-- The place of a call in a cell of the cache depends on the pair only when it relies on the slot. -/
lemma Sited.of_unused {q q' : FofQueue α} {timeUs : Nat} {pc : AddPc} (sited : Sited q timeUs pc)
    (same : SameParams q q') (kept : pc.usesSlot = true → q'.currentSlot = q.currentSlot) :
    Sited q' timeUs pc := by
  apply sited.congr same
  intro fof nextFrame slotIdx cpc epc uses slot
  subst epc
  rw [same.slotOfFrame, ← slot]
  apply kept
  obtain rfl | rfl := uses
  · rfl
  · rfl

lemma SamePair.sited {q q' : FofQueue α} {timeUs : Nat} {pc : AddPc} (same : SamePair q q')
    (sited : Sited q timeUs pc) : Sited q' timeUs pc :=
  sited.of_unused same.params fun _ => same.currentSlot

/-- A call that finds its tag finds its slot. -/
lemma Coherent.hit {p : Nat} {fof : Addr} {slotIdx : Int} (inv : Coherent s)
    (whole : Undivided s (.step p))
    (epc : (s.thread p).pc = .cache fof s.q.nextFrameCheck slotIdx .check) : CacheOk s.q := by
  by_contra divided
  obtain ⟨noWrite, noReset⟩ := whole.hit p fof _ slotIdx rfl epc rfl divided
  exact divided (inv.pair noWrite noReset)

/-- A write of `current_slot` leaves it as it is, if somebody relies on it. -/
lemma Undivided.kept {v : Nat} {b : Bool} (whole : Undivided s act) (writes : writesSlot s act = some v)
    (unused : (∀ p, act ≠ .step p → (s.thread p).pc.usesSlot = false) ∧ s.cpc.midReset = false →
      b = false) (uses : b = true) : v = s.q.currentSlot := by
  by_contra ne
  exact nomatch (unused (whole.write v writes ne)).symm.trans uses

/-- A step of a call keeps the pair coherent. -/
lemma Coherent.step {p : Nat} {pc' : AddPc} {q' : FofQueue α} (inv : Coherent s)
    (whole : Undivided s (.step p))
    (step : addStep s.q (s.thread p).timeUs (s.thread p).argv (s.thread p).pc = some (ev, pc', q')) :
    Coherent ({ s with q := q' }.setThread p { s.thread p with pc := pc' }) := by
  have self : Sited q' (s.thread p).timeUs pc' :=
    (inv.sited p).step inv.ring (fun fof slotIdx epc => inv.hit whole epc) step
  have sited (same : SameParams s.q q')
      (kept : ∀ p', p' ≠ p → (s.thread p').pc.usesSlot = true → q'.currentSlot = s.q.currentSlot) (i) :=
    setThread_forall (P := fun _ t => Sited q' t.timeUs t.pc) { s with q := q' } p
      { s.thread p with pc := pc' } self (fun p' ne => (inv.sited p').of_unused same (kept p' ne)) i
  have writers {t : Thread α} (noWrite : ∀ i, (({ s with q := q' }.setThread p t).thread i).pc.midWrite =
      false) (mid : (s.thread p).pc.midWrite = false) (i : Nat) : (s.thread i).pc.midWrite = false := by
    by_cases e : i = p
    · subst e
      exact mid
    · have other := noWrite i
      rw [setThread_of_ne _ _ _ e] at other
      exact other
  cases addStep_pair step with
  | @slot fof nextFrame slotIdx epc epc' =>
    have writes : writesSlot s (.step p) = some (slotOfFrame s.q nextFrame) := by
      rw [writesSlot, epc]
    refine ⟨inv.ring.congr rfl rfl, sited ⟨rfl, rfl, rfl⟩ fun p' ne uses => ?_, fun noWrite _ => ?_,
      fun mid => ?_⟩
    · exact whole.kept writes (fun unused => unused.1 p' fun h => ne (Act.step.inj h).symm) uses
    · have self := noWrite p
      rw [setThread_self, epc'] at self
      cases self
    · exact (whole.kept writes And.right mid).trans (inv.reset mid)
  | @check fof nextFrame slotIdx epc =>
    have slot := inv.sited p
    rw [epc] at slot
    exact ⟨inv.ring.congr rfl rfl, sited ⟨rfl, rfl, rfl⟩ fun _ _ _ => rfl,
      fun _ _ => slot.2.2 (.inl rfl), inv.reset⟩
  | other noWrite same =>
    refine ⟨inv.ring.congr same.params.nSlots same.params.bufferSize,
      sited same.params fun _ _ _ => same.currentSlot, fun noWrite' noReset => ?_, fun mid => ?_⟩
    · exact same.cacheOk (inv.pair (writers noWrite' noWrite) noReset)
    · exact same.currentSlot.trans (inv.reset mid)

/-- A step of the controller keeps the pair coherent. -/
lemma Coherent.control {cpc' : CtrlPc} {ctrl' : CtrlClient} {q' : FofQueue α} (inv : Coherent s)
    (whole : Undivided s .ctrlStep)
    (step : ctrlStep s.q s.ctrl s.cpc = some (ev, cpc', ctrl', q')) :
    Coherent { s with q := q', ctrl := ctrl', cpc := cpc' } := by
  cases ctrlStep_writes step with
  | @slot after ecpc ecpc' =>
    have writes : writesSlot s .ctrlStep = some 0 := by
      rw [writesSlot, ecpc]
    refine ⟨inv.ring.congr rfl rfl, fun p => ?_, fun _ noReset => ?_, fun _ => rfl⟩
    · exact (inv.sited p).of_unused ⟨rfl, rfl, rfl⟩
        (whole.kept writes fun unused => unused.1 p (fun h => nomatch h))
    · have noReset : cpc'.midReset = false := noReset
      rw [ecpc'] at noReset
      cases noReset
  | @check after ecpc noReset =>
    refine ⟨inv.ring.congr rfl rfl, fun p => (inv.sited p).of_unused ⟨rfl, rfl, rfl⟩ fun _ => rfl,
      fun _ _ => ?_, fun mid => nomatch noReset.symm.trans mid⟩
    have zero := inv.reset (by rw [ecpc]; rfl)
    show s.q.currentSlot = 0 / s.q.bufferSize &&& (s.q.nSlots - 1)
    rw [zero, Nat.zero_div, Nat.zero_and]
  | other noReset noReset' same =>
    exact ⟨inv.ring.congr same.params.nSlots same.params.bufferSize, fun p => same.sited (inv.sited p),
      fun noWrite _ => same.cacheOk (inv.pair noWrite noReset), fun mid => nomatch noReset'.symm.trans mid⟩

/-- Every undivided action keeps the pair coherent. -/
lemma Coherent.exec (inv : Coherent s) (whole : Undivided s act) (e : s.exec act = some (ev, s')) :
    Coherent s' := by
  cases Machine.executed e with
  | @call p timeUs argv idle =>
    refine ⟨inv.ring, ?_, fun noWrite => ?_, inv.reset⟩
    · exact setThread_forall (P := fun _ t => Sited s.q t.timeUs t.pc) s p _ trivial
        fun p' _ => inv.sited p'
    · apply inv.pair
      intro i
      by_cases e : i = p
      · rw [e, idle]
        rfl
      · have other := noWrite i
        rw [setThread_of_ne _ _ _ e] at other
        exact other
  | step step => exact inv.step whole step
  | cycle idle =>
    refine ⟨inv.ring, inv.sited, fun noWrite _ => inv.pair noWrite ?_, nofun⟩
    rw [idle]
    rfl
  | flush idle =>
    refine ⟨inv.ring, inv.sited, fun noWrite _ => inv.pair noWrite ?_, fun mid => ?_⟩
    · rw [idle]
      rfl
    · exact nomatch (flushFrom_midReset s.q .done 0).symm.trans mid
  | ctrlStep step => exact inv.control whole step
  | storeClockSource =>
    exact ⟨inv.ring.congr rfl rfl,
      fun p => (inv.sited p).of_unused ⟨rfl, rfl, rfl⟩ fun _ => rfl, inv.pair, inv.reset⟩

end Step

section Runs

variable {s s' : Machine α} {log : List (Step α)} {q q' : FofQueue α} {ev : Ev α}

/-! Nothing changes the parameters of the queue. -/

lemma addStep_params {timeUs : Nat} {argv : α} {pc pc' : AddPc}
    (e : addStep q timeUs argv pc = some (ev, pc', q')) : SameParams q q' :=
  (addStep_clock e).params

lemma ctrlStep_params {ctrl ctrl' : CtrlClient} {cpc cpc' : CtrlPc}
    (e : ctrlStep q ctrl cpc = some (ev, cpc', ctrl', q')) : SameParams q q' := by
  cases ctrlStep_writes e with
  | other _ _ same => exact same.params
  | _ => exact ⟨rfl, rfl, rfl⟩

lemma exec_params {act : Act α} (e : s.exec act = some (ev, s')) : SameParams s.q s'.q := by
  cases Machine.executed e with
  | step step => exact addStep_params step
  | ctrlStep step => exact ctrlStep_params step
  | _ => exact ⟨rfl, rfl, rfl⟩

lemma run_params (run : Run Machine.exec s log s') : SameParams s.q s'.q :=
  (run.inv (fun s' => SameParams s.q s'.q) (fun _ same e =>
    have here := exec_params e
    ⟨here.nSlots.trans same.nSlots, here.sampleRate.trans same.sampleRate,
      here.bufferSize.trans same.bufferSize⟩) ⟨rfl, rfl, rfl⟩).1

/-- An action leaves the local variable `next_frame` of a call alone, or loads it. -/
lemma exec_loadedBy {p nextFrame : Nat} {act : Act α} {ev : Ev α} (e : s.exec act = some (ev, s'))
    (live : (s'.thread p).pc.nextFrame = some nextFrame) :
    (loadedBy p s act).or (s.thread p).pc.nextFrame = some nextFrame := by
  cases Machine.executed e with
  | @call p' timeUs argv idle =>
    by_cases same : p = p'
    · subst same
      rw [setThread_self] at live
      cases live
    · rw [setThread_of_ne _ _ _ same] at live
      exact live
  | @step p' _ pc' q' step =>
    by_cases same : p' = p
    · subst same
      rw [setThread_self] at live
      have loaded := addStep_nextFrame step live
      rw [loadedBy]
      cases loads : (s.thread p').pc.loadsFrame with
      | true =>
        rw [loads, if_pos rfl] at loaded
        rw [if_pos ⟨rfl, rfl⟩, loaded, Option.some_or]
      | false =>
        rw [loads, if_neg Bool.false_ne_true] at loaded
        rw [if_neg fun h => Bool.false_ne_true h.2, Option.none_or, loaded]
    · rw [setThread_of_ne _ _ _ (Ne.symm same)] at live
      rw [loadedBy, if_neg fun h => same h.1]
      exact live
  | _ => exact live

/-- The local variable `next_frame` of a call is what the call loaded last. -/
lemma run_lastLoaded {p nextFrame : Nat} (run : Run Machine.exec s log s')
    (live : (s'.thread p).pc.nextFrame = some nextFrame) :
    (lastLoaded p log).or (s.thread p).pc.nextFrame = some nextFrame := by
  induction run with
  | nil => exact live
  | cons e run ih =>
    have rest := ih live
    rw [lastLoaded]
    cases later : lastLoaded p _ with
    | some nf =>
      rw [later] at rest
      exact rest
    | none =>
      rw [later, Option.none_or] at rest
      exact exec_loadedBy e rest

/-- An event is linked where its call has placed it. -/
lemma linked_place {p fof slot : Nat} (e : s.exec (.step p) = some (.linked fof slot, s'))
    (sited : Sited s.q (s.thread p).timeUs (s.thread p).pc) :
    ∃ nextFrame, (s.thread p).pc.nextFrame = some nextFrame ∧
      nextFrame ≤ startFrame s.q (s.thread p).timeUs ∧
      slot = ringSlot s.q (startFrame s.q (s.thread p).timeUs) nextFrame := by
  cases Machine.executed e with
  | step step =>
    obtain ⟨nextFrame, pc, -⟩ := addStep_linked step
    refine ⟨nextFrame, ?_⟩
    obtain pc | pc := pc <;> rw [pc] at sited ⊢ <;> exact ⟨rfl, sited.1.le, sited.2⟩

end Runs

lemma coherent_init {setup : Setup} (pow : ∃ e, setup.nSlots = 2 ^ e)
    (nSlots : setup.nSlots < 2 ^ 31) (size : 1 ≤ setup.maxBufferSize)
    (size_lt : setup.maxBufferSize < 2 ^ 31) (q : FofQueue α) (argv : α) :
    Coherent (Machine.init setup q argv) := by
  obtain ⟨-, check, slot0, -, slots, -, buffer⟩ := fofQueueInit_fields q setup
  refine ⟨⟨?_, ?_, ?_, ?_⟩, fun p => trivial, fun _ _ => ?_, nofun⟩
  · exact slots ▸ pow
  · exact slots ▸ nSlots
  · exact buffer ▸ size
  · exact buffer ▸ size_lt
  · show (fofQueueInit q setup).currentSlot = slotOfFrame _ (fofQueueInit q setup).nextFrameCheck
    rw [slot0, check, slotOfFrame, Nat.zero_div, Nat.zero_and]

/-- In every undivided run of any number of producers and the controller, every event is linked into
    the slot of its block, counted from the value of `next_frame` that its call loaded last. -/
theorem cache_coherent (setup : Setup) (pow : ∃ e, setup.nSlots = 2 ^ e)
    (nSlots : setup.nSlots < 2 ^ 31) (size : 1 ≤ setup.maxBufferSize)
    (size_lt : setup.maxBufferSize < 2 ^ 31) (q : FofQueue α) (argv : α) (acts : List (Act α))
    {log : List (Step α)} {s : Machine α}
    (run : execAll Machine.exec (Machine.init setup q argv) acts = some (log, s))
    (whole : ∀ x ∈ log, Undivided x.pre x.op) :
    ∀ l1 x l2 p fof slot, log = l1 ++ x :: l2 → x.op = .step p → x.out = .linked fof slot →
      ∃ nextFrame, lastLoaded p l1 = some nextFrame ∧
        slot = (nextFrame / setup.maxBufferSize +
          (jfofsTimeToNframes (x.pre.thread p).timeUs setup.sampleRate - nextFrame) /
            setup.maxBufferSize) &&& (setup.nSlots - 1) := by
  obtain ⟨run, -⟩ := run_of_execAll run
  obtain ⟨-, -, -, -, slots, rate, buffer⟩ := fofQueueInit_fields q setup
  have start := coherent_init pow nSlots size size_lt q argv
  obtain ⟨-, inv⟩ := run.inv Coherent (fun mem inv e => inv.exec (whole _ mem) e) start
  rintro l1 x l2 p fof slot rfl op out
  obtain ⟨s1, run1, e, -⟩ := run.split
  rw [out] at e
  have inv := inv x (List.mem_append_right _ List.mem_cons_self)
  have params := run_params run1
  rw [op] at e
  obtain ⟨nextFrame, live, -, eq⟩ := linked_place e (inv.sited p)
  have loaded := run_lastLoaded run1 live
  refine ⟨nextFrame, ?_, ?_⟩
  · have fresh : ((Machine.init setup q argv).thread p).pc.nextFrame = none := rfl
    rw [fresh, Option.or_none] at loaded
    exact loaded
  · rw [params.ringSlot, params.startFrame, ringSlot, ← start.ring.mask_eq] at eq
    rw [← slots, ← rate, ← buffer]
    exact eq

/-- With a single producer only a flush can come between the accesses to the pair. -/
lemma Undivided.of_single {s : Machine α} {p : Nat} {act : Act α}
    (idle : ∀ i, i ≠ p → (s.thread i).pc = .idle) (noReset : s.cpc.midReset = false)
    (noSlot : writesSlot s .ctrlStep = none) (cacheOk : (s.thread p).pc.midWrite = false → CacheOk s.q) :
    Undivided s act := by
  constructor
  case write =>
    intro v writes _
    refine ⟨fun i other => ?_, noReset⟩
    by_cases e : i = p
    · subst e
      cases act with
      | step i' =>
        have writes : writesSlot s (.step i') = some v := writes
        rw [writesSlot, idle i' fun e => other (congrArg Act.step e)] at writes
        cases writes
      | ctrlStep => cases noSlot.symm.trans writes
      | _ => cases writes
    · rw [idle i e]
      rfl
  case hit =>
    rintro i fof nextFrame slotIdx - pc rfl ne
    by_cases e : i = p
    · subst e
      refine absurd (cacheOk ?_) ne
      rw [pc]
      rfl
    · rw [idle i e] at pc
      cases pc

/-- One cycle of two frames up to its exchange. -/
def emptyCycle : List (Act Unit) := .cycle 2 ⟨0, .stopped, 0⟩ :: List.replicate 4 .ctrlStep

/-- A cycle publishes frame 2, and a call for frame 3 writes its slot and its tag. The call for frame 5
    finds them, but the next cycle publishes frame 4 before it inserts. -/
def overtakenCall : List (Act Unit) :=
  emptyCycle ++ .call 0 3 () :: List.replicate 14 (.step 0) ++ .call 0 5 () :: List.replicate 10 (.step 0) ++
    emptyCycle ++ List.replicate 9 (.step 0)

/-- The call for frame 5 goes back, writes the slot and the tag of frame 4, and links its event into slot
    0. -/
theorem cache_coherent_alone : ∃ (log : List (Step Unit)) (s : Machine Unit) (l1 : List (Step Unit))
      (x : Step Unit) (l2 : List (Step Unit)) (nextFrame : Nat),
    execAll Machine.exec (Machine.init (twoSlots 2) (FofQueue.zero ()) ()) overtakenCall = some (log, s) ∧
      log = l1 ++ x :: l2 ∧ x.out = .linked 1 0 ∧ lastLoaded 0 l1 = some nextFrame ∧
      0 = (nextFrame / 2 + (jfofsTimeToNframes 5 1000000 - nextFrame) / 2) &&& 1 ∧
      s.q.currentSlot = 0 ∧ s.q.nextFrameCheck = 4 := by
  cases run : execAll Machine.exec (Machine.init (twoSlots 2) (FofQueue.zero ()) ()) overtakenCall with
  | none => exact absurd run (by decide +kernel)
  | some r =>
    obtain ⟨log, s⟩ := r
    have single : ∀ x ∈ log, x.op.single 0 = true :=
      forall_op_of_execAll (P := fun op => op.single 0 = true) run (by decide)
    obtain ⟨-, idle⟩ := idle_of_single (run_of_execAll run).1 single fun _ _ => rfl
    have quiet : ∀ x ∈ log, x.pre.cpc.midReset = false ∧ writesSlot x.pre .ctrlStep = none ∧
        ((x.pre.thread 0).pc.midWrite = false →
          x.pre.q.currentSlot = slotOfFrame x.pre.q x.pre.q.nextFrameCheck) := by
      cases Option.some.inj (run.symm.trans rfl)
      decide +kernel
    have whole : ∀ x ∈ log, Undivided x.pre x.op := by
      intro x mem
      obtain ⟨noReset, noSlot, cacheOk⟩ := quiet x mem
      exact .of_single (idle x mem) noReset noSlot cacheOk
    have last : s.q.currentSlot = 0 ∧ s.q.nextFrameCheck = 4 ∧
        ∃ x, log[44]? = some x ∧ x.op = .step 0 ∧ x.out = .linked 1 0 ∧
          (x.pre.thread 0).timeUs = 5 := by
      cases Option.some.inj (run.symm.trans rfl)
      exact ⟨rfl, rfl, _, rfl, rfl, rfl, rfl⟩
    obtain ⟨slot, tag, x, at44, op, out, time⟩ := last
    obtain ⟨l1, l2, split⟩ := List.append_of_mem (List.mem_of_getElem? at44)
    obtain ⟨nextFrame, loaded, eq⟩ := cache_coherent (twoSlots 2) ⟨1, rfl⟩ (by decide) (by decide)
      (by decide) _ _ _ run whole l1 x l2 0 1 0 split op out
    rw [time] at eq
    exact ⟨log, s, l1, x, l2, nextFrame, rfl, split, out, loaded, eq, slot, tag⟩

/-- Thread 1 has loaded frame 2 and is about to write `current_slot` when the next cycle comes. Thread 0
    loads frame 4, writes its slot and its tag, and then thread 1 writes the slot of frame 2. -/
def crossedWrites : List (Act Unit) :=
  emptyCycle ++ .call 1 5 () :: List.replicate 7 (.step 1) ++ emptyCycle ++
    .call 0 5 () :: List.replicate 9 (.step 0) ++ .step 1 :: List.replicate 5 (.step 0)

/-- Thread 0 links its event for frame 5 into slot 1, although it loaded frame 4 last and the block of
    frame 5 has slot 0. -/
theorem cache_crossed : ∃ (log : List (Step Unit)) (s : Machine Unit) (x : Step Unit),
    execAll Machine.exec (Machine.init (twoSlots 2) (FofQueue.zero ()) ()) crossedWrites = some (log, s) ∧
      log[33]? = some x ∧ x.op = .step 0 ∧ x.out = .linked 1 1 ∧ (x.pre.thread 0).timeUs = 5 ∧
      lastLoaded 0 (log.take 33) = some 4 ∧
      (4 / 2 + (jfofsTimeToNframes 5 1000000 - 4) / 2) &&& 1 = 0 :=
  ⟨_, _, _, rfl, rfl, rfl, rfl, rfl, rfl, rfl⟩

end JackFofs
