import JackFofs.Conc.Invariant
import JackFofs.Lib.Refinement
import JackFofs.Seq.Conservation

/-!
# Whole calls and interleaved calls

The queue is modelled twice: by whole functions (`JackFofs/Queue/Basic`, `JackFofs/Ctrl/Basic`, the
server `Sys`), and one shared access a step (`Machine`). This module connects the two: a call that
nobody interferes with makes the steps of the machine and ends with the status, the calls of
`dsp_client_add` and the shared memory of the whole function, apart from the counters of a
`DEBUG_ENABLE` build, which the machine leaves out.

Each function gets one lemma, proved backwards from its return: `Returns` for `fof_queue_add` and
`Shows` for the controller. `serverRefines` puts them together.
-/

namespace JackFofs
open Runs

variable {α : Type}

/-- The same queue, apart from the counters of a `DEBUG_ENABLE` build. -/
def Uncounted (q q1 : FofQueue α) : Prop :=
  ∃ freeCnt activeCnt, q1 = { q with freeCnt := freeCnt, activeCnt := activeCnt }

/-- What the clients and the DSP clients see of the server: the status of a call, the frame of a
    cycle and the calls of `dsp_client_add`. -/
inductive Seen (α : Type) where
  | returned (status : JfofsStatus)
  | cycle (n : Nat)
  | handed (dsp timeUs : Nat) (argv : α)
deriving DecidableEq

/-- What a step shows. -/
def Ev.seen : Ev α → List (Seen α)
  | .fetched n => [.cycle n]
  | .handed d => [.handed d.dsp d.timeUs d.argv]
  | .limit => [.returned .fofLimitError]
  | .linked _ _ => [.returned .success]
  | .excess _ => [.returned .fofExcessInfo]
  | .late _ => [.returned .fofLateWarning]
  | _ => []

/-- What a whole operation shows. -/
def Out.seen : Out α → List (Seen α)
  | .added status => [.returned status]
  | .done => []
  | .cycled n handed => .cycle n :: handed.map fun h => .handed h.dsp h.timeUs h.argv

/-- The whole operation that an action starts. -/
def Act.wholeOp : Act α → Option (Op α)
  | .call _ timeUs argv => some (.add timeUs argv)
  | .flush => some .flush
  | .storeClockSource clockSource => some (.storeClockSource clockSource)
  | .cycle nframes jack => some (.cycle nframes jack)
  | .step _ => none
  | .ctrlStep => none

/-- The machine at rest with the controller and the queue of the server. -/
structure SameServer (s : Machine α) (t : Sys α) : Prop where
  rest : AtRest s
  ctrl : s.ctrl = t.ctrl
  queue : Uncounted t.q s.q

lemma Uncounted.refl (q : FofQueue α) : Uncounted q q := ⟨q.freeCnt, q.activeCnt, rfl⟩

/-! ## `fof_queue_add` -/

/-- A step of a call of `fof_queue_add` and the queue it leaves. -/
def addNext (timeUs : Nat) (argv : α) (x : AddPc × FofQueue α) : Option (Ev α × AddPc × FofQueue α) :=
  addStep x.2 timeUs argv x.1

/-- Run alone, the call ends with this status and this queue. -/
def Returns (timeUs : Nat) (argv : α) (pc : AddPc) (q : FofQueue α) (r : JfofsStatus × FofQueue α) :
    Prop :=
  ∃ evs q', Path (addNext timeUs argv) (pc, q) evs (.idle, q') ∧
    evs.flatMap Ev.seen = [.returned r.1] ∧ Uncounted r.2 q'

section Add

variable {timeUs : Nat} {argv : α} {q q1 q' : FofQueue α} {pc pc' : AddPc} {ev : Ev α}
  {r : JfofsStatus × FofQueue α}

lemma Returns.now {st : JfofsStatus} {q2 : FofQueue α} (step : AddStep q timeUs argv pc ev .idle q')
    (seen : ev.seen = [.returned st]) (same : Uncounted q2 q') : Returns timeUs argv pc q (st, q2) := by
  refine ⟨[ev], q', .one step.eq, ?_, same⟩
  rw [List.flatMap_singleton, seen]

lemma Returns.later (step : AddStep q timeUs argv pc ev pc' q') (silent : ev.seen = [])
    (ret : Returns timeUs argv pc' q' r) : Returns timeUs argv pc q r := by
  obtain ⟨evs, q2, path, seen, same⟩ := ret
  refine ⟨ev :: evs, q2, .cons step.eq path, ?_, same⟩
  rw [List.flatMap_cons, silent, List.nil_append, seen]

/-- `fof_queue_free_fof` -/
lemma returns_free (same : Uncounted q q1) (fof : Addr) :
    Returns timeUs argv (.free fof .load) q1 (.fofLateWarning, fofQueueFreeFof q fof) := by
  obtain ⟨freeCnt, activeCnt, rfl⟩ := same
  generalize eq1 : { q with freeCnt := freeCnt, activeCnt := activeCnt } = q1
  have head : (q1.setNext fof q1.freeFofs).freeFofs = (q1.setNext fof q1.freeFofs).next fof := by
    rw [next_setNext, Function.update_self]
    rfl
  have free : Returns timeUs argv (.free fof (.cas ((q1.setNext fof q1.freeFofs).next fof)))
      (q1.setNext fof q1.freeFofs) (.fofLateWarning, fofQueueFreeFof q fof) := by
    refine .now (.freed (if_pos head)) rfl ?_
    subst eq1
    exact ⟨freeCnt, activeCnt, rfl⟩
  exact .later (.free rfl) rfl (.later (.free rfl) rfl (.later (.free rfl) rfl free))

/-- The excess branch. -/
lemma returns_excess (same : Uncounted q q1) (fof : Addr) :
    Returns timeUs argv (.excess fof .read) q1 (.fofExcessInfo, pushExcess q fof) := by
  obtain ⟨freeCnt, activeCnt, rfl⟩ := same
  exact .later .excessRead rfl (.later .excessWrite rfl
    (.now .pushed rfl ⟨freeCnt, activeCnt, rfl⟩))

/-- The insertion into a slot that is not the current one needs one round of its loop. -/
lemma returns_far (same : Uncounted q q1) (fof slot : Nat) :
    Returns timeUs argv (.far fof q.nextFrame slot .load) q1 (linkFar q fof slot) := by
  obtain ⟨freeCnt, activeCnt, rfl⟩ := same
  generalize eq1 : { q with freeCnt := freeCnt, activeCnt := activeCnt } = q1
  have frame : q1.nextFrame = q.nextFrame := by rw [← eq1]
  have head : (q1.setNext fof (q1.slot slot)).slot slot =
      (q1.setNext fof (q1.slot slot)).next fof := by
    rw [next_setNext, Function.update_self]
    rfl
  have link : Returns timeUs argv
      (.far fof q.nextFrame slot (.cas ((q1.setNext fof (q1.slot slot)).next fof)))
      (q1.setNext fof (q1.slot slot)) (linkFar q fof slot) := by
    refine .now (.linkedFar head) rfl ?_
    subst eq1
    exact ⟨freeCnt, activeCnt, rfl⟩
  exact .later .farLoad rfl (.later .farWrite rfl (.later (.farCheck frame) rfl
    (.later .farRead rfl link)))

lemma returns_near (same : Uncounted q q1) (fof slot : Nat) :
    Returns timeUs argv (.near fof q.nextFrame slot .load) q1 (linkNear q fof slot q.nextFrame) := by
  rw [linkNear_eq]
  obtain ⟨freeCnt, activeCnt, rfl⟩ := same
  exact .later .nearLoad rfl (.later .nearWrite rfl (.later (.nearCheck rfl) rfl
    (.now (.linkedNear rfl) rfl ⟨freeCnt, activeCnt, rfl⟩)))

/-- The cached slot, the choice of the insertion and the insertion. -/
lemma returns_cache (same : Uncounted q q1) (fof : Addr) (slotIdx : Int) :
    Returns timeUs argv (.cache fof q.nextFrame slotIdx .check) q1
      (let q' := cacheCurrentSlot q q.nextFrame
       let slot := targetSlot q' slotIdx
       if startFrame q timeUs > u64 (q.nextFrame + q'.bufferSize) then linkFar q' fof slot
       else linkNear q' fof slot q.nextFrame) := by
  have read {q' q1' : FofQueue α} (same' : Uncounted q' q1') (frame : q'.nextFrame = q.nextFrame)
      (rate : q'.sampleRate = q.sampleRate) :
      Returns timeUs argv (.cache fof q.nextFrame slotIdx .read) q1'
        (if startFrame q timeUs > u64 (q.nextFrame + q'.bufferSize) then
          linkFar q' fof (targetSlot q' slotIdx)
        else linkNear q' fof (targetSlot q' slotIdx) q.nextFrame) := by
    rw [← frame, startFrame, ← rate]
    have slot : targetSlot q1' slotIdx = targetSlot q' slotIdx := by
      obtain ⟨freeCnt, activeCnt, rfl⟩ := same'
      rfl
    have params : startFrame q1' timeUs = jfofsTimeToNframes timeUs q'.sampleRate ∧
        q1'.bufferSize = q'.bufferSize := by
      obtain ⟨freeCnt, activeCnt, rfl⟩ := same'
      exact ⟨rfl, rfl⟩
    split
    · rename_i ahead
      rw [← params.1, ← params.2] at ahead
      rw [← slot]
      exact .later (.chooseFar ahead) rfl (returns_far same' fof _)
    · rename_i near
      rw [← params.1, ← params.2] at near
      rw [← slot]
      exact .later (.chooseNear near) rfl (returns_near same' fof _)
  obtain ⟨freeCnt, activeCnt, rfl⟩ := same
  by_cases current : q.nextFrame = q.nextFrameCheck
  · have e : cacheCurrentSlot q q.nextFrame = q := if_neg (not_not_intro current)
    rw [e]
    exact .later (.cached current) rfl (read ⟨freeCnt, activeCnt, rfl⟩ rfl rfl)
  · have e : cacheCurrentSlot q q.nextFrame =
        { q with currentSlot := slotOfFrame q q.nextFrame, nextFrameCheck := q.nextFrame } :=
      if_pos current
    rw [e]
    exact .later (.outdated current) rfl (.later .cacheSlot rfl (.later .cacheFrame rfl
      (read ⟨freeCnt, activeCnt, rfl⟩ rfl rfl)))

/-- From the label `recalculate` on. -/
lemma returns_recalculate (same : Uncounted q q1) (fof : Addr) :
    Returns timeUs argv (recalculatePc q1 fof (startFrame q1 timeUs) q1.nextFrame) q1
      (recalculate q fof (startFrame q timeUs) q.nextFrame) := by
  have e : recalculatePc q1 fof (startFrame q1 timeUs) q1.nextFrame =
      recalculatePc q fof (startFrame q timeUs) q.nextFrame := by
    obtain ⟨freeCnt, activeCnt, rfl⟩ := same
    rfl
  rw [e, recalculate]
  unfold recalculatePc
  split
  · exact returns_free same fof
  · dsimp only
    split
    · exact returns_excess same fof
    · exact returns_cache same fof _

/-- A call of `fof_queue_add` that runs alone. -/
theorem returns_add (same : Uncounted q q1) (timeUs : Nat) (argv : α) :
    Returns timeUs argv (.alloc .load) q1 (fofQueueAdd q timeUs argv) := by
  have free : q1.freeFofs = q.freeFofs := by
    obtain ⟨freeCnt, activeCnt, rfl⟩ := same
    rfl
  cases head : q.freeFofs with
  | none =>
    rw [fofQueueAdd_none head]
    exact .now (.empty (free.trans head)) rfl same
  | some fof =>
    have popped : Uncounted (setFof (popFree q fof) fof timeUs argv)
        (setFof (({ q1 with freeFofs := q1.next fof } : FofQueue α).setNext fof none) fof timeUs
          argv) := by
      obtain ⟨freeCnt, activeCnt, rfl⟩ := same
      exact ⟨freeCnt, activeCnt, rfl⟩
    have e : fofQueueAdd q timeUs argv = recalculate (setFof (popFree q fof) fof timeUs argv) fof
        (startFrame (setFof (popFree q fof) fof timeUs argv) timeUs)
        (setFof (popFree q fof) fof timeUs argv).nextFrame := by
      simp only [fofQueueAdd, fofQueueAllocateFof, head]
      rfl
    rw [e]
    have rest : Returns timeUs argv _ _ _ := returns_recalculate popped fof
    exact .later (.loaded (free.trans head)) rfl (.later .read rfl (.later (.popped (free.trans head))
      rfl (.later .got rfl (.later .filled rfl (.later .calculate rfl rest)))))

end Add

/-! ## The controller -/

/-- A step of the controller and what it leaves. -/
def ctrlNext (x : CtrlPc × CtrlClient × FofQueue α) :
    Option (Ev α × CtrlPc × CtrlClient × FofQueue α) :=
  ctrlStep x.2.2 x.2.1 x.1

/-- Run alone, the controller gets from one state to the other and shows this on the way. -/
def Shows (x : CtrlPc × CtrlClient × FofQueue α) (seen : List (Seen α))
    (x' : CtrlPc × CtrlClient × FofQueue α) : Prop :=
  ∃ evs, Path ctrlNext x evs x' ∧ evs.flatMap Ev.seen = seen

section Ctrl

variable {q q1 q' : FofQueue α} {ctrl ctrl' : CtrlClient} {cpc cpc' : CtrlPc} {ev : Ev α}
  {x y z : CtrlPc × CtrlClient × FofQueue α} {l l' : List (Seen α)} {fuel : Nat}
  {after : AfterFlush}

lemma Shows.refl (x : CtrlPc × CtrlClient × FofQueue α) : Shows x [] x := ⟨[], .nil, rfl⟩

lemma Shows.trans (h : Shows x l y) (h' : Shows y l' z) : Shows x (l ++ l') z := by
  obtain ⟨evs, path, rfl⟩ := h
  obtain ⟨evs', path', rfl⟩ := h'
  exact ⟨evs ++ evs', path.trans path', List.flatMap_append⟩

/-- A step that is seen. -/
lemma Shows.step (step : CtrlStep q ctrl cpc ev cpc' ctrl' q') (h : Shows (cpc', ctrl', q') l x) :
    Shows (cpc, ctrl, q) (ev.seen ++ l) x := by
  obtain ⟨evs, path, rfl⟩ := h
  exact ⟨ev :: evs, .cons step.eq path, rfl⟩

/-- A step that is not seen. -/
lemma Shows.quiet (step : CtrlStep q ctrl cpc ev cpc' ctrl' q') (silent : ev.seen = [])
    (h : Shows (cpc', ctrl', q') l x) : Shows (cpc, ctrl, q) l x := by
  have all := Shows.step step h
  rwa [silent, List.nil_append] at all

/-! ### Lists go back to the free list -/

/-- The walk to the last cell of a list. -/
lemma shows_walk (same : Uncounted q q1) {i : Nat} {head tail last : Addr}
    (e : findTail q fuel tail = some last) :
    Shows (.flush after (.walk i head tail), ctrl, q1) []
      (.flush after (.push i head last .load), ctrl, q1) := by
  have same (a : Addr) : q1.next a = q.next a := by
    obtain ⟨freeCnt, activeCnt, rfl⟩ := same
    rfl
  induction fuel generalizing tail with
  | zero => cases e
  | succ fuel ih =>
    rw [findTail] at e
    cases next : q.next tail with
    | none =>
      rw [next] at e
      cases e
      exact .quiet (.flush (.last ((same last).trans next))) rfl (.refl _)
    | some fof =>
      rw [next] at e
      exact .quiet (.flush (.walk ((same tail).trans next))) rfl (ih e)

/-- The queue after `fof_queue_free_fofs` without the counter. -/
def FofQueue.given (q : FofQueue α) (head tail : Addr) : FofQueue α :=
  { q.setNext tail q.freeFofs with freeFofs := some head }

lemma uncounted_given (same : Uncounted q q1) {head tail : Addr}
    (e : fofQueueFreeFofs fuel q head tail = some q') : Uncounted q' (q1.given head tail) := by
  obtain ⟨freeCnt, activeCnt, rfl⟩ := same
  obtain ⟨cnt, -, e⟩ := Option.bind_eq_some_iff.1 e
  cases e
  exact ⟨freeCnt, activeCnt, rfl⟩

/-- The steps of `fof_queue_free_fofs` that come before its compare-exchange, which succeeds. -/
lemma given_head (q : FofQueue α) (tail : Addr) :
    (q.setNext tail q.freeFofs).freeFofs = (q.setNext tail q.freeFofs).next tail := by
  rw [next_setNext, Function.update_self]
  rfl

lemma shows_push (q : FofQueue α) (i : Nat) (head tail : Addr) :
    Shows (.flush after (.push i head tail .load), ctrl, q) []
      (.flush after (flushFrom (q.given head tail) i), ctrl, q.given head tail) :=
  .quiet (.flush (.push rfl)) rfl (.quiet (.flush (.push rfl)) rfl (.quiet (.flush (.push rfl)) rfl
    (.quiet (.flush (.pushed (if_pos (given_head q tail)))) rfl (.refl _))))

variable (ctrl after) in
/-- `fof_queue_release_list` -/
lemma shows_release (same : Uncounted q q1) {i : Nat} {head : Option Addr}
    (e : fofQueueReleaseList fuel q head = some q') :
    ∃ q1', Shows (.flush after (releaseFrom q1 i head), ctrl, q1) []
      (.flush after (flushFrom q1' i), ctrl, q1') ∧ Uncounted q' q1' := by
  cases head with
  | none =>
    cases e
    exact ⟨q1, .refl _, same⟩
  | some head =>
    obtain ⟨tail, walk, e⟩ := Option.bind_eq_some_iff.1 e
    exact ⟨q1.given head tail, (shows_walk same walk).trans (shows_push q1 i head tail),
      uncounted_given same e⟩

lemma fofQueueReleaseList_nSlots {head : Option Addr}
    (e : fofQueueReleaseList fuel q head = some q') : q'.nSlots = q.nSlots := by
  cases head with
  | none =>
    cases e
    rfl
  | some head =>
    obtain ⟨tail, -, e⟩ := Option.bind_eq_some_iff.1 e
    obtain ⟨cnt, -, e⟩ := Option.bind_eq_some_iff.1 e
    cases e
    rfl

variable (ctrl after) in
/-- The loop of `fof_queue_flush` over the first `n` slots. -/
lemma shows_flushSlots (same : Uncounted q q1) {n : Nat} (le : n ≤ q.nSlots)
    (e : flushSlots fuel q n = some q') :
    ∃ q1', Shows (.flush after (flushFrom q1 0), ctrl, q1) []
      (.flush after (flushFrom q1' n), ctrl, q1') ∧ Uncounted q' q1' ∧ q'.nSlots = q.nSlots := by
  induction n generalizing q' with
  | zero =>
    cases e
    exact ⟨q1, .refl _, same, rfl⟩
  | succ n ih =>
    obtain ⟨q2, slots, e⟩ := Option.bind_eq_some_iff.1 e
    obtain ⟨q3, before, same3, nSlots⟩ := ih (Nat.le_of_succ_le le) slots
    have lt : n < q3.nSlots := by
      obtain ⟨freeCnt, activeCnt, rfl⟩ := same3
      show n < q2.nSlots
      omega
    have slot : q3.slot n = q2.slot n := by
      obtain ⟨freeCnt, activeCnt, rfl⟩ := same3
      rfl
    have taken : Uncounted (q2.setSlot n none) (q3.setSlot n none) := by
      obtain ⟨freeCnt, activeCnt, rfl⟩ := same3
      exact ⟨freeCnt, activeCnt, rfl⟩
    obtain ⟨q4, released, same4⟩ := shows_release ctrl after (i := n + 1) taken e
    have take : Shows (.flush after (flushFrom q3 n), ctrl, q3) []
        (.flush after (flushFrom q4 (n + 1)), ctrl, q4) := by
      rw [flushFrom, if_pos lt]
      rw [← slot] at released
      exact .quiet (.flush .take) rfl released
    exact ⟨q4, before.trans take, same4, (fofQueueReleaseList_nSlots e).trans nSlots⟩

variable (ctrl after) in
/-- `fof_queue_flush` -/
lemma shows_flush (same : Uncounted q q1) (e : fofQueueFlush fuel q = some q') :
    ∃ q1', Shows (.flush after (flushFrom q1 0), ctrl, q1) []
      ((afterFlush q1' ctrl after).1, (afterFlush q1' ctrl after).2, q1') ∧ Uncounted q' q1' := by
  obtain ⟨q2, slots, e⟩ := Option.bind_eq_some_iff.1 e
  obtain ⟨q3, excess, e⟩ := Option.bind_eq_some_iff.1 e
  obtain ⟨r2, before, same2, nSlots⟩ :=
    shows_flushSlots ctrl after same (Nat.le_refl _) slots
  have e2 : r2.nSlots = q.nSlots ∧ r2.excess = q2.excess := by
    obtain ⟨freeCnt, activeCnt, rfl⟩ := same2
    exact ⟨nSlots, rfl⟩
  have taken : Uncounted { q2 with excess := none } { r2 with excess := none } := by
    obtain ⟨freeCnt, activeCnt, rfl⟩ := same2
    exact ⟨freeCnt, activeCnt, rfl⟩
  rw [← e2.2] at excess
  obtain ⟨r3, released, same3⟩ :=
    shows_release ctrl after (i := r2.nSlots + 1) taken excess
  have take : Shows (.flush after (flushFrom r2 q.nSlots), ctrl, r2) []
      (.flush after (flushFrom r3 (r2.nSlots + 1)), ctrl, r3) := by
    have at_excess : flushFrom r2 q.nSlots = .takeExcess := by
      rw [flushFrom, e2.1, if_neg (Nat.lt_irrefl _), if_pos rfl]
    have start : releaseFrom r2 (r2.nSlots + 1) r2.excess =
        releaseFrom { r2 with excess := none } (r2.nSlots + 1) r2.excess := by
      cases r2.excess <;> rfl
    rw [at_excess]
    refine .quiet (.flush .takeExcess) rfl ?_
    rw [start]
    exact released
  have reset : Shows (.flush after (flushFrom r3 (r2.nSlots + 1)), ctrl, r3) []
      ((afterFlush { r3 with firstFof := none, lastFof := none, currentSlot := 0, nextFrameCheck := 0 }
        ctrl after).1,
        (afterFlush { r3 with firstFof := none, lastFof := none, currentSlot := 0, nextFrameCheck := 0 }
          ctrl after).2,
        { r3 with firstFof := none, lastFof := none, currentSlot := 0, nextFrameCheck := 0 }) := by
    have nSlots3 : r3.nSlots = r2.nSlots := by
      have kept := fofQueueReleaseList_nSlots excess
      obtain ⟨freeCnt, activeCnt, rfl⟩ := same3
      exact (kept.trans nSlots).trans e2.1.symm
    have at_reset : flushFrom r3 (r2.nSlots + 1) = .resetSlot := by
      rw [flushFrom, nSlots3, if_neg (by omega), if_neg (by omega)]
    rw [at_reset]
    exact .quiet (.flush .resetSlot) rfl (.quiet (.flushed .resetCheck) rfl (.refl _))
  refine ⟨_, (before.trans take).trans reset, ?_⟩
  cases e
  obtain ⟨freeCnt, activeCnt, rfl⟩ := same3
  exact ⟨freeCnt, activeCnt, rfl⟩

/-! ### A cycle -/

/-- What the calls of `dsp_client_add` show. -/
def seenAdds (adds : List (DspAdd α)) : List (Seen α) :=
  adds.map fun d => .handed d.dsp d.timeUs d.argv

/-- The loop that hands a list to the DSP clients, from a cell on. -/
lemma shows_distribute {n i i' : Nat} {fof first : Addr} {last lastFof : Option Addr}
    {adds : List (DspAdd α)} (held : q.firstFof = some first)
    (e : distribute q.fof ctrl.nClients fuel (some fof) i last = some (i', lastFof, adds)) :
    ∃ tail, lastFof = some tail ∧ Shows (.hand n fof i, ctrl, q) (seenAdds adds)
      (.give n first tail .load, { ctrl with lastDsp := i' }, { q with lastFof := some tail }) := by
  induction fuel generalizing q fof i last lastFof adds with
  | zero => cases e
  | succ fuel ih =>
    obtain ⟨⟨i1, last1, adds1⟩, rest, e⟩ := Option.bind_eq_some_iff.1 e
    cases e
    cases next : q.next fof with
    | none =>
      have next' : (q.fof fof).next = none := next
      rw [next'] at rest
      have done : distribute q.fof ctrl.nClients fuel none ((i + 1) % ctrl.nClients) (some fof) =
          some ((i + 1) % ctrl.nClients, some fof, []) := by
        cases fuel <;> rfl
      cases done.symm.trans rest
      exact ⟨fof, rfl, .step (.handLast next held) (.refl _)⟩
    | some fof' =>
      have next' : (q.fof fof).next = some fof' := next
      rw [next'] at rest
      obtain ⟨tail, e, shows⟩ := ih (q := { q with lastFof := some fof }) held rest
      exact ⟨tail, e, .step (.hand next) shows⟩

/-- The part of a cycle that takes a slot, hands its list out and frees it. -/
lemma shows_consume (same : Uncounted q q1) {n : Nat} {out : CycleOut α}
    (e : consumeSlot fuel ctrl q n = some (ctrl', q', out)) :
    ∃ q1', Shows (.take n, ctrl, q1) (seenAdds out.adds) (.idle, ctrl', q1') ∧ Uncounted q' q1' := by
  obtain ⟨⟨i, lastFof, adds⟩, dist, e⟩ := Option.bind_eq_some_iff.1 e
  have slot : slotOfFrame q1 n = slotOfFrame q n := by
    obtain ⟨freeCnt, activeCnt, rfl⟩ := same
    rfl
  have head : q1.slot (slotOfFrame q n) = q.slot (slotOfFrame q n) := by
    obtain ⟨freeCnt, activeCnt, rfl⟩ := same
    rfl
  cases first : q.slot (slotOfFrame q n) with
  | none =>
    simp only [first] at dist e
    have done : distribute (q.setSlot (slotOfFrame q n) none).fof ctrl.nClients fuel none
        ctrl.lastDsp (q.setSlot (slotOfFrame q n) none).lastFof =
          some (ctrl.lastDsp, q.lastFof, []) := by
      cases fuel <;> rfl
    cases done.symm.trans dist
    cases e
    refine ⟨{ q1.setSlot (slotOfFrame q n) none with firstFof := none }, ?_, ?_⟩
    · have take : CtrlStep q1 ctrl (.take n) _ _ _ _ := .take
      rw [slot, head, first] at take
      exact .quiet take rfl (.refl _)
    · obtain ⟨freeCnt, activeCnt, rfl⟩ := same
      exact ⟨freeCnt, activeCnt, rfl⟩
  | some fof =>
    simp only [first] at dist e
    let q2 : FofQueue α := { q1.setSlot (slotOfFrame q n) none with firstFof := some fof }
    have dist2 : distribute q2.fof ctrl.nClients fuel (some fof) ctrl.lastDsp
        (q.setSlot (slotOfFrame q n) none).lastFof = some (i, lastFof, adds) := by
      obtain ⟨freeCnt, activeCnt, rfl⟩ := same
      exact dist
    obtain ⟨tail, rfl, shows⟩ := shows_distribute (n := n) (q := q2) rfl dist2
    obtain ⟨q3, free, e⟩ := Option.bind_eq_some_iff.1 e
    cases e
    let q4 : FofQueue α := FofQueue.given { q2 with lastFof := some tail } fof tail
    refine ⟨{ q4 with firstFof := none, lastFof := none }, ?_, ?_⟩
    · have take : CtrlStep q1 ctrl (.take n) _ _ _ _ := .take
      rw [slot, head, first] at take
      have give : Shows (.give n fof tail .load, { ctrl with lastDsp := i },
          { q2 with lastFof := some tail }) []
          (.idle, { ctrl with lastDsp := i }, { q4 with firstFof := none, lastFof := none }) :=
        .quiet (.give rfl) rfl (.quiet (.give rfl) rfl (.quiet (.give rfl) rfl
          (.quiet (.given (if_pos (given_head { q2 with lastFof := some tail } tail))) rfl (.refl _))))
      have all := shows.trans give
      rw [List.append_nil] at all
      exact .quiet take rfl all
    · have like : Uncounted
          { q.setSlot (slotOfFrame q n) none with
            firstFof := some fof, lastFof := some tail, activeCnt := adds.length }
          { q2 with lastFof := some tail } := by
        obtain ⟨freeCnt, activeCnt, rfl⟩ := same
        exact ⟨freeCnt, activeCnt, rfl⟩
      obtain ⟨freeCnt, activeCnt, e4⟩ := uncounted_given like free
      have e4 : q4 = _ := e4
      rw [e4]
      exact ⟨freeCnt, activeCnt, rfl⟩

variable (ctrl) in
/-- The part of a cycle that publishes its frame and its stamp. -/
lemma shows_publish (same : Uncounted q q1) (c : Cycle) :
    ∃ q1', Shows (.publish c, ctrl, q1) [.cycle (publish ctrl q c.nframes c.m c.transportState).2.2]
      (.take (publish ctrl q c.nframes c.m c.transportState).2.2,
        (publish ctrl q c.nframes c.m c.transportState).1, q1') ∧
      Uncounted (publish ctrl q c.nframes c.m c.transportState).2.1 q1' := by
  obtain ⟨freeCnt, activeCnt, rfl⟩ := same
  have stamp (n : Nat) (e : (publish ctrl q c.nframes c.m c.transportState).2.2 = n) :
      (publish ctrl q c.nframes c.m c.transportState).1 = stampCtrl ctrl n c := by
    rw [← e]
    rfl
  cases uses : jfofsClockUsesTransport ctrl.clockSource with
  | true =>
    have n : (publish ctrl q c.nframes c.m c.transportState).2.2 = c.m := if_pos uses
    have frames : (publish ctrl q c.nframes c.m c.transportState).2.1 =
        { q with nextFrame := c.m, frameStamp := c.m } := by
      simp only [publish, uses, if_true]
    rw [stamp c.m n, n, frames]
    exact ⟨_, .step (.publishTransport uses) (.quiet .stamp rfl (.refl _)), freeCnt, activeCnt, rfl⟩
  | false =>
    have n : (publish ctrl q c.nframes c.m c.transportState).2.2 = q.nextFrame :=
      if_neg (Bool.eq_false_iff.1 uses)
    have frames : (publish ctrl q c.nframes c.m c.transportState).2.1 =
        { q with nextFrame := u64 (q.nextFrame + c.nframes), frameStamp := c.m } := by
      simp only [publish, uses, Bool.false_eq_true, if_false]
    rw [stamp q.nextFrame n, n, frames]
    exact ⟨_, .step (.publish uses) (.quiet .stamp rfl (.refl _)), freeCnt, activeCnt, rfl⟩

/-- A cycle that runs alone. -/
theorem shows_cycle (same : Uncounted q q1) {nframes : Nat} {jack : JackReading} {out : CycleOut α}
    (e : ctrlClientProcessCb fuel nframes jack ctrl q = some (ctrl', q', out)) :
    ∃ q1', Shows (.readClock nframes jack, ctrl, q1) (.cycle out.n :: seenAdds out.adds)
      (.idle, ctrl', q1') ∧ Uncounted q' q1' := by
  obtain ⟨m, transportState, ctrl2, q2, ctrl3, q3, ctrl4, q4, n, stamp, mode, jump, pub, consume⟩ :=
    ctrlClientProcessCb_parts e
  have frame := (consumeSlot_ctrl consume).2.2.2
  let c : Cycle := ⟨nframes, m, transportState⟩
  have clock : ctrlCurrentClockSource q1 = ctrlCurrentClockSource q := by
    obtain ⟨freeCnt, activeCnt, rfl⟩ := same
    rfl
  have read : readCycle q1 nframes jack = c := by
    rw [readCycle, clock, stamp]
  -- a change of the clock source
  have mode : ∃ r2, Shows (.readClock nframes jack, ctrl, q1) [] (afterMode r2 ctrl2 c, ctrl2, r2) ∧
      Uncounted q2 r2 := by
    rw [changeMode] at mode
    split at mode
    · rename_i ne
      obtain ⟨q5, flush, mode⟩ := Option.bind_eq_some_iff.1 mode
      cases mode
      rw [← clock] at ne
      have changed : CtrlStep q1 ctrl (.readClock nframes jack) _ _ _ _ := .changed ne
      rw [read, clock] at changed
      obtain ⟨r2, shows, same2⟩ := shows_flush
        { ctrl with clockSource := ctrlCurrentClockSource q } (.mode c) same flush
      exact ⟨r2, .quiet changed rfl shows, same2⟩
    · rename_i eq
      cases mode
      rw [← clock] at eq
      have unchanged : CtrlStep q1 ctrl (.readClock nframes jack) _ _ _ _ :=
        .unchanged (Decidable.not_not.1 eq)
      rw [read] at unchanged
      exact ⟨q1, .quiet unchanged rfl (.refl _), same⟩
  -- a jump of the transport
  have jump {r2 : FofQueue α} (same2 : Uncounted q2 r2) :
      ∃ r3, Shows (afterMode r2 ctrl2 c, ctrl2, r2) [] (.publish c, ctrl3, r3) ∧ Uncounted q3 r3 := by
    rw [followTransport] at jump
    rw [afterMode]
    split at jump
    · rename_i discontinuity
      rw [if_pos discontinuity]
      obtain ⟨q5, flush, jump⟩ := Option.bind_eq_some_iff.1 jump
      cases jump
      exact shows_flush _ (.jump c) same2 flush
    · rename_i continuous
      rw [if_neg continuous]
      cases jump
      exact ⟨r2, .refl _, same2⟩
  obtain ⟨r2, shows2, same2⟩ := mode
  obtain ⟨r3, shows3, same3⟩ := jump same2
  obtain ⟨r4, shows4, same4⟩ := shows_publish ctrl3 same3 c
  have e4 : publish ctrl3 q3 c.nframes c.m c.transportState = (ctrl4, q4, n) := pub
  rw [e4] at shows4 same4
  obtain ⟨r5, shows5, same5⟩ := shows_consume same4 consume
  rw [frame]
  exact ⟨r5, ((shows2.trans shows3).trans shows4).trans shows5, same5⟩

end Ctrl

/-! ## The machine refines the server -/

section Machine

variable {s s' : Machine α}

/-- At rest no call can make a step. -/
lemma stuck_of_rest {act : Act α} (rest : AtRest s) (inner : act.wholeOp = none) :
    s.exec act = none := by
  cases act with
  | step p =>
    have idle : addStep s.q (s.thread p).timeUs (s.thread p).argv (s.thread p).pc = none := by
      rw [rest.threads p]
      rfl
    simp only [Machine.exec, idle]
    rfl
  | ctrlStep =>
    have idle : ctrlStep s.q s.ctrl s.cpc = none := by
      rw [rest.ctrl]
      rfl
    simp only [Machine.exec, idle]
    rfl
  | call p timeUs argv => cases inner
  | cycle nframes jack => cases inner
  | flush => cases inner
  | storeClockSource clockSource => cases inner

/-- The machine in which only thread `p` is inside a call. -/
def Machine.adding (s : Machine α) (p timeUs : Nat) (argv : α) (x : AddPc × FofQueue α) : Machine α :=
  { s with q := x.2 }.setThread p ⟨timeUs, argv, x.1⟩

/-- The machine in which only the controller is at work. -/
def Machine.controlling (s : Machine α) (x : CtrlPc × CtrlClient × FofQueue α) : Machine α :=
  { s with q := x.2.2, ctrl := x.2.1, cpc := x.1 }

lemma adding_step {p timeUs : Nat} {argv : α} {x x' : AddPc × FofQueue α} {ev : Ev α}
    (rest : AtRest s) (e : addNext timeUs argv x = some (ev, x')) :
    ¬ AtRest (s.adding p timeUs argv x) ∧
      (s.adding p timeUs argv x).exec (.step p) = some (ev, s.adding p timeUs argv x') ∧
      ∀ act, act.wholeOp = none → (s.adding p timeUs argv x).exec act ≠ none → act = .step p := by
  have self : (s.adding p timeUs argv x).thread p = ⟨timeUs, argv, x.1⟩ := setThread_self ..
  refine ⟨fun idle => ?_, ?_, fun act inner run => ?_⟩
  · have pc := idle.threads p
    rw [self] at pc
    exact addStep_busy e pc
  · have step : addStep (s.adding p timeUs argv x).q timeUs argv x.1 = some (ev, x') := e
    have again : { s.adding p timeUs argv x with q := x'.2 }.setThread p ⟨timeUs, argv, x'.1⟩ =
        s.adding p timeUs argv x' := by
      simp only [Machine.adding, Machine.setThread, Function.update_idem]
    simp only [Machine.exec, self, step, Option.bind_eq_bind, Option.bind_some, Option.pure_def]
    rw [again]
  · cases act with
    | step p' =>
      by_cases same : p' = p
      · rw [same]
      · have idle : ((s.adding p timeUs argv x).thread p').pc = .idle :=
          (congrArg Thread.pc (setThread_of_ne _ _ _ same)).trans (rest.threads p')
        simp [Machine.exec, idle, addStep] at run
    | ctrlStep =>
      have idle : (s.adding p timeUs argv x).cpc = .idle := rest.ctrl
      simp [Machine.exec, idle, ctrlStep] at run
    | call p timeUs argv => cases inner
    | cycle nframes jack => cases inner
    | flush => cases inner
    | storeClockSource clockSource => cases inner

lemma controlling_step {x x' : CtrlPc × CtrlClient × FofQueue α} {ev : Ev α} (rest : AtRest s)
    (e : ctrlNext x = some (ev, x')) :
    ¬ AtRest (s.controlling x) ∧
      (s.controlling x).exec .ctrlStep = some (ev, s.controlling x') ∧
      ∀ act, act.wholeOp = none → (s.controlling x).exec act ≠ none → act = .ctrlStep := by
  refine ⟨fun idle => ?_, ?_, fun act inner run => ?_⟩
  · have cpc : x.1 = .idle := idle.ctrl
    rw [ctrlNext, cpc] at e
    cases e
  · have step : ctrlStep (s.controlling x).q (s.controlling x).ctrl (s.controlling x).cpc =
        some (ev, x') := e
    simp only [Machine.exec, step, Option.bind_eq_bind, Option.bind_some, Option.pure_def]
    rfl
  · cases act with
    | step p =>
      have idle : ((s.controlling x).thread p).pc = .idle := rest.threads p
      simp [Machine.exec, idle, addStep] at run
    | ctrlStep => rfl
    | call p timeUs argv => cases inner
    | cycle nframes jack => cases inner
    | flush => cases inner
    | storeClockSource clockSource => cases inner

/-- A whole call of `fof_queue_add`. -/
lemma simulate_add {t : Sys α} (same : SameServer s t) (p timeUs : Nat) (argv : α) :
    ∃ l s', Episode Machine.exec Act.wholeOp AtRest (s.adding p timeUs argv (.alloc .load, s.q)) l s' ∧
      AtRest s' ∧ s'.ctrl = s.ctrl ∧ Uncounted (fofQueueAdd t.q timeUs argv).2 s'.q ∧
      observed Ev.seen l = [.returned (fofQueueAdd t.q timeUs argv).1] := by
  obtain ⟨evs, q', path, seen, queue⟩ := returns_add same.queue timeUs argv
  have rest' : AtRest (s.adding p timeUs argv (.idle, q')) := by
    refine ⟨fun i => ?_, same.rest.ctrl⟩
    exact setThread_forall { s with q := q' } p ⟨timeUs, argv, .idle⟩ (P := fun _ t => t.pc = .idle)
      rfl (fun i _ => same.rest.threads i) i
  obtain ⟨l, ep, obs⟩ := Episode.of_path Ev.seen (Act.step p)
    (s.adding p timeUs argv) path rfl (fun e => adding_step same.rest e) rest'
  exact ⟨l, _, ep, rest', rfl, queue, obs.trans seen⟩

/-- Work of the controller alone. -/
lemma simulate_control {x : CtrlPc × CtrlClient × FofQueue α} {seen : List (Seen α)}
    {ctrl' : CtrlClient} {q' : FofQueue α} (rest : AtRest s) (shows : Shows x seen (.idle, ctrl', q')) :
    ∃ l, Episode Machine.exec Act.wholeOp AtRest (s.controlling x) l
        (s.controlling (.idle, ctrl', q')) ∧
      AtRest (s.controlling (.idle, ctrl', q')) ∧ observed Ev.seen l = seen := by
  obtain ⟨evs, path, rfl⟩ := shows
  have rest' : AtRest (s.controlling (.idle, ctrl', q')) := ⟨rest.threads, rfl⟩
  obtain ⟨l, ep, obs⟩ := Episode.of_path Ev.seen Act.ctrlStep s.controlling path rfl
    (fun e => controlling_step rest e) rest'
  exact ⟨l, ep, rest', obs⟩

/-- Every whole operation of the server is an episode of the machine. -/
theorem serverRefines (fuel : Nat) :
    Refines (Machine.exec (α := α)) (exec fuel) Act.wholeOp AtRest Ev.seen Out.seen SameServer where
  rest := fun same => same.rest
  stuck := stuck_of_rest
  simulate := by
    intro s t act op out t' same start e
    cases act with
    | call p timeUs argv =>
      cases start
      cases e
      obtain ⟨l, s', ep, rest', ctrl', queue, obs⟩ := simulate_add same p timeUs argv
      have idle := same.rest.threads p
      refine ⟨.quiet, s.adding p timeUs argv (.alloc .load, s.q), l, s', ?_, ep,
        ⟨rest', ctrl'.trans same.ctrl, queue⟩, obs⟩
      simp only [Machine.exec, idle]
      rfl
    | flush =>
      cases start
      obtain ⟨q', flush, e⟩ := Option.bind_eq_some_iff.1 e
      cases e
      obtain ⟨q1, shows, queue⟩ := shows_flush s.ctrl .done same.queue flush
      obtain ⟨l, ep, rest', obs⟩ := simulate_control same.rest shows
      refine ⟨.quiet, s.controlling (.flush .done (flushFrom s.q 0), s.ctrl, s.q), l, _, ?_, ep,
        ⟨rest', same.ctrl, queue⟩, obs⟩
      simp only [Machine.exec, same.rest.ctrl]
      rfl
    | storeClockSource clockSource =>
      cases start
      cases e
      have rest' : AtRest { s with q := { s.q with clockSource := clockSource } } :=
        ⟨same.rest.threads, same.rest.ctrl⟩
      refine ⟨.quiet, _, [], _, rfl, .done rest', ⟨rest', same.ctrl, ?_⟩, rfl⟩
      obtain ⟨freeCnt, activeCnt, queue⟩ := same.queue
      exact ⟨freeCnt, activeCnt, by rw [queue]⟩
    | cycle nframes jack =>
      cases start
      obtain ⟨⟨ctrl', q', out⟩, cycle, e⟩ := Option.bind_eq_some_iff.1 e
      cases e
      rw [← same.ctrl] at cycle
      obtain ⟨q1, shows, queue⟩ := shows_cycle same.queue cycle
      obtain ⟨l, ep, rest', obs⟩ := simulate_control same.rest shows
      refine ⟨.quiet, s.controlling (.readClock nframes jack, s.ctrl, s.q), l, _, ?_, ep,
        ⟨rest', rfl, queue⟩, obs.trans ?_⟩
      · simp only [Machine.exec, same.rest.ctrl]
        rfl
      · rw [Out.seen, seenAdds, List.map_map]
        rfl
    | step p => cases start
    | ctrlStep => cases start

lemma sameServer_init (setup : Setup) (q : FofQueue α) (argv : α) :
    SameServer (Machine.init setup q argv) (Sys.init setup q) :=
  ⟨⟨fun _ => rfl, rfl⟩, rfl, .refl _⟩

/-- The operations that the actions of a log start. -/
lemma started_eq (log : List (Step α)) :
    started Act.wholeOp log = (log.map Entry.op).filterMap Act.wholeOp := by
  rw [List.filterMap_map]
  rfl

/-- Every run of whole operations is a run of the interleaved machine, in which each call starts when
    no other call is under way: the same operations in the same order, the same statuses, frames and
    calls of `dsp_client_add`, and the same controller and shared memory at the end. -/
theorem whole_run_steps (setup : Setup) (fuel : Nat) (q : FofQueue α) (argv : α) (ops : List (Op α))
    {wlog : List (LogEntry α)} {t : Sys α}
    (whole : execAll (exec fuel) (Sys.init setup q) ops = some (wlog, t)) :
    ∃ acts log s, execAll Machine.exec (Machine.init setup q argv) acts = some (log, s) ∧
      acts.filterMap Act.wholeOp = ops ∧ Serial Act.wholeOp AtRest log ∧ AtRest s ∧ s.ctrl = t.ctrl ∧
      Uncounted t.q s.q ∧ observed Ev.seen log = observed Out.seen wlog := by
  obtain ⟨whole, wops⟩ := run_of_execAll whole
  have onto (op : Op α) : ∃ act : Act α, act.wholeOp = some op := by
    cases op with
    | add timeUs argv => exact ⟨.call 0 timeUs argv, rfl⟩
    | flush => exact ⟨.flush, rfl⟩
    | storeClockSource clockSource => exact ⟨.storeClockSource clockSource, rfl⟩
    | cycle nframes jack => exact ⟨.cycle nframes jack, rfl⟩
  obtain ⟨log, s, run, serial, same, ops', obs⟩ :=
    (serverRefines fuel).forward onto (sameServer_init setup q argv) whole
  refine ⟨log.map Entry.op, log, s, run.execAll, ?_, serial, same.rest, same.ctrl, same.queue, obs⟩
  rw [← started_eq, ops', wops]

/-- A call and a cycle that hands its event out. -/
theorem whole_run_steps_two :
    ∃ acts log s, execAll Machine.exec (Machine.init ⟨1, 1, 1, 2, 1000000, 2⟩ (.zero 0) 0) acts =
        some (log, s) ∧
      acts.filterMap Act.wholeOp = [.add 1 7, .cycle 2 ⟨0, .stopped, 0⟩] ∧
      observed Ev.seen log = [.returned .success, .cycle 0, .handed 0 1 7] := by
  have whole : ∃ wlog t, execAll (exec 1) (Sys.init ⟨1, 1, 1, 2, 1000000, 2⟩ (.zero 0))
        [.add 1 7, .cycle 2 ⟨0, .stopped, 0⟩] = some (wlog, t) ∧
      observed Out.seen wlog = [.returned .success, .cycle 0, .handed 0 1 7] := ⟨_, _, rfl, rfl⟩
  obtain ⟨wlog, t, whole, shown⟩ := whole
  obtain ⟨acts, log, s, run, ops, -, -, -, -, obs⟩ := whole_run_steps ⟨1, 1, 1, 2, 1000000, 2⟩ 1
    (.zero 0) 0 [.add 1 7, .cycle 2 ⟨0, .stopped, 0⟩] whole
  exact ⟨acts, log, s, run, ops, obs.trans shown⟩

/-- Every run of the interleaved machine in which each call starts when no other call is under way, and
    at whose end no call is under way, is a run of whole operations: those that it starts, in the same
    order, with the same statuses, frames and calls of `dsp_client_add`, and with the same controller
    and shared memory at the end. -/
theorem serial_run_whole (setup : Setup) (nMaxFofs : 1 ≤ setup.nMaxFofs)
    (nSlots : 1 ≤ setup.nSlots) (nClients : 1 ≤ setup.nClients) (fuel : Nat)
    (enough : setup.nMaxFofs ≤ fuel) (q : FofQueue α) (argv : α) (acts : List (Act α))
    {log : List (Step α)} (run : execAll Machine.exec (Machine.init setup q argv) acts = some (log, s))
    (serial : Serial Act.wholeOp AtRest log) (rest : AtRest s) :
    ∃ wlog t, execAll (exec fuel) (Sys.init setup q) (acts.filterMap Act.wholeOp) = some (wlog, t) ∧
      s.ctrl = t.ctrl ∧ Uncounted t.q s.q ∧ observed Out.seen wlog = observed Ev.seen log := by
  obtain ⟨run, eacts⟩ := run_of_execAll run
  have total {t : Sys α} (op : Op α) (inv : ∃ L, SysInv setup t L) :
      ∃ out t', exec fuel t op = some (out, t') ∧ ∃ L, SysInv setup t' L := by
    obtain ⟨L, inv⟩ := inv
    exact exec_total ⟨nMaxFofs, nSlots, nClients⟩ enough inv op
  have init := sysInv_init ⟨nMaxFofs, nSlots, nClients⟩ q
  obtain ⟨wlog, t, whole, -, same, ops, obs⟩ := (serverRefines fuel).backward
    (fun t => ∃ L, SysInv setup t L) total (sameServer_init setup q argv) ⟨_, init⟩ run serial rest
  refine ⟨wlog, t, ?_, same.ctrl, same.queue, obs⟩
  rw [← eacts, ← started_eq, ← ops]
  exact whole.execAll

/-- Thread 0 adds an event and a cycle hands it out, step by step. -/
def addThenCycle : List (Act Nat) :=
  .call 0 1 7 :: List.replicate 12 (.step 0) ++ .cycle 2 ⟨0, .stopped, 0⟩ :: List.replicate 9 .ctrlStep

/-- The run of `addThenCycle`. -/
theorem serial_run_whole_two :
    ∃ wlog t, execAll (exec 1) (Sys.init ⟨1, 1, 1, 2, 1000000, 2⟩ (.zero 0))
        [.add 1 7, .cycle 2 ⟨0, .stopped, 0⟩] = some (wlog, t) ∧
      observed Out.seen wlog = [.returned .success, .cycle 0, .handed 0 1 7] := by
  have single : ∀ x ∈ addThenCycle, x.single 0 := by decide
  cases run : execAll Machine.exec (Machine.init ⟨1, 1, 1, 2, 1000000, 2⟩ (.zero 0) 0) addThenCycle with
  | none => exact absurd run (by decide)
  | some r =>
    obtain ⟨log, s⟩ := r
    have single := forall_op_of_execAll run single
    obtain ⟨last, idle⟩ := idle_of_single (run_of_execAll run).1 single fun _ _ => rfl
    have starting : ∀ x ∈ log, x.op.wholeOp.isSome →
        (x.pre.thread 0).pc = .idle ∧ x.pre.cpc = .idle := by
      cases Option.some.inj (run.symm.trans rfl)
      decide
    have ended : (s.thread 0).pc = .idle ∧ s.cpc = .idle ∧
        observed Ev.seen log = [.returned .success, .cycle 0, .handed 0 1 7] := by
      cases Option.some.inj (run.symm.trans rfl)
      exact ⟨rfl, rfl, rfl⟩
    have serial : Serial Act.wholeOp AtRest log := fun x mem start =>
      have at_rest := starting x mem (Option.isSome_iff_ne_none.2 start)
      .of_single (idle x mem) at_rest.1 at_rest.2
    obtain ⟨wlog, t, whole, -, -, obs⟩ := serial_run_whole ⟨1, 1, 1, 2, 1000000, 2⟩
      (by decide) (by decide) (by decide) 1 (Nat.le_refl 1) (.zero 0) 0 addThenCycle run serial
      (.of_single last ended.1 ended.2.1)
    exact ⟨wlog, t, whole, obs.trans ended.2.2⟩

end Machine

end JackFofs
