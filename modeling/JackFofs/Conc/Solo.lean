import JackFofs.Conc.Flow

/-!
# A call that runs alone

Wherever a call of `fof_queue_add` is, it returns after at most 22 more steps if nobody interferes
(`returnsIn_of_busy`): a compare-exchange that fails reloads, and nobody changes what it then finds.
-/

namespace JackFofs
open Runs

variable {α : Type}

/-- The call returns within `n` steps when it runs alone. -/
def ReturnsIn (timeUs : Nat) (argv : α) : Nat → FofQueue α → AddPc → Prop
  | 0, _, _ => False
  | n + 1, q, pc => ∃ ev pc' q', addStep q timeUs argv pc = some (ev, pc', q') ∧
      (ev.status ≠ none ∨ ReturnsIn timeUs argv n q' pc')

section Returns

variable {timeUs : Nat} {argv : α} {q q' : FofQueue α} {pc pc' : AddPc} {ev : Ev α} {n m : Nat}

lemma ReturnsIn.mono (ret : ReturnsIn timeUs argv n q pc) (le : n ≤ m) :
    ReturnsIn timeUs argv m q pc := by
  induction n generalizing q pc m with
  | zero => exact absurd ret id
  | succ n ih =>
    cases m with
    | zero => omega
    | succ m =>
      obtain ⟨ev, pc', q', e, now | later⟩ := ret
      · exact ⟨ev, pc', q', e, .inl now⟩
      · exact ⟨ev, pc', q', e, .inr (ih later (Nat.le_of_succ_le_succ le))⟩

lemma ReturnsIn.now (step : AddStep q timeUs argv pc ev pc' q') (ret : ev.status ≠ none) :
    ReturnsIn timeUs argv 1 q pc :=
  ⟨ev, pc', q', step.eq, .inl ret⟩

lemma ReturnsIn.later (step : AddStep q timeUs argv pc ev pc' q')
    (ret : ReturnsIn timeUs argv n q' pc') : ReturnsIn timeUs argv (n + 1) q pc :=
  ⟨ev, pc', q', step.eq, .inr ret⟩

/-! ## Backwards from the ends of a call -/

/-- A compare-exchange that finds what it expects ends the call. -/
lemma returnsIn_free_cas {fof : Addr} {e : Option Addr} (head : q.freeFofs = e) :
    ReturnsIn timeUs argv 1 q (.free fof (.cas e)) :=
  .now (.freed (if_pos head)) (Option.some_ne_none _)

lemma returnsIn_far_cas {fof nextFrame slot : Nat} {e : Option Addr} (head : q.slot slot = e) :
    ReturnsIn timeUs argv 1 q (.far fof nextFrame slot (.cas e)) :=
  .now (.linkedFar head) (Option.some_ne_none _)

lemma returnsIn_free_load (fof : Addr) : ReturnsIn timeUs argv 4 q (.free fof .load) := by
  have same : (q.setNext fof q.freeFofs).freeFofs = (q.setNext fof q.freeFofs).next fof := by
    rw [next_setNext, Function.update_self]
    rfl
  exact .later (.free rfl) (.later (.free rfl) (.later (.free rfl) (returnsIn_free_cas same)))

lemma returnsIn_free (fof : Addr) (ppc : PushPc) : ReturnsIn timeUs argv 8 q (.free fof ppc) := by
  have load {q : FofQueue α} : ReturnsIn timeUs argv 4 q (.free fof .load) := returnsIn_free_load fof
  -- one that fails has found the head with which the next one succeeds
  have cas {q : FofQueue α} (e : Option Addr) : ReturnsIn timeUs argv 6 q (.free fof (.cas e)) := by
    by_cases head : q.freeFofs = e
    · exact (returnsIn_free_cas head).mono (by decide)
    · exact .later (.free (if_neg head)) (.later (.free rfl) load)
  cases ppc with
  | load => exact load.mono (by decide)
  | write head => exact .later (.free rfl) (.later (.free rfl) (cas _))
  | read => exact (ReturnsIn.later (.free rfl) (cas _)).mono (by decide)
  | cas e => exact (cas e).mono (by decide)
  | writeBack found => exact (ReturnsIn.later (.free rfl) load).mono (by decide)

lemma returnsIn_excess (fof : Addr) (epc : ExcessPc) :
    ReturnsIn timeUs argv 3 q (.excess fof epc) := by
  have push {q : FofQueue α} : ReturnsIn timeUs argv 1 q (.excess fof .push) :=
    .now .pushed (Option.some_ne_none _)
  cases epc with
  | read => exact .later .excessRead (.later .excessWrite push)
  | write head => exact (ReturnsIn.later .excessWrite push).mono (by decide)
  | push => exact push.mono (by decide)

lemma returnsIn_near (fof nextFrame slot : Nat) (npc : NearPc) :
    ReturnsIn timeUs argv 8 q (.near fof nextFrame slot npc) := by
  have cas {q : FofQueue α} (h : Option Addr) :
      ReturnsIn timeUs argv 5 q (.near fof nextFrame slot (.cas h)) := by
    by_cases head : q.slot slot = h
    · exact (ReturnsIn.now (.linkedNear head) (Option.some_ne_none _)).mono (by decide)
    · exact .later (.beaten head) (returnsIn_free_load fof)
  have check {q : FofQueue α} (h : Option Addr) :
      ReturnsIn timeUs argv 6 q (.near fof nextFrame slot (.check h)) := by
    by_cases same : q.nextFrame = nextFrame
    · exact .later (.nearCheck same) (cas h)
    · exact (ReturnsIn.later (.overtaken same) (returnsIn_free_load fof)).mono (by decide)
  cases npc with
  | load => exact .later .nearLoad (.later .nearWrite (check _))
  | write head => exact (ReturnsIn.later .nearWrite (check _)).mono (by decide)
  | check head => exact (check head).mono (by decide)
  | cas head => exact (cas head).mono (by decide)

/-- With the current value of `next_frame` the loop of the far insertion needs one round. -/
lemma returnsIn_far_load (fof slot : Nat) :
    ReturnsIn timeUs argv 5 q (.far fof q.nextFrame slot .load) := by
  let q1 := q.setNext fof (q.slot slot)
  have same : q1.slot slot = q1.next fof := by
    rw [next_setNext, Function.update_self]
    rfl
  exact .later .farLoad (.later .farWrite (.later (.farCheck rfl)
    (.later .farRead (returnsIn_far_cas same))))

/-- The cached slot costs four steps, whatever comes after it. -/
lemma returnsIn_cache_of {fof nextFrame : Nat} (eight : 8 ≤ n)
    (far : ∀ q' : FofQueue α, q'.nextFrame = q.nextFrame → ∀ slot,
      ReturnsIn timeUs argv n q' (.far fof nextFrame slot .load)) (slotIdx : Int) (cpc : CachePc) :
    ReturnsIn timeUs argv (n + 4) q (.cache fof nextFrame slotIdx cpc) := by
  have read (q' : FofQueue α) (same : q'.nextFrame = q.nextFrame) :
      ReturnsIn timeUs argv (n + 1) q' (.cache fof nextFrame slotIdx .read) := by
    by_cases ahead : u64 (nextFrame + q'.bufferSize) < startFrame q' timeUs
    · exact .later (.chooseFar ahead) (far q' same _)
    · exact .later (.chooseNear ahead) ((returnsIn_near fof nextFrame _ .load).mono eight)
  have slot : ReturnsIn timeUs argv (n + 3) q (.cache fof nextFrame slotIdx .slot) :=
    .later .cacheSlot (.later .cacheFrame (read _ rfl))
  cases cpc with
  | check =>
    by_cases current : nextFrame = q.nextFrameCheck
    · exact (ReturnsIn.later (.cached current) (read q rfl)).mono
        (Nat.add_le_add_left (by decide : 2 ≤ 4) n)
    · exact .later (.outdated current) slot
  | slot => exact slot.mono (Nat.le_succ _)
  | frame =>
    have frame : ReturnsIn timeUs argv (n + 2) q (.cache fof nextFrame slotIdx .frame) :=
      .later .cacheFrame (read _ rfl)
    exact frame.mono (Nat.add_le_add_left (by decide) n)
  | read => exact (read q rfl).mono (Nat.add_le_add_left (by decide) n)

lemma returnsIn_cache_now (fof : Addr) (slotIdx : Int) (cpc : CachePc) :
    ReturnsIn timeUs argv 12 q (.cache fof q.nextFrame slotIdx cpc) := by
  refine returnsIn_cache_of (Nat.le_refl 8) (fun q' same slot => ?_) slotIdx cpc
  rw [← same]
  exact (returnsIn_far_load fof slot).mono (by decide)

lemma returnsIn_recalculate (fof : Addr) :
    ReturnsIn timeUs argv 12 q (recalculatePc q fof (startFrame q timeUs) q.nextFrame) := by
  obtain ⟨-, e⟩ | ⟨-, -, e⟩ | ⟨-, -, e⟩ :=
    recalculatePc_cases q fof (startFrame q timeUs) q.nextFrame
  · rw [e]
    exact (returnsIn_free_load fof).mono (by decide)
  · rw [e]
    exact (returnsIn_excess fof .read).mono (by decide)
  · rw [e]
    exact returnsIn_cache_now fof _ .check

lemma returnsIn_far (fof nextFrame slot : Nat) (fpc : FarPc) :
    ReturnsIn timeUs argv 18 q (.far fof nextFrame slot fpc) := by
  -- with a stale `next_frame` the recheck leads back to `recalculate`
  have check {q : FofQueue α} : ReturnsIn timeUs argv 13 q (.far fof nextFrame slot .check) := by
    by_cases same : q.nextFrame = nextFrame
    · subst same
      by_cases head : q.slot slot = q.next fof
      · exact (ReturnsIn.later (.farCheck rfl)
          (.later .farRead (returnsIn_far_cas head))).mono (by decide)
      · have load : ReturnsIn timeUs argv 5 (q.setNext fof (q.slot slot))
            (.far fof q.nextFrame slot .load) :=
          returnsIn_far_load (q := q.setNext fof (q.slot slot)) fof slot
        exact (ReturnsIn.later (.farCheck rfl)
          (.later .farRead (.later (.retry head) (.later .farWriteBack load)))).mono (by decide)
    · exact .later (.recalculate same) (returnsIn_recalculate fof)
  have load {q : FofQueue α} : ReturnsIn timeUs argv 15 q (.far fof nextFrame slot .load) :=
    .later .farLoad (.later .farWrite check)
  have cas {q : FofQueue α} (e : Option Addr) :
      ReturnsIn timeUs argv 17 q (.far fof nextFrame slot (.cas e)) := by
    by_cases head : q.slot slot = e
    · exact (returnsIn_far_cas head).mono (by decide)
    · exact .later (.retry head) (.later .farWriteBack load)
  cases fpc with
  | load => exact load.mono (by decide)
  | write head => exact (ReturnsIn.later .farWrite check).mono (by decide)
  | check => exact check.mono (by decide)
  | read => exact .later .farRead (cas _)
  | cas e => exact (cas e).mono (by decide)
  | writeBack found => exact (ReturnsIn.later .farWriteBack load).mono (by decide)

lemma returnsIn_cache (fof nextFrame : Nat) (slotIdx : Int) (cpc : CachePc) :
    ReturnsIn timeUs argv 22 q (.cache fof nextFrame slotIdx cpc) :=
  returnsIn_cache_of (by decide) (fun _ _ slot => returnsIn_far fof nextFrame slot .load) slotIdx cpc

lemma returnsIn_alloc (apc : AllocPc) : ReturnsIn timeUs argv 20 q (.alloc apc) := by
  have clear {q : FofQueue α} (fof : Addr) :
      ReturnsIn timeUs argv 15 q (.alloc (.clear fof)) :=
    .later .got (.later .filled (.later .calculate (returnsIn_recalculate fof)))
  have popped {q : FofQueue α} {fof : Addr} {next : Option Addr} (head : q.freeFofs = some fof) :
      ReturnsIn timeUs argv 16 q (.alloc (.cas fof next)) :=
    .later (.popped head) (clear fof)
  have load {q : FofQueue α} : ReturnsIn timeUs argv 18 q (.alloc .load) := by
    cases head : q.freeFofs with
    | none => exact (ReturnsIn.now (.empty head) (Option.some_ne_none _)).mono (by decide)
    | some fof => exact .later (.loaded head) (.later .read (popped head))
  have cas {q : FofQueue α} (fof : Addr) (next : Option Addr) :
      ReturnsIn timeUs argv 19 q (.alloc (.cas fof next)) := by
    by_cases head : q.freeFofs = some fof
    · exact (popped head).mono (by decide)
    · exact .later (.again head) load
  cases apc with
  | load => exact load.mono (by decide)
  | read fof => exact .later .read (cas fof _)
  | cas fof next => exact (cas fof next).mono (by decide)
  | clear fof => exact (clear fof).mono (by decide)

/-- A call that runs alone returns. -/
theorem returnsIn_of_busy (busy : pc ≠ .idle) : ReturnsIn timeUs argv 22 q pc := by
  cases pc with
  | idle => exact absurd rfl busy
  | alloc apc => exact (returnsIn_alloc apc).mono (by decide)
  | fill fof =>
    exact (ReturnsIn.later .filled (.later .calculate (returnsIn_recalculate fof))).mono (by decide)
  | loadFrame fof =>
    exact (ReturnsIn.later .calculate (returnsIn_recalculate fof)).mono (by decide)
  | cache fof nextFrame slotIdx cpc => exact returnsIn_cache fof nextFrame slotIdx cpc
  | far fof nextFrame slot fpc => exact (returnsIn_far fof nextFrame slot fpc).mono (by decide)
  | near fof nextFrame slot npc => exact (returnsIn_near fof nextFrame slot npc).mono (by decide)
  | excess fof epc => exact (returnsIn_excess fof epc).mono (by decide)
  | free fof ppc => exact (returnsIn_free fof ppc).mono (by decide)

end Returns

/-- The same for the machine: from any state, at most 22 steps of the thread alone end its call. -/
theorem exec_alone {s : Machine α} {p : Nat} (busy : (s.thread p).pc ≠ .idle) :
    ∃ n log s', n ≤ 22 ∧ execAll Machine.exec s (List.replicate n (.step p)) = some (log, s') ∧
      ∃ x ∈ log, x.out.status ≠ none := by
  have ret : ReturnsIn (s.thread p).timeUs (s.thread p).argv 22 s.q (s.thread p).pc :=
    returnsIn_of_busy busy
  clear busy
  generalize 22 = m at ret
  induction m generalizing s with
  | zero => exact absurd ret id
  | succ m ih =>
    obtain ⟨ev, pc', q', e, h⟩ := ret
    let s1 := { s with q := q' }.setThread p { s.thread p with pc := pc' }
    have step : Machine.exec s (.step p) = some (ev, s1) := by
      simp [Machine.exec, e, s1]
    obtain now | later := h
    · exact ⟨1, [⟨s, .step p, ev⟩], s1, Nat.le_add_left 1 m, by simp [execAll, step],
        _, List.mem_singleton_self _, now⟩
    · have self : s1.thread p = { s.thread p with pc := pc' } := setThread_self ..
      have ret1 : ReturnsIn (s1.thread p).timeUs (s1.thread p).argv m s1.q (s1.thread p).pc := by
        rw [self]
        exact later
      obtain ⟨n, log, s', le, run, x, mem, ret⟩ := ih ret1
      refine ⟨n + 1, ⟨s, .step p, ev⟩ :: log, s', Nat.succ_le_succ le, ?_, x,
        List.mem_cons_of_mem _ mem, ret⟩
      simp [List.replicate_succ, execAll, step, run]

end JackFofs
