import JackFofs.Seq.Conservation
import JackFofs.Seq.Events

/-!
# The exact effect of a call

A call of `fof_queue_add` that runs alone moves at most one cell, the first free one, to the front of
one other list. When it refuses the event every list is as it was, cell by cell: the cell it had
taken goes back to where it came from (`fofQueueAdd_exact`). The server is in a state from which this
holds after any sequence of whole operations (`add_exact`).
-/

namespace JackFofs
open Linked Runs

variable {α : Type}

/-- What a call that answers `status` does to the queue, when `L` and `L'` are the lists before and
    after it and `t` is its start frame. -/
structure ExactAdd (q q' : FofQueue α) (L L' : Place → List Addr) (t timeUs : Nat) (argv : α)
    (status : JfofsStatus) : Prop where
  nextFrame : q'.nextFrame = q.nextFrame
  queued : ∀ {k c}, k.Busy → c ∈ L k → q'.payload c = q.payload c
  limit : status = .fofLimitError ↔ q.freeFofs = none
  refused : status = .fofLimitError ∨ status = .fofLateWarning → L' = L
  excess_iff : status = .fofExcessInfo ↔
    q.freeFofs ≠ none ∧ q.nextFrame ≤ t ∧ q.nSlots ≤ slotIndex q t q.nextFrame
  excess : status = .fofExcessInfo → ∃ c l, q.freeFofs = some c ∧ L .free = c :: l ∧
    L' = Function.update (Function.update L .free l) .excess (c :: L .excess)
  window : status = .success → q.nextFrame ≤ t ∧ slotIndex q t q.nextFrame < q.nSlots
  success : status = .success → ∃ c l j, q.freeFofs = some c ∧ L .free = c :: l ∧
    j = (q.nextFrame / q.bufferSize + (t - q.nextFrame) / q.bufferSize) &&& (q.nSlots - 1) ∧
    L' = Function.update (Function.update L .free l) (.slot j) (c :: L (.slot j)) ∧
    q'.payload c = (timeUs, argv)
  exits : status ≠ .memoryError

namespace ExactAdd

variable {q q' : FofQueue α} {L L' : Place → List Addr} {t timeUs : Nat} {argv : α}
  {status : JfofsStatus}

/-- A call that does not accept its event leaves the slots alone. -/
lemma slot_eq (exact : ExactAdd q q' L L' t timeUs argv status) (ne : status ≠ .success) (j : Nat) :
    L' (.slot j) = L (.slot j) := by
  cases status with
  | success => exact absurd rfl ne
  | memoryError => exact absurd rfl exact.exits
  | fofLimitError => rw [exact.refused (.inl rfl)]
  | fofLateWarning => rw [exact.refused (.inr rfl)]
  | fofExcessInfo =>
    obtain ⟨c, l, -, -, eL⟩ := exact.excess rfl
    simp [eL, Function.update_of_ne]

/-- A call that does not answer `JFOFS_FOF_EXCESS_INFO` leaves the excess list alone. -/
lemma excess_eq (exact : ExactAdd q q' L L' t timeUs argv status) (ne : status ≠ .fofExcessInfo) :
    L' .excess = L .excess := by
  cases status with
  | success =>
    obtain ⟨c, l, j, -, -, -, eL, -⟩ := exact.success rfl
    simp [eL, Function.update_of_ne]
  | memoryError => exact absurd rfl exact.exits
  | fofLimitError => rw [exact.refused (.inl rfl)]
  | fofLateWarning => rw [exact.refused (.inr rfl)]
  | fofExcessInfo => exact absurd rfl ne

end ExactAdd

section Call

variable {q : FofQueue α} {cells : List Addr} {L : Place → List Addr}

/-- The slot that a call picks on a queue whose cache is right. -/
lemma targetSlot_mask (ring : RingOk q) (cacheOk : CacheOk q) {t : Nat} (lt : t < 2 ^ 32) :
    targetSlot (cacheCurrentSlot q q.nextFrame) (slotIndex q t q.nextFrame) =
      (q.nextFrame / q.bufferSize + (t - q.nextFrame) / q.bufferSize) &&& (q.nSlots - 1) := by
  have le := Nat.div_le_self (t - q.nextFrame) q.bufferSize
  rw [ring.mask_eq]
  exact targetSlot_eq ring cacheOk q.nextFrame (by omega)

/-- The call on a queue whose lists are in order and whose cache is right. -/
theorem fofQueueAdd_exact (hd : Holds q cells L) (ring : RingOk q) (cacheOk : CacheOk q)
    (timeUs : Nat) (argv : α) :
    ∃ status q' L', fofQueueAdd q timeUs argv = (status, q') ∧ Holds q' cells L' ∧
      ExactAdd q q' L L' (jfofsTimeToNframes timeUs q.sampleRate) timeUs argv status := by
  have lt := jfofsTimeToNframes_lt timeUs q.sampleRate
  obtain ⟨free, e⟩ | ⟨c, l, q', free, clock, payload, -, exits⟩ :=
    fofQueueAdd_cases hd ring.nSlots_pos timeUs argv rfl
  · have excess {P : Prop} : JfofsStatus.fofLimitError = .fofExcessInfo ↔ q.freeFofs ≠ none ∧ P :=
      ⟨nofun, fun h => absurd free h.1⟩
    exact ⟨_, q, L, e, hd, rfl, fun _ _ => rfl, ⟨fun _ => free, fun _ => rfl⟩, fun _ => rfl, excess,
      nofun, nofun, nofun, nofun⟩
  have memf : c ∈ L .free := by
    rw [free]
    exact List.mem_cons_self
  have head : q.freeFofs = some c := by
    have sg := hd.list (k := .free) trivial
    rw [free, Seg.cons_iff] at sg
    exact sg.1
  have queued {k : Place} {a : Addr} (busy : k.Busy) (mem : a ∈ L k) : q'.payload a = q.payload a := by
    have ne : a ≠ c := by
      rintro rfl
      exact hd.part.notMem memf (Ne.symm busy) mem
    rw [payload, Function.update_of_ne ne]
  have carries : q'.payload c = (timeUs, argv) := by
    rw [payload, Function.update_self]
  have limit {status : JfofsStatus} (ne : status ≠ .fofLimitError) :
      status = .fofLimitError ↔ q.freeFofs = none := by
    rw [head]
    exact ⟨fun h => absurd h ne, nofun⟩
  have some_head : q.freeFofs ≠ none := by
    rw [head]
    exact nofun
  obtain ⟨late, e, hd'⟩ | ⟨ge, far, e, hd'⟩ | ⟨j, ej, -, ge, inside, e, hd'⟩ := exits
  · have excess : JfofsStatus.fofLateWarning = .fofExcessInfo ↔ q.freeFofs ≠ none ∧
        q.nextFrame ≤ jfofsTimeToNframes timeUs q.sampleRate ∧
        q.nSlots ≤ slotIndex q (jfofsTimeToNframes timeUs q.sampleRate) q.nextFrame :=
      ⟨nofun, fun h => absurd late (Nat.not_lt.2 h.2.1)⟩
    exact ⟨_, q', L, e, hd', clock.nextFrame, queued, limit nofun, fun _ => rfl, excess, nofun, nofun,
      nofun, nofun⟩
  · exact ⟨_, q', _, e, hd', clock.nextFrame, queued, limit nofun, nofun,
      ⟨fun _ => ⟨some_head, ge, far⟩, fun _ => rfl⟩, fun _ => ⟨c, l, head, free, rfl⟩, nofun, nofun,
      nofun⟩
  · rw [targetSlot_mask ring cacheOk lt] at ej
    have excess : JfofsStatus.success = .fofExcessInfo ↔ q.freeFofs ≠ none ∧
        q.nextFrame ≤ jfofsTimeToNframes timeUs q.sampleRate ∧
        q.nSlots ≤ slotIndex q (jfofsTimeToNframes timeUs q.sampleRate) q.nextFrame :=
      ⟨nofun, fun h => absurd inside (Int.not_lt.2 h.2.2)⟩
    exact ⟨_, q', _, e, hd', clock.nextFrame, queued, limit nofun, nofun, excess, nofun,
      fun _ => ⟨ge, inside⟩, fun _ => ⟨c, l, j, head, free, ej, rfl, carries⟩, nofun⟩

end Call

/-- The same for an operation of the server. -/
lemma exec_add_exact {setup : Setup} {s s' : Sys α} {L : Place → List Addr} {fuel timeUs : Nat}
    {argv : α} {out : Out α} (ring : RingSetup setup) (inv : SysInv setup s L)
    (e : exec fuel s (.add timeUs argv) = some (out, s')) :
    ∃ status L', out = .added status ∧ SysInv setup s' L' ∧ s'.ctrl = s.ctrl ∧
      SameClock s.q s'.q ∧
      ExactAdd s.q s'.q L L' (jfofsTimeToNframes timeUs s.q.sampleRate) timeUs argv status := by
  obtain ⟨status, q', L', add, holds, exact⟩ :=
    fofQueueAdd_exact inv.holds (inv.ringOk ring) inv.cacheOk timeUs argv
  obtain ⟨status1, s1, L1, e1, inv1, added, -⟩ := exec_add fuel inv ring.ok.nSlots timeUs argv rfl
  cases e.symm.trans e1
  simp only [exec, add] at e
  cases e
  cases inv1.holds.unique holds
  exact ⟨status, L', rfl, inv1, rfl, added.clock, exact⟩

/-- The effect of a call of `fof_queue_add`, with any time and any event, in any state that whole
    operations lead to: a call that refuses its event leaves all lists as they are, and one that
    accepts it moves the first free cell to the head of one list. -/
theorem add_exact (setup : Setup) (ring : RingSetup setup) (fuel : Nat)
    (enough : setup.nMaxFofs ≤ fuel) (q : FofQueue α) (ops : List (Op α)) :
    ∃ log s L, execAll (exec fuel) (Sys.init setup q) ops = some (log, s) ∧
      Holds s.q (List.range setup.nMaxFofs) L ∧
      ∀ timeUs argv, ∃ status q' L', fofQueueAdd s.q timeUs argv = (status, q') ∧
        Holds q' (List.range setup.nMaxFofs) L' ∧
        ExactAdd s.q q' L L' (jfofsTimeToNframes timeUs s.q.sampleRate) timeUs argv status := by
  obtain ⟨log, s, run, L, inv⟩ := run_total ring.ok enough q ops
  exact ⟨log, s, L, run, inv.holds, fun timeUs argv =>
    fofQueueAdd_exact inv.holds (inv.ringOk ring) inv.cacheOk timeUs argv⟩

/-- After two calls for frame 3 a third one finds cell `2` and puts it in front of them. -/
theorem add_exact_three : ∃ log s, ∃ L : Place → List Addr,
    execAll (exec 3) (Sys.init (twoSlots 3) (.zero 0)) [.add 3 7, .add 3 8] = some (log, s) ∧
      ∃ q', ∃ L' : Place → List Addr, fofQueueAdd s.q 3 9 = (.success, q') ∧
        L' (.slot 1) = 2 :: L (.slot 1) ∧
        L' .excess = L .excess ∧ q'.payload 2 = (3, 9) := by
  obtain ⟨log, s, L, run, -, effect⟩ :=
    add_exact (twoSlots 3) (twoSlots_ring (by decide)) 3 (by decide) (.zero 0) [.add 3 7, .add 3 8]
  obtain ⟨status, q', L', e, -, exact⟩ := effect 3 9
  have facts : (fofQueueAdd s.q 3 9).1 = .success ∧ s.q.freeFofs = some 2 ∧
      (s.q.nextFrame / s.q.bufferSize +
        (jfofsTimeToNframes 3 s.q.sampleRate - s.q.nextFrame) / s.q.bufferSize) &&&
          (s.q.nSlots - 1) = 1 := by
    cases Option.some.inj (run.symm.trans rfl)
    decide
  obtain ⟨ok, head, slot⟩ := facts
  rw [e] at ok
  obtain ⟨c, l, j, headc, -, ej, eL, carries⟩ := exact.success ok
  cases head.symm.trans headc
  rw [slot] at ej
  subst ej eL
  exact ⟨log, s, L, run, q', _, by rw [e, ← ok], Function.update_self .., rfl, carries⟩

end JackFofs
