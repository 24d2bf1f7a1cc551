import JackFofs.Queue.Spec

/-!
# What a flush leaves

`fof_queue_flush` run alone gives every cell back and resets the slot cache although `next_frame`
stays where it is. The next call of `fof_queue_add` repairs the cache: either the tag `0` differs
from `next_frame`, and the slot is computed again, or `next_frame` is `0`, and so is its slot.
-/

namespace JackFofs
open Linked

variable {α : Type} {q q' : FofQueue α} {cells : List Addr} {L : Place → List Addr} {fuel : Nat}

/-- A queue as a flush leaves it, up to the order of the free list. -/
structure Emptied (q : FofQueue α) : Prop where
  slot : ∀ {j}, j < q.nSlots → q.slot j = none
  excess : q.excess = none
  firstFof : q.firstFof = none
  lastFof : q.lastFof = none
  currentSlot : q.currentSlot = 0
  nextFrameCheck : q.nextFrameCheck = 0

/-- What the last statements of a flush set. -/
lemma fofQueueFlush_fields (e : fofQueueFlush fuel q = some q') :
    q'.firstFof = none ∧ q'.lastFof = none ∧ q'.currentSlot = 0 ∧ q'.nextFrameCheck = 0 := by
  obtain ⟨q1, -, e⟩ := Option.bind_eq_some_iff.1 e
  obtain ⟨q2, -, e⟩ := Option.bind_eq_some_iff.1 e
  cases e
  exact ⟨rfl, rfl, rfl, rfl⟩

lemma flushSlots_of_empty {n : Nat} (slot : ∀ j, j < n → q.slot j = none) :
    flushSlots fuel q n = some q := by
  induction n with
  | zero => rfl
  | succ n ih =>
    have head := slot n (Nat.lt_succ_self n)
    have same : q.setSlot n none = q := by
      rw [FofQueue.setSlot, ← head, Function.update_eq_self]
    rw [flushSlots, ih fun j lt => slot j (Nat.lt_succ_of_lt lt)]
    simp only [Option.bind_eq_bind, Option.bind_some, fofQueueTakeSlot, head, same,
      fofQueueReleaseList]

/-- Flushing an empty queue changes nothing. -/
lemma Emptied.flush (em : Emptied q) : fofQueueFlush fuel q = some q := by
  have slots : flushSlots fuel q q.nSlots = some q := flushSlots_of_empty fun j lt => em.slot lt
  obtain ⟨-, excess, firstFof, lastFof, currentSlot, nextFrameCheck⟩ := em
  rw [fofQueueFlush, slots]
  cases q
  dsimp only at excess firstFof lastFof currentSlot nextFrameCheck
  subst excess firstFof lastFof currentSlot nextFrameCheck
  rfl

/-- A flush ends, empties every list and leaves the clock and the contents of the cells alone. -/
lemma fofQueueFlush_emptied (hd : Holds q cells L) (enough : cells.length ≤ fuel) :
    ∃ q' L', fofQueueFlush fuel q = some q' ∧ Holds q' cells L' ∧ (∀ k, k ≠ .free → L' k = []) ∧
      Emptied q' ∧ SameClock q q' ∧ q'.payload = q.payload ∧ CacheOk q' := by
  obtain ⟨q', L', e, hd', empty, clock, payload, cacheOk⟩ := fofQueueFlush_spec hd enough
  obtain ⟨firstFof, lastFof, currentSlot, nextFrameCheck⟩ := fofQueueFlush_fields e
  have none_of_has {k : Place} (nf : k ≠ .free) (has : q'.Has k) : q'.head k = none :=
    (hd'.list has).eq_nil_iff.1 (empty k nf)
  refine ⟨q', L', e, hd', empty, ⟨?_, ?_, firstFof, lastFof, currentSlot, nextFrameCheck⟩, clock,
    payload, cacheOk⟩
  · intro j lt
    exact none_of_has (slot_ne_free j) lt
  · exact none_of_has excess_ne_free trivial

/-- A call that answers `JFOFS_SUCCESS` computes its slot from the cached slot of `next_frame`. -/
lemma fofQueueAdd_base (ok : CacheOk q) {timeUs : Nat} {argv : α}
    (e : fofQueueAdd q timeUs argv = (.success, q')) :
    q'.currentSlot = slotOfFrame q q.nextFrame ∧ q'.slot = Function.update q.slot
      (((slotIndex q (jfofsTimeToNframes timeUs q.sampleRate) q.nextFrame +
        slotOfFrame q q.nextFrame) % 2 ^ 64).toNat &&& (q.nSlots - 1)) q.freeFofs := by
  cases free : q.freeFofs with
  | none =>
    rw [fofQueueAdd_none free] at e
    cases congrArg Prod.fst e
  | some c =>
    rw [fofQueueAdd_some free] at e
    generalize et : jfofsTimeToNframes timeUs q.sampleRate = t at e ⊢
    by_cases late : t < q.nextFrame
    · rw [recalculate, if_pos late] at e
      cases congrArg Prod.fst e
    have ge := Nat.le_of_not_lt late
    by_cases far : (filled q c timeUs argv).nSlots ≤
        slotIndex (filled q c timeUs argv) t q.nextFrame
    · rw [recalculate_excess ge far] at e
      cases congrArg Prod.fst e
    have base : (cacheCurrentSlot (filled q c timeUs argv) q.nextFrame).currentSlot =
        slotOfFrame q q.nextFrame := cacheCurrentSlot_currentSlot (q := filled q c timeUs argv) ok
    have nSlots := (cacheCurrentSlot_sameClock (filled q c timeUs argv) q.nextFrame).nSlots
    have slot : (cacheCurrentSlot (filled q c timeUs argv) q.nextFrame).slot = q.slot := by
      rw [cacheCurrentSlot_eq]
      rfl
    have same : (filled q c timeUs argv).nextFrame = q.nextFrame := rfl
    rw [recalculate_success same ge (Int.lt_of_not_ge far)] at e
    cases e
    have target : targetSlot (cacheCurrentSlot (filled q c timeUs argv) q.nextFrame)
        (slotIndex (filled q c timeUs argv) t q.nextFrame) =
        ((slotIndex q t q.nextFrame + slotOfFrame q q.nextFrame) % 2 ^ 64).toNat &&&
          (q.nSlots - 1) := by
      rw [targetSlot, base, nSlots]
      rfl
    refine ⟨base, ?_⟩
    rw [← target, ← slot]
    rfl

/-- From any state between two operations `fof_queue_flush` ends. It leaves every slot and the excess
    list empty and all cells on the free list, each once, and changes neither `next_frame` nor the
    contents of a cell. A call of `fof_queue_add` that follows links its cell into the slot counted
    from the slot of `next_frame`, and a second flush changes nothing. -/
theorem flush_empties (q : FofQueue α) (nMaxFofs fuel : Nat) (L : Place → List Addr)
    (hd : Holds q (List.range nMaxFofs) L) (enough : nMaxFofs ≤ fuel) :
    ∃ q' l, fofQueueFlush fuel q = some q' ∧
      (∀ j, j < q.nSlots → q'.slot j = none) ∧ q'.excess = none ∧
      Seg q'.next q'.freeFofs l none ∧ l.Perm (List.range nMaxFofs) ∧
      q'.freeCnt = nMaxFofs ∧ q'.nextFrame = q.nextFrame ∧
      (∀ a, (q'.fof a).timeUs = (q.fof a).timeUs ∧ (q'.fof a).argv = (q.fof a).argv) ∧
      (∀ timeUs argv q'', fofQueueAdd q' timeUs argv = (.success, q'') →
        q''.currentSlot = slotOfFrame q q.nextFrame ∧ q''.slot = Function.update q'.slot
          (((slotIndex q (jfofsTimeToNframes timeUs q.sampleRate) q.nextFrame +
            slotOfFrame q q.nextFrame) % 2 ^ 64).toNat &&& (q.nSlots - 1)) q'.freeFofs) ∧
      fofQueueFlush fuel q' = some q' := by
  have enough : (List.range nMaxFofs).length ≤ fuel := by
    rw [List.length_range]
    exact enough
  obtain ⟨q', L', e, hd', empty, em, clock, payload, cacheOk⟩ := fofQueueFlush_emptied hd enough
  have pm : (L' .free).Perm (List.range nMaxFofs) :=
    hd'.part.perm_of_empty List.nodup_range empty
  have len : (L' .free).length = nMaxFofs := pm.length_eq.trans List.length_range
  refine ⟨q', L' .free, e, fun j lt => em.slot (clock.nSlots ▸ lt), em.excess, hd'.list (k := .free) trivial, pm,
    hd'.count.trans (congrArg Nat.cast len), clock.nextFrame, fun a => ?_,
    fun timeUs argv q'' add => ?_, em.flush⟩
  · have same := congrFun payload a
    exact ⟨congrArg Prod.fst same, congrArg Prod.snd same⟩
  · have base := fofQueueAdd_base cacheOk add
    rw [slotOfFrame, slotIndex, clock.nextFrame, clock.nSlots, clock.sampleRate,
      clock.bufferSize] at base
    exact base

/-- A flush of three cells, one of them in a slot. -/
theorem flush_empties_three : ∃ q' l,
    fofQueueFlush 3 (fofQueueAdd (fofQueueInit (.zero 0) ⟨2, 1, 3, 4, 48000, 64⟩) 5 7).2 = some q' ∧
      Seg q'.next q'.freeFofs l none ∧ l.Perm [0, 1, 2] := by
  let setup : Setup := ⟨2, 1, 3, 4, 48000, 64⟩
  have hd := fofQueueInit_holds (.zero 0) setup (by decide)
  obtain ⟨free, -⟩ | ⟨c, l, q1, -, -, -, -, ⟨late, -⟩ | ⟨-, far, -⟩ | ⟨j, -, -, -, -, add, hd1⟩⟩ :=
    fofQueueAdd_cases hd (by decide) 5 7 rfl
  · exact absurd free (by decide)
  · exact absurd late (by decide)
  · exact absurd far (by decide)
  · obtain ⟨q', l, e, -, -, sg, pm, -⟩ := flush_empties q1 3 3 _ hd1 (Nat.le_refl 3)
    rw [add]
    exact ⟨q', l, e, sg, pm⟩

end JackFofs
