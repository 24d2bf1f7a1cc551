import JackFofs.Conc.Flush
import JackFofs.Conc.Slots

/-!
# Cycles between the recheck and the compare-exchange

One producer and cycles of `buffer_size` frames on the frame clock. The cycle for frame `n` exchanges the
slot of block `n / buffer_size`, so the number of exchanges says which block comes next
(`Machine.exchanges`), and an insertion is in time as long as the block of its event is one of the next
`n_slots`. The call checks this when it loads `next_frame`. Between its last load and its
compare-exchange the controller may run on: `InTime` bounds the exchanges in between, and then every
event is in the list that the cycle of its block takes (`linked_in_time`).
-/

namespace JackFofs
open Linked Runs Wheel

variable {α : Type}

/-! ## The exchanges of the cycles -/

/-- The cycle has published its frame, and its exchange is still to come. -/
def CtrlPc.inFlight : CtrlPc → Bool
  | .stamp _ _ => true
  | .take _ => true
  | _ => false

/-- How many cycles have exchanged their slot. -/
def Machine.exchanges (s : Machine α) : Nat :=
  s.q.nextFrame / s.q.bufferSize - s.cpc.inFlight.toNat

/-- The step is the exchange of a cycle. -/
def Ev.exchange : Ev α → Bool
  | .took (some _) _ _ => true
  | _ => false

/-- The actions of one producer and of cycles of `b` frames. -/
def Act.onFrames (p b : Nat) : Act α → Bool
  | .call p' _ _ => p' = p
  | .step p' => p' = p
  | .cycle nframes _ => nframes = b
  | .ctrlStep => true
  | _ => false

/-- What a cycle of `b` frames on the frame clock relies on. -/
def CtrlPc.OnFrames (b nextFrame : Nat) : CtrlPc → Prop
  | .readClock nframes _ => nframes = b
  | .flush _ _ => False
  | .publish c => c.nframes = b
  | .stamp n _ => n + b = nextFrame
  | .take n => n + b = nextFrame
  | _ => True

/-- The frame clock: every cycle moves `next_frame` on by one block. -/
structure OnFrames (s : Machine α) : Prop where
  clock : ctrlCurrentClockSource s.q = s.ctrl.clockSource
  frames : jfofsClockUsesTransport s.ctrl.clockSource = false
  cpc : s.cpc.OnFrames s.q.bufferSize s.q.nextFrame
  aligned : s.q.bufferSize ∣ s.q.nextFrame
  size : 1 ≤ s.q.bufferSize

/-- A step is the exchange of the next block, or no exchange. -/
def Counts (s : Machine α) (ev : Ev α) (s' : Machine α) : Prop :=
  (∃ head, ev = .took (some (s.q.bufferSize * s.exchanges))
      (slotOfFrame s.q (s.q.bufferSize * s.exchanges)) head ∧ s'.exchanges = s.exchanges + 1) ∨
    (∀ n j head, ev ≠ .took n j head) ∧ s'.exchanges = s.exchanges

section Frames

variable {s s' : Machine α} {act : Act α} {ev : Ev α}

lemma OnFrames.control {cpc' : CtrlPc} {ctrl' : CtrlClient} {q' : FofQueue α} (inv : OnFrames s)
    (noWrap : s.q.nextFrame + s.q.bufferSize < 2 ^ 64)
    (step : ctrlStep s.q s.ctrl s.cpc = some (ev, cpc', ctrl', q')) :
    OnFrames { s with q := q', ctrl := ctrl', cpc := cpc' } ∧
      Counts s ev { s with q := q', ctrl := ctrl', cpc := cpc' } := by
  have size := inv.size
  have regular := inv.cpc
  obtain ⟨m, aligned⟩ := inv.aligned
  have blocks : s.q.nextFrame / s.q.bufferSize = m := by
    rw [aligned]
    exact Nat.mul_div_cancel_left m size
  have count : s.exchanges = m - s.cpc.inFlight.toNat := by
    rw [Machine.exchanges, blocks]
  -- the steps that leave `next_frame` alone and are no exchange
  have other {cpc1 : CtrlPc} {ctrl1 : CtrlClient} {q1 : FofQueue α} (same : SameClock s.q q1)
      (clockSource : ctrl1.clockSource = s.ctrl.clockSource)
      (regular : cpc1.OnFrames s.q.bufferSize s.q.nextFrame) (flight : cpc1.inFlight = s.cpc.inFlight)
      (no : ∀ n j head, ev ≠ .took n j head) :
      OnFrames { s with q := q1, ctrl := ctrl1, cpc := cpc1 } ∧
        Counts s ev { s with q := q1, ctrl := ctrl1, cpc := cpc1 } := by
    refine ⟨⟨?_, ?_, ?_, ?_, ?_⟩, .inr ⟨no, ?_⟩⟩
    · show ctrlCurrentClockSource q1 = ctrl1.clockSource
      rw [ctrlCurrentClockSource, same.clockSource, clockSource]
      exact inv.clock
    · show jfofsClockUsesTransport ctrl1.clockSource = false
      rw [clockSource]
      exact inv.frames
    · show cpc1.OnFrames q1.bufferSize q1.nextFrame
      rw [same.bufferSize, same.nextFrame]
      exact regular
    · show q1.bufferSize ∣ q1.nextFrame
      rw [same.bufferSize, same.nextFrame]
      exact inv.aligned
    · show 1 ≤ q1.bufferSize
      rw [same.bufferSize]
      exact size
    · show q1.nextFrame / q1.bufferSize - cpc1.inFlight.toNat = s.exchanges
      rw [same.bufferSize, same.nextFrame, flight]
      rfl
  cases cpc : s.cpc with
  | idle =>
    rw [cpc] at step
    cases step
  | readClock nframes jack =>
    rw [cpc] at step regular
    have still (nframes m : Nat) (state : TransportState) :
        ctrlTransportDiscontinuity s.ctrl nframes state m = false := by
      simp [ctrlTransportDiscontinuity, inv.frames]
    simp only [ctrlStep, inv.clock, ne_eq, not_true_eq_false, if_false, afterMode, still,
      Bool.false_eq_true] at step
    cases step
    exact other (SameClock.refl _) rfl regular (by rw [cpc]; rfl) (by simp)
  | flush after pc =>
    rw [cpc] at regular
    exact absurd regular id
  | publish c =>
    rw [cpc] at step regular
    simp only [ctrlStep, inv.frames, Bool.false_eq_true, if_false] at step
    cases step
    have regular : c.nframes = s.q.bufferSize := regular
    have next : u64 (s.q.nextFrame + c.nframes) = s.q.nextFrame + s.q.bufferSize := by
      rw [regular]
      exact u64_of_lt noWrap
    refine ⟨⟨inv.clock, inv.frames, next.symm, ?_, size⟩, .inr ⟨by simp, ?_⟩⟩
    · show s.q.bufferSize ∣ u64 (s.q.nextFrame + c.nframes)
      rw [next]
      exact Nat.dvd_add inv.aligned (Nat.dvd_refl _)
    · show u64 (s.q.nextFrame + c.nframes) / s.q.bufferSize - 1 = s.exchanges
      rw [next, Nat.add_div_right _ size, blocks, count, cpc]
      rfl
  | stamp n c =>
    rw [cpc] at step regular
    cases step
    refine other ⟨rfl, rfl, rfl, rfl, rfl⟩ ?_ regular (by rw [cpc]; rfl) (by simp)
    unfold stampCtrl
    dsimp only
    split <;> rfl
  | take n =>
    rw [cpc] at step regular
    have regular : n + s.q.bufferSize = s.q.nextFrame := regular
    have count : s.exchanges = m - 1 := by
      rw [count, cpc]
      rfl
    have pos : 1 ≤ m := by
      apply Nat.pos_of_ne_zero
      intro zero
      rw [aligned, zero, Nat.mul_zero] at regular
      omega
    have block : n = s.q.bufferSize * s.exchanges := by
      rw [count, Nat.mul_sub_one, ← aligned]
      exact Nat.eq_sub_of_add_eq regular
    have grounded : (handFrom n s.ctrl.lastDsp (s.q.slot (slotOfFrame s.q n))).OnFrames
          s.q.bufferSize s.q.nextFrame ∧
        (handFrom n s.ctrl.lastDsp (s.q.slot (slotOfFrame s.q n))).inFlight = false := by
      cases s.q.slot (slotOfFrame s.q n) <;> exact ⟨trivial, rfl⟩
    cases step
    refine ⟨⟨inv.clock, inv.frames, grounded.1, inv.aligned, size⟩,
      .inl ⟨s.q.slot (slotOfFrame s.q n), ?_, ?_⟩⟩
    · rw [← block]
    · show s.q.nextFrame / s.q.bufferSize - (handFrom n _ _).inFlight.toNat = s.exchanges + 1
      rw [grounded.2, blocks, count]
      exact (Nat.sub_add_cancel pos).symm
  | hand n fof i =>
    rw [cpc] at step
    cases ctrlStep_cases step <;>
      exact other ⟨rfl, rfl, rfl, rfl, rfl⟩ rfl trivial (by rw [cpc]; rfl) (by simp)
  | give n head tail ppc =>
    rw [cpc] at step
    cases ctrlStep_cases step with
    | give push =>
      exact other (pushStep_sameCache push).clock rfl trivial (by rw [cpc]; rfl) (by simp)
    | given push =>
      have clock := (pushStep_sameCache push).clock
      exact other
        ⟨clock.nextFrame, clock.clockSource, clock.nSlots, clock.sampleRate, clock.bufferSize⟩ rfl
        trivial (by rw [cpc]; rfl) (by simp)

/-- Every action moves the clock on by whole blocks and counts the exchanges. -/
lemma OnFrames.exec {p : Nat} (inv : OnFrames s) (on : act.onFrames p s.q.bufferSize = true)
    (noWrap : s.q.nextFrame + s.q.bufferSize < 2 ^ 64) (e : s.exec act = some (ev, s')) :
    OnFrames s' ∧ Counts s ev s' := by
  cases Machine.executed e with
  | call => exact ⟨⟨inv.clock, inv.frames, inv.cpc, inv.aligned, inv.size⟩, .inr ⟨nofun, rfl⟩⟩
  | @step p' _ pc' q' step =>
    have clock := addStep_clock step
    have quiet : ∀ n j head, ev ≠ .took n j head := by
      obtain ⟨ins, -⟩ | ⟨plain, -⟩ := addStep_inserts step
      · rintro n j head rfl
        obtain ⟨c, k, at_k, -⟩ := ins.event
        cases at_k
      · exact (Ev.of_plain plain).2.2
    have cpc := inv.cpc
    have aligned := inv.aligned
    have size := inv.size
    rw [← clock.bufferSize, ← clock.nextFrame] at cpc aligned
    rw [← clock.bufferSize] at size
    refine ⟨⟨?_, inv.frames, cpc, aligned, size⟩, .inr ⟨quiet, ?_⟩⟩
    · show ctrlCurrentClockSource q' = s.ctrl.clockSource
      rw [ctrlCurrentClockSource, clock.clockSource]
      exact inv.clock
    · show q'.nextFrame / q'.bufferSize - s.cpc.inFlight.toNat = s.exchanges
      rw [clock.bufferSize, clock.nextFrame]
      rfl
  | cycle idle =>
    have regular := of_decide_eq_true on
    refine ⟨⟨inv.clock, inv.frames, regular, inv.aligned, inv.size⟩, .inr ⟨nofun, ?_⟩⟩
    rw [Machine.exchanges, Machine.exchanges, idle]
    rfl
  | ctrlStep step => exact inv.control noWrap step
  | flush => cases on
  | storeClockSource => cases on

end Frames

/-! ## Loads and exchanges in a log -/

/-- The last step in which the call of thread `p` loads `next_frame`. -/
def lastLoad (p : Nat) (log : List (Step α)) : Option (Step α) :=
  log.reverse.find? fun x => (loadedBy p x.pre x.op).isSome

/-- The number of exchanges of cycles since that load. -/
def exchangesSince (p : Nat) (log : List (Step α)) : Nat :=
  (log.reverse.takeWhile fun x => (loadedBy p x.pre x.op).isNone).countP fun x => x.out.exchange

/-- The insertion `y` after this log: since the last load of `next_frame` by the call, no more cycles have
    published and exchanged their slot than there are blocks from that `next_frame` to the event; and if
    the event is in the last block of the ring, a cycle that was between the two at the load has
    exchanged its slot. -/
def InTime (p : Nat) (log : List (Step α)) (y : Step α) : Prop :=
  ∀ x, lastLoad p log = some x →
    let blocks := (startFrame y.pre.q (y.pre.thread p).timeUs - x.pre.q.nextFrame) / y.pre.q.bufferSize +
      x.pre.cpc.inFlight.toNat
    exchangesSince p log ≤ blocks ∧ blocks < y.pre.q.nSlots + exchangesSince p log

/-- The step is the exchange of the cycle whose block, of `b` frames, has the frame `t` in it. -/
def Due (t b : Nat) (x : Step α) : Prop :=
  ∃ n j head, x.out = .took (some n) j head ∧ n ≤ t ∧ t < n + b

section Log

variable {p : Nat} {l : List (Step α)} {x : Step α} {v : Nat}

lemma lastLoad_load (load : loadedBy p x.pre x.op = some v) :
    lastLoad p (l ++ [x]) = some x ∧ exchangesSince p (l ++ [x]) = 0 := by
  simp [lastLoad, exchangesSince, load]

lemma lastLoad_other (no : loadedBy p x.pre x.op = none) :
    lastLoad p (l ++ [x]) = lastLoad p l ∧
      exchangesSince p (l ++ [x]) = exchangesSince p l + x.out.exchange.toNat := by
  constructor
  · simp [lastLoad, no]
  · cases ex : x.out.exchange <;> simp [exchangesSince, no, ex]

end Log

/-! ## The invariant -/

/-- What holds in every state of the runs of one producer and cycles of `b` frames. -/
structure FrameInv (cells : List Addr) (p b n : Nat) (s : Machine α) (L : Loc → List Addr) : Prop where
  conc : ConcInv cells s L
  allocs : ∀ i, AllocOk s.q (L (.place .free)) (s.thread i).pc
  coherent : Coherent s
  frames : OnFrames s
  idle : ∀ i, i ≠ p → (s.thread i).pc = .idle
  size : s.q.bufferSize = b
  slots : s.q.nSlots = n

/-- What the log says about the call under way and about the exchanges. -/
structure Counted (p b : Nat) (l : List (Step α)) (s : Machine α) : Prop where
  loaded : ∀ nf, (s.thread p).pc.nextFrame = some nf → ∃ x, lastLoad p l = some x ∧
    x.pre.q.nextFrame = nf ∧ b ∣ nf ∧
    s.exchanges + x.pre.cpc.inFlight.toNat = nf / b + exchangesSince p l
  past : ∀ y ∈ l, ∀ t, Due t b y → t < b * s.exchanges

section Invariant

variable {cells : List Addr} {p b n : Nat} {s s' : Machine α} {L : Loc → List Addr} {act : Act α}
  {ev : Ev α}

lemma OnFrames.not_flush (inv : OnFrames s) (after : AfterFlush) (pc : FlushPc) :
    s.cpc ≠ .flush after pc := by
  intro cpc
  have regular := inv.cpc
  rw [cpc] at regular
  exact regular

lemma OnFrames.midReset (inv : OnFrames s) : s.cpc.midReset = false := by
  cases cpc : s.cpc with
  | flush after pc => exact absurd cpc (inv.not_flush after pc)
  | _ => rfl

lemma OnFrames.exchanges_add (inv : OnFrames s) :
    s.exchanges + s.cpc.inFlight.toNat = s.q.nextFrame / s.q.bufferSize := by
  have regular := inv.cpc
  have flight (h : ∃ m, m + s.q.bufferSize = s.q.nextFrame) : 1 ≤ s.q.nextFrame / s.q.bufferSize := by
    obtain ⟨m, e⟩ := h
    rw [← e, Nat.add_div_right m inv.size]
    exact Nat.succ_pos _
  rw [Machine.exchanges]
  cases cpc : s.cpc with
  | stamp m c =>
    rw [cpc] at regular
    exact Nat.sub_add_cancel (flight ⟨m, regular⟩)
  | take m =>
    rw [cpc] at regular
    exact Nat.sub_add_cancel (flight ⟨m, regular⟩)
  | _ => rfl

lemma Act.single_of_onFrames (on : act.onFrames p b = true) : act.single p = true := by
  cases act with
  | call => exact on
  | step => exact on
  | _ => rfl

/-- A single producer and no flush leave the cached pair undivided. -/
lemma undivided_of_single (frames : OnFrames s) (idle : ∀ i, i ≠ p → (s.thread i).pc = .idle)
    (on : act.onFrames p b = true) : Undivided s act := by
  constructor
  · intro v writes _
    refine ⟨fun i other => ?_, frames.midReset⟩
    have ne : i ≠ p := by
      rintro rfl
      cases act with
      | step p' =>
        cases of_decide_eq_true on
        exact other rfl
      | ctrlStep =>
        simp only [writesSlot] at writes
        split at writes
        · exact frames.not_flush _ _ (by assumption)
        · cases writes
      | _ => cases writes
    rw [idle i ne]
    rfl
  · rintro p' fof nextFrame slotIdx rfl epc - -
    cases of_decide_eq_true on
    refine ⟨fun i => ?_, frames.midReset⟩
    by_cases e : i = p
    · rw [e, epc]
      rfl
    · rw [idle i e]
      rfl

lemma FrameInv.regular (inv : FrameInv cells p b n s L) (act : Act α) : Regular s act :=
  ⟨fun i _ _ epc => (inv.allocs i).fresh epc,
    fun _ after cpc => absurd cpc (inv.frames.not_flush after _)⟩

/-- Every step keeps the invariant and counts the exchanges. -/
lemma FrameInv.exec (inv : FrameInv cells p b n s L) (on : act.onFrames p b = true)
    (noWrap : s.q.nextFrame + b < 2 ^ 64) (e : s.exec act = some (ev, s')) :
    FrameInv cells p b n s' (ev.moved act.who L) ∧ Counts s ev s' := by
  have reg := inv.regular act
  have params := exec_params e
  have frames : OnFrames s' ∧ Counts s ev s' := by
    have size := inv.size
    subst size
    exact inv.frames.exec on noWrap e
  refine ⟨⟨inv.conc.exec reg e, ?_, ?_, frames.1, ?_, ?_, ?_⟩, frames.2⟩
  · exact inv.conc.allocs_exec reg inv.allocs (.of_single inv.idle) e
  · exact inv.coherent.exec (undivided_of_single inv.frames inv.idle on) e
  · exact idle_exec (Act.single_of_onFrames on) inv.idle e
  · exact params.bufferSize.trans inv.size
  · exact params.nSlots.trans inv.slots

/-- Every step keeps the count. -/
lemma Counted.exec {l : List (Step α)} (counted : Counted p b l s) (inv : FrameInv cells p b n s L)
    (counts : Counts s ev s') (e : s.exec act = some (ev, s')) :
    Counted p b (l ++ [⟨s, act, ev⟩]) s' := by
  have size := inv.size
  subst size
  have grows : s'.exchanges = s.exchanges + ev.exchange.toNat := by
    obtain ⟨head, rfl, more⟩ | ⟨no, same⟩ := counts
    · exact more
    · rw [same]
      cases ev with
      | took m j head => exact absurd rfl (no m j head)
      | _ => rfl
  constructor
  case loaded =>
    intro nf live
    have from_load := exec_loadedBy e live
    cases load : loadedBy p s act with
    | some v =>
      rw [load] at from_load
      cases from_load
      obtain ⟨last, none_since⟩ := lastLoad_load (l := l) (x := ⟨s, act, ev⟩) load
      obtain ⟨rfl, rfl⟩ : act = .step p ∧ nf = s.q.nextFrame := by
        cases act with
        | step p' =>
          rw [loadedBy] at load
          split at load
          · rename_i h
            obtain ⟨rfl, -⟩ := h
            cases load
            exact ⟨rfl, rfl⟩
          · cases load
        | _ => cases load
      refine ⟨_, last, rfl, inv.frames.aligned, ?_⟩
      have quiet : ev.exchange = false := by
        cases ev with
        | took m j head =>
          obtain ⟨h, -⟩ := inv.conc.of_took (inv.regular _) e
          cases h
        | _ => rfl
      rw [grows, quiet, none_since]
      exact inv.frames.exchanges_add
    | none =>
      rw [load, Option.none_or] at from_load
      obtain ⟨x, last, frame, aligned, count⟩ := counted.loaded nf from_load
      obtain ⟨same, since⟩ := lastLoad_other (l := l) (x := ⟨s, act, ev⟩) load
      refine ⟨x, same.trans last, frame, aligned, ?_⟩
      have since : exchangesSince p (l ++ [⟨s, act, ev⟩]) = exchangesSince p l + ev.exchange.toNat := since
      rw [grows, since, Nat.add_right_comm, count, Nat.add_assoc]
  case past =>
    intro y mem t due
    obtain mem | mem := List.mem_append.1 mem
    · refine Nat.lt_of_lt_of_le (counted.past y mem t due) (Nat.mul_le_mul_left _ ?_)
      rw [grows]
      exact Nat.le_add_right _ _
    · cases List.mem_singleton.1 mem
      obtain ⟨m, j, head, out, -, lt⟩ := due
      obtain ⟨head', rfl, more⟩ | ⟨no, -⟩ := counts
      · cases out
        rw [more, Nat.mul_succ]
        exact lt
      · exact absurd out (no (some m) j head)

end Invariant

/-! ## Whole runs -/

section Runs

variable {cells : List Addr} {p b n : Nat} {s s' : Machine α} {L : Loc → List Addr}
  {log : List (Step α)} {c : Addr}

lemma frameInv_run {l0 : List (Step α)} (run : Run Machine.exec s log s')
    (on : ∀ x ∈ log, x.op.onFrames p b = true) (noWrap : ∀ x ∈ log, x.pre.q.nextFrame + b < 2 ^ 64)
    (inv : FrameInv cells p b n s L) (counted : Counted p b l0 s) :
    (∃ L', FrameInv cells p b n s' L') ∧ Counted p b (l0 ++ log) s' := by
  refine run.inv_log (fun l s => (∃ L, FrameInv cells p b n s L) ∧ Counted p b (l0 ++ l) s)
    (fun {l x s1} mem ⟨⟨L, inv⟩, counted⟩ e => ?_) ⟨⟨L, inv⟩, ?_⟩
  · obtain ⟨inv', counts⟩ := inv.exec (on x mem) (noWrap x mem) e
    refine ⟨⟨_, inv'⟩, ?_⟩
    rw [← List.append_assoc]
    exact counted.exec inv counts e
  · rw [List.append_nil]
    exact counted

/-- A cell in the slot of a block less than a revolution away stays there until the cycle of the block
    takes it. -/
lemma due_run {t j : Nat} (run : Run Machine.exec s log s')
    (on : ∀ x ∈ log, x.op.onFrames p b = true) (noWrap : ∀ x ∈ log, x.pre.q.nextFrame + b < 2 ^ 64)
    (inv : FrameInv cells p b n s L) (slot : j = t / b % n) (ahead : t / b < s.exchanges + n)
    (mem : s.exchanges ≤ t / b → c ∈ L (.place (.slot j))) :
    ∀ y ∈ log, Due t b y → Takes y c j := by
  induction run generalizing L with
  | nil => exact fun y mem => absurd mem List.not_mem_nil
  | @cons s s1 s' act ev log e run ih =>
    obtain ⟨inv', counts⟩ := inv.exec (on _ List.mem_cons_self) (noWrap _ List.mem_cons_self) e
    have ih := ih (fun x h => on x (List.mem_cons_of_mem _ h))
      (fun x h => noWrap x (List.mem_cons_of_mem _ h)) inv'
    have size := inv.frames.size
    rw [inv.size] at size
    obtain ⟨head, took, more⟩ | ⟨no, same⟩ := counts
    · rw [inv.size] at took
      have place : slotOfFrame s.q (b * s.exchanges) = s.exchanges % n := by
        rw [slotOfFrame_eq inv.coherent.ring, inv.size, inv.slots, Nat.mul_div_cancel_left _ size]
      rw [place] at took
      have rest : ∀ y ∈ log, Due t b y → Takes y c j := by
        refine ih ?_ fun le => ?_
        · rw [more]
          omega
        · rw [more] at le
          apply mem_moved_slot (who_ne_place act) (mem (Nat.le_of_succ_le le))
          intro m h e
          rw [took] at e
          cases e
          have eq := block_eq_of_mod_eq (Nat.le_of_succ_le le) ahead slot
          omega
      rintro y (_ | ⟨_, memy⟩) due
      · obtain ⟨m, j', head', out, le, lt⟩ := due
        have out : ev = .took (some m) j' head' := out
        rw [took] at out
        cases out
        have block : t / b = s.exchanges :=
          Nat.div_eq_of_lt_le (by rw [Nat.mul_comm]; exact le)
            (by rw [Nat.succ_mul, Nat.mul_comm]; exact lt)
        refine (inv.conc.takes_iff (inv.regular act) e).2
          ⟨⟨some (b * s.exchanges), head, ?_⟩, mem (Nat.le_of_eq block.symm)⟩
        rw [took, slot, block]
      · exact rest y memy due
    · have rest : ∀ y ∈ log, Due t b y → Takes y c j := by
        refine ih ?_ fun le => ?_
        · rw [same]
          exact ahead
        · rw [same] at le
          exact mem_moved_slot (who_ne_place act) (mem le) fun m h => no m j h
      rintro y (_ | ⟨_, memy⟩) due
      · obtain ⟨m, j', head', out, -⟩ := due
        exact absurd out (no (some m) j' head')
      · exact rest y memy due

/-- An insertion that is in time finds the block of its event among the next `n` blocks. -/
lemma InTime.block {x y : Step α} {k : Nat} (inTime : InTime p log y) (last : lastLoad p log = some x)
    (size : y.pre.q.bufferSize = b) (slots : y.pre.q.nSlots = n) (pos : 1 ≤ b) {t : Nat}
    (frame : t = startFrame y.pre.q (y.pre.thread p).timeUs) (le : x.pre.q.nextFrame ≤ t)
    (aligned : b ∣ x.pre.q.nextFrame)
    (count : k + x.pre.cpc.inFlight.toNat = x.pre.q.nextFrame / b + exchangesSince p log) :
    k ≤ t / b ∧ t / b < k + n ∧ t / b = x.pre.q.nextFrame / b + (t - x.pre.q.nextFrame) / b := by
  obtain ⟨before, after⟩ := inTime x last
  rw [size, ← frame] at before after
  rw [slots] at after
  have blocks : t / b = x.pre.q.nextFrame / b + (t - x.pre.q.nextFrame) / b := by
    obtain ⟨m, e⟩ := aligned
    rw [e] at le ⊢
    have split : t = b * m + (t - b * m) := (Nat.add_sub_cancel' le).symm
    rw [Nat.mul_div_cancel_left m pos, ← Nat.mul_add_div pos, ← split]
  exact ⟨by omega, by omega, blocks⟩

end Runs

lemma onFrames_init {setup : Setup} (size : 1 ≤ setup.maxBufferSize)
    (frames : jfofsClockUsesTransport setup.clockSource = false) (q : FofQueue α) (argv : α) :
    OnFrames (Machine.init setup q argv) := by
  obtain ⟨zero, -, -, clock, -, -, buffer⟩ := fofQueueInit_fields q setup
  constructor
  case clock =>
    show ctrlCurrentClockSource (fofQueueInit q setup) = (ctrlClientNew setup).clockSource
    rw [ctrlCurrentClockSource, clock, jfofsClockSourceNormalize_code]
    rfl
  case frames => exact (jfofsClockUsesTransport_code _).trans frames
  case cpc => trivial
  case aligned =>
    show (fofQueueInit q setup).bufferSize ∣ (fofQueueInit q setup).nextFrame
    rw [zero]
    exact Nat.dvd_zero _
  case size => exact buffer ▸ size

/-- One producer and cycles of `buffer_size` frames on the frame clock, in every interleaving, as long as
    `next_frame` does not wrap: when the compare-exchange of an insertion is in time, the cycle of the
    block of the event has not exchanged its slot before, and when it does, the cell is in the list that
    it takes. -/
theorem linked_in_time {setup : Setup} (nMaxFofs : 1 ≤ setup.nMaxFofs) (pow : ∃ e, setup.nSlots = 2 ^ e)
    (nSlots : setup.nSlots < 2 ^ 31) (size : 1 ≤ setup.maxBufferSize)
    (size_lt : setup.maxBufferSize < 2 ^ 31)
    (frames : jfofsClockUsesTransport setup.clockSource = false) (q : FofQueue α) (argv : α) (p : Nat)
    (acts : List (Act α)) (on : ∀ a ∈ acts, a.onFrames p setup.maxBufferSize = true)
    {log : List (Step α)} {s : Machine α}
    (run : execAll Machine.exec (Machine.init setup q argv) acts = some (log, s))
    (noWrap : ∀ x ∈ log, x.pre.q.nextFrame + setup.maxBufferSize < 2 ^ 64) :
    ∀ l1 x l2 c j, log = l1 ++ x :: l2 → x.out = .linked c j → InTime p l1 x →
      (∀ y ∈ l1, ¬ Due (jfofsTimeToNframes (x.pre.thread p).timeUs setup.sampleRate)
        setup.maxBufferSize y) ∧
      ∀ y ∈ l2, Due (jfofsTimeToNframes (x.pre.thread p).timeUs setup.sampleRate)
        setup.maxBufferSize y → Takes y c j := by
  have exec := run
  obtain ⟨run, -⟩ := run_of_execAll run
  obtain ⟨-, -, -, -, slots, rate, buffer⟩ := fofQueueInit_fields q setup
  have pos : 1 ≤ setup.nSlots := by
    obtain ⟨e, he⟩ := pow
    rw [he]
    exact Nat.one_le_two_pow
  have init := slotInv_init nMaxFofs pos q argv
  have coherent := coherent_init pow nSlots size size_lt q argv
  have onFrames := onFrames_init size frames q argv
  have start : FrameInv (List.range setup.nMaxFofs) p setup.maxBufferSize setup.nSlots
      (Machine.init setup q argv) (restLists (initLists setup.nMaxFofs)) :=
    ⟨init.conc, init.allocs, coherent, onFrames, fun _ _ => rfl, buffer, slots⟩
  have counted : Counted p setup.maxBufferSize [] (Machine.init setup q argv) :=
    ⟨nofun, fun y mem => absurd mem List.not_mem_nil⟩
  have on := forall_op_of_execAll exec on
  rintro l1 x l2 c j rfl out inTime
  obtain ⟨s1, run1, e, run2⟩ := run.split
  obtain ⟨⟨L, inv⟩, counted⟩ := frameInv_run run1 (fun y h => on y (List.mem_append_left _ h))
    (fun y h => noWrap y (List.mem_append_left _ h)) start counted
  rw [List.nil_append] at counted
  have memx : x ∈ l1 ++ x :: l2 := List.mem_append_right _ List.mem_cons_self
  have onx := on x memx
  have noWrapx := noWrap x memx
  obtain ⟨s0, act, ev⟩ := x
  cases (out : ev = .linked c j)
  obtain ⟨p', -, rfl, lt, own, -⟩ := inv.conc.of_linked (inv.regular act) e
  cases of_decide_eq_true onx
  obtain ⟨nextFrame, live, le, place⟩ := linked_place e (inv.coherent.sited p)
  obtain ⟨x0, last, rfl, aligned, count⟩ := counted.loaded nextFrame live
  have params := run_params run1
  have frame : jfofsTimeToNframes (s0.thread p).timeUs setup.sampleRate =
      startFrame s0.q (s0.thread p).timeUs := by
    rw [startFrame, params.sampleRate]
    exact congrArg _ rate.symm
  generalize jfofsTimeToNframes (s0.thread p).timeUs setup.sampleRate = t at frame ⊢
  rw [← frame] at le place
  obtain ⟨before, after, blocks⟩ := inTime.block last inv.size inv.slots size frame le aligned count
  refine ⟨fun y mem due => ?_, ?_⟩
  · -- every exchange so far was of an earlier block
    have past := counted.past y mem t due
    have start := Nat.div_mul_le_self t setup.maxBufferSize
    have grows := Nat.mul_le_mul_left setup.maxBufferSize before
    rw [Nat.mul_comm] at start
    omega
  · obtain ⟨inv', counts⟩ := inv.exec onx noWrapx e
    have same : s1.exchanges = s0.exchanges := by
      obtain ⟨head, took, -⟩ | ⟨-, same⟩ := counts
      · cases took
      · exact same
    refine due_run run2 (fun y h => on y (List.mem_append_right _ (List.mem_cons_of_mem _ h)))
      (fun y h => noWrap y (List.mem_append_right _ (List.mem_cons_of_mem _ h))) inv' ?_ ?_ fun _ => ?_
    · rw [place, ringSlot, inv.size, inv.slots, blocks]
    · rw [same]
      exact after
    · rw [Ev.moved, Act.who, Function.update_self, own]
      exact List.mem_cons_self

/-- A call for frame 0 makes `early` steps, then a whole cycle of two frames comes, and then the call
    makes `late` more steps. -/
def cycleBetween (early late : Nat) : List (Act Unit) :=
  .call 0 0 () :: (List.replicate early (.step 0) ++
    .cycle 2 ⟨0, .stopped, 0⟩ :: List.replicate 4 .ctrlStep ++ List.replicate late (.step 0))

/-- The insertion comes before the cycle, which takes the cell. -/
theorem linked_in_time_one : ∃ log s y, execAll Machine.exec
    (Machine.init (twoSlots 1) (FofQueue.zero ()) ()) (cycleBetween 12 0) = some (log, s) ∧
      y ∈ log ∧ y.out = .took (some 0) 0 (some 0) ∧ Takes y 0 0 := by
  cases run : execAll Machine.exec (Machine.init (twoSlots 1) (FofQueue.zero ()) ()) (cycleBetween 12 0) with
  | none => exact absurd run (by decide)
  | some r =>
    obtain ⟨log, s⟩ := r
    have noWrap : ∀ x ∈ log, x.pre.q.nextFrame + (twoSlots 1).maxBufferSize < 2 ^ 64 := by
      cases Option.some.inj (run.symm.trans rfl)
      decide
    have entries : ∃ l1 x l2 y l3, log = l1 ++ x :: (l2 ++ y :: l3) ∧ x.out = .linked 0 0 ∧
        (x.pre.thread 0).timeUs = 0 ∧ x.pre.q.nSlots = 2 ∧ exchangesSince 0 l1 = 0 ∧
        (lastLoad 0 l1).map (fun z => z.pre.cpc.inFlight) = some false ∧
        y.out = .took (some 0) 0 (some 0) := by
      cases Option.some.inj (run.symm.trans rfl)
      exact ⟨[_, _, _, _, _, _, _, _, _, _, _, _], _, [_, _, _, _], _, _, rfl, rfl, rfl, rfl, rfl, rfl, rfl⟩
    obtain ⟨l1, x, l2, y, l3, rfl, out, time, slots, since, load, took⟩ := entries
    have inTime : InTime 0 l1 x := by
      intro z last
      rw [last] at load
      have idle : z.pre.cpc.inFlight = false := Option.some.inj load
      have start : startFrame x.pre.q 0 = 0 := by
        rw [startFrame, jfofsTimeToNframes, Nat.zero_mul]
        rfl
      rw [since, slots, idle, time, start, Nat.zero_sub, Nat.zero_div]
      exact ⟨Nat.zero_le _, Nat.two_pos⟩
    obtain ⟨-, takes⟩ := linked_in_time (by decide) ⟨1, rfl⟩ (by decide) (by decide) (by decide) rfl
      (FofQueue.zero ()) () 0 _ (by decide) run noWrap l1 x _ 0 0 rfl out inTime
    have memy : y ∈ l2 ++ y :: l3 := List.mem_append_right _ List.mem_cons_self
    refine ⟨_, s, y, rfl, List.mem_append_right _ (List.mem_cons_of_mem _ memy), took, takes y memy ?_⟩
    exact ⟨0, 0, some 0, took, Nat.zero_le _, by rw [time]; decide⟩

/-- The cycle for frames 0 and 1 runs between the recheck of the call and its compare-exchange: the event
    for frame 0 is linked into slot 0 after the exchange. -/
theorem linked_too_late : ∃ log s l1 x l2 y, execAll Machine.exec
    (Machine.init (twoSlots 1) (FofQueue.zero ()) ()) (cycleBetween 11 1) = some (log, s) ∧
      log = l1 ++ x :: l2 ∧ x.out = .linked 0 0 ∧ (x.pre.thread 0).timeUs = 0 ∧ y ∈ l1 ∧
      Due (jfofsTimeToNframes 0 (twoSlots 1).sampleRate) (twoSlots 1).maxBufferSize y := by
  cases run : execAll Machine.exec (Machine.init (twoSlots 1) (FofQueue.zero ()) ()) (cycleBetween 11 1) with
  | none => exact absurd run (by decide)
  | some r =>
    obtain ⟨log, s⟩ := r
    have entries : ∃ l1 y l2 x, log = (l1 ++ y :: l2) ++ [x] ∧ x.out = .linked 0 0 ∧
        (x.pre.thread 0).timeUs = 0 ∧ y.out = .took (some 0) 0 none := by
      cases Option.some.inj (run.symm.trans rfl)
      exact ⟨[_, _, _, _, _, _, _, _, _, _, _, _, _, _, _, _], _, [], _, rfl, rfl, rfl, rfl⟩
    obtain ⟨l1, y, l2, x, rfl, out, time, took⟩ := entries
    refine ⟨_, s, _, x, [], y, rfl, rfl, out, time, List.mem_append_right _ List.mem_cons_self, ?_⟩
    exact ⟨0, 0, none, took, by decide, by decide⟩

end JackFofs
