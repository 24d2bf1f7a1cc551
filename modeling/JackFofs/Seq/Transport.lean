import JackFofs.Seq.Events

/-!
# Delivery on the transport clock

On the transport clock `next_frame` is the frame of the cycle that has just run, not of the next
one. An event for the block of `next_frame` is still accepted, but the slot of this block has been
consumed, so the event is handed over one revolution of the ring late. Events for later blocks are
delivered exactly.
-/

namespace JackFofs
open Linked Runs Wheel

variable {α : Type} {setup : Setup} {s s' s1 : Sys α} {L L1 : Place → List Addr} {fuel : Nat}
  {log before after : List (LogEntry α)} {a x : LogEntry α} {t timeUs : Nat} {argv : α}

/-- The clock source is the transport, the controller is synchronized with it, and it was rolling. -/
structure OnTransport (s : Sys α) : Prop where
  clockSource : ctrlCurrentClockSource s.q = s.ctrl.clockSource
  transport : jfofsClockUsesTransport s.ctrl.clockSource = true
  syncronized : s.ctrl.syncronized = true
  rolling : s.ctrl.transportState = .rolling

/-- The operation is a call of `fof_queue_add`, or a cycle of `buffer_size` frames in which the
    transport rolls and has moved on by them. `pos.frame` is a `jack_nframes_t`. -/
def RollsOn (setup : Setup) (x : LogEntry α) : Prop :=
  match x.op with
  | .add _ _ => True
  | .cycle nframes jack =>
    nframes = setup.maxBufferSize ∧ jack.transportState = .rolling ∧
      jack.transportFrame = x.pre.ctrl.transportFrame + nframes ∧ jack.transportFrame < 2 ^ 32
  | _ => False

/-- A call of `fof_queue_add` is not for the block of `next_frame`, and its block is near enough for
    the C `int` that counts the blocks. -/
def NotCurrentBlock (setup : Setup) (x : LogEntry α) : Prop :=
  match x.op with
  | .add timeUs _ =>
    let t := jfofsTimeToNframes timeUs setup.sampleRate
    ¬ (x.pre.q.nextFrame ≤ t ∧ t < x.pre.q.nextFrame + setup.maxBufferSize) ∧
      (t - x.pre.q.nextFrame) / setup.maxBufferSize < 2 ^ 31
  | _ => True

instance (setup : Setup) : (x : LogEntry α) → Decidable (RollsOn setup x)
  | ⟨_, .add _ _, _⟩ => isTrue trivial
  | ⟨_, .cycle _ _, _⟩ => inferInstanceAs (Decidable (_ ∧ _ ∧ _ ∧ _))
  | ⟨_, .flush, _⟩ => isFalse id
  | ⟨_, .storeClockSource _, _⟩ => isFalse id

instance (setup : Setup) : (x : LogEntry α) → Decidable (NotCurrentBlock setup x)
  | ⟨_, .add _ _, _⟩ => inferInstanceAs (Decidable (¬ _ ∧ _))
  | ⟨_, .cycle _ _, _⟩ => isTrue trivial
  | ⟨_, .flush, _⟩ => isTrue trivial
  | ⟨_, .storeClockSource _, _⟩ => isTrue trivial

/-- The operations of a run on the transport clock: a call of `fof_queue_add`, or a cycle whose frame
    is one block after `next_frame` and becomes the next `next_frame`. -/
inductive TransportStep (setup : Setup) (x : LogEntry α) (s1 : Sys α) : Prop where
  | add {status} :
    x.out = .added status →
    s1.q.nextFrame = x.pre.q.nextFrame →
    TransportStep setup x s1
  | cycle {handed} :
    x.out = .cycled (x.pre.q.nextFrame + setup.maxBufferSize) handed →
    s1.q.nextFrame = x.pre.q.nextFrame + setup.maxBufferSize →
    TransportStep setup x s1

/-- A transport that rolls on does not jump. -/
lemma OnTransport.quiet {nframes : Nat} {jack : JackReading} (clock : OnTransport s)
    (rolling : jack.transportState = .rolling)
    (frame : jack.transportFrame = s.ctrl.transportFrame + nframes)
    (lt : jack.transportFrame < 2 ^ 32) : Quiet nframes jack s.ctrl s.q := by
  refine ⟨clock.clockSource, ?_⟩
  have stamp : getFramestamp s.ctrl.clockSource jack = (jack.transportFrame, .rolling) := by
    rw [getFramestamp, if_pos clock.transport, rolling]
  have expected : u64 (s.ctrl.transportFrame + nframes) = jack.transportFrame := by
    rw [← frame]
    exact u64_of_lt (by omega)
  rw [stamp, ctrlTransportDiscontinuity, clock.transport, clock.syncronized, clock.rolling]
  simp [expected]

lemma transport_step (ok : SetupOk setup) (enough : setup.nMaxFofs ≤ fuel)
    (inv : SysInv setup x.pre L) (clock : OnTransport x.pre) (rolls : RollsOn setup x)
    (run : exec fuel x.pre x.op = some (x.out, s1)) :
    QuietEntry x ∧ (∃ L1, SysInv setup s1 L1) ∧ OnTransport s1 ∧ TransportStep setup x s1 := by
  obtain ⟨s, op, out⟩ := x
  cases op with
  | add timeUs argv =>
    obtain ⟨status, s2, L1, e, inv1, ad, -⟩ := exec_add fuel inv ok.nSlots timeUs argv rfl
    rw [run] at e
    cases e
    refine ⟨trivial, ⟨L1, inv1⟩, ⟨?_, ?_, ?_, ?_⟩, .add rfl ad.clock.nextFrame⟩
    · rw [ctrlCurrentClockSource, ad.clock.clockSource, ad.ctrl]
      exact clock.clockSource
    · rw [ad.ctrl]
      exact clock.transport
    · rw [ad.ctrl]
      exact clock.syncronized
    · rw [ad.ctrl]
      exact clock.rolling
  | flush => exact absurd rolls id
  | storeClockSource c => exact absurd rolls id
  | cycle nframes jack =>
    obtain ⟨period, rolling, frame, lt⟩ := rolls
    have quiet : Quiet nframes jack s.ctrl s.q := clock.quiet rolling frame lt
    have on : jfofsClockUsesTransport s.ctrl.clockSource = true := clock.transport
    have stamp : getFramestamp s.ctrl.clockSource jack = (jack.transportFrame, .rolling) := by
      rw [getFramestamp, if_pos on, rolling]
    have frame : jack.transportFrame = s.q.nextFrame + setup.maxBufferSize := by
      have e := inv.synced clock.syncronized on
      rw [frame, period, e]
    obtain ⟨s2, e, inv1, -, -, -, ctrlSource, queueSource, syncronized, state, nextFrame⟩ :=
      exec_cycle_quiet (n := s.q.nextFrame + setup.maxBufferSize) inv ok.nSlots enough quiet (by
        rw [if_pos on, stamp, frame])
    rw [run, Option.some.injEq, Prod.mk.injEq] at e
    obtain ⟨eo, rfl⟩ := e
    rw [if_pos on] at nextFrame
    refine ⟨quiet, ⟨_, inv1⟩, ⟨?_, ?_, syncronized, ?_⟩, .cycle eo nextFrame⟩
    · rw [ctrlCurrentClockSource, queueSource, ctrlSource]
      exact clock.clockSource
    · rw [ctrlSource]
      exact on
    · rw [state, stamp]

lemma transport_run (ok : SetupOk setup) (enough : setup.nMaxFofs ≤ fuel)
    (run : Run (exec fuel) s log s') (rolls : ∀ x ∈ log, RollsOn setup x) (inv : SysInv setup s L)
    (clock : OnTransport s) :
    (∀ x ∈ log, QuietEntry x) ∧ (∃ L', SysInv setup s' L') ∧ OnTransport s' := by
  induction run generalizing L with
  | nil => exact ⟨fun x mem => absurd mem List.not_mem_nil, ⟨L, inv⟩, clock⟩
  | @cons s s1 s' op out log run1 run ih =>
    obtain ⟨quiet, ⟨L1, inv1⟩, clock1, -⟩ := transport_step (x := ⟨s, op, out⟩) ok enough inv clock
      (rolls _ List.mem_cons_self) run1
    obtain ⟨all, rest⟩ := ih (fun z mem => rolls z (List.mem_cons_of_mem _ mem)) inv1 clock1
    refine ⟨fun y mem => ?_, rest⟩
    cases mem with
    | head => exact quiet
    | tail _ mem => exact all y mem

/-- From a state where the start frame `t` is beyond the block of `next_frame`, the cycle whose slot
    is the one of `t` is the cycle whose block contains `t`. -/
lemma Delivered.transport {e nClients : Nat} (ring : RingSetup setup)
    (enough : setup.nMaxFofs ≤ fuel) (run : Run (exec fuel) s log s')
    (rolls : ∀ x ∈ log, RollsOn setup x) (inv : SysInv setup s L) (clock : OnTransport s)
    (ahead : s.q.nextFrame + setup.maxBufferSize ≤ t)
    (inside : (t - s.q.nextFrame) / setup.maxBufferSize < setup.nSlots)
    (del : Delivered (setup.slotOf · = setup.slotFor t s.q.nextFrame) e nClients timeUs argv log) :
    Delivered (fun n => n ≤ t ∧ t < n + setup.maxBufferSize) e nClients timeUs argv log := by
  induction run generalizing L with
  | nil => trivial
  | @cons s s1 s' op res log run1 run ih =>
    have pos := ring.bufferSize_pos
    obtain ⟨-, ⟨L1, inv1⟩, clock1, step⟩ := transport_step (x := ⟨s, op, res⟩) ring.ok enough inv
      clock (rolls _ List.mem_cons_self) run1
    have ih := ih (fun z mem => rolls z (List.mem_cons_of_mem _ mem)) inv1 clock1
    cases step with
    | add out nextFrame =>
      have nextFrame : s1.q.nextFrame = s.q.nextFrame := nextFrame
      cases out
      rw [nextFrame] at ih
      obtain ⟨not, del⟩ := del.2 (not_cycleAt rfl)
      exact ⟨fun now => absurd now (not_cycleAt rfl), fun _ => ⟨not, ih ahead inside del⟩⟩
    | @cycle handed out nextFrame =>
      have out : res = .cycled (s.q.nextFrame + setup.maxBufferSize) handed := out
      have nextFrame : s1.q.nextFrame = s.q.nextFrame + setup.maxBufferSize := nextFrame
      subst out
      obtain ⟨e1, e2⟩ := ahead_step pos ahead
      -- the slot of `t` seen from the frame of this cycle
      have slot : setup.slotFor t (s.q.nextFrame + setup.maxBufferSize) =
          setup.slotFor t s.q.nextFrame := by
        rw [Setup.slotFor, Setup.slotFor, e1, e2]
        congr 1
        omega
      have inside1 : (t - (s.q.nextFrame + setup.maxBufferSize)) / setup.maxBufferSize <
          setup.nSlots := by
        omega
      have same : setup.slotOf (s.q.nextFrame + setup.maxBufferSize) =
          setup.slotFor t s.q.nextFrame ↔
          t < s.q.nextFrame + setup.maxBufferSize + setup.maxBufferSize := by
        rw [← slot, ring.slotOf_eq, Setup.slotFor]
        exact ahead_slot_iff pos ahead inside1
      refine ⟨fun now => ?_, fun later => ?_⟩
      · have now := (cycleAt_iff rfl).1 now
        exact del.1 ((cycleAt_iff rfl).2 (same.2 now.2))
      · have far : ¬ t < s.q.nextFrame + setup.maxBufferSize + setup.maxBufferSize :=
          fun lt => later ((cycleAt_iff rfl).2 ⟨ahead, lt⟩)
        have no : ¬ CycleAt (setup.slotOf · = setup.slotFor t s.q.nextFrame)
            (⟨s, op, .cycled (s.q.nextFrame + setup.maxBufferSize) handed⟩ : LogEntry α) := by
          intro now
          have now := (cycleAt_iff rfl).1 now
          exact far (same.1 now)
        obtain ⟨not, del⟩ := del.2 no
        rw [nextFrame] at ih
        rw [← slot] at del
        exact ⟨not, ih (by omega) inside1 del⟩

/-- On the transport clock, from any reachable state that is synchronized with a rolling transport: if
    no call of `fof_queue_add` that finds a free cell is for the block of `next_frame`, every accepted
    event is handed to exactly one DSP client by the cycle whose block contains its start frame, and by
    no other. -/
theorem transport_delivery (setup : Setup) (ring : RingSetup setup) (fuel : Nat)
    (enough : setup.nMaxFofs ≤ fuel) (q : FofQueue α) (ops0 ops : List (Op α))
    (log0 log : List (LogEntry α)) (s0 s' : Sys α)
    (reach : execAll (exec fuel) (Sys.init setup q) ops0 = some (log0, s0)) (clock : OnTransport s0)
    (run : execAll (exec fuel) s0 ops = some (log, s')) (rolls : ∀ x ∈ log, RollsOn setup x)
    (ahead : ∀ x ∈ log, x.pre.q.freeFofs ≠ none → NotCurrentBlock setup x) :
    ∀ before a after timeUs argv t, log = before ++ a :: after → a.op = .add timeUs argv →
      a.out = .added .success → t = jfofsTimeToNframes timeUs setup.sampleRate →
      ExactDelivery setup before a after t timeUs argv := by
  intro before a after timeUs argv t split add accepted et
  subst split
  obtain ⟨⟨L, inv⟩, -⟩ := run_inv ring.ok enough (run_of_execAll reach).1 (sysInv_init ring.ok q)
  have run := (run_of_execAll run).1
  obtain ⟨quiet, -⟩ := transport_run ring.ok enough run rolls inv clock
  obtain ⟨s1, run1, runa, run2⟩ := run.split
  obtain ⟨-, ⟨La, inva⟩, clocka⟩ := transport_run ring.ok enough run1
    (fun x mem => rolls x (List.mem_append_left _ mem)) inv clock
  have mema : a ∈ before ++ a :: after := List.mem_append_right _ List.mem_cons_self
  obtain ⟨-, -, clock1, -⟩ := transport_step ring.ok enough inva clocka (rolls a mema) runa
  obtain ⟨L1, acc⟩ := Accepted.of_run ring enough inv inva run1 runa run2 quiet add accepted et
  have not_current : NotCurrentBlock setup a := by
    rw [add, accepted] at runa
    exact ahead a mema (exec_add_found runa)
  rw [NotCurrentBlock, add] at not_current
  obtain ⟨beyond, small⟩ := not_current
  rw [← et] at beyond small
  have le := acc.le
  have far : s1.q.nextFrame + setup.maxBufferSize ≤ t := by
    rw [acc.queue.nextFrame]
    omega
  have inside := acc.inside small
  have del := delivered_of_pending ring.ok enough run2 acc.quiet acc.inv acc.pending
  rw [← acc.queue.nextFrame] at del inside
  have rolls2 (x : LogEntry α) (mem : x ∈ after) : RollsOn setup x :=
    rolls x (List.mem_append_right _ (List.mem_cons_of_mem a mem))
  exact acc.exact (del.transport ring enough run2 rolls2 acc.inv clock1 far inside)

/-- A ring of two slots of two frames on the transport clock, with one cell. -/
def twoTransportSlots : Setup := { twoSlots 1 with clockSource := 2 }

/-- The cycle of the transport at `frame`. -/
def rollAt (frame : Nat) : Op Nat := .cycle 2 ⟨frame, .rolling, 0⟩

/-- An event two frames ahead of a transport that rolls at frame `0`, and one for the block that has just
    been played, for which there is no cell left. -/
theorem transport_delivery_ahead : ∃ a b after,
    ExactDelivery twoTransportSlots [] a (b :: after) 2 2 7 ∧ a.out = .added .success ∧
      b.out = .added .fofLimitError ∧ ¬ NotCurrentBlock twoTransportSlots b ∧
      ∃ x ∈ after, Hands x a.pre.count :=
  have ring : RingSetup twoTransportSlots := by
    refine ⟨?_, ⟨1, rfl⟩, ?_, ?_, ?_, ?_⟩ <;> decide
  ⟨_, _, _, transport_delivery twoTransportSlots ring 1 (Nat.le_refl 1) (.zero 0) [rollAt 0]
      [.add 2 7, .add 0 8, rollAt 2] _ _ _ _ rfl ⟨rfl, rfl, rfl, rfl⟩ rfl (by decide) (by decide)
      [] _ _ 2 7 2 rfl rfl rfl rfl, rfl, rfl, by decide, _, List.mem_cons_self, ⟨0, 0, 2, 7⟩,
      List.mem_cons_self, rfl⟩

/-- An event for frame `0`, accepted after the cycle of frame `0`, is handed over by the cycle of
    frame `4`. -/
theorem transport_revolution_late : ∃ log0 s0 log s' a after,
    execAll (exec 1) (Sys.init twoTransportSlots (.zero 0)) [rollAt 0] = some (log0, s0) ∧
    OnTransport s0 ∧
    execAll (exec 1) s0 [.add 0 7, rollAt 2, rollAt 4] = some (log, s') ∧
    (∀ x ∈ log, RollsOn twoTransportSlots x) ∧ log = a :: after ∧ a.op = .add 0 7 ∧
    a.out = .added .success ∧
    ∃ x ∈ after, Hands x a.pre.count ∧
      ¬ CycleAt (fun n => n ≤ jfofsTimeToNframes 0 twoTransportSlots.sampleRate ∧
        jfofsTimeToNframes 0 twoTransportSlots.sampleRate < n + twoTransportSlots.maxBufferSize) x := by
  refine ⟨_, _, _, _, _, _, rfl, ⟨rfl, rfl, rfl, rfl⟩, rfl, by decide, rfl, rfl, rfl, _,
    List.mem_cons_of_mem _ List.mem_cons_self, ⟨⟨0, 0, 0, 7⟩, List.mem_cons_self, rfl⟩, ?_⟩
  exact fun now => absurd ((cycleAt_iff (n := 4) rfl).1 now) (by decide)

end JackFofs
