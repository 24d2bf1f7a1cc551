import JackFofs.Seq.Conservation

/-!
# The clock of a client

Model of `current_frame` and `jfofs_set_clock_source` in `api.c`, over the server run alone. A client
takes the frame number from `next_frame` and adds to it how far its clock has moved on since
`frame_stamp`. It picks the clock by `setup.clock_source`, which `jfofs_set_clock_source` changes at
once. The frame stamp is from the clock of the last cycle.

The machine notes which clock the frame stamp comes from. `stampClock` does not influence the rest of
the state. In C the stamp has no such tag.
-/

namespace JackFofs
open Runs

variable {α : Type}

/-- The two clocks of JACK. -/
inductive Clock where
  | jackFrameTime
  | jackTransport
deriving DecidableEq, Repr

/-- The clock that is read for a clock source. -/
def clockOf (clockSource : Int) : Clock :=
  if jfofsClockUsesTransport clockSource then .jackTransport else .jackFrameTime

/-- What JACK answers to a client: `jack_get_current_transport_frame` and `jack_frame_time`. -/
structure ClientReading where
  transportFrame : Nat
  frameTime : Nat
deriving DecidableEq, Repr

/-- The reading of a clock. -/
def ClientReading.read (jack : ClientReading) : Clock → Nat
  | .jackTransport => jack.transportFrame
  | .jackFrameTime => jack.frameTime

/-- What the controller reads from a clock. -/
def JackReading.read (jack : JackReading) : Clock → Nat
  | .jackTransport => jack.transportFrame
  | .jackFrameTime => jack.frameTime

/-- The end of `current_frame`, after its three reads. -/
def estimate (nextFrame frameStamp currentSourceFrame : Nat) : Nat :=
  if currentSourceFrame ≤ frameStamp then nextFrame
  else u64 (nextFrame + (currentSourceFrame - frameStamp))

/-- `current_frame`, which is all of `jfofs_get_frame`. -/
def currentFrame (q : FofQueue α) (setupClockSource : Int) (jack : ClientReading) : Nat :=
  estimate q.nextFrame q.frameStamp (jack.read (clockOf setupClockSource))

/-- The shared memory of server and clients, with `setup.clock_source` and a note of the clock that
    `q->frame_stamp` comes from. -/
structure Shmem (α : Type) where
  sys : Sys α
  setupClockSource : Int
  stampClock : Option Clock

/-- `jfofs_set_clock_source`, with whether it returns `JFOFS_SUCCESS`. -/
def jfofsSetClockSource (s : Shmem α) (clockSource : Int) : Bool × Shmem α :=
  if clockSource = ClockSource.offlineFreeRunning.code then (false, s)
  else
    let normalized := (jfofsClockSourceNormalize clockSource).code
    (true, { s with
      sys := { s.sys with q := { s.sys.q with clockSource := normalized } }
      setupClockSource := normalized })

/-- The calls of the clients, and the cycles. -/
inductive ClientOp (α : Type) where
  | add (timeUs : Nat) (argv : α)
  | setClockSource (clockSource : Int)
  | getFrame (jack : ClientReading)
  | cycle (nframes : Nat) (jack : JackReading)

/-- The result of a call. -/
inductive ClientOut where
  | server
  | set (accepted : Bool)
  | frame (n : Nat)

/-- The memory after `fof_queue_init`; `q` is the memory it found. It does not write
    `q->frame_stamp`. -/
def Shmem.init (setup : Setup) (q : FofQueue α) : Shmem α where
  sys := Sys.init setup q
  setupClockSource := setup.clockSource
  stampClock := none

/-- One call or cycle. -/
def clientExec (fuel : Nat) (s : Shmem α) : ClientOp α → Option (ClientOut × Shmem α)
  | .add timeUs argv => do
    let (_, sys) ← exec fuel s.sys (.add timeUs argv)
    return (.server, { s with sys := sys })
  | .setClockSource clockSource =>
    let (accepted, s) := jfofsSetClockSource s clockSource
    some (.set accepted, s)
  | .getFrame jack => some (.frame (currentFrame s.sys.q s.setupClockSource jack), s)
  | .cycle nframes jack => do
    let (_, sys) ← exec fuel s.sys (.cycle nframes jack)
    return (.server, { s with
      sys := sys
      stampClock := some (clockOf (ctrlCurrentClockSource s.sys.q)) })

/-- An entry of the log of a run. -/
abbrev ClientEntry (α : Type) := Entry (Shmem α) (ClientOp α) ClientOut

/-- Whether an operation is a cycle. -/
def ClientOp.isCycle : ClientOp α → Bool
  | .cycle _ _ => true
  | _ => false

/-- The last cycle of a log. -/
def lastCycle : List (ClientEntry α) → Option (ClientEntry α)
  | [] => none
  | x :: log => (lastCycle log).or (if x.op.isCycle then some x else none)

/-! ## One step -/

section Step

variable {setup : Setup} {s s' : Shmem α} {L : Place → List Addr} {fuel : Nat}

/-- Client and server agree on the selected clock. -/
structure ClientInv (setup : Setup) (s : Shmem α) : Prop where
  sys : ∃ L, SysInv setup s.sys L
  selected : clockOf s.sys.q.clockSource = clockOf s.setupClockSource

@[simp] lemma clockOf_normalize (clockSource : Int) :
    clockOf (jfofsClockSourceNormalize clockSource).code = clockOf clockSource := by
  rw [clockOf, clockOf, jfofsClockUsesTransport_code]

lemma clientInv_init (ok : SetupOk setup) (q : FofQueue α) :
    ClientInv setup (Shmem.init setup q) := by
  have e : (Sys.init setup q).q.clockSource = _ := (fofQueueInit_fields q setup).2.2.2.1
  refine ⟨⟨_, sysInv_init ok q⟩, ?_⟩
  rw [Shmem.init, e, clockOf_normalize]

/-- A cycle leaves the selected clock alone. -/
lemma exec_cycle_selected (inv : SysInv setup s.sys L) (pos : 1 ≤ setup.nSlots)
    (enough : setup.nMaxFofs ≤ fuel) (nframes : Nat) (jack : JackReading) :
    ∃ out sys' L', exec fuel s.sys (.cycle nframes jack) = some (out, sys') ∧
      SysInv setup sys' L' ∧ sys'.q.clockSource = s.sys.q.clockSource := by
  have enough : (List.range setup.nMaxFofs).length ≤ fuel := by
    rw [List.length_range]
    exact enough
  have pos : 1 ≤ s.sys.q.nSlots := inv.nSlots ▸ pos
  obtain ⟨ctrl0, q0, L0, ctrl', q', out, e, nClients, clock, cacheOk, sub, cycled⟩ :=
    ctrlClientProcessCb_spec inv.holds pos enough inv.lastDsp nframes jack
  refine ⟨.cycled out.n (out.adds.map (·.handed s.sys.tag)), { s.sys with ctrl := ctrl', q := q' }, _,
    ?_, inv.cycled nClients clock cacheOk sub cycled, cycled.queue.clockSource.trans clock.clockSource⟩
  rw [exec, e]
  rfl

/-- Every call and every cycle succeeds and keeps the invariant. -/
lemma clientExec_total (ok : SetupOk setup) (enough : setup.nMaxFofs ≤ fuel)
    (inv : ClientInv setup s) (op : ClientOp α) :
    ∃ out s', clientExec fuel s op = some (out, s') ∧ ClientInv setup s' := by
  obtain ⟨L, sys⟩ := inv.sys
  cases op with
  | add timeUs argv =>
    obtain ⟨status, sys', L', e, sys, added, -⟩ :=
      exec_add fuel sys ok.nSlots timeUs argv rfl
    refine ⟨.server, { s with sys := sys' }, by rw [clientExec, e]; rfl, ⟨L', sys⟩, ?_⟩
    show clockOf sys'.q.clockSource = _
    rw [added.clock.clockSource]
    exact inv.selected
  | setClockSource c =>
    refine ⟨.set (jfofsSetClockSource s c).1, (jfofsSetClockSource s c).2, rfl, ?_⟩
    rw [jfofsSetClockSource]
    split
    · exact inv
    · have store : ∃ sys', exec fuel s.sys (.storeClockSource (jfofsClockSourceNormalize c).code) =
          some (.done, sys') ∧ SysInv setup sys' L := exec_storeClockSource sys _
      obtain ⟨sys', e, sys⟩ := store
      cases e
      exact ⟨⟨L, sys⟩, rfl⟩
  | getFrame jack => exact ⟨_, s, rfl, inv⟩
  | cycle nframes jack =>
    obtain ⟨out, sys', L', e, sys, same⟩ := exec_cycle_selected sys ok.nSlots enough nframes jack
    refine ⟨.server, { s with sys := sys', stampClock := some _ }, by rw [clientExec, e]; rfl,
      ⟨L', sys⟩, ?_⟩
    show clockOf sys'.q.clockSource = _
    rw [same]
    exact inv.selected

/-- Only a cycle changes the note of the clock. -/
lemma clientExec_stampClock {op : ClientOp α} {out : ClientOut} (inv : ClientInv setup s)
    (e : clientExec fuel s op = some (out, s')) :
    s'.stampClock = if op.isCycle then some (clockOf s.setupClockSource) else s.stampClock := by
  cases op with
  | add timeUs argv =>
    rw [clientExec] at e
    obtain ⟨r, -, e⟩ := Option.bind_eq_some_iff.1 e
    cases e
    rfl
  | setClockSource c =>
    cases e
    show (jfofsSetClockSource s c).2.stampClock = s.stampClock
    rw [jfofsSetClockSource]
    split <;> rfl
  | getFrame jack =>
    cases e
    rfl
  | cycle nframes jack =>
    rw [clientExec] at e
    obtain ⟨r, -, e⟩ := Option.bind_eq_some_iff.1 e
    cases e
    show some (clockOf (ctrlCurrentClockSource s.sys.q)) = some (clockOf s.setupClockSource)
    rw [ctrlCurrentClockSource, clockOf_normalize, inv.selected]

lemma getFramestamp_read (clockSource : Int) (jack : JackReading) :
    (getFramestamp clockSource jack).1 = jack.read (clockOf clockSource) := by
  rw [getFramestamp, clockOf]
  split <;> rfl

/-- The note is true: the stamp that a cycle stores is its reading of the clock that it notes. -/
theorem cycle_stampClock {nframes : Nat} {jack : JackReading} {out : ClientOut}
    (e : clientExec fuel s (.cycle nframes jack) = some (out, s')) :
    ∃ c, s'.stampClock = some c ∧ s'.sys.q.frameStamp = jack.read c := by
  rw [clientExec] at e
  obtain ⟨⟨out', sys'⟩, e', e⟩ := Option.bind_eq_some_iff.1 e
  cases e
  obtain ⟨⟨ctrl, q, cout⟩, cb, e'⟩ := Option.bind_eq_some_iff.1 e'
  cases e'
  refine ⟨_, rfl, ?_⟩
  obtain ⟨m, transportState, ctrl1, q1, ctrl2, q2, ctrl3, q3, n, stamp, -, -, pub, consume⟩ :=
    ctrlClientProcessCb_parts cb
  rw [publish_ctrl] at pub
  cases pub
  obtain ⟨-, -, frameStamp, -⟩ := consumeSlot_ctrl consume
  rw [← getFramestamp_read, stamp]
  exact frameStamp

end Step

/-! ## Runs -/

section Runs

variable {setup : Setup} {s s' : Shmem α} {fuel : Nat} {log : List (ClientEntry α)}

/-- The note of the clock is from the last cycle. -/
lemma run_stampClock (run : Run (clientExec fuel) s log s')
    (inv : ∀ x ∈ log, ClientInv setup x.pre) :
    s'.stampClock =
      ((lastCycle log).map fun y => clockOf y.pre.setupClockSource).or s.stampClock := by
  induction run with
  | nil => rfl
  | @cons s s1 s' op out log e run ih =>
    rw [ih fun x mem => inv x (List.mem_cons_of_mem _ mem), lastCycle,
      clientExec_stampClock (inv _ List.mem_cons_self) e]
    cases lastCycle log with
    | some y => rfl
    | none => cases op <;> rfl

/-- Every run succeeds and keeps the invariant. -/
lemma clientRun_total (ok : SetupOk setup) (enough : setup.nMaxFofs ≤ fuel) (q : FofQueue α)
    (ops : List (ClientOp α)) :
    ∃ log s, execAll (clientExec fuel) (Shmem.init setup q) ops = some (log, s) ∧
      ∀ x ∈ log, ClientInv setup x.pre := by
  have total : ∃ log s, execAll (clientExec fuel) (Shmem.init setup q) ops = some (log, s) ∧
      ClientInv setup s ∧ ∀ x ∈ log, ClientInv setup x.pre := by
    apply execAll_post
    · intro s op inv _
      obtain ⟨out, s', e, inv'⟩ := clientExec_total ok enough inv op
      exact ⟨out, s', e, inv', inv⟩
    · exact clientInv_init ok q
  obtain ⟨log, s, e, -, inv⟩ := total
  exact ⟨log, s, e, inv⟩

end Runs

/-- Some cycle has run, and the clock that was selected in the last one is the selected one still. -/
def Settled (log : List (ClientEntry α)) (s : Shmem α) : Prop :=
  ∃ y, lastCycle log = some y ∧ clockOf y.pre.setupClockSource = clockOf s.setupClockSource

/-- Every call of `jfofs_get_frame` in every run: if it adds the difference of its reading and the
    frame stamp, the two are from one clock, if and only if there is nothing to add or the selected
    clock is that of the last cycle. -/
theorem get_frame_one_clock_iff (setup : Setup) (nMaxFofs : 1 ≤ setup.nMaxFofs)
    (nSlots : 1 ≤ setup.nSlots) (nClients : 1 ≤ setup.nClients) (fuel : Nat)
    (enough : setup.nMaxFofs ≤ fuel) (q : FofQueue α) (ops : List (ClientOp α)) :
    ∃ log s, execAll (clientExec fuel) (Shmem.init setup q) ops = some (log, s) ∧
      ∀ l1 x l2 jack, log = l1 ++ x :: l2 → x.op = .getFrame jack →
        ((x.pre.sys.q.frameStamp < jack.read (clockOf x.pre.setupClockSource) →
            x.pre.stampClock = some (clockOf x.pre.setupClockSource)) ↔
          (jack.read (clockOf x.pre.setupClockSource) ≤ x.pre.sys.q.frameStamp ∨
            Settled l1 x.pre)) := by
  obtain ⟨log, s, e, inv⟩ := clientRun_total ⟨nMaxFofs, nSlots, nClients⟩ enough q ops
  obtain ⟨run, -⟩ := run_of_execAll e
  refine ⟨log, s, e, ?_⟩
  rintro l1 x l2 jack rfl op
  obtain ⟨s1, run1, -, -⟩ := run.split
  have note := run_stampClock run1 fun z mem => inv z (List.mem_append_left _ mem)
  rw [← Nat.not_lt, imp_iff_not_or, note, Settled]
  apply or_congr_right
  cases lastCycle l1 with
  | none =>
    -- before the first cycle the frame stamp is from no clock
    constructor
    · exact fun same => nomatch same
    · rintro ⟨y, no, -⟩
      exact nomatch no
  | some y =>
    rw [Option.map_some, Option.some_or, Option.some.injEq]
    exact ⟨fun same => ⟨y, rfl, same⟩, fun ⟨z, e, same⟩ => by
      cases e
      exact same⟩

/-- A server with one cell on the frame clock. -/
def onFrameTime : Setup where
  clockSource := 1
  nClients := 1
  nMaxFofs := 1
  nSlots := 2
  sampleRate := 48000
  maxBufferSize := 64

/-- A cycle on the frame clock, a call that selects the transport, and a cycle on the transport. -/
def switchThenCycle : List (ClientOp Nat) :=
  [.cycle 64 ⟨0, .stopped, 1000⟩, .setClockSource 2, .cycle 64 ⟨5000, .rolling, 1064⟩]

/-- After the cycle at frame 5000 of the transport, a client reads frame 5032 from it. -/
theorem get_frame_one_clock : ∃ (log : List (ClientEntry Nat)) (s : Shmem Nat) (x : ClientEntry Nat),
    execAll (clientExec 1) (Shmem.init onFrameTime (.zero 0))
        (switchThenCycle ++ [.getFrame ⟨5032, 1096⟩]) = some (log, s) ∧
      log[3]? = some x ∧ x.out = .frame 5032 ∧ x.pre.stampClock = some .jackTransport := by
  obtain ⟨log, s, run, one⟩ := get_frame_one_clock_iff onFrameTime (by decide) (by decide) (by decide)
    1 (by decide) (.zero 0) (switchThenCycle ++ [.getFrame ⟨5032, 1096⟩])
  have four : ∃ before x, log = before ++ x :: [] ∧ log[3]? = some x ∧
      x.op = .getFrame ⟨5032, 1096⟩ ∧ x.out = .frame 5032 ∧ x.pre.sys.q.frameStamp = 5000 ∧
      x.pre.setupClockSource = 2 ∧ Settled before x.pre := by
    cases Option.some.inj (run.symm.trans rfl)
    exact ⟨[_, _, _], _, rfl, rfl, rfl, rfl, rfl, rfl, _, rfl, rfl⟩
  obtain ⟨before, x, split, at3, op, out, stamp, selected, settled⟩ := four
  have same := (one before x [] _ split op).2 (.inr settled)
  rw [stamp, selected] at same
  exact ⟨log, s, x, run, at3, out, same (by decide)⟩

/-- The client selects the transport and asks for the frame before the next cycle.
    The call adds the transport position minus a stamp of the frame clock: 64 + (5000 - 1000). -/
theorem get_frame_two_clocks : ∃ (log : List (ClientEntry Nat)) (s : Shmem Nat) (x : ClientEntry Nat),
    execAll (clientExec 1) (Shmem.init onFrameTime (.zero 0))
        [.cycle 64 ⟨0, .stopped, 1000⟩, .setClockSource 2, .getFrame ⟨5000, 1016⟩] = some (log, s) ∧
      log[2]? = some x ∧ x.out = .frame 4064 ∧ x.pre.sys.q.frameStamp = 1000 ∧
      clockOf x.pre.setupClockSource = .jackTransport ∧ x.pre.stampClock = some .jackFrameTime :=
  ⟨_, _, _, rfl, rfl, rfl, rfl, rfl, rfl⟩

end JackFofs
