import JackFofs.Queue.Basic

/-!
# The controller

Model of `ctrl_client.c`: the controller state and one JACK process cycle run alone. What JACK
answers in a cycle (the transport position and state, the frame time) is an input, and the calls of
`dsp_client_add` the cycle makes are its output, in order. Of a DSP client the controller only sees
the frame time of its fof bank. The controller is active: with `active == 0` a cycle does nothing.
-/

namespace JackFofs

/-- `jack_transport_state_t` -/
inductive TransportState where
  | stopped
  | rolling
  | looping
  | starting
  | netStarting
deriving DecidableEq, Repr

/-- What JACK answers during one cycle: `pos.frame` and the state of `jack_transport_query`, and
    `jack_frame_time`. -/
structure JackReading where
  transportFrame : Nat
  transportState : TransportState
  frameTime : Nat
deriving DecidableEq, Repr

/-- `ctrl_client_s`, with the fof bank time of each DSP client. -/
structure CtrlClient where
  clockSource : Int
  transportFrame : Nat
  transportState : TransportState
  nClients : Nat
  lastDsp : Nat
  syncronized : Bool
  dspTimeI : Nat → Nat

/-- A call `dsp_client_add(ctrl->dsp[dsp], fof)` and the fof data it passes to the bank. -/
structure DspAdd (α : Type) where
  dsp : Nat
  fof : Addr
  timeUs : Nat
  argv : α
deriving DecidableEq

/-- What one active cycle shows to the outside: its frame `n` and its calls of `dsp_client_add`. -/
structure CycleOut (α : Type) where
  n : Nat
  adds : List (DspAdd α)

variable {α : Type}

/-- `ctrl_client_new` -/
def ctrlClientNew (setup : Setup) : CtrlClient where
  clockSource := (jfofsClockSourceNormalize setup.clockSource).code
  transportFrame := 0
  transportState := .stopped
  nClients := setup.nClients
  lastDsp := 0
  syncronized := false
  dspTimeI := fun _ => 0

/-- `ctrl_current_clock_source` -/
def ctrlCurrentClockSource (q : FofQueue α) : Int :=
  (jfofsClockSourceNormalize q.clockSource).code

/-- `get_framestamp` -/
def getFramestamp (clockSource : Int) (jack : JackReading) : Nat × TransportState :=
  if jfofsClockUsesTransport clockSource then (jack.transportFrame, jack.transportState)
  else (jack.frameTime, .rolling)

/-- `ctrl_transport_discontinuity` -/
def ctrlTransportDiscontinuity (ctrl : CtrlClient) (nframes : Nat)
    (transportState : TransportState) (frame : Nat) : Bool :=
  if !jfofsClockUsesTransport ctrl.clockSource || !ctrl.syncronized then false
  else
    let expectedFrame :=
      if transportState = .rolling ∧ ctrl.transportState = .rolling then
        u64 (ctrl.transportFrame + nframes)
      else ctrl.transportFrame
    frame ≠ expectedFrame

/-- The loop that hands a list to the DSP clients in turn, from DSP client `i` on. It returns the
    next DSP client, the last cell and the calls made. -/
def distribute (fofs : Addr → Fof α) (nClients : Nat) :
    (fuel : Nat) → (fof : Option Addr) → (i : Nat) → (lastFof : Option Addr) →
      Option (Nat × Option Addr × List (DspAdd α))
  | _, none, i, lastFof => some (i, lastFof, [])
  | 0, some _, _, _ => none
  | fuel + 1, some fof, i, _ => do
    let (i', lastFof, adds) ←
      distribute fofs nClients fuel (fofs fof).next ((i + 1) % nClients) (some fof)
    return (i', lastFof, ⟨i, fof, (fofs fof).timeUs, (fofs fof).argv⟩ :: adds)

/-- The part of `ctrl_client_process_cb` that takes the slot of frame `n`, hands its fofs to the DSP
    clients and gives the cells back. -/
def consumeSlot (fuel : Nat) (ctrl : CtrlClient) (q : FofQueue α) (n : Nat) :
    Option (CtrlClient × FofQueue α × CycleOut α) := do
  let (fof, q) := fofQueueTakeSlot q (slotOfFrame q n)
  let (i, lastFof, adds) ← distribute q.fof ctrl.nClients fuel fof ctrl.lastDsp q.lastFof
  let q := { q with firstFof := fof, lastFof := lastFof, activeCnt := adds.length }
  let ctrl := { ctrl with lastDsp := i }
  match q.firstFof, q.lastFof with
  | some first, some last =>
    let q ← fofQueueFreeFofs fuel q first last
    return (ctrl, { q with firstFof := none, lastFof := none }, ⟨n, adds⟩)
  | _, _ => return (ctrl, q, ⟨n, adds⟩)

/-- The part of `ctrl_client_process_cb` that publishes the frame of the cycle and sets the time of
    the fof banks. It returns that frame. -/
def publish (ctrl : CtrlClient) (q : FofQueue α) (nframes m : Nat)
    (transportState : TransportState) : CtrlClient × FofQueue α × Nat :=
  let usesTransport := jfofsClockUsesTransport ctrl.clockSource
  let n := if usesTransport then m else q.nextFrame
  let q := { q with
    nextFrame := if usesTransport then m else u64 (q.nextFrame + nframes)
    frameStamp := m }
  let ctrl := { ctrl with transportFrame := m, transportState := transportState }
  let ctrl :=
    if !ctrl.syncronized || usesTransport then
      { ctrl with
        dspTimeI := fun i => if i < ctrl.nClients then n else ctrl.dspTimeI i
        syncronized := true }
    else ctrl
  (ctrl, q, n)

/-- The part of `ctrl_client_process_cb` that follows a change of the clock source. -/
def changeMode (fuel : Nat) (ctrl : CtrlClient) (q : FofQueue α) (clockSource : Int) :
    Option (CtrlClient × FofQueue α) :=
  if clockSource ≠ ctrl.clockSource then do
    let q ← fofQueueFlush fuel q
    return ({ ctrl with clockSource := clockSource, syncronized := false }, q)
  else some (ctrl, q)

/-- The part of `ctrl_client_process_cb` that follows a jump of the transport. -/
def followTransport (fuel : Nat) (ctrl : CtrlClient) (q : FofQueue α) (nframes m : Nat)
    (transportState : TransportState) : Option (CtrlClient × FofQueue α) :=
  if ctrlTransportDiscontinuity ctrl nframes transportState m then do
    let q ← fofQueueFlush fuel q
    return ({ ctrl with syncronized := false }, q)
  else some (ctrl, q)

/-- `ctrl_client_process_cb` -/
def ctrlClientProcessCb (fuel : Nat) (nframes : Nat) (jack : JackReading) (ctrl : CtrlClient)
    (q : FofQueue α) : Option (CtrlClient × FofQueue α × CycleOut α) := do
  let clockSource := ctrlCurrentClockSource q
  let (m, transportState) := getFramestamp clockSource jack
  let (ctrl, q) ← changeMode fuel ctrl q clockSource
  let (ctrl, q) ← followTransport fuel ctrl q nframes m transportState
  let (ctrl, q, n) := publish ctrl q nframes m transportState
  consumeSlot fuel ctrl q n

end JackFofs
