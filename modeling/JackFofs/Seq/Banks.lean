import JackFofs.Seq.Conservation

/-!
# The clocks of the DSP clients

After each controller cycle every DSP client renders the same period, and its fof bank moves on by
the frames rendered. On the frame clock the controller sets the banks once and from then on relies
on them to keep up with `next_frame`; on the transport it sets them in every cycle. `banks_follow`
says that in every cycle of every run they start to render at the frame `n` whose slot the cycle
consumed.

What libfofs does is a parameter: `fofNext t nframes` is the frame time of a bank with frame time `t`
after `fof_next` over `nframes` frames.
-/

namespace JackFofs
open Runs

variable {α : Type}

/-- `dsp_client_process` of every DSP client. -/
def dspClientProcess (fofNext : Nat → Nat → Nat) (ctrl : CtrlClient) (nframes : Nat) : CtrlClient :=
  { ctrl with
    dspTimeI := fun i =>
      if i < ctrl.nClients then fofNext (ctrl.dspTimeI i) nframes else ctrl.dspTimeI i }

/-- What a JACK period shows of the DSP clients: the frame of the cycle and the frame times of the
    banks when they start to render. -/
inductive Rendered where
  | none
  | rendered (n : Nat) (timeI : Nat → Nat)

/-- One operation of the server; a cycle comes with the run of the DSP clients. -/
def period (fofNext : Nat → Nat → Nat) (fuel : Nat) (s : Sys α) : Op α → Option (Rendered × Sys α)
  | .cycle nframes jack => do
    let (ctrl, q, out) ← ctrlClientProcessCb fuel nframes jack s.ctrl s.q
    return (.rendered out.n ctrl.dspTimeI,
      { s with ctrl := dspClientProcess fofNext ctrl nframes, q := q })
  | op => do
    let (_, s) ← exec fuel s op
    return (.none, s)

/-- Between two cycles on the frame clock the banks are at `next_frame`. -/
def Banks (ctrl : CtrlClient) (nextFrame : Nat) : Prop :=
  ctrl.syncronized = true → jfofsClockUsesTransport ctrl.clockSource = false →
    ∀ i, i < ctrl.nClients → ctrl.dspTimeI i = nextFrame

/-! ## The parts of a cycle -/

section Cycle

variable {ctrl ctrl' : CtrlClient} {q q' : FofQueue α} {fuel nframes m : Nat}
  {transportState : TransportState}

/-- A change of the clock source asks for the banks to be set again. -/
lemma changeMode_banks {clockSource : Int}
    (e : changeMode fuel ctrl q clockSource = some (ctrl', q')) (banks : Banks ctrl q.nextFrame) :
    ctrl'.nClients = ctrl.nClients ∧ Banks ctrl' q'.nextFrame := by
  obtain ⟨-, rfl⟩ | ⟨-, rfl, rfl⟩ := changeMode_cases e
  · exact ⟨rfl, fun synced => absurd synced Bool.false_ne_true⟩
  · exact ⟨rfl, banks⟩

/-- So does a jump of the transport. -/
lemma followTransport_banks
    (e : followTransport fuel ctrl q nframes m transportState = some (ctrl', q'))
    (banks : Banks ctrl q.nextFrame) :
    ctrl'.nClients = ctrl.nClients ∧ Banks ctrl' q'.nextFrame := by
  obtain ⟨-, rfl⟩ | ⟨rfl, rfl⟩ := followTransport_cases e
  · exact ⟨rfl, fun synced => absurd synced Bool.false_ne_true⟩
  · exact ⟨rfl, banks⟩

/-- Publishing the frame `n` leaves all banks at `n`, set or not. -/
lemma publish_banks (banks : Banks ctrl q.nextFrame) {n : Nat}
    (e : publish ctrl q nframes m transportState = (ctrl', q', n)) :
    ctrl'.nClients = ctrl.nClients ∧ (∀ i, i < ctrl'.nClients → ctrl'.dspTimeI i = n) ∧
      (jfofsClockUsesTransport ctrl'.clockSource = false → q'.nextFrame = u64 (n + nframes)) := by
  cases uses : jfofsClockUsesTransport ctrl.clockSource with
  | true =>
    simp only [publish, uses, Bool.or_true, if_true] at e
    cases e
    exact ⟨rfl, fun i lt => if_pos lt, fun no => by simp [uses] at no⟩
  | false =>
    cases synced : ctrl.syncronized with
    | true =>
      simp only [publish, uses, synced, Bool.not_true, Bool.or_false, Bool.false_eq_true, if_false] at e
      cases e
      exact ⟨rfl, banks synced uses, fun _ => rfl⟩
    | false =>
      simp only [publish, uses, synced, Bool.not_false, Bool.or_false, Bool.false_eq_true, if_false,
        if_true] at e
      cases e
      exact ⟨rfl, fun i lt => if_pos lt, fun _ => rfl⟩

/-- A cycle leaves all banks at its frame, and on the frame clock the next one follows after
    `nframes` frames. -/
theorem ctrlClientProcessCb_banks {jack : JackReading} {out : CycleOut α}
    (e : ctrlClientProcessCb fuel nframes jack ctrl q = some (ctrl', q', out))
    (banks : Banks ctrl q.nextFrame) :
    ctrl'.nClients = ctrl.nClients ∧ (∀ i, i < ctrl'.nClients → ctrl'.dspTimeI i = out.n) ∧
      (jfofsClockUsesTransport ctrl'.clockSource = false → q'.nextFrame = u64 (out.n + nframes)) := by
  obtain ⟨m, transportState, ctrl1, q1, ctrl2, q2, ctrl3, q3, n, -, mode, jump, pub, consume⟩ :=
    ctrlClientProcessCb_parts e
  obtain ⟨n1, banks1⟩ := changeMode_banks mode banks
  obtain ⟨n2, banks2⟩ := followTransport_banks jump banks1
  obtain ⟨n3, at3, next3⟩ := publish_banks banks2 pub
  obtain ⟨⟨i, rfl⟩, next4, -, en⟩ := consumeSlot_ctrl consume
  rw [next4, en]
  exact ⟨n3.trans (n2.trans n1), at3, next3⟩

end Cycle

/-! ## Whole runs -/

section Runs

variable {setup : Setup} {s s' : Sys α} {L : Place → List Addr} {fuel : Nat}
  {fofNext : Nat → Nat → Nat}

/-- The DSP clients leave alone what the server relies on. -/
lemma SysInv.render (inv : SysInv setup s L) (fofNext : Nat → Nat → Nat) (nframes : Nat) :
    SysInv setup { s with ctrl := dspClientProcess fofNext s.ctrl nframes } L :=
  ⟨inv.holds, inv.cacheOk, inv.nSlots, inv.sampleRate, inv.bufferSize, inv.nClients, inv.lastDsp,
    inv.synced, inv.tag_lt, inv.tag_inj⟩

/-- Every operation ends and keeps the banks in step; a cycle shows them at its frame. -/
lemma period_total (ok : SetupOk setup) (enough : setup.nMaxFofs ≤ fuel)
    (advance : ∀ t nframes, fofNext t nframes = u64 (t + nframes)) (inv : SysInv setup s L)
    (banks : Banks s.ctrl s.q.nextFrame) (op : Op α) :
    ∃ out s', period fofNext fuel s op = some (out, s') ∧ (∃ L', SysInv setup s' L') ∧
      Banks s'.ctrl s'.q.nextFrame ∧ ∀ nframes jack, op = .cycle nframes jack →
        ∃ n timeI, out = .rendered n timeI ∧ ∀ i, i < setup.nClients → timeI i = n := by
  cases op with
  | add timeUs argv =>
    obtain ⟨status, s', L', e, inv', added, -⟩ := exec_add fuel inv ok.nSlots timeUs argv rfl
    refine ⟨.none, s', ?_, ⟨L', inv'⟩, ?_, by simp⟩
    · simp [period, e]
    · rw [added.ctrl, added.clock.nextFrame]
      exact banks
  | flush =>
    obtain ⟨s', L', e, inv'⟩ := exec_flush inv enough
    have enough : (List.range setup.nMaxFofs).length ≤ fuel := by
      rw [List.length_range]
      exact enough
    obtain ⟨q', -, flush, -, -, clock, -, -⟩ := fofQueueFlush_spec inv.holds enough
    have es : s' = { s with q := q' } := by
      simp only [exec, flush] at e
      cases e
      rfl
    refine ⟨.none, s', by simp [period, e], ⟨L', inv'⟩, ?_, by simp⟩
    rw [es, clock.nextFrame]
    exact banks
  | storeClockSource clockSource =>
    have e : exec fuel s (.storeClockSource clockSource) =
      some (.done, { s with q := { s.q with clockSource := clockSource } }) := rfl
    obtain ⟨s', e', inv'⟩ := exec_storeClockSource inv clockSource
    cases e.symm.trans e'
    exact ⟨.none, _, by simp [period, e], ⟨L, inv'⟩, banks, by simp⟩
  | cycle nframes jack =>
    obtain ⟨n, handed, s1, L', e, inv'⟩ := exec_cycle inv ok.nSlots enough nframes jack
    obtain ⟨⟨ctrl', q', out⟩, cb, e⟩ := Option.bind_eq_some_iff.1 e
    cases e
    obtain ⟨nClients, at_n, next⟩ := ctrlClientProcessCb_banks cb banks
    refine ⟨.rendered out.n ctrl'.dspTimeI, _, ?_, ⟨L', inv'.render fofNext nframes⟩, ?_, ?_⟩
    · simp [period, cb]
    · intro _ uses i lt
      have uses : jfofsClockUsesTransport ctrl'.clockSource = false := uses
      have lt : i < ctrl'.nClients := lt
      have time : (dspClientProcess fofNext ctrl' nframes).dspTimeI i =
          fofNext (ctrl'.dspTimeI i) nframes := if_pos lt
      rw [time, at_n i lt, advance, next uses]
    · rintro nframes' jack' -
      refine ⟨out.n, ctrl'.dspTimeI, rfl, fun i lt => at_n i ?_⟩
      rw [nClients, inv.nClients]
      exact lt

end Runs

/-- In every cycle of every run, with any periods and any changes of the clock source and of the
    transport, the bank of every DSP client starts to render at the frame whose slot the cycle
    consumed. -/
theorem banks_follow (setup : Setup) (nMaxFofs : 1 ≤ setup.nMaxFofs) (nSlots : 1 ≤ setup.nSlots)
    (nClients : 1 ≤ setup.nClients) (fuel : Nat) (enough : setup.nMaxFofs ≤ fuel)
    (fofNext : Nat → Nat → Nat) (advance : ∀ t nframes, fofNext t nframes = u64 (t + nframes))
    (q : FofQueue α) (ops : List (Op α)) :
    ∃ log s, execAll (period fofNext fuel) (Sys.init setup q) ops = some (log, s) ∧
      ∀ x ∈ log, ∀ nframes jack, x.op = .cycle nframes jack →
        ∃ n timeI, x.out = .rendered n timeI ∧ ∀ i, i < setup.nClients → timeI i = n := by
  have ok : SetupOk setup := ⟨nMaxFofs, nSlots, nClients⟩
  have init : (∃ L, SysInv setup (Sys.init setup q) L) ∧ Banks (Sys.init setup q).ctrl
      (Sys.init setup q).q.nextFrame := ⟨⟨_, sysInv_init ok q⟩, fun synced => nomatch synced⟩
  obtain ⟨log, s, e, -, post⟩ := execAll_post
    (fun s => (∃ L, SysInv setup s L) ∧ Banks s.ctrl s.q.nextFrame)
    (fun x : Entry (Sys α) (Op α) Rendered => ∀ nframes jack, x.op = .cycle nframes jack →
      ∃ n timeI, x.out = .rendered n timeI ∧ ∀ i, i < setup.nClients → timeI i = n)
    (fun {s op} inv _ => by
      obtain ⟨⟨L, inv⟩, banks⟩ := inv
      obtain ⟨out, s', e, inv', banks', shown⟩ := period_total ok enough advance inv banks op
      exact ⟨out, s', e, ⟨inv', banks'⟩, shown⟩) init
  exact ⟨log, s, e, post⟩

/-- A server with one cell, two slots and two DSP clients. -/
def twoClients : Setup where
  clockSource := 1
  nClients := 2
  nMaxFofs := 1
  nSlots := 2
  sampleRate := 48000
  maxBufferSize := 64

/-- A cycle on the frame clock, one on the rolling transport at frame 900, and one on the frame clock
    again. -/
def clockThereAndBack : List (Op Nat) :=
  [.cycle 64 ⟨0, .stopped, 5⟩, .storeClockSource 2, .cycle 32 ⟨900, .rolling, 0⟩,
    .storeClockSource 1, .cycle 64 ⟨0, .stopped, 7⟩]

/-- The last cycle of `clockThereAndBack` goes on at frame 900 with both banks. -/
theorem banks_follow_two :
    ∃ log s x timeI, execAll (period (fun t nframes => u64 (t + nframes)) 1)
        (Sys.init twoClients (.zero 0)) clockThereAndBack = some (log, s) ∧
      log[4]? = some x ∧ x.out = .rendered 900 timeI ∧ timeI 0 = 900 ∧ timeI 1 = 900 := by
  obtain ⟨log, s, run, follow⟩ := banks_follow twoClients (by decide) (by decide) (by decide) 1
    (by decide) (fun t nframes => u64 (t + nframes)) (fun _ _ => rfl) (.zero 0) clockThereAndBack
  have last : ∃ x timeI, log[4]? = some x ∧ x.op = .cycle 64 ⟨0, .stopped, 7⟩ ∧
      x.out = .rendered 900 timeI := by
    cases Option.some.inj (run.symm.trans rfl)
    exact ⟨_, _, rfl, rfl, rfl⟩
  obtain ⟨x, timeI, at4, op, out⟩ := last
  obtain ⟨n, timeI', out', same⟩ := follow x (List.mem_of_getElem? at4) 64 _ op
  cases out.symm.trans out'
  exact ⟨log, s, x, timeI, run, at4, out, same 0 (by decide), same 1 (by decide)⟩

end JackFofs
