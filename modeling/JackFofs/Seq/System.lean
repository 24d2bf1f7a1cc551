import JackFofs.Ctrl.Spec
import JackFofs.Lib.Run
import JackFofs.Queue.Ring

/-!
# The server run alone

The queue and the controller as one machine whose operations are whole calls: `fof_queue_add`,
`fof_queue_flush`, a write of the clock source, a JACK process cycle.

A call of `dsp_client_add` only passes a cell. To say which event it hands over, the machine numbers
the calls of `fof_queue_add` and tags every cell with the call that last allocated it. Neither
`tag` nor `count` influences the rest of the state.
-/

namespace JackFofs
open Linked Runs

/-- The queue and the controller, with the event number of each cell and the number of calls of
    `fof_queue_add` so far. -/
structure Sys (α : Type) where
  ctrl : CtrlClient
  q : FofQueue α
  tag : Addr → Nat
  count : Nat

/-- The operations. `storeClockSource` is the store of `jfofs_set_clock_source`, with any value. -/
inductive Op (α : Type) where
  | add (timeUs : Nat) (argv : α)
  | flush
  | storeClockSource (clockSource : Int)
  | cycle (nframes : Nat) (jack : JackReading)

/-- An event that a cycle hands to a DSP client. -/
structure Handed (α : Type) where
  event : Nat
  dsp : Nat
  timeUs : Nat
  argv : α
deriving DecidableEq

/-- The result of an operation. -/
inductive Out (α : Type) where
  | added (status : JfofsStatus)
  | done
  | cycled (n : Nat) (handed : List (Handed α))

variable {α : Type}

/-- The server after `fof_queue_init` and `ctrl_client_new`; `q` is the memory it found. -/
def Sys.init (setup : Setup) (q : FofQueue α) : Sys α where
  ctrl := ctrlClientNew setup
  q := fofQueueInit q setup
  tag := fun _ => 0
  count := 0

/-- The tags after the next call of `fof_queue_allocate_fof`. -/
def Sys.tagNext (s : Sys α) : Addr → Nat :=
  match s.q.freeFofs with
  | none => s.tag
  | some fof => Function.update s.tag fof s.count

/-- The event data of a call of `dsp_client_add`. -/
def DspAdd.handed (tag : Addr → Nat) (d : DspAdd α) : Handed α :=
  ⟨tag d.fof, d.dsp, d.timeUs, d.argv⟩

/-- One operation. -/
def exec (fuel : Nat) (s : Sys α) : Op α → Option (Out α × Sys α)
  | .add timeUs argv =>
    let (status, q) := fofQueueAdd s.q timeUs argv
    some (.added status, { s with q := q, tag := s.tagNext, count := s.count + 1 })
  | .flush => do
    let q ← fofQueueFlush fuel s.q
    return (.done, { s with q := q })
  | .storeClockSource clockSource =>
    some (.done, { s with q := { s.q with clockSource := clockSource } })
  | .cycle nframes jack => do
    let (ctrl, q, out) ← ctrlClientProcessCb fuel nframes jack s.ctrl s.q
    return (.cycled out.n (out.adds.map (·.handed s.tag)), { s with ctrl := ctrl, q := q })

/-- An entry of the log of a run. -/
abbrev LogEntry (α : Type) := Entry (Sys α) (Op α) (Out α)

/-! ## The invariant -/

/-- Whether a place holds events, that is, every place but the free list. -/
def Place.Busy (k : Place) : Prop := k ≠ .free

/-- What holds between two operations. -/
structure SysInv (setup : Setup) (s : Sys α) (L : Place → List Addr) : Prop where
  holds : Holds s.q (List.range setup.nMaxFofs) L
  cacheOk : CacheOk s.q
  nSlots : s.q.nSlots = setup.nSlots
  sampleRate : s.q.sampleRate = setup.sampleRate
  bufferSize : s.q.bufferSize = setup.maxBufferSize
  nClients : s.ctrl.nClients = setup.nClients
  lastDsp : s.ctrl.lastDsp < s.ctrl.nClients
  synced : s.ctrl.syncronized = true → jfofsClockUsesTransport s.ctrl.clockSource = true →
    s.q.nextFrame = s.ctrl.transportFrame
  tag_lt : ∀ {k c}, k.Busy → c ∈ L k → s.tag c < s.count
  tag_inj : ∀ {k k' c c'}, k.Busy → k'.Busy → c ∈ L k → c' ∈ L k' → s.tag c = s.tag c' → c = c'

/-- The setups for which the server runs at all. -/
structure SetupOk (setup : Setup) : Prop where
  nMaxFofs : 1 ≤ setup.nMaxFofs
  nSlots : 1 ≤ setup.nSlots
  nClients : 1 ≤ setup.nClients

variable {setup : Setup} {s s' : Sys α} {L : Place → List Addr} {fuel : Nat}

/-- Initially every cell is free. -/
lemma sysInv_init (ok : SetupOk setup) (q : FofQueue α) :
    SysInv setup (Sys.init setup q) (initLists setup.nMaxFofs) := by
  obtain ⟨-, check, slot, -, nSlots, sampleRate, bufferSize⟩ := fofQueueInit_fields q setup
  have none {k : Place} {c : Addr} (busy : k.Busy) (mem : c ∈ initLists setup.nMaxFofs k) : False := by
    cases k with
    | free => exact busy rfl
    | slot j => exact absurd mem List.not_mem_nil
    | excess => exact absurd mem List.not_mem_nil
  constructor
  case holds => exact fofQueueInit_holds q setup ok.nMaxFofs
  case cacheOk =>
    have e : (Sys.init setup q).q.currentSlot = 0 := slot
    have e' : (Sys.init setup q).q.nextFrameCheck = 0 := check
    simp [CacheOk, slotOfFrame, e, e']
  case nSlots => exact nSlots
  case sampleRate => exact sampleRate
  case bufferSize => exact bufferSize
  case nClients => rfl
  case lastDsp => exact ok.nClients
  case synced => exact fun h => absurd h Bool.false_ne_true
  case tag_lt => exact fun busy mem => absurd (none busy mem) id
  case tag_inj => exact fun busy _ mem => absurd (none busy mem) id

/-- What an operation that frees cells does to the tags of the busy ones: nothing. -/
lemma SysInv.sub {L' : Place → List Addr} (inv : SysInv setup s L) (s' : Sys α)
    (tag : s'.tag = s.tag) (count : s'.count = s.count) (sub : ∀ {k c}, k.Busy → c ∈ L' k → c ∈ L k) :
    (∀ {k c}, k.Busy → c ∈ L' k → s'.tag c < s'.count) ∧
      ∀ {k k' c c'}, k.Busy → k'.Busy → c ∈ L' k → c' ∈ L' k' → s'.tag c = s'.tag c' → c = c' := by
  rw [tag, count]
  exact ⟨fun busy mem => inv.tag_lt busy (sub busy mem),
    fun busy busy' mem mem' e => inv.tag_inj busy busy' (sub busy mem) (sub busy' mem') e⟩

/-! ## What one operation does -/

/-- A flush frees every cell. -/
lemma exec_flush (inv : SysInv setup s L) (enough : setup.nMaxFofs ≤ fuel) :
    ∃ s' L', exec fuel s .flush = some (.done, s') ∧ SysInv setup s' L' := by
  have enough : (List.range setup.nMaxFofs).length ≤ fuel := by
    rw [List.length_range]
    exact enough
  obtain ⟨q', L', e, hd', empty, clock, -, cacheOk⟩ := fofQueueFlush_spec inv.holds enough
  have sub {k c} (busy : k.Busy) (mem : c ∈ L' k) : c ∈ L k := by
    rw [empty k busy] at mem
    exact absurd mem List.not_mem_nil
  obtain ⟨tag_lt, tag_inj⟩ := inv.sub { s with q := q' } rfl rfl sub
  refine ⟨{ s with q := q' }, L', ?_, hd', cacheOk, clock.nSlots.trans inv.nSlots,
    clock.sampleRate.trans inv.sampleRate, clock.bufferSize.trans inv.bufferSize, inv.nClients,
    inv.lastDsp, fun h h' => clock.nextFrame.trans (inv.synced h h'), tag_lt, tag_inj⟩
  rw [exec, e]
  rfl

/-- A change of the clock source moves no cell. -/
lemma exec_storeClockSource (inv : SysInv setup s L) (clockSource : Int) :
    ∃ s', exec fuel s (.storeClockSource clockSource) = some (.done, s') ∧ SysInv setup s' L := by
  refine ⟨_, rfl, inv.holds.congr rfl (fun k => by cases k <;> rfl) rfl rfl,
    inv.cacheOk.congr rfl rfl rfl rfl, inv.nSlots, inv.sampleRate, inv.bufferSize, inv.nClients,
    inv.lastDsp, inv.synced, inv.tag_lt, inv.tag_inj⟩

/-- The part of the invariant that a cycle keeps, from what it does to queue and controller. -/
lemma SysInv.cycled {nframes m : Nat} {transportState : TransportState} {ctrl0 ctrl' : CtrlClient}
    {q0 q' : FofQueue α} {L0 : Place → List Addr} {out : CycleOut α} (inv : SysInv setup s L)
    (nClients : ctrl0.nClients = s.ctrl.nClients) (clock : SameClock s.q q0)
    (cacheOk : CacheOk s.q → CacheOk q0) (sub : ∀ {k c}, k.Busy → c ∈ L0 k → c ∈ L k)
    (cycled : Cycled (List.range setup.nMaxFofs) nframes m transportState ctrl0 q0 L0 ctrl' q' out) :
    SysInv setup { s with ctrl := ctrl', q := q' } (released L0 (.slot (slotOfFrame q0 out.n))) := by
  have sub' {k c} (busy : k.Busy) (mem : c ∈ released L0 (.slot (slotOfFrame q0 out.n)) k) :
      c ∈ L k := by
    by_cases e : k = .slot (slotOfFrame q0 out.n)
    · subst e
      rw [released_self busy] at mem
      exact absurd mem List.not_mem_nil
    · rw [released_of_ne busy e] at mem
      exact sub busy mem
  obtain ⟨tag_lt, tag_inj⟩ := inv.sub { s with ctrl := ctrl', q := q' } rfl rfl sub'
  refine ⟨cycled.holds, cycled.cacheOk (cacheOk inv.cacheOk), ?_, ?_, ?_, ?_, cycled.lastDsp, ?_,
    tag_lt, tag_inj⟩
  · exact (cycled.queue.nSlots.trans clock.nSlots).trans inv.nSlots
  · exact (cycled.queue.sampleRate.trans clock.sampleRate).trans inv.sampleRate
  · exact (cycled.queue.bufferSize.trans clock.bufferSize).trans inv.bufferSize
  · exact (cycled.nClients.trans nClients).trans inv.nClients
  · intro _ uses
    have uses : jfofsClockUsesTransport ctrl0.clockSource = true := cycled.clockSource ▸ uses
    have e := cycled.nextFrame
    rw [if_pos uses] at e
    exact e.trans cycled.transportFrame.symm

/-- Any cycle keeps the invariant. -/
lemma exec_cycle (inv : SysInv setup s L) (pos : 1 ≤ setup.nSlots) (enough : setup.nMaxFofs ≤ fuel)
    (nframes : Nat) (jack : JackReading) :
    ∃ n handed s' L', exec fuel s (.cycle nframes jack) = some (.cycled n handed, s') ∧
      SysInv setup s' L' := by
  have enough : (List.range setup.nMaxFofs).length ≤ fuel := by
    rw [List.length_range]
    exact enough
  have pos : 1 ≤ s.q.nSlots := inv.nSlots ▸ pos
  obtain ⟨ctrl0, q0, L0, ctrl', q', out, e, nClients, clock, cacheOk, sub, cycled⟩ :=
    ctrlClientProcessCb_spec inv.holds pos enough inv.lastDsp nframes jack
  refine ⟨out.n, out.adds.map (·.handed s.tag), { s with ctrl := ctrl', q := q' }, _, ?_,
    inv.cycled nClients clock cacheOk sub cycled⟩
  rw [exec, e]
  rfl

/-- The event data that a quiet cycle hands over. -/
def Sys.handedFrom (s : Sys α) (l : List Addr) : List (Handed α) :=
  (roundRobin s.q.payload s.ctrl.nClients s.ctrl.lastDsp l).map (·.handed s.tag)

/-- A quiet cycle publishes its frame `n` and hands over the slot of `n`. -/
lemma exec_cycle_quiet {nframes n : Nat} {jack : JackReading} (inv : SysInv setup s L)
    (pos : 1 ≤ setup.nSlots) (enough : setup.nMaxFofs ≤ fuel)
    (quiet : Quiet nframes jack s.ctrl s.q)
    (en : n = if jfofsClockUsesTransport s.ctrl.clockSource then
      (getFramestamp s.ctrl.clockSource jack).1 else s.q.nextFrame) :
    ∃ s', exec fuel s (.cycle nframes jack) =
        some (.cycled n (s.handedFrom (L (.slot (slotOfFrame s.q n)))), s') ∧
      SysInv setup s' (released L (.slot (slotOfFrame s.q n))) ∧ s'.tag = s.tag ∧
      s'.count = s.count ∧ s'.q.payload = s.q.payload ∧ s'.ctrl.clockSource = s.ctrl.clockSource ∧
      s'.q.clockSource = s.q.clockSource ∧ s'.ctrl.syncronized = true ∧
      s'.ctrl.transportState = (getFramestamp s.ctrl.clockSource jack).2 ∧
      s'.q.nextFrame = if jfofsClockUsesTransport s.ctrl.clockSource then n
        else u64 (s.q.nextFrame + nframes) := by
  have enough : (List.range setup.nMaxFofs).length ≤ fuel := by
    rw [List.length_range]
    exact enough
  have pos : 1 ≤ s.q.nSlots := inv.nSlots ▸ pos
  obtain ⟨ctrl', q', out, e, cycled⟩ :=
    ctrlClientProcessCb_quiet inv.holds pos enough inv.lastDsp quiet
  have n_eq : out.n = n := cycled.n.trans en.symm
  have inv' := inv.cycled rfl (SameClock.refl s.q) id (fun _ mem => mem) cycled
  have adds := cycled.adds
  rw [n_eq] at inv' adds
  refine ⟨{ s with ctrl := ctrl', q := q' }, ?_, inv', rfl, rfl, cycled.payload, cycled.clockSource,
    cycled.queue.clockSource, cycled.syncronized, cycled.transportState, ?_⟩
  · rw [exec, e, Sys.handedFrom, ← adds, ← n_eq]
    rfl
  · apply cycled.nextFrame.trans
    cases h : jfofsClockUsesTransport s.ctrl.clockSource
    · rfl
    · rw [en, if_pos h, if_pos rfl]

/-- What a call of `fof_queue_add` does to the events: those that are there stay, with their data,
    and the only one that can appear is its own. -/
structure Added (s s' : Sys α) (L L' : Place → List Addr) : Prop where
  ctrl : s'.ctrl = s.ctrl
  clock : SameClock s.q s'.q
  count : s'.count = s.count + 1
  stays : ∀ {k c}, k.Busy → c ∈ L k →
    c ∈ L' k ∧ s'.tag c = s.tag c ∧ s'.q.payload c = s.q.payload c
  appears : ∀ {k c}, k.Busy → c ∈ L' k → (c ∈ L k ∧ s'.tag c = s.tag c) ∨ s'.tag c = s.count

/-- Filling the first free cell and moving it to at most one busy place keeps the invariant. -/
lemma SysInv.added {L' : Place → List Addr} {q' : FofQueue α} {c timeUs : Nat} {l : List Addr}
    {argv : α} (inv : SysInv setup s L) (free : L .free = c :: l) (clock : SameClock s.q q')
    (payload : q'.payload = Function.update s.q.payload c (timeUs, argv))
    (cacheOk : CacheOk s.q → CacheOk q') (holds : Holds q' (List.range setup.nMaxFofs) L')
    (keep : ∀ {k x}, k.Busy → x ∈ L k → x ∈ L' k)
    (new : ∀ {k x}, k.Busy → x ∈ L' k → x ∈ L k ∨ x = c) :
    SysInv setup { s with q := q', tag := s.tagNext, count := s.count + 1 } L' ∧
      Added s { s with q := q', tag := s.tagNext, count := s.count + 1 } L L' ∧
      s.tagNext c = s.count := by
  have mem : c ∈ L .free := by
    rw [free]
    exact List.mem_cons_self
  have head : s.q.freeFofs = some c := by
    have sg := inv.holds.list (k := .free) trivial
    rw [free, Seg.cons_iff] at sg
    exact sg.1
  have tag : s.tagNext = Function.update s.tag c s.count := by
    rw [Sys.tagNext, head]
  have tag_self : s.tagNext c = s.count := by
    rw [tag, Function.update_self]
  have ne {k : Place} {x : Addr} (busy : k.Busy) (memx : x ∈ L k) : x ≠ c := by
    rintro rfl
    exact inv.holds.part.notMem mem (Ne.symm busy) memx
  have tag_ne {k : Place} {x : Addr} (busy : k.Busy) (memx : x ∈ L k) :
      s.tagNext x = s.tag x := by
    rw [tag, Function.update_of_ne (ne busy memx)]
  -- the tag of a busy cell is old, or the new one
  have cases_x {k : Place} {x : Addr} (busy : k.Busy) (memx : x ∈ L' k) :
      (x ∈ L k ∧ s.tagNext x = s.tag x ∧ s.tag x < s.count) ∨ (x = c ∧ s.tagNext x = s.count) := by
    obtain memx | rfl := new busy memx
    · exact .inl ⟨memx, tag_ne busy memx, inv.tag_lt busy memx⟩
    · exact .inr ⟨rfl, tag_self⟩
  refine ⟨⟨holds, cacheOk inv.cacheOk, clock.nSlots.trans inv.nSlots,
    clock.sampleRate.trans inv.sampleRate, clock.bufferSize.trans inv.bufferSize, inv.nClients,
    inv.lastDsp, fun h h' => clock.nextFrame.trans (inv.synced h h'), ?_, ?_⟩,
    ⟨rfl, clock, rfl, ?_, ?_⟩, tag_self⟩
  · intro k x busy memx
    show s.tagNext x < s.count + 1
    obtain ⟨-, e, lt⟩ | ⟨-, e⟩ := cases_x busy memx <;> omega
  · intro k k' x x' busy busy' memx memx' e
    have e : s.tagNext x = s.tagNext x' := e
    obtain ⟨old, ex, lt⟩ | ⟨rfl, ex⟩ := cases_x busy memx <;>
      obtain ⟨old', ex', lt'⟩ | ⟨rfl, ex'⟩ := cases_x busy' memx'
    · exact inv.tag_inj busy busy' old old' (by omega)
    · omega
    · omega
    · rfl
  · intro k x busy memx
    refine ⟨keep busy memx, tag_ne busy memx, ?_⟩
    exact (congrFun payload x).trans (Function.update_of_ne (ne busy memx) ..)
  · intro k x busy memx
    obtain ⟨old, e, -⟩ | ⟨-, e⟩ := cases_x busy memx
    · exact .inl ⟨old, e⟩
    · exact .inr e

/-- A call of `fof_queue_add` answers what the code computes. -/
lemma exec_add_status {s s' : Sys α} {out : Out α} {fuel timeUs : Nat} {argv : α}
    (e : exec fuel s (.add timeUs argv) = some (out, s')) :
    out = .added (fofQueueAdd s.q timeUs argv).1 := by
  cases e
  rfl

/-- A call that is accepted has found a free cell. -/
lemma exec_add_found {s s' : Sys α} {fuel timeUs : Nat} {argv : α}
    (e : exec fuel s (.add timeUs argv) = some (.added .success, s')) : s.q.freeFofs ≠ none := by
  intro none
  have answer := exec_add_status e
  rw [fofQueueAdd_none none] at answer
  cases answer

/-- A call of `fof_queue_add`. If it succeeds, its event is in the slot `j` of the code. -/
lemma exec_add (fuel : Nat) (inv : SysInv setup s L) (pos : 1 ≤ setup.nSlots) (timeUs : Nat) (argv : α) {t : Nat}
    (et : t = jfofsTimeToNframes timeUs setup.sampleRate) :
    ∃ status s' L', exec fuel s (.add timeUs argv) = some (.added status, s') ∧
      SysInv setup s' L' ∧ Added s s' L L' ∧
      (status = .success → s.q.nextFrame ≤ t ∧ slotIndex s.q t s.q.nextFrame < s.q.nSlots ∧
        ∃ c j, j = targetSlot (cacheCurrentSlot s.q s.q.nextFrame) (slotIndex s.q t s.q.nextFrame) ∧
          c ∈ L' (.slot j) ∧ s'.tag c = s.count ∧ s'.q.payload c = (timeUs, argv)) := by
  rw [← inv.sampleRate] at et
  have pos : 1 ≤ s.q.nSlots := inv.nSlots ▸ pos
  obtain ⟨free, e⟩ | ⟨c, l, q', free, clock, payload, cacheOk, exits⟩ :=
    fofQueueAdd_cases inv.holds pos timeUs argv et
  · have tag : s.tagNext = s.tag := by
      rw [Sys.tagNext, free]
    refine ⟨.fofLimitError, { s with count := s.count + 1 }, L, ?_, ?_, ?_, nofun⟩
    · rw [exec, e, tag]
    · exact ⟨inv.holds, inv.cacheOk, inv.nSlots, inv.sampleRate, inv.bufferSize, inv.nClients,
        inv.lastDsp, inv.synced, fun busy mem => Nat.lt_succ_of_lt (inv.tag_lt busy mem),
        inv.tag_inj⟩
    · exact ⟨rfl, SameClock.refl s.q, rfl, fun _ mem => ⟨mem, rfl, rfl⟩,
        fun _ mem => .inl ⟨mem, rfl⟩⟩
  -- a move of the first free cell to the front of a busy place only adds that cell
  have keep {k m : Place} {x : Addr} (bm : m.Busy) (mem : x ∈ L m) :
      x ∈ moved L .free k [] c l m := by
    by_cases e : m = k
    · subst e
      rw [moved_dst]
      exact List.mem_append_right _ mem
    · rwa [moved_of_ne bm e]
  have new {k m : Place} {x : Addr} (bm : m.Busy) (mem : x ∈ moved L .free k [] c l m) :
      x ∈ L m ∨ x = c := by
    by_cases e : m = k
    · subst e
      rw [moved_dst] at mem
      obtain eq | mem := List.mem_cons.1 mem
      · exact .inr eq
      · exact .inl mem
    · rw [moved_of_ne bm e] at mem
      exact .inl mem
  have run {status : JfofsStatus} (e : fofQueueAdd s.q timeUs argv = (status, q')) :
      exec fuel s (.add timeUs argv) = some (.added status,
        { s with q := q', tag := s.tagNext, count := s.count + 1 }) := by
    rw [exec, e]
  obtain ⟨late, e, hd'⟩ | ⟨ge, far, e, hd'⟩ | ⟨j, ej, ltj, ge, inside, e, hd'⟩ := exits
  · obtain ⟨inv', added, -⟩ := inv.added free clock payload cacheOk hd' (fun _ mem => mem)
      fun _ mem => .inl mem
    exact ⟨.fofLateWarning, _, L, run e, inv', added, nofun⟩
  · obtain ⟨inv', added, -⟩ := inv.added free clock payload cacheOk hd' keep new
    exact ⟨.fofExcessInfo, _, _, run e, inv', added, nofun⟩
  · obtain ⟨inv', added, tag_self⟩ := inv.added free clock payload cacheOk hd' keep new
    refine ⟨.success, _, _, run e, inv', added, fun _ => ⟨ge, inside, c, j, ej, ?_, tag_self, ?_⟩⟩
    · rw [moved_dst]
      exact List.mem_append_left _ (List.mem_singleton_self c)
    · exact (congrFun payload c).trans (Function.update_self ..)

end JackFofs
