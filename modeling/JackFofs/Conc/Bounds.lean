import JackFofs.Conc.Account
import JackFofs.Conc.Cache

/-!
# Array indexes

Four arrays are indexed without a check: `q->slot`, which has `n_slots` elements, `slot_cnt` of the
statistics, which has `MAX_SLOTS`, and `dsp` of the manager and of the controller, which have
`MAX_DSP_CLIENTS`. `n_slots` and `n_clients` come from the command line as they are.

The accesses are listed: those of `manager_create` from the setup, those of a run step by step. The
index of `slot_cnt` is the local variable `slot_idx` of `fof_queue_add`, which is determined by the
value of `next_frame` that the call works with. `shmem_ptr()` is not `NULL` where the counters are
incremented.
-/

namespace JackFofs
open Linked Runs

variable {α : Type}

/-- `MAX_SLOTS` -/
def maxSlots : Nat := 128

/-- An access to an element of one of the arrays. -/
inductive ArrayUse where
  /-- `q->slot[i]` -/
  | slot (i : Nat)
  /-- `statistics.slot_cnt[i]` -/
  | slotCnt (i : Int)
  /-- `mgr->dsp[i]` -/
  | mgrDsp (i : Nat)
  /-- `ctrl->dsp[i]` -/
  | ctrlDsp (i : Nat)
deriving DecidableEq, Repr

/-- The access is inside its array. -/
def ArrayUse.Inside (nSlots : Nat) : ArrayUse → Prop
  | .slot i => i < nSlots
  | .slotCnt i => 0 ≤ i ∧ i < maxSlots
  | .mgrDsp i => i < maxDspClients
  | .ctrlDsp i => i < maxDspClients

/-! ## The server -/

/-- The accesses of `ctrl_client_new`. -/
def ctrlClientNewUses : List ArrayUse := (List.range maxDspClients).map .ctrlDsp

/-- The accesses of `fof_queue_init`. -/
def fofQueueInitUses (setup : Setup) : List ArrayUse := (List.range setup.nSlots).map .slot

/-- The accesses of `manager_new`. -/
def managerNewUses (setup : Setup) : List ArrayUse :=
  ctrlClientNewUses ++ fofQueueInitUses setup ++
    (List.range setup.nClients).flatMap fun i => [.mgrDsp i, .ctrlDsp i]

/-- The accesses of `manager_activate_clients`. -/
def managerActivateClientsUses (setup : Setup) : List ArrayUse :=
  (List.range setup.nClients).map .mgrDsp

/-- The accesses of `manager_connect_clients`. -/
def managerConnectClientsUses (setup : Setup) : List ArrayUse :=
  (List.range setup.nClients).map .mgrDsp ++ (List.range setup.nClients).map .mgrDsp

/-- The accesses of `manager_create`. -/
def managerCreateUses (setup : Setup) : List ArrayUse :=
  managerNewUses setup ++ managerActivateClientsUses setup ++ managerConnectClientsUses setup

/-! ## The machine -/

/-- `INCR_SLOT_CNT(slot_idx)` -/
def incrSlotCntUses (statistics : Bool) (slotIdx : Int) : List ArrayUse :=
  if statistics then [.slotCnt slotIdx] else []

/-- The accesses of a step of `fof_queue_add`. -/
def addUses (statistics : Bool) (q : FofQueue α) (timeUs : Nat) : AddPc → List ArrayUse
  | .far _ _ slot .load => [.slot slot]
  | .far _ nextFrame slot (.cas expected) =>
    .slot slot :: if q.slot slot = expected then
      incrSlotCntUses statistics (slotIndex q (startFrame q timeUs) nextFrame) else []
  | .near _ _ slot .load => [.slot slot]
  | .near _ nextFrame slot (.cas head) =>
    .slot slot :: if q.slot slot = head then
      incrSlotCntUses statistics (slotIndex q (startFrame q timeUs) nextFrame) else []
  | _ => []

/-- The accesses of a step of the controller. -/
def ctrlUses (q : FofQueue α) (ctrl : CtrlClient) : CtrlPc → List ArrayUse
  | .flush _ (.take i) => [.slot i]
  | .stamp _ _ =>
    if !ctrl.syncronized || jfofsClockUsesTransport ctrl.clockSource then
      (List.range ctrl.nClients).map .ctrlDsp else []
  | .take n => [.slot (slotOfFrame q n)]
  | .hand _ _ i => [.ctrlDsp i]
  | _ => []

/-- The accesses of an action. -/
def Machine.uses (statistics : Bool) (s : Machine α) : Act α → List ArrayUse
  | .step p => addUses statistics s.q (s.thread p).timeUs (s.thread p).pc
  | .ctrlStep => ctrlUses s.q s.ctrl s.cpc
  | _ => []

/-- All accesses of a server with this setup and this run are inside their arrays. -/
def InsideArrays (statistics : Bool) (setup : Setup) (log : List (Step α)) : Prop :=
  (∀ u ∈ managerCreateUses setup, u.Inside setup.nSlots) ∧
    ∀ x ∈ log, ∀ u ∈ x.pre.uses statistics x.op, u.Inside setup.nSlots

/-- The actions of producers and of controller cycles, with arguments of their C types. -/
def Act.AddOrCycle : Act α → Prop
  | .call _ timeUs _ => timeUs < 2 ^ 64
  | .step _ => True
  | .cycle nframes jack =>
    nframes < 2 ^ 32 ∧ jack.transportFrame < 2 ^ 32 ∧ jack.frameTime < 2 ^ 32
  | .ctrlStep => True
  | .flush => False
  | .storeClockSource _ => False

/-! ## What the indexes are bounded by -/

/-- The slot of a call is in the ring, and so is its slot index. -/
def Indexed (q : FofQueue α) (s : Nat) : AddPc → Prop
  | .cache _ nextFrame slotIdx _ => slotIdx = slotIndex q s nextFrame ∧ slotIdx < q.nSlots
  | .far _ nextFrame slot _ => slot < q.nSlots ∧ slotIndex q s nextFrame < q.nSlots
  | .near _ nextFrame slot _ => slot < q.nSlots ∧ slotIndex q s nextFrame < q.nSlots
  | _ => True

/-- The slot of a flush is in the ring, and the DSP client whose turn it is exists. -/
def CtrlIndexed (n k : Nat) : CtrlPc → Prop
  | .flush _ (.take i) => i < n
  | .hand _ _ i => i < k
  | _ => True

/-- What holds in every state of a server with `n` slots, buffers of `b` frames, the sample rate `r` and
    `k` DSP clients. -/
structure Bounded (n b r k : Nat) (s : Machine α) : Prop where
  params : Params n b r s.q
  nClients : s.ctrl.nClients = k
  lastDsp : s.ctrl.lastDsp < k
  threads : ∀ p, Indexed s.q (startFrame s.q (s.thread p).timeUs) (s.thread p).pc
  ctrl : CtrlIndexed n k s.cpc

section Step

variable {q q' : FofQueue α} {s s' : Machine α} {ev : Ev α} {n b r k : Nat}

lemma Params.of_same (params : Params n b r q) (same : SameParams q q') : Params n b r q' :=
  ⟨same.nSlots.trans params.nSlots, same.bufferSize.trans params.bufferSize,
    same.sampleRate.trans params.sampleRate⟩

lemma Indexed.congr {timeUs : Nat} {pc : AddPc} (indexed : Indexed q (startFrame q timeUs) pc)
    (same : SameParams q q') : Indexed q' (startFrame q' timeUs) pc := by
  rw [same.startFrame]
  cases pc with
  | cache fof nextFrame slotIdx cpc =>
    rw [Indexed, same.slotIndex, same.nSlots]
    exact indexed
  | far fof nextFrame slot fpc =>
    rw [Indexed, same.slotIndex, same.nSlots]
    exact indexed
  | near fof nextFrame slot npc =>
    rw [Indexed, same.slotIndex, same.nSlots]
    exact indexed
  | _ => trivial

lemma indexed_recalculatePc (q : FofQueue α) (fof s nextFrame : Nat) :
    Indexed q s (recalculatePc q fof s nextFrame) := by
  obtain ⟨-, e⟩ | ⟨-, -, e⟩ | ⟨-, lt, e⟩ := recalculatePc_cases q fof s nextFrame
  · rw [e]
    exact trivial
  · rw [e]
    exact trivial
  · rw [e]
    exact ⟨rfl, lt⟩

/-- An edge of `fof_queue_add` leads to an index in the ring. -/
lemma Indexed.flow {t : Nat} {pc pc' : AddPc} (indexed : Indexed q t pc) (pos : 1 ≤ q.nSlots)
    (flow : AddFlow q t pc pc') : Indexed q t pc' := by
  cases flow with
  | calculate => exact indexed_recalculatePc ..
  | recalculate => exact indexed_recalculatePc ..
  | @chooseFar fof nextFrame slotIdx =>
    have lt : slotIndex q t nextFrame < q.nSlots := indexed.1 ▸ indexed.2
    exact ⟨targetSlot_lt_nSlots pos slotIdx, lt⟩
  | @chooseNear fof nextFrame slotIdx =>
    have lt : slotIndex q t nextFrame < q.nSlots := indexed.1 ▸ indexed.2
    exact ⟨targetSlot_lt_nSlots pos slotIdx, lt⟩
  | cached => exact indexed
  | outdated => exact indexed
  | cacheSlot => exact indexed
  | cacheFrame => exact indexed
  | far => exact indexed
  | near => exact indexed
  | _ => trivial

lemma ctrlIndexed_flushFrom (q : FofQueue α) (after : AfterFlush) (i : Nat) :
    CtrlIndexed q.nSlots k (.flush after (flushFrom q i)) := by
  rw [flushFrom]
  split
  case isTrue lt => exact lt
  case isFalse =>
    split
    · trivial
    · trivial

lemma ctrlIndexed_releaseFrom (q : FofQueue α) (after : AfterFlush) (i : Nat)
    (head : Option Addr) : CtrlIndexed q.nSlots k (.flush after (releaseFrom q i head)) := by
  cases head with
  | none => exact ctrlIndexed_flushFrom q after i
  | some head => trivial

lemma ctrlIndexed_afterMode (q : FofQueue α) (ctrl : CtrlClient) (c : Cycle) :
    CtrlIndexed q.nSlots k (afterMode q ctrl c) := by
  rw [afterMode]
  split
  · exact ctrlIndexed_flushFrom q (.jump c) 0
  · trivial

lemma ctrlIndexed_handFrom {i : Nat} (lt : i < k) (head : Option Addr) (m : Nat) :
    CtrlIndexed n k (handFrom m i head) := by
  cases head with
  | none => trivial
  | some fof => exact lt

lemma afterFlush_indexed (q : FofQueue α) (ctrl : CtrlClient) (after : AfterFlush) :
    CtrlIndexed q.nSlots k (afterFlush q ctrl after).1 := by
  cases after with
  | done => trivial
  | mode c => exact ctrlIndexed_afterMode ..
  | jump c => trivial

/-- A step of the controller keeps its number of DSP clients, and its turns go round. -/
lemma ctrlStep_indexed {ctrl ctrl' : CtrlClient} {cpc cpc' : CtrlPc}
    (lastDsp : ctrl.lastDsp < ctrl.nClients) (indexed : CtrlIndexed q.nSlots ctrl.nClients cpc)
    (e : ctrlStep q ctrl cpc = some (ev, cpc', ctrl', q')) :
    ctrl'.nClients = ctrl.nClients ∧ ctrl'.lastDsp < ctrl.nClients ∧
      CtrlIndexed q.nSlots ctrl.nClients cpc' := by
  have next_lt (i : Nat) : (i + 1) % ctrl.nClients < ctrl.nClients :=
    Nat.mod_lt _ (Nat.zero_lt_of_lt lastDsp)
  cases ctrlStep_cases e with
  | changed => exact ⟨rfl, lastDsp, ctrlIndexed_flushFrom ..⟩
  | unchanged => exact ⟨rfl, lastDsp, ctrlIndexed_afterMode ..⟩
  | @flush after _ _ _ _ step =>
    cases step with
    | @take i =>
      exact ⟨rfl, lastDsp, ctrlIndexed_releaseFrom (q.setSlot i none) after (i + 1) (q.slot i)⟩
    | takeExcess =>
      exact ⟨rfl, lastDsp,
        ctrlIndexed_releaseFrom { q with excess := none } after (q.nSlots + 1) q.excess⟩
    | pushed push =>
      have same := (pushStep_sameCache push).clock.nSlots
      refine ⟨rfl, lastDsp, ?_⟩
      rw [← same]
      exact ctrlIndexed_flushFrom ..
    | _ => exact ⟨rfl, lastDsp, trivial⟩
  | @flushed after _ _ _ step =>
    have indexed := afterFlush_indexed (k := ctrl.nClients) q' ctrl after
    obtain ⟨nClients, same⟩ := afterFlush_turn q' ctrl after
    cases step with
    | resetCheck => exact ⟨nClients, same.trans_lt lastDsp, indexed⟩
  | @stamp m c =>
    obtain ⟨nClients, same⟩ := stampCtrl_turn ctrl m c
    exact ⟨nClients, same.trans_lt lastDsp, trivial⟩
  | @take m => exact ⟨rfl, lastDsp, ctrlIndexed_handFrom lastDsp _ m⟩
  | hand => exact ⟨rfl, lastDsp, next_lt _⟩
  | handLast => exact ⟨rfl, next_lt _, trivial⟩
  | handNone => exact ⟨rfl, next_lt _, trivial⟩
  | _ => exact ⟨rfl, lastDsp, trivial⟩

/-- Every action keeps the bounds. -/
lemma Bounded.exec {act : Act α} (bounded : Bounded n b r k s) (pos : 1 ≤ n)
    (e : s.exec act = some (ev, s')) : Bounded n b r k s' := by
  have same := exec_params e
  have params := bounded.params.of_same same
  obtain ⟨nSlots, -, -⟩ := bounded.params
  cases Machine.executed e with
  | @call p timeUs argv idle =>
    refine ⟨params, bounded.nClients, bounded.lastDsp, fun i => ?_, bounded.ctrl⟩
    exact setThread_forall (P := fun _ t => Indexed s.q (startFrame s.q t.timeUs) t.pc) s p
      ⟨timeUs, argv, .alloc .load⟩ trivial (fun i _ => bounded.threads i) i
  | @step p ev pc q step =>
    have same : SameParams s.q q := addStep_params step
    have indexed := (bounded.threads p).flow (nSlots ▸ pos) (addStep_flow step)
    refine ⟨params, bounded.nClients, bounded.lastDsp, fun i => ?_, bounded.ctrl⟩
    exact setThread_forall (P := fun _ t => Indexed q (startFrame q t.timeUs) t.pc)
      { s with q := q } p { s.thread p with pc := pc } (indexed.congr same)
      (fun i _ => (bounded.threads i).congr same) i
  | cycle => exact ⟨params, bounded.nClients, bounded.lastDsp, bounded.threads, trivial⟩
  | flush =>
    refine ⟨params, bounded.nClients, bounded.lastDsp, bounded.threads, ?_⟩
    rw [← nSlots]
    exact ctrlIndexed_flushFrom s.q .done 0
  | @ctrlStep ev cpc ctrl q step =>
    have same : SameParams s.q q := ctrlStep_params step
    obtain ⟨nClients, lastDsp, ctrl⟩ := ctrlStep_indexed
      (Nat.lt_of_lt_of_eq bounded.lastDsp bounded.nClients.symm)
      (by rw [nSlots, bounded.nClients]; exact bounded.ctrl) step
    rw [bounded.nClients] at nClients lastDsp ctrl
    rw [nSlots] at ctrl
    exact ⟨params, nClients, lastDsp, fun p => (bounded.threads p).congr same, ctrl⟩
  | storeClockSource =>
    exact ⟨params, bounded.nClients, bounded.lastDsp,
      fun p => (bounded.threads p).congr ⟨rfl, rfl, rfl⟩, bounded.ctrl⟩

/-! ## Setups that are safe -/

/-- No slot index reaches `MAX_SLOTS`: there are not so many slots, or no time lies so many buffers
    ahead. -/
def SlotCntFits (n b r : Nat) : Prop :=
  n ≤ maxSlots ∨ ∀ t, t < 2 ^ 64 → jfofsTimeToNframes t r < maxSlots * b

/-- The conversion works with `uint64_t`. -/
lemma jfofsTimeToNframes_mod (t r : Nat) :
    jfofsTimeToNframes (t % 2 ^ 64) r = jfofsTimeToNframes t r := by
  have same : u64 (t % 2 ^ 64 * r) = u64 (t * r) := (Nat.mod_modEq t (2 ^ 64)).mul_right r
  rw [jfofsTimeToNframes, jfofsTimeToNframes, same]

lemma slotCnt_inside (params : Params n b r q) (two : 2 ≤ b) (fits : SlotCntFits n b r)
    {timeUs nextFrame : Nat} (lt : slotIndex q (startFrame q timeUs) nextFrame < q.nSlots) :
    (ArrayUse.slotCnt (slotIndex q (startFrame q timeUs) nextFrame)).Inside n := by
  obtain ⟨rfl, rfl, rfl⟩ := params
  rw [slotIndex_div two] at lt ⊢
  refine ⟨Int.natCast_nonneg _, ?_⟩
  obtain few | early := fits
  · exact Int.lt_of_lt_of_le lt (Int.ofNat_le.2 few)
  · have frame := early (timeUs % 2 ^ 64) (Nat.mod_lt _ (by decide))
    rw [jfofsTimeToNframes_mod, Nat.mul_comm] at frame
    have ahead : (startFrame q timeUs - nextFrame) / q.bufferSize < maxSlots :=
      Nat.div_lt_of_lt_mul (Nat.lt_of_le_of_lt (Nat.sub_le ..) frame)
    exact Int.ofNat_lt.2 ahead

/-- The accesses of the compare-exchange of a slot and of the counter behind it. -/
lemma insert_inside {statistics : Bool} {found : Prop} [Decidable found] (params : Params n b r q)
    (two : 2 ≤ b) (fits : statistics = true → SlotCntFits n b r) {timeUs nextFrame slot : Nat}
    (indexed : slot < q.nSlots ∧ slotIndex q (startFrame q timeUs) nextFrame < q.nSlots) :
    ∀ u ∈ ArrayUse.slot slot :: if found then
        incrSlotCntUses statistics (slotIndex q (startFrame q timeUs) nextFrame) else [],
      u.Inside n := by
  intro u mem
  obtain rfl | mem := List.mem_cons.1 mem
  · have lt : slot < n := params.nSlots ▸ indexed.1
    exact lt
  · split at mem
    case isFalse => cases mem
    case isTrue =>
      rw [incrSlotCntUses] at mem
      split at mem
      case isFalse => cases mem
      case isTrue on =>
        rw [List.mem_singleton.1 mem]
        exact slotCnt_inside params two (fits on) indexed.2

/-- With few DSP clients, and slot indexes that fit, every access of a bounded state is inside. -/
lemma Bounded.uses_inside {statistics : Bool} (bounded : Bounded n b r k s) (pos : 1 ≤ n)
    (two : 2 ≤ b) (few : k ≤ maxDspClients) (fits : statistics = true → SlotCntFits n b r)
    (act : Act α) : ∀ u ∈ s.uses statistics act, u.Inside n := by
  have params := bounded.params
  have single {i : Nat} (lt : i < n) : ∀ u ∈ [ArrayUse.slot i], u.Inside n := by
    intro u mem
    rw [List.mem_singleton.1 mem]
    exact lt
  cases act with
  | step p =>
    rw [Machine.uses]
    have indexed := bounded.threads p
    cases pc : (s.thread p).pc with
    | far fof nextFrame slot fpc =>
      rw [pc] at indexed
      cases fpc with
      | load => exact single (params.nSlots ▸ indexed.1)
      | cas expected => exact insert_inside params two fits indexed
      | _ => exact fun u mem => absurd mem List.not_mem_nil
    | near fof nextFrame slot npc =>
      rw [pc] at indexed
      cases npc with
      | load => exact single (params.nSlots ▸ indexed.1)
      | cas head => exact insert_inside params two fits indexed
      | _ => exact fun u mem => absurd mem List.not_mem_nil
    | _ => exact fun u mem => absurd mem List.not_mem_nil
  | ctrlStep =>
    rw [Machine.uses]
    have indexed := bounded.ctrl
    cases cpc : s.cpc with
    | flush after pc =>
      rw [cpc] at indexed
      cases pc with
      | take i => exact single indexed
      | _ => exact fun u mem => absurd mem List.not_mem_nil
    | stamp m c =>
      intro u mem
      rw [ctrlUses] at mem
      split at mem
      case isFalse => cases mem
      case isTrue =>
        obtain ⟨i, memi, rfl⟩ := List.mem_map.1 mem
        rw [bounded.nClients] at memi
        have lt : i < maxDspClients := Nat.lt_of_lt_of_le (List.mem_range.1 memi) few
        exact lt
    | take m =>
      have lt : slotOfFrame s.q m < n := by
        rw [← params.nSlots]
        exact slotOfFrame_lt_nSlots (params.nSlots ▸ pos) m
      exact single lt
    | hand m fof i =>
      rw [cpc] at indexed
      intro u mem
      rw [List.mem_singleton.1 mem]
      have lt : i < maxDspClients := Nat.lt_of_lt_of_le indexed few
      exact lt
    | _ => exact fun u mem => absurd mem List.not_mem_nil
  | _ => exact fun u mem => absurd mem List.not_mem_nil

end Step

/-- `manager_create` fills the arrays of the DSP clients, and clears the slots. -/
lemma managerCreate_inside_iff (setup : Setup) :
    (∀ u ∈ managerCreateUses setup, u.Inside setup.nSlots) ↔ setup.nClients ≤ maxDspClients := by
  constructor
  · intro inside
    by_contra many
    have mem : ArrayUse.mgrDsp maxDspClients ∈ managerCreateUses setup := by
      have lt : maxDspClients ∈ List.range setup.nClients := List.mem_range.2 (Nat.not_le.1 many)
      exact List.mem_append_right _ (List.mem_append_right _ (List.mem_map_of_mem lt))
    exact absurd (inside _ mem) (Nat.lt_irrefl _)
  · intro few u mem
    have client {i : Nat} (memi : i ∈ List.range setup.nClients) : i < maxDspClients :=
      Nat.lt_of_lt_of_le (List.mem_range.1 memi) few
    simp only [managerCreateUses, managerNewUses, managerActivateClientsUses,
      managerConnectClientsUses, ctrlClientNewUses, fofQueueInitUses, List.mem_append, List.mem_map,
      List.mem_flatMap, List.mem_cons, List.not_mem_nil, or_false] at mem
    rcases mem with ((((⟨i, memi, rfl⟩ | ⟨i, memi, rfl⟩) | ⟨i, memi, rfl | rfl⟩) | ⟨i, memi, rfl⟩) |
      ⟨i, memi, rfl⟩ | ⟨i, memi, rfl⟩)
    · exact List.mem_range.1 memi
    · exact List.mem_range.1 memi
    · exact client memi
    · exact client memi
    · exact client memi
    · exact client memi
    · exact client memi

/-! ## A run to an access -/

/-- A call of `fof_queue_add` comes to the access when it runs alone. -/
inductive UsesSoon (statistics : Bool) (u : ArrayUse) (timeUs : Nat) (argv : α) :
    FofQueue α → AddPc → Prop where
  | now {q pc r} :
    addStep q timeUs argv pc = some r →
    u ∈ addUses statistics q timeUs pc →
    UsesSoon statistics u timeUs argv q pc
  | later {q pc ev pc' q'} :
    addStep q timeUs argv pc = some (ev, pc', q') →
    UsesSoon statistics u timeUs argv q' pc' →
    UsesSoon statistics u timeUs argv q pc

/-- Producers and controller cycles can come to the access. -/
inductive Reaches (statistics : Bool) (u : ArrayUse) : Machine α → Prop where
  | now {s act ev s'} :
    s.exec act = some (ev, s') →
    act.AddOrCycle →
    u ∈ s.uses statistics act →
    Reaches statistics u s
  | later {s act ev s'} :
    s.exec act = some (ev, s') →
    act.AddOrCycle →
    Reaches statistics u s' →
    Reaches statistics u s

section Reach

variable {statistics : Bool} {u : ArrayUse} {s : Machine α} {q : FofQueue α} {timeUs : Nat}
  {argv : α}

/-- The run. -/
lemma Reaches.run (reaches : Reaches statistics u s) :
    ∃ acts log s', (∀ act ∈ acts, act.AddOrCycle) ∧ execAll Machine.exec s acts = some (log, s') ∧
      ∃ x ∈ log, u ∈ x.pre.uses statistics x.op := by
  induction reaches with
  | @now s act ev s' e addOrCycle mem =>
    refine ⟨[act], [⟨s, act, ev⟩], s', ?_, by simp [execAll, e], _, List.mem_cons_self, mem⟩
    intro act' mem'
    rw [List.mem_singleton.1 mem']
    exact addOrCycle
  | @later s act ev s1 e addOrCycle _ ih =>
    obtain ⟨acts, log, s', all, run, x, memx, mem⟩ := ih
    refine ⟨act :: acts, ⟨s, act, ev⟩ :: log, s', ?_, by simp [execAll, e, run], x,
      List.mem_cons_of_mem _ memx, mem⟩
    intro act' mem'
    obtain rfl | mem' := List.mem_cons.1 mem'
    · exact addOrCycle
    · exact all act' mem'

/-- A thread runs its call alone. -/
lemma UsesSoon.reaches {p : Nat} {pc : AddPc} (soon : UsesSoon statistics u timeUs argv q pc)
    (eq : s.q = q) (thread : s.thread p = ⟨timeUs, argv, pc⟩) : Reaches statistics u s := by
  induction soon generalizing s with
  | @now q pc r e mem =>
    obtain ⟨ev, pc', q'⟩ := r
    subst eq
    have step : s.exec (.step p) = some (ev, { s with q := q' }.setThread p ⟨timeUs, argv, pc'⟩) := by
      simp [Machine.exec, thread, e]
    refine .now step trivial ?_
    rw [Machine.uses, thread]
    exact mem
  | @later q pc ev pc' q' e _ ih =>
    subst eq
    have step : s.exec (.step p) = some (ev, { s with q := q' }.setThread p ⟨timeUs, argv, pc'⟩) := by
      simp [Machine.exec, thread, e]
    exact .later step trivial (ih rfl (setThread_self ..))

/-- The compare-exchange that succeeds counts the slot index. -/
lemma usesSoon_far_cas {fof nextFrame slot : Nat} {e : Option Addr} (head : q.slot slot = e) :
    UsesSoon true (.slotCnt (slotIndex q (startFrame q timeUs) nextFrame)) timeUs argv q
      (.far fof nextFrame slot (.cas e)) := by
  refine .now (AddStep.linkedFar head).eq ?_
  rw [addUses, if_pos head]
  exact List.mem_cons_of_mem _ List.mem_cons_self

lemma usesSoon_far_load (fof slot : Nat) :
    UsesSoon true (.slotCnt (slotIndex q (startFrame q timeUs) q.nextFrame)) timeUs argv q
      (.far fof q.nextFrame slot .load) := by
  let q1 := q.setNext fof (q.slot slot)
  have same : q1.slot slot = q1.next fof := by
    rw [next_setNext, Function.update_self]
    rfl
  exact .later AddStep.farLoad.eq (.later AddStep.farWrite.eq (.later (AddStep.farCheck rfl).eq
    (.later AddStep.farRead.eq (usesSoon_far_cas same))))

/-- The cached slot, when the event is ahead of the current one. -/
lemma usesSoon_cache (fof : Addr) (slotIdx : Int)
    (ahead : startFrame q timeUs > u64 (q.nextFrame + q.bufferSize)) :
    UsesSoon true (.slotCnt (slotIndex q (startFrame q timeUs) q.nextFrame)) timeUs argv q
      (.cache fof q.nextFrame slotIdx .check) := by
  by_cases current : q.nextFrame = q.nextFrameCheck
  · exact .later (AddStep.cached current).eq (.later (AddStep.chooseFar ahead).eq
      (usesSoon_far_load fof (targetSlot q slotIdx)))
  · let q1 := { q with currentSlot := slotOfFrame q q.nextFrame, nextFrameCheck := q.nextFrame }
    have ahead : u64 (q.nextFrame + q1.bufferSize) < startFrame q1 timeUs := ahead
    exact .later (AddStep.outdated current).eq (.later AddStep.cacheSlot.eq
      (.later AddStep.cacheFrame.eq (.later (AddStep.chooseFar ahead).eq
        (usesSoon_far_load (q := q1) fof (targetSlot q1 slotIdx)))))

/-- A call alone for an event in the ring and ahead of the current slot. -/
lemma usesSoon_call {fof : Addr} (free : q.freeFofs = some fof)
    (le : q.nextFrame ≤ startFrame q timeUs)
    (lt : slotIndex q (startFrame q timeUs) q.nextFrame < q.nSlots)
    (ahead : startFrame q timeUs > u64 (q.nextFrame + q.bufferSize)) :
    UsesSoon true (.slotCnt (slotIndex q (startFrame q timeUs) q.nextFrame)) timeUs argv q
      (.alloc .load) := by
  let q1 := { q with freeFofs := q.next fof }
  let q2 := q1.setNext fof none
  let q3 := setFof q2 fof timeUs argv
  have calculate : addStep q3 timeUs argv (.loadFrame fof) = some (.quiet,
      .cache fof q.nextFrame (slotIndex q (startFrame q timeUs) q.nextFrame) .check, q3) := by
    have pc : recalculatePc q3 fof (startFrame q timeUs) q.nextFrame =
        .cache fof q.nextFrame (slotIndex q (startFrame q timeUs) q.nextFrame) .check := by
      obtain ⟨late, -⟩ | ⟨-, big, -⟩ | ⟨-, -, pc⟩ :=
        recalculatePc_cases q3 fof (startFrame q timeUs) q.nextFrame
      · exact absurd late (Nat.not_lt.2 le)
      · exact absurd lt (Int.not_lt.2 big)
      · exact pc
    exact congrArg (fun pc => some (Ev.quiet, pc, q3)) pc
  exact .later (AddStep.loaded free).eq (.later AddStep.read.eq (.later (AddStep.popped free).eq
    (.later AddStep.got.eq (.later AddStep.filled.eq (.later calculate
      (usesSoon_cache (q := q3) fof _ ahead))))))

lemma exec_ctrlStep {ev : Ev α} {cpc : CtrlPc} {ctrl : CtrlClient}
    (e : JackFofs.ctrlStep s.q s.ctrl s.cpc = some (ev, cpc, ctrl, q)) :
    s.exec .ctrlStep = some (ev, { s with q := q, ctrl := ctrl, cpc := cpc }) := by
  simp [Machine.exec, e]

/-- The first cycle of a server can publish any frame. -/
lemma Reaches.of_cycle {f : Nat} (small : f < 2 ^ 32) (idle : s.cpc = .idle)
    (clock : ctrlCurrentClockSource s.q = s.ctrl.clockSource) (sync : s.ctrl.syncronized = false)
    (zero : s.q.nextFrame = 0)
    (rest : ∀ s' : Machine α, s'.q.nextFrame = f → s'.q.freeFofs = s.q.freeFofs →
      SameParams s.q s'.q → s'.thread = s.thread → Reaches statistics u s') :
    Reaches statistics u s := by
  let jack : JackReading := ⟨f, .rolling, f⟩
  have stamp : (getFramestamp s.ctrl.clockSource jack).1 = f := by
    rw [getFramestamp]
    split
    · rfl
    · rfl
  let c : Cycle := ⟨f, f, (getFramestamp s.ctrl.clockSource jack).2⟩
  have start : s.exec (.cycle f jack) = some (.quiet, { s with cpc := .readClock f jack }) := by
    simp [Machine.exec, idle]
  have readClock : JackFofs.ctrlStep s.q s.ctrl (.readClock f jack) =
      some (.quiet, .publish c, s.ctrl, s.q) := by
    have mode : afterMode s.q s.ctrl c = .publish c := by
      simp [afterMode, ctrlTransportDiscontinuity, sync]
    simp only [JackFofs.ctrlStep, clock, ne_eq, not_true_eq_false, if_false, stamp]
    exact congrArg (fun cpc => some (Ev.quiet, cpc, s.ctrl, s.q)) mode
  -- with either clock `next_frame` is `f` afterwards
  obtain ⟨n, publish⟩ : ∃ n, JackFofs.ctrlStep s.q s.ctrl (.publish c) =
      some (.fetched n, .stamp n c, s.ctrl, { s.q with nextFrame := f }) := by
    simp only [JackFofs.ctrlStep]
    split
    case isTrue => exact ⟨f, rfl⟩
    case isFalse =>
      have sum : u64 (s.q.nextFrame + f) = f := by
        rw [zero, Nat.zero_add]
        exact u64_of_lt (Nat.lt_trans small (by decide))
      refine ⟨s.q.nextFrame, ?_⟩
      rw [show c.nframes = f from rfl, sum]
  refine .later start ⟨small, small, small⟩ ?_
  refine .later (exec_ctrlStep readClock) trivial ?_
  refine .later (exec_ctrlStep publish) trivial ?_
  exact rest _ rfl rfl ⟨rfl, rfl, rfl⟩ rfl

/-- The clock source that the server starts with is the one it finds in the queue. -/
lemma init_clock (setup : Setup) (q : FofQueue α) (argv : α) :
    ctrlCurrentClockSource (Machine.init setup q argv).q =
      (Machine.init setup q argv).ctrl.clockSource := by
  have code : (Machine.init setup q argv).q.clockSource =
      (jfofsClockSourceNormalize setup.clockSource).code := (fofQueueInit_fields q setup).2.2.2.1
  rw [ctrlCurrentClockSource, code, jfofsClockSourceNormalize_code]
  rfl

/-- If slot indexes do not fit, a cycle and a call reach the first element behind `slot_cnt`. -/
lemma slotCnt_reached {setup : Setup} (nMaxFofs : 1 ≤ setup.nMaxFofs)
    (two : 2 ≤ setup.maxBufferSize)
    (unfit : ¬ SlotCntFits setup.nSlots setup.maxBufferSize setup.sampleRate) (q : FofQueue α)
    (argv : α) : Reaches true (.slotCnt maxSlots) (Machine.init setup q argv) := by
  obtain ⟨nextFrame, -, -, -, nSlots, sampleRate, bufferSize⟩ := fofQueueInit_fields q setup
  have many : maxSlots < setup.nSlots := Nat.not_le.1 fun few => unfit (.inl few)
  obtain ⟨t, small, ahead⟩ : ∃ t, t < 2 ^ 64 ∧
      maxSlots * setup.maxBufferSize ≤ jfofsTimeToNframes t setup.sampleRate := by
    by_contra none
    refine unfit (.inr fun t small => Nat.not_le.1 fun le => none ⟨t, small, le⟩)
  obtain ⟨fof, free⟩ : ∃ fof, (fofQueueInit q setup).freeFofs = some fof := by
    have sg : Seg _ (fofQueueInit q setup).freeFofs _ none :=
      (fofQueueInit_holds q setup nMaxFofs).list (k := .free) trivial
    cases free : (fofQueueInit q setup).freeFofs with
    | some fof => exact ⟨fof, rfl⟩
    | none =>
      have nil : List.range setup.nMaxFofs = [] := sg.eq_nil_iff.2 free
      rw [List.range_eq_nil] at nil
      omega
  -- the event is exactly `MAX_SLOTS` buffers ahead of the frame published
  obtain ⟨f, eq⟩ := Nat.exists_eq_add_of_le' ahead
  have lt := jfofsTimeToNframes_lt t setup.sampleRate
  refine .of_cycle (f := f) (by omega) rfl (init_clock setup q argv) rfl nextFrame ?_
  intro s' frame same params thread
  have start : startFrame s'.q t = f + maxSlots * setup.maxBufferSize := by
    rw [params.startFrame]
    exact (congrArg (jfofsTimeToNframes t) sampleRate).trans eq
  have buffer : s'.q.bufferSize = setup.maxBufferSize := params.bufferSize.trans bufferSize
  have slots : s'.q.nSlots = setup.nSlots := params.nSlots.trans nSlots
  have index : slotIndex s'.q (startFrame s'.q t) s'.q.nextFrame = maxSlots := by
    rw [slotIndex_div (by rw [buffer]; exact two), start, frame, buffer, Nat.add_sub_cancel_left,
      Nat.mul_div_cancel _ (by omega)]
  have index_lt : slotIndex s'.q (startFrame s'.q t) s'.q.nextFrame < s'.q.nSlots := by
    rw [index, slots]
    exact Int.ofNat_lt.2 many
  have far : startFrame s'.q t > u64 (s'.q.nextFrame + s'.q.bufferSize) := by
    have wrap : u64 (s'.q.nextFrame + s'.q.bufferSize) ≤ s'.q.nextFrame + s'.q.bufferSize :=
      Nat.mod_le ..
    have two_buffers : 2 * setup.maxBufferSize ≤ maxSlots * setup.maxBufferSize :=
      Nat.mul_le_mul_right _ (by decide)
    omega
  have soon : UsesSoon true (.slotCnt (slotIndex s'.q (startFrame s'.q t) s'.q.nextFrame)) t argv
      s'.q (.alloc .load) := usesSoon_call (same.trans free) (by omega) index_lt far
  rw [index] at soon
  have idle : (s'.thread 0).pc = .idle := by
    rw [thread]
    rfl
  have call : s'.exec (.call 0 t argv) =
      some (.quiet, s'.setThread 0 ⟨t, argv, .alloc .load⟩) := by
    simp [Machine.exec, idle]
  exact .later call small (soon.reaches rfl (setThread_self ..))

end Reach

/-! ## Exactly when -/

lemma bounded_init {setup : Setup} (nClients : 1 ≤ setup.nClients) (q : FofQueue α) (argv : α) :
    Bounded setup.nSlots setup.maxBufferSize setup.sampleRate setup.nClients
      (Machine.init setup q argv) := by
  obtain ⟨-, -, -, -, nSlots, sampleRate, bufferSize⟩ := fofQueueInit_fields q setup
  exact ⟨⟨nSlots, bufferSize, sampleRate⟩, rfl, nClients, fun p => trivial, trivial⟩

/-- Every access of the server and of all its runs is inside its array if and only if there are at most
    `MAX_DSP_CLIENTS` clients and, in a `STATISTICS_ENABLE` build, no slot index reaches `MAX_SLOTS`. -/
theorem arrays_inside_iff {setup : Setup} (nSlots : 1 ≤ setup.nSlots) (nClients : 1 ≤ setup.nClients)
    (nMaxFofs : 1 ≤ setup.nMaxFofs) (two : 2 ≤ setup.maxBufferSize) (statistics : Bool)
    (q : FofQueue α) (argv : α) :
    (∀ acts log s, (∀ act ∈ acts, act.AddOrCycle) →
        execAll Machine.exec (Machine.init setup q argv) acts = some (log, s) →
        InsideArrays statistics setup log) ↔
      setup.nClients ≤ maxDspClients ∧ (statistics = true →
        SlotCntFits setup.nSlots setup.maxBufferSize setup.sampleRate) := by
  constructor
  · intro inside
    refine ⟨?_, ?_⟩
    · have alone := inside [] [] _ (fun act mem => absurd mem List.not_mem_nil) rfl
      exact (managerCreate_inside_iff setup).1 alone.1
    · rintro rfl
      by_contra unfit
      obtain ⟨acts, log, s, all, run, x, memx, mem⟩ :=
        (slotCnt_reached nMaxFofs two unfit q argv).run
      have lt := ((inside acts log s all run).2 x memx _ mem).2
      exact absurd lt (Int.lt_irrefl _)
  · rintro ⟨few, fits⟩ acts log s - run
    refine ⟨(managerCreate_inside_iff setup).2 few, fun x mem => ?_⟩
    obtain ⟨-, bounded⟩ := (run_of_execAll run).1.inv
      (Bounded setup.nSlots setup.maxBufferSize setup.sampleRate setup.nClients)
      (fun _ bounded e => bounded.exec nSlots e) (bounded_init nClients q argv)
    exact (bounded x mem).uses_inside nSlots two few fits x.op

/-- A server with eight cells and eight slots of 256 frames. -/
def eightSlots : Setup where
  clockSource := 1
  nClients := 1
  nMaxFofs := 8
  nSlots := 8
  sampleRate := 48000
  maxBufferSize := 256

/-- A call for frame 300, and a cycle of 256 frames. -/
def countThenCycle : List (Act Unit) :=
  .call 0 6250 () :: List.replicate 13 (.step 0) ++
    .cycle 256 ⟨0, .rolling, 0⟩ :: List.replicate 4 .ctrlStep

/-- Eight slots are safe. The call counts its event in `slot_cnt[1]`. -/
theorem arrays_inside_eight :
    ∃ log s x, execAll Machine.exec (Machine.init eightSlots (FofQueue.zero ()) ()) countThenCycle =
        some (log, s) ∧ InsideArrays true eightSlots log ∧
      x ∈ log ∧ x.out = .linked 0 1 ∧ .slotCnt 1 ∈ x.pre.uses true x.op := by
  have all : ∀ act ∈ countThenCycle, act.AddOrCycle := by
    intro act mem
    obtain mem | mem := List.mem_append.1 mem
    · obtain rfl | mem := List.mem_cons.1 mem
      · exact (by decide : (6250 : Nat) < 2 ^ 64)
      · rw [List.eq_of_mem_replicate mem]
        trivial
    · obtain rfl | mem := List.mem_cons.1 mem
      · exact ⟨by decide, by decide, by decide⟩
      · rw [List.eq_of_mem_replicate mem]
        trivial
  cases run : execAll Machine.exec (Machine.init eightSlots (FofQueue.zero ()) ()) countThenCycle with
  | none => exact absurd run (by decide +kernel)
  | some r =>
    obtain ⟨log, s⟩ := r
    have counted : ∃ x, log[13]? = some x ∧ x.out = .linked 0 1 ∧
        .slotCnt 1 ∈ x.pre.uses true x.op := by
      cases Option.some.inj (run.symm.trans rfl)
      exact ⟨_, rfl, rfl, by decide⟩
    obtain ⟨x, at13, out, mem⟩ := counted
    have safe := @arrays_inside_iff Unit eightSlots (by decide) (by decide) (by decide)
      (by decide) true (FofQueue.zero ()) ()
    exact ⟨log, s, x, rfl, safe.2 ⟨by decide, fun _ => .inl (by decide)⟩ _ _ _ all run,
      List.mem_of_getElem? at13, out, mem⟩

/-- One DSP client too many. -/
def nineClients : Setup := { eightSlots with nClients := 9 }

/-- A ring of 256 slots of two frames, one frame a microsecond. -/
def wideRing : Setup := { twoSlots 1 with nSlots := 256 }

/-- With nine clients `manager_new` writes `mgr->dsp[8]`. With 256 slots an event 256 frames ahead is
    counted in `slot_cnt[128]`. -/
theorem arrays_outside :
    (∃ log s, execAll Machine.exec (Machine.init nineClients (FofQueue.zero ()) ()) [] =
        some (log, s) ∧ ¬ InsideArrays false nineClients log) ∧
    (∃ log s, execAll Machine.exec (Machine.init wideRing (FofQueue.zero ()) ())
        (.call 0 256 () :: List.replicate 13 (.step 0)) = some (log, s) ∧
      ¬ InsideArrays true wideRing log) := by
  constructor
  · refine ⟨_, _, rfl, fun inside => ?_⟩
    have written : ArrayUse.mgrDsp 8 ∈ managerCreateUses nineClients := by decide
    exact absurd (inside.1 _ written) (Nat.lt_irrefl 8)
  · cases run : execAll Machine.exec (Machine.init wideRing (FofQueue.zero ()) ())
        (.call 0 256 () :: List.replicate 13 (.step 0)) with
    | none => exact absurd run (by decide +kernel)
    | some r =>
      refine ⟨r.1, r.2, rfl, fun inside => ?_⟩
      have counted : ((execAll Machine.exec (Machine.init wideRing (FofQueue.zero ()) ())
          (.call 0 256 () :: List.replicate 13 (.step 0))).map fun r => r.1.any fun x =>
            ArrayUse.slotCnt 128 ∈ x.pre.uses true x.op) = some true := by
        decide +kernel
      rw [run] at counted
      obtain ⟨x, memx, mem⟩ := List.any_eq_true.1 (Option.some.inj counted)
      exact absurd (inside.2 x memx _ (of_decide_eq_true mem)).2 (by decide)

end JackFofs
