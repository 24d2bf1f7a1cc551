import JackFofs.Conc.Contention
import JackFofs.Lib.Potential
import Mathlib.Tactic.Ring

/-!
# Calls make progress together

A compare-exchange fails only because another one has succeeded, so the threads cannot keep each
other from returning: of any `n` threads that make steps, some call returns every so often
(`lock_free`), with a bound on the number of steps that counts what the controller does meanwhile.

`AddPc.rank` is the number of steps that a call needs in the queue as it is, and `AddPc.quota` the
number of times it can still change a head pointer. A step lowers the rank of its call, or it changes
a head pointer; the ranks of the others depend on head pointers and on `next_frame` only.
-/

namespace JackFofs
open Linked Runs

variable {α : Type}

/-! ## Ranks -/

/-- Steps until `fof_queue_allocate_fof` is over, and twelve for the rest of the call. -/
def AllocPc.rank (q : FofQueue α) : AllocPc → Nat
  | .load => 15
  | .read fof => if q.freeFofs = some fof then 14 else 17
  | .cas fof _ => if q.freeFofs = some fof then 13 else 16
  | .clear _ => 12

/-- Steps until the cell is freed. -/
def PushPc.rank (q : FofQueue α) (fof : Addr) : PushPc → Nat
  | .load => 4
  | .write head => if q.freeFofs = head then 3 else 8
  | .read => if q.freeFofs = q.next fof then 2 else 7
  | .cas expected => if q.freeFofs = expected then 1 else 6
  | .writeBack _ => 5

/-- Steps until the slot is known, and until the cell is linked into it. -/
def CachePc.rank (q : FofQueue α) (nextFrame : Nat) (pc : CachePc) : Nat :=
  let steps :=
    match pc with
    | .check => 9
    | .slot => 8
    | .frame => 7
    | .read => 6
  if q.nextFrame = nextFrame then steps else steps + 7

/-- Steps until the cell is linked by the loop, which goes back to `recalculate` if `next_frame` has
    moved. -/
def FarPc.rank (q : FofQueue α) (fof : Addr) (nextFrame slot : Nat) (pc : FarPc) : Nat :=
  if q.nextFrame = nextFrame then
    match pc with
    | .load => 5
    | .write head => if q.slot slot = head then 4 else 10
    | .check => if q.slot slot = q.next fof then 3 else 9
    | .read => if q.slot slot = q.next fof then 2 else 8
    | .cas expected => if q.slot slot = expected then 1 else 7
    | .writeBack _ => 6
  else
    match pc with
    | .check => 10
    | .write _ => 11
    | .load => 12
    | .writeBack _ => 13
    | .cas _ => 14
    | .read => 15

/-- Steps until the cell is linked at the first attempt, or freed. -/
def NearPc.rank (q : FofQueue α) (nextFrame slot : Nat) : NearPc → Nat
  | .load => if q.nextFrame = nextFrame then 4 else 8
  | .write head => if q.nextFrame = nextFrame ∧ q.slot slot = head then 3 else 7
  | .check head => if q.nextFrame = nextFrame ∧ q.slot slot = head then 2 else 6
  | .cas head => if q.slot slot = head then 1 else 5

/-- The number of steps a call needs in the queue as it is. A thread that is not in a call counts as
    one that starts over. -/
def AddPc.rank (q : FofQueue α) : AddPc → Nat
  | .idle => 17
  | .alloc pc => pc.rank q
  | .fill _ => 11
  | .loadFrame _ => 10
  | .cache _ nextFrame _ pc => pc.rank q nextFrame
  | .far fof nextFrame slot pc => pc.rank q fof nextFrame slot
  | .near _ nextFrame slot pc => pc.rank q nextFrame slot
  | .excess _ pc =>
    match pc with
    | .read => 3
    | .write _ => 2
    | .push => 1
  | .free fof pc => pc.rank q fof

/-- The number of head pointers a call can still change: it pops one cell and puts it somewhere. -/
def AddPc.quota : AddPc → Nat
  | .idle => 2
  | .alloc (.clear _) => 1
  | .alloc _ => 2
  | _ => 1

section Rank

variable {q q' : FofQueue α} {timeUs : Nat} {argv : α} {pc pc' : AddPc} {ev : Ev α}

lemma AddPc.rank_le (q : FofQueue α) (pc : AddPc) : pc.rank q ≤ 17 := by
  cases pc with
  | alloc pc => cases pc <;> grind [AddPc.rank, AllocPc.rank]
  | cache fof nextFrame slotIdx pc => cases pc <;> grind [AddPc.rank, CachePc.rank]
  | far fof nextFrame slot pc => cases pc <;> grind [AddPc.rank, FarPc.rank]
  | near fof nextFrame slot pc => cases pc <;> grind [AddPc.rank, NearPc.rank]
  | excess fof pc => cases pc <;> grind [AddPc.rank]
  | free fof pc => cases pc <;> grind [AddPc.rank, PushPc.rank]
  | _ => grind [AddPc.rank]

lemma AddPc.quota_le (pc : AddPc) : pc.quota ≤ 2 := by
  cases pc with
  | alloc pc => cases pc <;> grind [AddPc.quota]
  | _ => grind [AddPc.quota]

/-- Behind `recalculate` a call needs at most nine steps with the `next_frame` it has just loaded. -/
lemma recalculatePc_rank (q : FofQueue α) (fof : Addr) (s : Nat) :
    (recalculatePc q fof s q.nextFrame).rank q ≤ 9 ∧ (recalculatePc q fof s q.nextFrame).quota = 1 := by
  obtain ⟨-, e⟩ | ⟨-, -, e⟩ | ⟨-, -, e⟩ := recalculatePc_cases q fof s q.nextFrame
  · rw [e]
    exact ⟨Nat.le_of_ble_eq_true rfl, rfl⟩
  · rw [e]
    exact ⟨Nat.le_of_ble_eq_true rfl, rfl⟩
  · rw [e]
    exact ⟨Nat.le_of_eq (if_pos rfl), rfl⟩

/-- The rank depends on the head pointers, on `next_frame` and on the cells of the call. -/
lemma AddPc.rank_congr (pc : AddPc) (free : q'.freeFofs = q.freeFofs) (slots : q'.slot = q.slot)
    (frame : q'.nextFrame = q.nextFrame) (next : ∀ c ∈ pc.cells, q'.next c = q.next c) :
    pc.rank q' = pc.rank q := by
  cases pc with
  | alloc pc => cases pc <;> simp only [AddPc.rank, AllocPc.rank, free]
  | cache fof nextFrame slotIdx pc => simp only [AddPc.rank, CachePc.rank, frame]
  | far fof nextFrame slot pc =>
    have nx := next fof (List.mem_singleton_self fof)
    cases pc <;> simp only [AddPc.rank, FarPc.rank, frame, slots, nx]
  | near fof nextFrame slot pc => cases pc <;> simp only [AddPc.rank, NearPc.rank, frame, slots]
  | free fof pc =>
    have nx := next fof (List.mem_singleton_self fof)
    cases pc <;> simp only [AddPc.rank, PushPc.rank, free, nx]
  | _ => rfl

/-- A quiet step of a call lowers its rank. -/
lemma AddStep.rank_lt (step : AddStep q timeUs argv pc ev pc' q') (quiet : ev = .quiet) :
    pc'.rank q' < pc.rank q ∧ pc'.quota ≤ pc.quota := by
  have same (v : Option Addr) (fof : Addr) : (q.setNext fof v).next fof = v := by
    rw [next_setNext, Function.update_self]
  cases step with
  | loaded head => simp [AddPc.rank, AllocPc.rank, AddPc.quota, head]
  | read => grind [AddPc.rank, AllocPc.rank, AddPc.quota]
  | again head => simp [AddPc.rank, AllocPc.rank, AddPc.quota, head]
  | got => simp [AddPc.rank, AllocPc.rank, AddPc.quota]
  | filled => simp [AddPc.rank, AddPc.quota]
  | @calculate fof =>
    obtain ⟨le, quota⟩ := recalculatePc_rank q fof (startFrame q timeUs)
    exact ⟨Nat.lt_succ_of_le le, Nat.le_of_eq quota⟩
  | cached | outdated | cacheSlot | cacheFrame => grind [AddPc.rank, CachePc.rank, AddPc.quota]
  | chooseFar => grind [AddPc.rank, CachePc.rank, FarPc.rank, AddPc.quota]
  | chooseNear => grind [AddPc.rank, CachePc.rank, NearPc.rank, AddPc.quota]
  | farLoad | farRead | farCheck => grind [AddPc.rank, FarPc.rank, AddPc.quota]
  | @farWrite fof nextFrame slot head =>
    have frames : (q.setNext fof head).nextFrame = q.nextFrame := rfl
    have slots : (q.setNext fof head).slot = q.slot := rfl
    grind [AddPc.rank, FarPc.rank, AddPc.quota]
  | @recalculate fof nextFrame slot ne =>
    obtain ⟨le, quota⟩ := recalculatePc_rank q fof (startFrame q timeUs)
    have ten : (AddPc.far fof nextFrame slot .check).rank q = 10 := if_neg ne
    rw [ten, quota]
    exact ⟨Nat.lt_succ_of_le le, Nat.le_refl 1⟩
  | retry => grind [AddPc.rank, FarPc.rank, AddPc.quota]
  | @farWriteBack fof nextFrame slot found =>
    have frames : (q.setNext fof found).nextFrame = q.nextFrame := rfl
    grind [AddPc.rank, FarPc.rank, AddPc.quota]
  | nearLoad | nearCheck => grind [AddPc.rank, NearPc.rank, AddPc.quota]
  | @nearWrite fof nextFrame slot head =>
    have frames : (q.setNext fof head).nextFrame = q.nextFrame := rfl
    have slots : (q.setNext fof head).slot = q.slot := rfl
    grind [AddPc.rank, NearPc.rank, AddPc.quota]
  | overtaken | beaten => grind [AddPc.rank, NearPc.rank, PushPc.rank, AddPc.quota]
  | excessRead | excessWrite => grind [AddPc.rank, AddPc.quota]
  | @free fof ppc ppc' q' push =>
    refine ⟨?_, Nat.le_refl 1⟩
    cases ppc with
    | load =>
      cases push
      grind [AddPc.rank, PushPc.rank]
    | write head =>
      cases push
      have heads : (q.setNext fof head).freeFofs = q.freeFofs := rfl
      grind [AddPc.rank, PushPc.rank]
    | read =>
      cases push
      grind [AddPc.rank, PushPc.rank]
    | cas expected =>
      by_cases head : q.freeFofs = expected
      · simp [pushStep, head] at push
      · simp only [pushStep, if_neg head] at push
        cases push
        grind [AddPc.rank, PushPc.rank]
    | writeBack found =>
      cases push
      grind [AddPc.rank, PushPc.rank]
  | _ => cases quiet

/-- A step of a call that moves no cell is quiet, or finds the free list empty. -/
lemma AddStep.kept (step : AddStep q timeUs argv pc ev pc' q') (keeps : ev.Keeps) :
    ev = .quiet ∨ (ev = .limit ∧ pc' = .idle ∧ pc.quota = 2) := by
  cases step with
  | empty => exact .inr ⟨rfl, rfl, rfl⟩
  | popped => exact absurd keeps id
  | linkedFar => exact absurd keeps id
  | linkedNear => exact absurd keeps id
  | pushed => exact absurd keeps id
  | freed => exact absurd keeps id
  | _ => exact .inl rfl

end Rank

/-! ## The potential of the machine -/

/-- Whether the action is a step of a thread. -/
def Act.isStep : Act α → Bool
  | .step _ => true
  | _ => false

/-- The steps of the controller that exchange a head pointer or store `next_frame`, whether or not its
    value changes. -/
def Ev.disturbs : Ev α → Bool
  | .fetched _ => true
  | .took _ _ _ => true
  | .released _ => true
  | _ => false

/-- The potential of `n` threads. -/
def Machine.potential (n : Nat) (s : Machine α) : Nat :=
  Runs.potential n 17 (fun p => (s.thread p).pc.rank s.q) fun p => (s.thread p).pc.quota

section Potential

variable {cells : List Addr} {s s' : Machine α} {L : Loc → List Addr} {ev : Ev α} {act : Act α}
  {n p : Nat} {q q' : FofQueue α}

lemma pushStep_nextFrame {head tail : Addr} {ppc : PushPc} {r : Option PushPc}
    (e : pushStep q head tail ppc = (r, q')) : q'.nextFrame = q.nextFrame := by
  cases ppc with
  | cas expected =>
    simp only [pushStep] at e
    split at e <;> cases e <;> rfl
  | _ =>
    cases e
    rfl

lemma flushStep_nextFrame {pc : FlushPc} {rest : Option FlushPc} (step : FlushStep q pc ev rest q') :
    q'.nextFrame = q.nextFrame := by
  cases step with
  | push push => exact pushStep_nextFrame push
  | pushed push => exact pushStep_nextFrame push
  | _ => rfl

/-- Of the controller only the publication of a frame changes `next_frame`. -/
lemma ctrlStep_nextFrame {ctrl ctrl' : CtrlClient} {cpc cpc' : CtrlPc}
    (e : ctrlStep q ctrl cpc = some (ev, cpc', ctrl', q')) (no : ∀ n, ev ≠ .fetched n) :
    q'.nextFrame = q.nextFrame := by
  cases ctrlStep_cases e with
  | flush step => exact flushStep_nextFrame step
  | flushed step => exact flushStep_nextFrame step
  | publishTransport => exact absurd rfl (no _)
  | publish => exact absurd rfl (no _)
  | give push => exact pushStep_nextFrame push
  | given push =>
    have frame := pushStep_nextFrame push
    exact frame
  | _ => rfl

/-- The steps of the others leave the rank of a call alone, if they change no head pointer. -/
lemma ConcInv.rank_other (inv : ConcInv cells s L) (heads : SameHeads s.q q') (k : Loc)
    (ne : k ≠ .own p) (frame : q'.nextFrame = s.q.nextFrame)
    (out : ∀ c, c ∉ L k → q'.fof c = s.q.fof c) :
    (s.thread p).pc.rank q' = (s.thread p).pc.rank s.q := by
  refine AddPc.rank_congr _ heads.free heads.slot frame fun c mem => next_eq_of_fof (out c ?_)
  rw [← inv.own p] at mem
  exact inv.lists.part.notMem mem ne.symm

/-- A step of a thread is paid for by the potential, and the last one of a call by its return. -/
lemma ConcInv.step_paid {pc' : AddPc} (inv : ConcInv cells s L) (reg : Regular s (.step p)) (lt : p < n)
    (e : addStep s.q (s.thread p).timeUs (s.thread p).argv (s.thread p).pc = some (ev, pc', q')) :
    1 + ({ s with q := q' }.setThread p { s.thread p with pc := pc' }).potential n ≤
      s.potential n + if ev.status.isSome then 2 * (17 * n + 1) else 0 := by
  let t : Thread α := { s.thread p with pc := pc' }
  let s' := { s with q := q' }.setThread p t
  have self : s'.thread p = t := setThread_self ..
  have other (i : Nat) (ne : i ≠ p) : s'.thread i = s.thread i := setThread_of_ne _ _ _ ne
  have bound (i : Nat) : (s'.thread i).pc.rank q' ≤ 17 := AddPc.rank_le _ _
  have quotas (i : Nat) (ne : i ≠ p) : (s'.thread i).pc.quota = (s.thread i).pc.quota := by
    rw [other i ne]
  have returned (some : ev.status.isSome) (renewed : pc'.quota ≤ (s.thread p).pc.quota + 1) :
      1 + s'.potential n ≤ s.potential n + if ev.status.isSome then 2 * (17 * n + 1) else 0 := by
    rw [if_pos some]
    exact potential_return lt bound (by rw [self]; exact renewed) quotas
  have eff := addStep_effect inv.nSlots (inv.threads p) (fun pc => reg.fresh p pc rfl) e
  have one : 1 ≤ (s.thread p).pc.quota := by
    cases (s.thread p).pc with
    | alloc apc => cases apc <;> simp [AddPc.quota]
    | _ => simp [AddPc.quota]
  cases eff with
  | @write ev pc' q' keeps heads first frame out cells ok =>
    obtain rfl | ⟨rfl, idle, two⟩ := (addStep_cases e).kept keeps
    · obtain ⟨lower, spent⟩ := (addStep_cases e).rank_lt rfl
      refine potential_private lt (by rw [self]; exact lower) (by rw [self]; exact spent) ?_ quotas
      intro i ne
      show (s'.thread i).pc.rank q' = _
      rw [other i ne]
      rw [← inv.own p] at out
      have ne : Loc.own p ≠ .own i := fun h => ne (Loc.own.inj h).symm
      exact inv.rank_other heads (.own p) ne frame out
    · refine returned rfl ?_
      rw [idle, two]
      exact Nat.le_succ 2
  | pop pc head =>
    refine potential_interfere lt bound ?_ quotas
    rw [self, pc]
    exact Nat.le_refl 2
  | link => exact returned rfl (Nat.succ_le_succ one)
  | excess => exact returned rfl (Nat.succ_le_succ one)
  | free => exact returned rfl (Nat.succ_le_succ one)

/-- What the steps of the controller and the starts of calls add to the potential. -/
lemma ConcInv.paid (inv : ConcInv cells s L) (reg : Regular s act)
    (few : ∀ p, n ≤ p → (s.thread p).pc = .idle)
    (caller : ∀ p timeUs argv, act = .call p timeUs argv → p < n)
    (e : s.exec act = some (ev, s')) :
    (if act.isStep then 1 else 0) + s'.potential n ≤ s.potential n +
      ((if ev.status.isSome then 2 * (17 * n + 1) else 0) + if ev.disturbs then 17 * n else 0) := by
  cases Machine.executed e with
  | @call p timeUs argv idle =>
    have lt := caller p timeUs argv rfl
    have self : (s.setThread p ⟨timeUs, argv, .alloc .load⟩).thread p = ⟨timeUs, argv, .alloc .load⟩ :=
      setThread_self ..
    have other (i : Nat) (ne : i ≠ p) := setThread_of_ne s p ⟨timeUs, argv, .alloc .load⟩ ne
    have paid : 1 + (s.setThread p ⟨timeUs, argv, .alloc .load⟩).potential n ≤ s.potential n := by
      refine potential_private lt ?_ ?_ (fun i ne => ?_) fun i ne => ?_
      · rw [self, idle]
        exact Nat.le_of_ble_eq_true rfl
      · rw [self, idle]
        exact Nat.le_refl 2
      · rw [other i ne]
        rfl
      · rw [other i ne]
    exact Nat.le_trans (Nat.add_le_add_right (Nat.zero_le 1) _) (Nat.le_add_right_of_le paid)
  | @step p _ pc' q' step =>
    have lt : p < n := by
      by_contra ge
      exact addStep_busy step (few p (Nat.not_lt.1 ge))
    exact Nat.le_trans (inv.step_paid reg lt step) (by omega)
  | @ctrlStep _ cpc' ctrl' q' step =>
    have eff := ctrlStep_effect inv.nSlots inv.ctrl (reg.noExcess rfl) step
    by_cases disturbs : ev.disturbs
    · rw [if_pos disturbs]
      have paid : { s with q := q', ctrl := ctrl', cpc := cpc' }.potential n ≤
          s.potential n + 17 * n := potential_disturb (fun i => AddPc.rank_le _ _) fun i => rfl
      exact Nat.le_trans (Nat.le_of_eq (Nat.zero_add _)) (by omega)
    · have frame := ctrlStep_nextFrame step fun n e => disturbs (by rw [e]; rfl)
      cases eff with
      | write keeps heads out ok =>
        have same : { s with q := q', ctrl := ctrl', cpc := cpc' }.potential n = s.potential n := by
          have ranks (p : Nat) : (s.thread p).pc.rank q' = (s.thread p).pc.rank s.q :=
            inv.rank_other heads .ctrl (ctrl_ne_own p) frame out
          simp only [Machine.potential, ranks]
        rw [same]
        exact Nat.le_trans (Nat.le_of_eq (Nat.zero_add _)) (Nat.le_add_right _ _)
      | take => exact absurd rfl disturbs
      | free => exact absurd rfl disturbs
  | cycle => exact Nat.le_trans (Nat.le_of_eq (Nat.zero_add _)) (Nat.le_add_right _ _)
  | flush => exact Nat.le_trans (Nat.le_of_eq (Nat.zero_add _)) (Nat.le_add_right _ _)
  | @storeClockSource clockSource =>
    have same : { s with q := { s.q with clockSource := clockSource } }.potential n = s.potential n := by
      have ranks (p : Nat) : (s.thread p).pc.rank { s.q with clockSource := clockSource } =
          (s.thread p).pc.rank s.q := AddPc.rank_congr _ rfl rfl rfl fun _ _ => rfl
      simp only [Machine.potential, ranks]
    rw [same]
    exact Nat.le_trans (Nat.le_of_eq (Nat.zero_add _)) (Nat.le_add_right _ _)

/-- Threads from `n` on stay idle if only threads below `n` call. -/
lemma few_exec (few : ∀ p, n ≤ p → (s.thread p).pc = .idle)
    (caller : ∀ p timeUs argv, act = .call p timeUs argv → p < n)
    (e : s.exec act = some (ev, s')) (p : Nat) (le : n ≤ p) : (s'.thread p).pc = .idle := by
  cases Machine.executed e with
  | @call p' timeUs argv idle =>
    have lt := caller p' timeUs argv rfl
    rw [setThread_of_ne _ _ _ (by omega)]
    exact few p le
  | @step p' _ pc' q' step =>
    have ne : p ≠ p' := by
      rintro rfl
      exact addStep_busy step (few p le)
    rw [setThread_of_ne _ _ _ ne]
    exact few p le
  | _ => exact few p le

/-- The steps that the threads make in a regular run, against the calls that return in it and the
    disturbances by the controller. -/
lemma ConcInv.run_paid {log : List (Step α)} (inv : ConcInv cells s L)
    (run : Run Machine.exec s log s') (few : ∀ p, n ≤ p → (s.thread p).pc = .idle)
    (callers : ∀ x ∈ log, ∀ p timeUs argv, x.op = .call p timeUs argv → p < n)
    (regular : ∀ x ∈ log, Regular x.pre x.op) :
    (log.countP fun x => x.op.isStep) + s'.potential n ≤ s.potential n +
      (log.countP (fun x => x.out.status.isSome) * (2 * (17 * n + 1)) +
        log.countP (fun x => x.out.disturbs) * (17 * n)) := by
  have paid := run.amortized (fun s => (∃ L, ConcInv cells s L) ∧ ∀ p, n ≤ p → (s.thread p).pc = .idle)
    (Machine.potential n) (fun x => if x.op.isStep then 1 else 0)
    (fun x => (if x.out.status.isSome then 2 * (17 * n + 1) else 0) +
      if x.out.disturbs then 17 * n else 0)
    (fun {x s1} mem inv e => by
      obtain ⟨⟨L, inv⟩, few⟩ := inv
      exact ⟨⟨⟨_, inv.exec (regular x mem) e⟩, few_exec few (callers x mem) e⟩,
        inv.paid (regular x mem) few (callers x mem) e⟩) ⟨⟨L, inv⟩, few⟩
  rw [sum_map_ite, Nat.mul_one, List.sum_map_add, sum_map_ite, sum_map_ite] at paid
  exact paid

/-- The calls of `fof_queue_add` are lock-free. Take any part of any run in which at most `n` threads
    call, no stale value is popped and no flush finds an excess list. However the threads and the
    controller take turns, the number of steps that the threads make in it is bounded by the number of
    calls that return in it and the number of times the controller exchanges a head pointer or stores
    `next_frame`. So while the controller is idle some call returns in any `n * (34 * n + 19) + 1` steps,
    and on the average in `34 * n + 2` steps. -/
theorem lock_free {setup : Setup} (nMaxFofs : 1 ≤ setup.nMaxFofs) (nSlots : 1 ≤ setup.nSlots)
    (q : FofQueue α) (argv : α) (n : Nat) (acts0 acts : List (Act α)) {log0 log : List (Step α)}
    (run0 : execAll Machine.exec (Machine.init setup q argv) acts0 = some (log0, s))
    (run : execAll Machine.exec s acts = some (log, s'))
    (callers : ∀ p timeUs argv, Act.call p timeUs argv ∈ acts0 ++ acts → p < n)
    (regular : ∀ x ∈ log0 ++ log, Regular x.pre x.op) :
    (log.countP fun x => x.op.isStep) ≤ n * (34 * n + 19) +
      log.countP (fun x => x.out.status.isSome) * (34 * n + 2) +
      log.countP (fun x => x.out.disturbs) * (17 * n) := by
  have caller {l : List (Act α)} {l' : List (Step α)} {s s' : Machine α}
      (run : execAll Machine.exec s l = some (l', s')) (sub : ∀ act ∈ l, act ∈ acts0 ++ acts) :
      ∀ x ∈ l', ∀ p timeUs argv, x.op = .call p timeUs argv → p < n :=
    forall_op_of_execAll (P := fun act => ∀ p timeUs argv, act = .call p timeUs argv → p < n) run
      fun act mem p timeUs argv e => callers p timeUs argv (e ▸ sub act mem)
  have caller0 := caller run0 fun _ mem => List.mem_append_left _ mem
  have caller1 := caller run fun _ mem => List.mem_append_right _ mem
  have init := concInv_init nMaxFofs nSlots q argv
  obtain ⟨⟨⟨L, inv⟩, few⟩, -⟩ := (run_of_execAll run0).1.inv
    (fun s => (∃ L, ConcInv (List.range setup.nMaxFofs) s L) ∧ ∀ p, n ≤ p → (s.thread p).pc = .idle)
    (fun {x s1} mem inv e => by
      obtain ⟨⟨L, inv⟩, few⟩ := inv
      exact ⟨⟨_, inv.exec (regular x (List.mem_append_left _ mem)) e⟩,
        few_exec few (caller0 x mem) e⟩) ⟨⟨_, init⟩, fun _ _ => rfl⟩
  have paid := inv.run_paid (run_of_execAll run).1 few caller1
    fun x mem => regular x (List.mem_append_right _ mem)
  have start : s.potential n ≤ 17 * n + (17 * n + 1) * (2 * n) :=
    potential_le (fun p => AddPc.rank_le _ _) fun p => AddPc.quota_le _
  have total : 17 * n + (17 * n + 1) * (2 * n) = n * (34 * n + 19) := by ring
  have each : 2 * (17 * n + 1) = 34 * n + 2 := by ring
  rw [total] at start
  rw [each] at paid
  omega

/-- Of the run of `race` only its second half is counted: the other thread has changed the slot. -/
theorem lock_free_race :
    ∃ log0 log s s', execAll Machine.exec (Machine.init (twoSlots 3) (FofQueue.zero ()) ())
        (race 3 12 13 0) = some (log0, s) ∧
      execAll Machine.exec s (List.replicate 7 (.step 0)) = some (log, s') ∧
      (log.countP fun x => x.op.isStep) = 7 ∧
      7 ≤ 2 * (34 * 2 + 19) + log.countP (fun x => x.out.status.isSome) * (34 * 2 + 2) +
        log.countP (fun x => x.out.disturbs) * (17 * 2) := by
  have runs : ∃ log0 log s s', execAll Machine.exec (Machine.init (twoSlots 3) (FofQueue.zero ()) ())
        (race 3 12 13 0) = some (log0, s) ∧
      execAll Machine.exec s (List.replicate 7 (.step 0)) = some (log, s') ∧
      (∀ x ∈ log0 ++ log, staleAlloc x.pre.q (x.op.pc x.pre) = false) ∧
      (∀ x ∈ log0 ++ log, x.pre.q.excess = none) ∧ (log.countP fun x => x.op.isStep) = 7 :=
    ⟨_, _, _, _, rfl, rfl, by decide, by decide, rfl⟩
  obtain ⟨log0, log, s, s', run0, run, fresh, empty, steps⟩ := runs
  have callers : ∀ p timeUs argv, Act.call p timeUs argv ∈
      race 3 12 13 0 ++ List.replicate 7 (Act.step 0) → p < 2 := by
    intro p timeUs argv mem
    simp [race] at mem
    omega
  have bound := lock_free (by decide) (by decide) (FofQueue.zero ()) () 2 (race 3 12 13 0)
    (List.replicate 7 (.step 0)) run0 run callers
    fun x mem => .of_empty (fresh x mem) (empty x mem)
  rw [steps] at bound
  exact ⟨log0, log, s, s', run0, run, steps, bound⟩

end Potential

end JackFofs
