import JackFofs.Client.Clock

/-!
# The time of a client while cycles run

A cycle on the frame clock adds to `next_frame` and then stores `frame_stamp`. A client that asks for
the frame reads `next_frame`, `frame_stamp` and the clock, one after the other. The machine runs these
single accesses in any order. Several clients do not disturb each other, so there is one.

The controller keeps `next_frame` at a fixed distance from `frame_stamp`, but for the moment between
its two stores. `frameNow` adds that distance to the clock: it never decreases, and a call that reads
both values of one cycle returns it.
-/

namespace JackFofs
open Runs

/-- Where the controller stands in a cycle, with what it has read. -/
inductive CyclePc where
  | idle
  | store (nframes m : Nat)
  | stamp (m : Nat)
deriving DecidableEq, Repr

/-- Where the client stands in `current_frame`, with what it has read, and the number of stores to
    `next_frame` before its load. -/
inductive ReadPc where
  | idle
  | stamp (nextFrame cycle : Nat)
  | clock (nextFrame frameStamp : Nat)
deriving DecidableEq, Repr

/-- The two shared words and the two parties. The number of stores to each word and the last reading
    of the clock by any of the two are notes for the proof. -/
structure Stamps where
  nextFrame : Nat
  frameStamp : Nat
  cycle : CyclePc
  client : ReadPc
  stored : Nat
  stamped : Nat
  frameTime : Nat
deriving DecidableEq, Repr

/-- One access. `start` is the reading of the clock by a cycle, `readClock` that by the client. -/
inductive Access where
  | start (nframes m : Nat)
  | store
  | stamp
  | loadNextFrame
  | loadFrameStamp
  | readClock (r : Nat)
deriving DecidableEq, Repr

/-- The memory after `fof_queue_init`, which does not write `frame_stamp`. -/
def Stamps.init (frameStamp : Nat) : Stamps where
  nextFrame := 0
  frameStamp := frameStamp
  cycle := .idle
  client := .idle
  stored := 0
  stamped := 0
  frameTime := 0

/-- One access and, if it ends a call of `current_frame`, what the call returns. -/
def access (s : Stamps) : Access → Option (Option Nat × Stamps)
  | .start nframes m =>
    match s.cycle with
    | .idle => some (none, { s with cycle := .store nframes m, frameTime := m })
    | _ => none
  | .store =>
    match s.cycle with
    | .store nframes m => some (none, { s with
        nextFrame := u64 (s.nextFrame + nframes), stored := s.stored + 1, cycle := .stamp m })
    | _ => none
  | .stamp =>
    match s.cycle with
    | .stamp m => some (none, { s with frameStamp := m, stamped := s.stamped + 1, cycle := .idle })
    | _ => none
  | .loadNextFrame =>
    match s.client with
    | .idle => some (none, { s with client := .stamp s.nextFrame s.stored })
    | _ => none
  | .loadFrameStamp =>
    match s.client with
    | .stamp nextFrame _ => some (none, { s with client := .clock nextFrame s.frameStamp })
    | _ => none
  | .readClock r =>
    match s.client with
    | .clock nextFrame frameStamp =>
      some (some (estimate nextFrame frameStamp r), { s with client := .idle, frameTime := r })
    | _ => none

/-- `jfofs_get_time`, from what `current_frame` returns. -/
def timeOfFrame (frame sampleRate : Nat) : Nat := u64 (frame * 1000000) / sampleRate

/-- An entry of the log of a run. -/
abbrev AccessEntry := Entry Stamps Access (Option Nat)

/-- An ideal JACK: the clock does not run backwards and does not wrap, and the stamp of a cycle is the
    stamp of the cycle before it plus the period. -/
def Ideal (x : AccessEntry) : Prop :=
  match x.op with
  | .start nframes m =>
    x.pre.frameTime ≤ m ∧ m < 2 ^ 32 ∧ nframes < 2 ^ 32 ∧
      (0 < x.pre.stamped → m = x.pre.frameStamp + nframes)
  | .readClock r => x.pre.frameTime ≤ r ∧ r < 2 ^ 32
  | _ => True

/-- The client loads the frame stamp of the cycle whose `next_frame` it has loaded. -/
def SameCycle (x : AccessEntry) : Prop :=
  match x.op, x.pre.client with
  | .loadFrameStamp, .stamp _ k => 0 < k ∧ k = x.pre.stamped
  | _, _ => True

instance : (x : AccessEntry) → Decidable (Ideal x)
  | ⟨_, .start _ _, _⟩ => inferInstanceAs (Decidable (_ ∧ _ ∧ _ ∧ (_ → _)))
  | ⟨_, .readClock _, _⟩ => inferInstanceAs (Decidable (_ ∧ _))
  | ⟨_, .store, _⟩ | ⟨_, .stamp, _⟩ | ⟨_, .loadNextFrame, _⟩ | ⟨_, .loadFrameStamp, _⟩ =>
    .isTrue trivial

instance : (x : AccessEntry) → Decidable (SameCycle x)
  | ⟨⟨_, _, _, .stamp _ _, _, _, _⟩, .loadFrameStamp, _⟩ => inferInstanceAs (Decidable (_ ∧ _))
  | ⟨⟨_, _, _, .idle, _, _, _⟩, .loadFrameStamp, _⟩
  | ⟨⟨_, _, _, .clock _ _, _, _, _⟩, .loadFrameStamp, _⟩ => .isTrue trivial
  | ⟨_, .start _ _, _⟩ | ⟨_, .readClock _, _⟩ | ⟨_, .store, _⟩ | ⟨_, .stamp, _⟩
  | ⟨_, .loadNextFrame, _⟩ => .isTrue trivial

/-! ## The accesses and the functions of the source -/

section Alone

variable {α : Type} {q : FofQueue α} {s : Stamps}

/-- The two words of a queue. -/
structure StampsOf (q : FofQueue α) (s : Stamps) : Prop where
  nextFrame : s.nextFrame = q.nextFrame
  frameStamp : s.frameStamp = q.frameStamp

/-- A cycle on the frame clock that nobody interrupts publishes what `publish` does. -/
theorem publish_accesses {ctrl : CtrlClient} (of : StampsOf q s) (idle : s.cycle = .idle)
    (off : jfofsClockUsesTransport ctrl.clockSource = false) (nframes m : Nat) :
    ∃ s1 s2 s3, access s (.start nframes m) = some (none, s1) ∧ access s1 .store = some (none, s2) ∧
      access s2 .stamp = some (none, s3) ∧
      StampsOf (publish ctrl q nframes m .rolling).2.1 s3 := by
  obtain ⟨nextFrame, frameStamp, cycle, client, stored, stamped, frameTime⟩ := s
  cases (idle : cycle = _)
  refine ⟨_, _, _, rfl, rfl, rfl, ?_, ?_⟩
  · rw [publish_ctrl, off, ← of.nextFrame]
    rfl
  · rw [publish_ctrl]

/-- A call on the frame clock that nobody interrupts returns what `current_frame` does. -/
theorem currentFrame_accesses {setupClockSource : Int} (of : StampsOf q s) (idle : s.client = .idle)
    (off : jfofsClockUsesTransport setupClockSource = false) (jack : ClientReading) :
    ∃ s1 s2 s3, access s .loadNextFrame = some (none, s1) ∧
      access s1 .loadFrameStamp = some (none, s2) ∧
      access s2 (.readClock jack.frameTime) = some (some (currentFrame q setupClockSource jack), s3) := by
  have value : currentFrame q setupClockSource jack =
      estimate s.nextFrame s.frameStamp jack.frameTime := by
    rw [currentFrame, clockOf, off, of.nextFrame, of.frameStamp]
    rfl
  obtain ⟨nextFrame, frameStamp, cycle, client, stored, stamped, frameTime⟩ := s
  cases (idle : client = _)
  rw [value]
  exact ⟨_, _, _, rfl, rfl, rfl⟩

end Alone

/-! ## The frame of the clock -/

/-- The stamp that belongs to `next_frame`: between its two stores the controller still has it. -/
def Stamps.partner (s : Stamps) : Nat :=
  match s.cycle with
  | .stamp m => m
  | _ => s.frameStamp

/-- How far `next_frame` is ahead of its stamp. -/
def Stamps.offset (s : Stamps) : Int := s.nextFrame - s.partner

/-- The frame at the last reading of the clock. -/
def Stamps.frameNow (s : Stamps) : Int := s.offset + s.frameTime

/-- What the controller has read, in the middle of a cycle. -/
def CycleInv (s : Stamps) : Prop :=
  match s.cycle with
  | .idle => s.stored = s.stamped
  | .store nframes m => s.stored = s.stamped ∧ nframes < 2 ^ 32 ∧ m ≤ s.frameTime ∧
      (0 < s.stamped → m = s.frameStamp + nframes)
  | .stamp m => s.stored = s.stamped + 1 ∧ m ≤ s.frameTime

/-- What the client has read, in the middle of a call: a `next_frame` that is current, or that was
    until the store of the frame stamp before last, and a frame stamp that goes with it. -/
def ReadInv (s : Stamps) : Prop :=
  match s.client with
  | .idle => True
  | .stamp nextFrame k => k ≤ s.stored ∧ (0 < k → (k = s.stamped → nextFrame = s.offset + s.frameStamp) ∧
      (k = s.stamped + 1 → nextFrame = s.nextFrame))
  | .clock nextFrame frameStamp =>
    0 < s.stored ∧ nextFrame = s.offset + frameStamp ∧ frameStamp ≤ s.frameTime

/-- What holds between two accesses. -/
structure StampsInv (s : Stamps) : Prop where
  fresh : s.stored = 0 → s.nextFrame = 0
  cycle : CycleInv s
  client : ReadInv s
  frameTime : s.frameTime < 2 ^ 32
  frameStamp : 0 < s.stamped → s.frameStamp ≤ s.frameTime
  offset : 0 < s.stored → s.offset < 2 ^ 32

lemma stampsInv_init (frameStamp : Nat) : StampsInv (.init frameStamp) :=
  ⟨fun _ => rfl, rfl, trivial, Nat.two_pow_pos 32, fun pos => absurd pos (Nat.lt_irrefl 0),
    fun pos => absurd pos (Nat.lt_irrefl 0)⟩

/-- A frame number and a stamp at the distance `d` give the clock plus `d`. -/
lemma estimate_eq {nextFrame frameStamp r : Nat} {d : Int} (e : (nextFrame : Int) = d + frameStamp)
    (le : frameStamp ≤ r) (small : d + r < 2 ^ 64) : (estimate nextFrame frameStamp r : Int) = d + r := by
  rw [estimate]
  split
  · omega
  · rw [u64_of_lt (by omega)]
    omega

/-! ### One access -/

/-- What an access does: the frame of the clock does not decrease, and a call returns it. -/
structure StampsStep (s s' : Stamps) (out : Option Nat) : Prop where
  inv : StampsInv s'
  later : 0 < s.stored → 0 < s'.stored ∧ s.frameNow ≤ s'.frameNow
  answer : ∀ v, out = some v → 0 < s'.stored ∧ v = s'.frameNow

section Accesses

variable {s : Stamps}

/-- What the client has read stays good while the clock advances. -/
lemma ReadInv.advance (read : ReadInv s) {cycle : CyclePc} {m : Nat} (le : s.frameTime ≤ m)
    (partner : ({ s with cycle := cycle, frameTime := m } : Stamps).partner = s.partner) :
    ReadInv { s with cycle := cycle, frameTime := m } := by
  rw [ReadInv] at read ⊢
  simp only [Stamps.offset, partner]
  cases e : s.client with
  | idle => trivial
  | stamp nf k =>
    rw [e] at read
    exact read
  | clock nf fs =>
    rw [e] at read
    exact ⟨read.1, read.2.1, read.2.2.trans le⟩

/-- A cycle reads the clock. -/
lemma StampsInv.start (inv : StampsInv s) (idle : s.cycle = .idle) {nframes m : Nat}
    (le : s.frameTime ≤ m) (ltm : m < 2 ^ 32) (ltn : nframes < 2 ^ 32)
    (next : 0 < s.stamped → m = s.frameStamp + nframes) :
    StampsStep s { s with cycle := .store nframes m, frameTime := m } none := by
  have partner : ({ s with cycle := .store nframes m, frameTime := m } : Stamps).partner =
      s.partner := by
    rw [Stamps.partner, Stamps.partner, idle]
  have cycle := inv.cycle
  rw [CycleInv, idle] at cycle
  constructor
  case inv =>
    refine ⟨inv.fresh, ⟨cycle, ltn, Nat.le_refl m, next⟩, inv.client.advance le partner, ltm,
      fun pos => (inv.frameStamp pos).trans le, ?_⟩
    rw [Stamps.offset, partner]
    exact inv.offset
  case later =>
    refine fun pos => ⟨pos, ?_⟩
    rw [Stamps.frameNow, Stamps.frameNow, Stamps.offset, Stamps.offset, partner]
    exact Int.add_le_add_left (Int.ofNat_le.2 le) _
  case answer => exact fun v none => absurd none (Option.some_ne_none v).symm

/-- A cycle stores `next_frame`. From the second cycle on, the word and its stamp move by the same
    amount. -/
lemma StampsInv.store (inv : StampsInv s) {nframes m : Nat} (cycle : s.cycle = .store nframes m) :
    StampsStep s { s with
      nextFrame := u64 (s.nextFrame + nframes), stored := s.stored + 1, cycle := .stamp m } none := by
  obtain ⟨nextFrame, frameStamp, _, client, stored, stamped, frameTime⟩ := s
  cases cycle
  obtain ⟨fresh, ⟨same_cycle, ltn, le, next⟩, hclient, htime, hstamp, hoffset⟩ := inv
  simp only [Stamps.offset, Stamps.partner, ReadInv] at *
  have small : nextFrame + nframes < 2 ^ 64 := by
    rcases Nat.eq_zero_or_pos stored with zero | pos
    · have := fresh zero
      omega
    · have := hoffset pos
      have := hstamp (same_cycle ▸ pos)
      omega
  rw [u64_of_lt small]
  have still (pos : 0 < stored) : ((nextFrame + nframes : Nat) : Int) - m = nextFrame - frameStamp := by
    have := next (same_cycle ▸ pos)
    omega
  constructor
  case inv =>
    refine ⟨nofun, ⟨congrArg (· + 1) same_cycle, le⟩, ?_, htime, hstamp, fun _ => ?_⟩
    · cases client with
      | idle => trivial
      | stamp nf k =>
        obtain ⟨lek, now⟩ := hclient
        refine ⟨Nat.le_succ_of_le lek, fun pos => ⟨fun e => ?_, fun e => ?_⟩⟩
        · show (nf : Int) = ((nextFrame + nframes : Nat) : Int) - m + frameStamp
          rw [still (Nat.lt_of_lt_of_le pos lek)]
          exact (now pos).1 e
        · have e : k = stamped + 1 := e
          omega
      | clock nf fs =>
        obtain ⟨pos, e, le⟩ := hclient
        refine ⟨Nat.succ_pos stored, ?_, le⟩
        show (nf : Int) = ((nextFrame + nframes : Nat) : Int) - m + fs
        rw [still pos]
        exact e
    · show ((nextFrame + nframes : Nat) : Int) - m < 2 ^ 32
      rcases Nat.eq_zero_or_pos stored with zero | pos
      · have := fresh zero
        omega
      · rw [still pos]
        exact hoffset pos
  case later =>
    refine fun pos => ⟨Nat.succ_pos stored, ?_⟩
    show (nextFrame : Int) - frameStamp + frameTime ≤
      ((nextFrame + nframes : Nat) : Int) - m + frameTime
    rw [still pos]
  case answer => exact fun v none => absurd none (Option.some_ne_none v).symm

/-- A cycle stores `frame_stamp`. -/
lemma StampsInv.stamp (inv : StampsInv s) {m : Nat} (cycle : s.cycle = .stamp m) :
    StampsStep s { s with frameStamp := m, stamped := s.stamped + 1, cycle := .idle } none := by
  obtain ⟨nextFrame, frameStamp, _, client, stored, stamped, frameTime⟩ := s
  cases cycle
  obtain ⟨fresh, ⟨one, le⟩, hclient, htime, hstamp, hoffset⟩ := inv
  simp only [Stamps.offset, Stamps.partner, ReadInv] at *
  refine ⟨⟨fresh, one, ?_, htime, fun _ => le, hoffset⟩, fun pos => ⟨pos, Int.le_refl _⟩,
    fun v none => absurd none (Option.some_ne_none v).symm⟩
  cases client with
  | idle => trivial
  | stamp nf k =>
    obtain ⟨lek, now⟩ := hclient
    refine ⟨lek, fun pos => ⟨fun e => ?_, fun e => ?_⟩⟩
    · show (nf : Int) = nextFrame - m + m
      rw [(now pos).2 e, Int.sub_add_cancel]
    · have e : k = stamped + 1 + 1 := e
      omega
  | clock nf fs => exact hclient

/-- A load of the client changes nothing but what it has read. -/
lemma StampsInv.load (inv : StampsInv s) {client : ReadPc} (read : ReadInv { s with client := client }) :
    StampsStep s { s with client := client } none :=
  ⟨⟨inv.fresh, inv.cycle, read, inv.frameTime, inv.frameStamp, inv.offset⟩,
    fun pos => ⟨pos, Int.le_refl _⟩, fun v none => absurd none (Option.some_ne_none v).symm⟩

/-- The client loads `next_frame`, which has its stamp unless a cycle is about to store it. -/
lemma StampsInv.loadNextFrame (inv : StampsInv s) :
    StampsStep s { s with client := .stamp s.nextFrame s.stored } none := by
  refine inv.load ⟨Nat.le_refl _, fun _ => ⟨fun e => ?_, fun _ => rfl⟩⟩
  have cycle := inv.cycle
  rw [CycleInv] at cycle
  show (s.nextFrame : Int) = s.nextFrame - s.partner + s.frameStamp
  rw [Stamps.partner]
  cases pc : s.cycle with
  | idle => exact (Int.sub_add_cancel _ _).symm
  | store _ _ => exact (Int.sub_add_cancel _ _).symm
  | stamp m =>
    rw [pc] at cycle
    exact absurd (cycle.1.symm.trans e) (Nat.succ_ne_self s.stamped)

/-- The client loads the frame stamp of the same cycle. -/
lemma StampsInv.loadFrameStamp (inv : StampsInv s) {nextFrame k : Nat}
    (client : s.client = .stamp nextFrame k) (same : 0 < k ∧ k = s.stamped) :
    StampsStep s { s with client := .clock nextFrame s.frameStamp } none := by
  obtain ⟨pos, ek⟩ := same
  have read := inv.client
  rw [ReadInv, client] at read
  obtain ⟨lek, now⟩ := read
  exact inv.load ⟨Nat.lt_of_lt_of_le pos lek, (now pos).1 ek, inv.frameStamp (ek ▸ pos)⟩

/-- The client reads the clock, and its call returns. -/
lemma StampsInv.readClock (inv : StampsInv s) {nextFrame frameStamp r : Nat}
    (client : s.client = .clock nextFrame frameStamp) (le : s.frameTime ≤ r) (lt : r < 2 ^ 32) :
    StampsStep s { s with client := .idle, frameTime := r }
      (some (estimate nextFrame frameStamp r)) := by
  have read := inv.client
  rw [ReadInv, client] at read
  obtain ⟨pos, e, le'⟩ := read
  have small := inv.offset pos
  have cycle := inv.cycle
  constructor
  case inv =>
    refine ⟨inv.fresh, ?_, trivial, lt, fun pos => (inv.frameStamp pos).trans le, inv.offset⟩
    rw [CycleInv] at cycle ⊢
    cases pc : s.cycle with
    | idle =>
      rw [pc] at cycle
      exact cycle
    | store nframes m =>
      rw [pc] at cycle
      exact ⟨cycle.1, cycle.2.1, cycle.2.2.1.trans le, cycle.2.2.2⟩
    | stamp m =>
      rw [pc] at cycle
      exact ⟨cycle.1, cycle.2.trans le⟩
  case later => exact fun pos => ⟨pos, Int.add_le_add_left (Int.ofNat_le.2 le) _⟩
  case answer =>
    rintro v ev
    cases ev
    have value := estimate_eq e (le'.trans le) (by omega)
    exact ⟨pos, value⟩

end Accesses

/-- What one access does. -/
lemma access_inv {s s' : Stamps} {a : Access} {out : Option Nat} (inv : StampsInv s)
    (e : access s a = some (out, s')) (ideal : Ideal ⟨s, a, out⟩) (same : SameCycle ⟨s, a, out⟩) :
    StampsStep s s' out := by
  cases a with
  | start nframes m =>
    cases pc : s.cycle <;> simp only [access, pc] at e <;> cases e
    obtain ⟨le, ltm, ltn, next⟩ := ideal
    exact inv.start pc le ltm ltn next
  | store =>
    cases pc : s.cycle <;> simp only [access, pc] at e <;> cases e
    exact inv.store pc
  | stamp =>
    cases pc : s.cycle <;> simp only [access, pc] at e <;> cases e
    exact inv.stamp pc
  | loadNextFrame =>
    cases pc : s.client <;> simp only [access, pc] at e <;> cases e
    exact inv.loadNextFrame
  | loadFrameStamp =>
    cases pc : s.client <;> simp only [access, pc] at e <;> cases e
    simp only [SameCycle, pc] at same
    exact inv.loadFrameStamp pc same
  | readClock r =>
    cases pc : s.client <;> simp only [access, pc] at e <;> cases e
    exact inv.readClock pc ideal.1 ideal.2

/-! ## Runs -/

section Runs

variable {s s' : Stamps} {log : List AccessEntry}

/-- From the first store on, the frame of the clock never decreases. -/
lemma run_frameNow (run : Run access s log s') (inv : StampsInv s) (pos : 0 < s.stored)
    (ideal : ∀ x ∈ log, Ideal x) (same : ∀ x ∈ log, SameCycle x) :
    StampsInv s' ∧ 0 < s'.stored ∧ s.frameNow ≤ s'.frameNow := by
  induction run with
  | nil => exact ⟨inv, pos, Int.le_refl _⟩
  | @cons s s1 s' a out log e run ih =>
    obtain ⟨inv1, later, -⟩ :=
      access_inv inv e (ideal _ List.mem_cons_self) (same _ List.mem_cons_self)
    obtain ⟨pos1, le1⟩ := later pos
    obtain ⟨inv2, pos2, le2⟩ := ih inv1 pos1 (fun x mem => ideal x (List.mem_cons_of_mem _ mem))
      fun x mem => same x (List.mem_cons_of_mem _ mem)
    exact ⟨inv2, pos2, le1.trans le2⟩

/-- Calls return frames far below the point where `jfofs_get_time` would overflow. -/
lemma StampsInv.small (inv : StampsInv s) (pos : 0 < s.stored) : s.frameNow < 2 ^ 33 := by
  have := inv.offset pos
  have := inv.frameTime
  rw [Stamps.frameNow]
  omega

/-- The time of a frame grows with the frame. -/
lemma timeOfFrame_mono {v w : Nat} (sampleRate : Nat) (le : v ≤ w) (small : w < 2 ^ 33) :
    timeOfFrame v sampleRate ≤ timeOfFrame w sampleRate := by
  rw [timeOfFrame, timeOfFrame, u64_of_lt (by omega), u64_of_lt (by omega)]
  apply Nat.div_le_div_right
  exact Nat.mul_le_mul_right _ le

end Runs

/-- In every interleaving with an ideal JACK, if each call of a client loads `next_frame` and
    `frame_stamp` of one cycle, then the frames and the times that the client gets never decrease. -/
theorem client_time_mono {frameStamp : Nat} {ops : List Access} {log : List AccessEntry} {s : Stamps}
    (e : execAll access (.init frameStamp) ops = some (log, s)) (ideal : ∀ x ∈ log, Ideal x)
    (same : ∀ x ∈ log, SameCycle x) (sampleRate : Nat) :
    ∀ l1 x l2 y l3 v w, log = l1 ++ x :: (l2 ++ y :: l3) → x.out = some v → y.out = some w →
      v ≤ w ∧ timeOfFrame v sampleRate ≤ timeOfFrame w sampleRate := by
  obtain ⟨run, -⟩ := run_of_execAll e
  obtain ⟨-, inv⟩ := run.inv StampsInv
    (fun mem inv e => (access_inv inv e (ideal _ mem) (same _ mem)).inv) (stampsInv_init frameStamp)
  rintro l1 x l2 y l3 v w rfl outx outy
  have memx : x ∈ l1 ++ x :: (l2 ++ y :: l3) := List.mem_append_right _ List.mem_cons_self
  have memr {z : AccessEntry} (mem : z ∈ l2 ++ y :: l3) : z ∈ l1 ++ x :: (l2 ++ y :: l3) :=
    List.mem_append_right _ (List.mem_cons_of_mem _ mem)
  have memy : y ∈ l2 ++ y :: l3 := List.mem_append_right _ List.mem_cons_self
  obtain ⟨s1, -, ex, run1⟩ := run.split
  obtain ⟨s2, run2, ey, -⟩ := run1.split
  -- the first call returns the frame of the clock, which does not decrease until the second one does
  obtain ⟨inv1, -, answer⟩ := access_inv (inv x memx) ex (ideal x memx) (same x memx)
  obtain ⟨pos1, ev⟩ := answer v outx
  obtain ⟨inv2, pos2, le2⟩ := run_frameNow run2 inv1 pos1
    (fun z mem => ideal z (memr (List.mem_append_left _ mem)))
    fun z mem => same z (memr (List.mem_append_left _ mem))
  obtain ⟨inv3, later, answer⟩ := access_inv inv2 ey (ideal y (memr memy)) (same y (memr memy))
  obtain ⟨pos3, le3⟩ := later pos2
  obtain ⟨-, ew⟩ := answer w outy
  have small := inv3.small pos3
  have le : v ≤ w := by omega
  exact ⟨le, timeOfFrame_mono sampleRate le (by omega)⟩

/-- One whole cycle of 64 frames at 1000, a call at 1060, a cycle at 1064 and another call. -/
def twoCalls : List Access :=
  [.start 64 1000, .store, .stamp, .loadNextFrame, .loadFrameStamp, .readClock 1060,
    .start 64 1064, .store, .stamp, .loadNextFrame, .loadFrameStamp, .readClock 1064]

/-- The same accesses, but the second call loads `next_frame` before the second cycle stores it. -/
def tornCall : List Access :=
  [.start 64 1000, .store, .stamp, .loadNextFrame, .loadFrameStamp, .readClock 1060,
    .loadNextFrame, .start 64 1064, .store, .stamp, .loadFrameStamp, .readClock 1064]

/-- The calls of `twoCalls` return 124 and 128. -/
theorem client_time_two : ∃ log s x y, execAll access (.init 0) twoCalls = some (log, s) ∧
    log[5]? = some x ∧ log[11]? = some y ∧ x.out = some 124 ∧ y.out = some 128 ∧
    timeOfFrame 124 48000 ≤ timeOfFrame 128 48000 := by
  cases run : execAll access (.init 0) twoCalls with
  | none => exact absurd run (by decide)
  | some r =>
    obtain ⟨log, s⟩ := r
    have fits : (∀ x ∈ log, Ideal x) ∧ (∀ x ∈ log, SameCycle x) ∧ ∃ l1 x l2 y,
        log = l1 ++ x :: (l2 ++ y :: []) ∧ log[5]? = some x ∧ log[11]? = some y ∧
          x.out = some 124 ∧ y.out = some 128 := by
      cases Option.some.inj (run.symm.trans rfl)
      exact ⟨by decide, by decide, [_, _, _, _, _], _, [_, _, _, _, _], _, rfl, rfl, rfl, rfl, rfl⟩
    obtain ⟨ideal, same, l1, x, l2, y, e, at5, at11, outx, outy⟩ := fits
    obtain ⟨-, le⟩ := client_time_mono run ideal same 48000 l1 x l2 y [] 124 128 e outx outy
    exact ⟨log, s, x, y, rfl, at5, at11, outx, outy, le⟩

/-- The calls of `tornCall` return 124 and then 64. -/
theorem client_time_back : ∃ log s x y, execAll access (.init 0) tornCall = some (log, s) ∧
    (∀ z ∈ log, Ideal z) ∧ log[5]? = some x ∧ log[11]? = some y ∧ x.out = some 124 ∧
    y.out = some 64 :=
  ⟨_, _, _, _, rfl, by decide, rfl, rfl, rfl, rfl⟩

end JackFofs
