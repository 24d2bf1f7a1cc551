import JackFofs.Lib.AddressSpace
import JackFofs.Lib.Run
import JackFofs.Shmem.Layout

/-!
# The handles of a client process

Model of `shmem_link`, `shmem_ptr`, `shmem_unmap`, `jfofs_new` and `jfofs_free`, for the calls of one
process. The address space of the process shows the shared object of the server. `shmem_link` maps it
a first time anywhere, to learn its base and its size from the header, and a second time at this base.
An access through a pointer that is not mapped ends the process, so the model fails there.

The answers of the system come with the call. A handle is named by its place among the live ones. The
JACK client of a handle is left out.
-/

namespace JackFofs
open AddressSpace Runs

/-- The region that `shmem_create` mapped in the server, with the size and the address it wrote into
    the header. The header itself, `sizeof(shmem_t)` bytes, is part of it. -/
structure ServerRegion (sizes : Sizes) where
  base : Nat
  size : Nat
  base_pos : 0 < base
  header_le : sizes.shmem ≤ size

/-- `JFOFS_SUCCESS` and the errors of `jfofs_new`. -/
inductive NewStatus where
  | success
  | memoryError
  | jackError (jstatus : Nat)
  | shmError
  | shmMapError
deriving DecidableEq, Repr

/-- What the system answers during a call of `jfofs_new`. -/
structure SystemReply where
  posixMemalign : Bool
  jackClientOpen : Except Nat Unit
  shmOpen : Bool
  mmap : Option Nat
  mmapFixed : Bool

/-- `jfofs_s` -/
structure Jfofs where
  isShmemLinked : Bool
  shmem : Nat
deriving DecidableEq, Repr

/-- A process with its live handles, and `shmem->reference_cnt`. -/
structure Process where
  mem : Space
  gShmem : Nat
  referenceCnt : Int
  handles : List Jfofs

/-- `NULL` -/
def nullPtr : Nat := 0

/-- `MAP_FAILED` -/
def mapFailed : Nat := 2 ^ 64 - 1

variable {sizes : Sizes}

/-- `shmem_link` -/
def shmemLink (srv : ServerRegion sizes) (sys : SystemReply) (p : Process) :
    Option (Except NewStatus Nat × Process) :=
  if !sys.shmOpen then some (.error .shmError, p)
  else
    match sys.mmap with
    | none => some (.error .shmMapError, { p with gShmem := mapFailed })
    | some first => do
      let mem := p.mem.mmap first sizes.shmem
      mem.deref first
      let base := srv.base
      let size := srv.size
      let mem := mem.munmap first sizes.shmem
      -- `shmem_layout` reads the setup from `MAP_FAILED` if the second mapping fails
      guard sys.mmapFixed
      let mem := mem.mmap base size
      mem.deref base
      return (.ok base, { p with mem, gShmem := base, referenceCnt := p.referenceCnt + 1 })

/-- `shmem_ptr` -/
def shmemPtr (p : Process) : Nat := p.gShmem

/-- `shmem_unmap` -/
def shmemUnmap (srv : ServerRegion sizes) (shm : Nat) (p : Process) : Option Process := do
  p.mem.deref shm
  let size := srv.size
  return { p with
    referenceCnt := p.referenceCnt - 1
    gShmem := if p.gShmem = shm then nullPtr else p.gShmem
    mem := p.mem.munmap shm size }

/-- `jfofs_new` -/
def jfofsNew (srv : ServerRegion sizes) (sys : SystemReply) (shmem : Nat) (p : Process) :
    Option (NewStatus × Process) :=
  if !sys.posixMemalign then some (.memoryError, p)
  else
    match sys.jackClientOpen with
    | .error jstatus => some (.jackError jstatus, p)
    | .ok _ =>
      if shmem ≠ nullPtr then do
        p.mem.deref shmem
        return (.success, { p with
          referenceCnt := p.referenceCnt + 1
          handles := p.handles ++ [⟨false, shmem⟩] })
      else do
        match ← shmemLink srv sys p with
        | (.error status, p) =>
          return (if status = .shmMapError then status else .shmError, p)
        | (.ok shmem, p) => return (.success, { p with handles := p.handles ++ [⟨true, shmem⟩] })

/-- `jfofs_free` -/
def jfofsFree (srv : ServerRegion sizes) (jfofs : Jfofs) (p : Process) : Option Process :=
  if jfofs.isShmemLinked then shmemUnmap srv jfofs.shmem p
  else do
    p.mem.deref jfofs.shmem
    return { p with referenceCnt := p.referenceCnt - 1 }

/-- A call of the interface. `free i` is for the handle at place `i`. -/
inductive HandleOp where
  | new (sys : SystemReply) (shmem : Nat)
  | free (i : Nat)

/-- One call. A call of `jfofs_free` needs a live handle. -/
def handleCall (srv : ServerRegion sizes) (p : Process) : HandleOp → Option (NewStatus × Process)
  | .new sys shmem => jfofsNew srv sys shmem p
  | .free i => do
    let jfofs ← p.handles[i]?
    let p' ← jfofsFree srv jfofs p
    return (.success, { p' with handles := p.handles.eraseIdx i })

/-- What a call adds to `reference_cnt`. -/
def HandleOp.delta : HandleOp → Int
  | .new .. => 1
  | .free _ => -1

/-- The region can be used through every live handle, and `shmem_ptr` answers if one is linked. -/
def HandlesUsable (srv : ServerRegion sizes) (p : Process) : Prop :=
  ∀ h ∈ p.handles, p.mem.Maps h.shmem srv.size ∧ (h.isShmemLinked → shmemPtr p ≠ nullPtr)

/-- A process without handles: a client, or the server itself with its own mapping. -/
inductive Unlinked (srv : ServerRegion sizes) : Process → Prop where
  | client {referenceCnt} :
    Unlinked srv ⟨.empty, nullPtr, referenceCnt, []⟩
  | server {referenceCnt} :
    Unlinked srv ⟨Space.empty.mmap srv.base srv.size, srv.base, referenceCnt, []⟩

/-! ## One call -/

variable {srv : ServerRegion sizes} {p p' : Process} {op : HandleOp}

/-- What is true in every process: the region is mapped at its base or not at all, and all handles
    point to the base. -/
structure OneMapping (srv : ServerRegion sizes) (p : Process) : Prop where
  mem : p.mem = .empty ∨ p.mem = Space.empty.mmap srv.base srv.size
  shmem : ∀ h ∈ p.handles, h.shmem = srv.base

/-- The four calls that can succeed. -/
inductive HandleStep (srv : ServerRegion sizes) : Process → HandleOp → Process → Prop where
  | link {sys mem g cnt hs} :
    HandleStep srv ⟨mem, g, cnt, hs⟩ (.new sys nullPtr)
      ⟨Space.empty.mmap srv.base srv.size, srv.base, cnt + 1, hs ++ [⟨true, srv.base⟩]⟩
  | given {sys g cnt hs} :
    HandleStep srv ⟨Space.empty.mmap srv.base srv.size, g, cnt, hs⟩ (.new sys srv.base)
      ⟨Space.empty.mmap srv.base srv.size, g, cnt + 1, hs ++ [⟨false, srv.base⟩]⟩
  | unmap {i g cnt hs} :
    hs[i]? = some ⟨true, srv.base⟩ →
    HandleStep srv ⟨Space.empty.mmap srv.base srv.size, g, cnt, hs⟩ (.free i)
      ⟨.empty, if g = srv.base then nullPtr else g, cnt - 1, hs.eraseIdx i⟩
  | leave {i g cnt hs} :
    hs[i]? = some ⟨false, srv.base⟩ →
    HandleStep srv ⟨Space.empty.mmap srv.base srv.size, g, cnt, hs⟩ (.free i)
      ⟨Space.empty.mmap srv.base srv.size, g, cnt - 1, hs.eraseIdx i⟩

lemma ServerRegion.size_pos (srv : ServerRegion sizes) : 0 < srv.size :=
  Nat.lt_of_lt_of_le sizes.shmem_pos srv.header_le

lemma OneMapping.within (one : OneMapping srv p) : p.mem.Within srv.base srv.size := by
  obtain e | e := one.mem
  · rw [e]
    exact Space.within_empty
  · rw [e]
    exact Space.within_mmap Space.within_empty

/-- A pointer that can be used is the base of the region. -/
lemma OneMapping.of_deref (one : OneMapping srv p) {shm : Nat}
    (e : p.mem.deref shm = some ()) :
    p.mem = Space.empty.mmap srv.base srv.size ∧ shm = srv.base := by
  obtain e1 | e1 := one.mem
  · rw [e1] at e
    cases e
  · rw [e1] at e
    exact ⟨e1, Space.deref_mmap_empty e⟩

/-- `shmem_link` leaves exactly the region mapped. -/
lemma shmemLink_spec (one : OneMapping srv p) {sys : SystemReply} {shm : Nat}
    (e : shmemLink srv sys p = some (.ok shm, p')) :
    shm = srv.base ∧ p' = ⟨Space.empty.mmap srv.base srv.size, srv.base, p.referenceCnt + 1,
      p.handles⟩ := by
  rw [shmemLink] at e
  split at e
  · cases e
  split at e
  · cases e
  rename_i first _
  dsimp only at e
  rw [Space.deref_mmap sizes.shmem_pos] at e
  cases fixed : sys.mmapFixed with
  | false => simp [fixed, guard] at e
  | true =>
    simp only [fixed, guard, if_true, Option.bind_eq_bind, Option.bind_some,
      Space.deref_mmap srv.size_pos, Option.pure_def,
      Space.mmap_of_within (Space.within_munmap_mmap one.within)] at e
    cases e
    exact ⟨rfl, rfl⟩

/-- A successful call is one of the four. -/
lemma handleCall_step (one : OneMapping srv p)
    (e : handleCall srv p op = some (.success, p')) : HandleStep srv p op p' := by
  cases op with
  | new sys shmem =>
    rw [handleCall, jfofsNew] at e
    split at e
    · cases e
    split at e
    · cases e
    split at e
    case isTrue =>
      cases e1 : p.mem.deref shmem with
      | none => simp [e1] at e
      | some u =>
        obtain ⟨emem, rfl⟩ := one.of_deref e1
        simp only [e1, Option.bind_eq_bind, Option.bind_some] at e
        cases e
        obtain ⟨mem, g, cnt, hs⟩ := p
        cases emem
        exact .given
    case isFalse null =>
      rw [not_not.1 null]
      cases e1 : shmemLink srv sys p with
      | none => simp [e1] at e
      | some r =>
        obtain ⟨res, p1⟩ := r
        cases res with
        | error status =>
          simp only [e1, Option.bind_eq_bind, Option.bind_some] at e
          split at e
          case isTrue failed =>
            rw [failed] at e
            cases e
          case isFalse => cases e
        | ok shm =>
          obtain ⟨rfl, rfl⟩ := shmemLink_spec one e1
          simp only [e1, Option.bind_eq_bind, Option.bind_some] at e
          cases e
          exact .link
  | free i =>
    rw [handleCall] at e
    cases live : p.handles[i]? with
    | none => simp [live] at e
    | some h =>
      have eshm : h.shmem = srv.base := one.shmem h (List.mem_of_getElem? live)
      obtain ⟨linked, shm⟩ := h
      cases eshm
      rw [live] at e
      cases e1 : p.mem.deref srv.base with
      | none => cases linked <;> simp [jfofsFree, shmemUnmap, e1] at e
      | some u =>
        obtain ⟨emem, -⟩ := one.of_deref e1
        have within := one.within
        obtain ⟨mem, g, cnt, hs⟩ := p
        cases emem
        cases linked with
        | false =>
          simp only [jfofsFree, e1, Option.bind_eq_bind, Option.bind_some] at e
          cases e
          exact .leave live
        | true =>
          simp only [jfofsFree, shmemUnmap, e1, Option.bind_eq_bind, Option.bind_some,
            if_true] at e
          rw [Space.munmap_of_within within] at e
          cases e
          exact .unmap live

/-- `jfofs_new` without a pointer, where there is memory and a JACK client, answers as `shmem_link`. -/
lemma jfofsNew_null {sys : SystemReply} {res : Except NewStatus Nat}
    (e : shmemLink srv sys p = some (res, p')) :
    jfofsNew srv { sys with posixMemalign := true, jackClientOpen := .ok () } nullPtr p =
      match res with
      | .error status => some (if status = .shmMapError then status else .shmError, p')
      | .ok shmem => some (.success, { p' with handles := p'.handles ++ [⟨true, shmem⟩] }) := by
  have link : shmemLink srv { sys with posixMemalign := true, jackClientOpen := .ok () } p =
      some (res, p') := e
  cases res with
  | error status => simp [jfofsNew, link]
  | ok shmem => simp [jfofsNew, link]

/-- A call of `jfofs_new` that fails changes nothing but the pointer of `shmem_ptr`, to `MAP_FAILED`. -/
lemma jfofsNew_failed {sys : SystemReply} {shmem : Nat} {status : NewStatus}
    (e : jfofsNew srv sys shmem p = some (status, p')) (failed : status ≠ .success) :
    p' = p ∨ p' = { p with gShmem := mapFailed } := by
  rw [jfofsNew] at e
  split at e
  · cases e
    exact .inl rfl
  split at e
  · cases e
    exact .inl rfl
  split at e
  · cases e1 : p.mem.deref shmem with
    | none => simp [e1] at e
    | some u =>
      simp only [e1, Option.bind_eq_bind, Option.bind_some] at e
      cases e
      exact absurd rfl failed
  cases e1 : shmemLink srv sys p with
  | none => simp [e1] at e
  | some r =>
    obtain ⟨res, p1⟩ := r
    simp only [e1, Option.bind_eq_bind, Option.bind_some] at e
    cases res with
    | ok shm =>
      cases e
      exact absurd rfl failed
    | error status =>
      cases e
      rw [shmemLink] at e1
      split at e1
      · cases e1
        exact .inl rfl
      split at e1
      · cases e1
        exact .inr rfl
      · simp only [Option.bind_eq_bind, Option.bind_eq_some_iff, Option.pure_def] at e1
        obtain ⟨-, -, -, -, -, -, e1⟩ := e1
        cases e1

namespace HandleStep

lemma oneMapping (st : HandleStep srv p op p') (one : OneMapping srv p) : OneMapping srv p' := by
  cases st with
  | link =>
    refine ⟨.inr rfl, fun h mem => ?_⟩
    obtain mem | mem := List.mem_append.1 mem
    · exact one.shmem h mem
    · cases List.mem_singleton.1 mem
      rfl
  | given =>
    refine ⟨.inr rfl, fun h mem => ?_⟩
    obtain mem | mem := List.mem_append.1 mem
    · exact one.shmem h mem
    · cases List.mem_singleton.1 mem
      rfl
  | unmap live => exact ⟨.inl rfl, fun h mem => one.shmem h (List.mem_of_mem_eraseIdx mem)⟩
  | leave live => exact ⟨.inr rfl, fun h mem => one.shmem h (List.mem_of_mem_eraseIdx mem)⟩

/-- Every call counts. -/
lemma referenceCnt (st : HandleStep srv p op p') :
    p'.referenceCnt = p.referenceCnt + op.delta := by
  cases st <;> rfl

end HandleStep

/-- A call that is no `jfofs_free` of a linked handle beside others. -/
def FreesLast (p : Process) (op : HandleOp) : Prop :=
  ∀ i h, op = .free i → p.handles[i]? = some h → h.isShmemLinked → p.handles.length = 1

/-- The call of `jfofs_free` for a linked handle takes the mapping away. -/
lemma HandleStep.unmapped {i : Nat} {h : Jfofs} (st : HandleStep srv p (.free i) p')
    (live : p.handles[i]? = some h) (linked : h.isShmemLinked) : p'.mem = .empty := by
  cases st with
  | unmap live' => rfl
  | leave live' =>
    cases live.symm.trans live'
    cases linked

/-- After `shmem_unmap` the other handles point nowhere. -/
lemma HandleStep.freesLast (st : HandleStep srv p op p') (usable : HandlesUsable srv p') :
    FreesLast p op := by
  rintro i h rfl live linked
  cases st with
  | @unmap _ g cnt hs live' =>
    have lt : i < hs.length := (List.getElem?_eq_some_iff.1 live').1
    cases erased : hs.eraseIdx i with
    | nil =>
      have len := List.length_eraseIdx_of_lt lt
      rw [erased, List.length_nil] at len
      show hs.length = 1
      omega
    | cons other rest =>
      obtain ⟨maps, -⟩ := usable other (erased.symm ▸ List.mem_cons_self)
      exact absurd maps (Space.not_maps_empty srv.size_pos)
  | leave live' =>
    cases live.symm.trans live'
    cases linked

/-- Any other call keeps the handles usable. -/
lemma HandleStep.usable (st : HandleStep srv p op p') (one : OneMapping srv p)
    (last : FreesLast p op) (usable : HandlesUsable srv p) : HandlesUsable srv p' := by
  have maps : (Space.empty.mmap srv.base srv.size).Maps srv.base srv.size := Space.maps_mmap
  have one' := st.oneMapping one
  cases st with
  | link =>
    intro h mem
    rw [one'.shmem h mem]
    exact ⟨maps, fun _ => Nat.ne_of_gt srv.base_pos⟩
  | given =>
    intro h mem
    rw [one'.shmem h mem]
    refine ⟨maps, fun linked => ?_⟩
    obtain mem | mem := List.mem_append.1 mem
    · exact (usable h mem).2 linked
    · cases List.mem_singleton.1 mem
      cases linked
  | @unmap i g cnt hs live =>
    intro h mem
    have len : hs.length = 1 := last i _ rfl live rfl
    have lt : i < hs.length := (List.getElem?_eq_some_iff.1 live).1
    have none_left : hs.eraseIdx i = [] := by
      apply List.eq_nil_of_length_eq_zero
      rw [List.length_eraseIdx_of_lt lt, len]
    rw [none_left] at mem
    cases mem
  | leave live =>
    intro h mem
    exact usable h (List.mem_of_mem_eraseIdx mem)

/-- A call of `jfofs_free` that returns counts as a success. -/
lemma handleCall_free {i : Nat} {status : NewStatus}
    (e : handleCall srv p (.free i) = some (status, p')) : status = .success := by
  simp only [handleCall, Option.bind_eq_bind, Option.bind_eq_some_iff, Option.pure_def] at e
  obtain ⟨_, -, _, -, e⟩ := e
  cases e
  rfl

/-- A call that fails keeps the handles as they are. -/
lemma handleCall_failed {status : NewStatus} (e : handleCall srv p op = some (status, p'))
    (failed : status ≠ .success) : p' = p ∨ p' = { p with gShmem := mapFailed } := by
  cases op with
  | new sys shmem => exact jfofsNew_failed e failed
  | free i => exact absurd (handleCall_free e) failed

lemma HandlesUsable.failed (usable : HandlesUsable srv p)
    (same : p' = p ∨ p' = { p with gShmem := mapFailed }) : HandlesUsable srv p' := by
  obtain rfl | rfl := same
  · exact usable
  · have failed : mapFailed ≠ nullPtr := by decide
    exact fun h mem => ⟨(usable h mem).1, fun _ => failed⟩

lemma OneMapping.failed (one : OneMapping srv p)
    (same : p' = p ∨ p' = { p with gShmem := mapFailed }) : OneMapping srv p' := by
  obtain rfl | rfl := same
  · exact one
  · exact ⟨one.mem, one.shmem⟩

/-! ## Runs -/

lemma Unlinked.oneMapping (start : Unlinked srv p) : OneMapping srv p := by
  cases start with
  | client => exact ⟨.inl rfl, fun h mem => absurd mem List.not_mem_nil⟩
  | server => exact ⟨.inr rfl, fun h mem => absurd mem List.not_mem_nil⟩

lemma Unlinked.usable (start : Unlinked srv p) : HandlesUsable srv p := by
  cases start <;> exact fun h mem => absurd mem List.not_mem_nil

/-- In a run of successful calls, the live handles are usable in every state and every call counts
    if and only if a linked handle is only ever freed as the last one. -/
theorem handles_usable_iff {ops : List HandleOp} {log : List (Entry Process HandleOp NewStatus)}
    (start : Unlinked srv p) (run : execAll (handleCall srv) p ops = some (log, p'))
    (success : ∀ x ∈ log, x.out = .success) :
    ((∀ x ∈ log, HandlesUsable srv x.pre) ∧ HandlesUsable srv p' ∧
        ∀ x ∈ log, ∀ p1, handleCall srv x.pre x.op = some (x.out, p1) →
          p1.referenceCnt = x.pre.referenceCnt + x.op.delta) ↔
      ∀ x ∈ log, FreesLast x.pre x.op := by
  obtain ⟨run, -⟩ := run_of_execAll run
  have one := run.inv (OneMapping srv)
    (fun {x p1} mem one e => (handleCall_step one (success x mem ▸ e)).oneMapping one)
    start.oneMapping
  have step : ∀ x ∈ log, ∀ p1, handleCall srv x.pre x.op = some (x.out, p1) →
      HandleStep srv x.pre x.op p1 :=
    fun x mem p1 e => handleCall_step (one.2 x mem) (success x mem ▸ e)
  constructor
  · rintro ⟨usable, last, -⟩ x mem
    obtain ⟨p1, e, usable1⟩ := run.post usable last mem
    exact (step x mem p1 e).freesLast usable1
  · intro frees
    have usable := run.inv (HandlesUsable srv)
      (fun {x p1} mem usable e => (step x mem p1 e).usable (one.2 x mem) (frees x mem) usable)
      start.usable
    exact ⟨usable.2, usable.1, fun x mem p1 e => (step x mem p1 e).referenceCnt⟩

/-- The region of `shmem_layout_sound_two`. -/
def region480 : ServerRegion abi64.toSizes := ⟨4096, 480, by decide, by decide⟩

/-- All calls to the system succeed; the first mapping is at 8192. -/
def willing : SystemReply := ⟨true, .ok (), true, some 8192, true⟩

/-- A handle is linked, a second one is given its region, and the linked one is freed last. -/
theorem handles_usable_given :
    ∃ log p', execAll (handleCall region480) ⟨.empty, nullPtr, 0, []⟩
        [.new willing nullPtr, .new willing 4096, .free 1, .free 0] = some (log, p') ∧
      (∀ x ∈ log, HandlesUsable region480 x.pre) ∧ p'.referenceCnt = 0 := by
  have run : execAll (handleCall region480) ⟨.empty, nullPtr, 0, []⟩
      [.new willing nullPtr, .new willing 4096, .free 1, .free 0] = some (_, _) := rfl
  refine ⟨_, _, run, ((handles_usable_iff .client run ?_).2 ?_).1, rfl⟩
  · intro x mem
    simp only [List.mem_cons, List.not_mem_nil, or_false] at mem
    rcases mem with rfl | rfl | rfl | rfl <;> rfl
  · intro x mem i h e live linked
    simp only [List.mem_cons, List.not_mem_nil, or_false] at mem
    rcases mem with rfl | rfl | rfl | rfl <;> cases e
    · cases live
      cases linked
    · rfl

/-- Two handles are linked and the first one is freed: the second one has lost its region, and
    `shmem_ptr` is `NULL`. -/
theorem handles_usable_two_linked :
    ∃ log p', execAll (handleCall region480) ⟨.empty, nullPtr, 0, []⟩
        [.new willing nullPtr, .new willing nullPtr, .free 0] = some (log, p') ∧
      (∀ x ∈ log, x.out = .success) ∧ p'.handles = [⟨true, 4096⟩] ∧
      (¬ p'.mem.Maps 4096 480) ∧ shmemPtr p' = nullPtr ∧ ¬ HandlesUsable region480 p' := by
  refine ⟨_, _, rfl, ?_, rfl, ?_, rfl, ?_⟩
  · intro x mem
    simp only [List.mem_cons, List.not_mem_nil, or_false] at mem
    rcases mem with rfl | rfl | rfl <;> rfl
  · intro maps
    cases maps 0 (by decide)
  · intro usable
    cases (usable ⟨true, 4096⟩ List.mem_cons_self).1 0 (by decide)

end JackFofs
