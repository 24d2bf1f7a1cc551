import Mathlib.Algebra.BigOperators.Group.List.Basic
import JackFofs.Client.Handles
import JackFofs.Resources.System

/-!
# The resources of a client process

`jfofs_new` and `jfofs_free` of `api.c`, with `shmem_link` and `shmem_unmap`: the blocks, JACK clients
and file descriptors they obtain and give back, and every access to the shared memory. All handles of a
process share one mapping, and the first `jfofs_free` of a linked handle takes it away. An access after
that is an access through a bad pointer.

A call that ends well is a call of the process of `Client/Handles` (`apiCall_spec`), so what is known of
the mapping there holds here.

The failing exits of `jfofs_new` give back nothing. A client that calls it again and again until the
server is there keeps a JACK client more for each call (`api_leaks`).
-/

namespace JackFofs.Resources
open AddressSpace Ownership Prog Runs

variable {sizes : Sizes}

/-- `jfofs_s`, and what it holds. -/
structure HeldJfofs extends Jfofs where
  block : Handle Kind
  jClient : Handle Kind

/-- A client process: the shared memory as it sees it, `shmem->reference_cnt`, and its live handles. -/
structure ClientState where
  mem : Space
  gShmem : Nat
  referenceCnt : Int
  handles : List HeldJfofs

/-- A client process that has made no call. -/
def ClientState.start : ClientState := ⟨.empty, nullPtr, 0, []⟩

/-- The process without the blocks and the JACK clients. -/
def ClientState.process (s : ClientState) : Process :=
  ⟨s.mem, s.gShmem, s.referenceCnt, s.handles.map HeldJfofs.toJfofs⟩

/-- An access to the shared memory through the pointer `shm`. -/
def access (s : ClientState) (shm : Nat) : Prog Kind Unit := deref (s.mem.deref shm)

/-- `shmem_link`: the pointer, or a status. -/
def shmemLink (srv : ServerRegion sizes) (s : ClientState) :
    Prog Kind (Except Int Nat × ClientState) := do
  match ← acquire .fd with
  | none => pure (.error shmError, s)
  | some fd => do
    use fd
    if ← request then do
      -- the system chooses the address of the first mapping
      let first ← status
      let s := { s with mem := s.mem.mmap first.toNat sizes.shmem }
      access s first.toNat
      let s := { s with mem := s.mem.munmap first.toNat sizes.shmem }
      use fd
      let mapped ← request
      release fd
      -- `shmem_layout` reads the setup from `MAP_FAILED` if the second mapping fails
      deref (if mapped then some () else none)
      let s := { s with mem := s.mem.mmap srv.base srv.size }
      access s srv.base
      pure (.ok srv.base, { s with gShmem := srv.base, referenceCnt := s.referenceCnt + 1 })
    else pure (.error shmMapError, { s with gShmem := mapFailed })

/-- `shmem_unmap` -/
def shmemUnmap (srv : ServerRegion sizes) (shm : Nat) (s : ClientState) : Prog Kind ClientState := do
  access s shm
  pure { s with
    referenceCnt := s.referenceCnt - 1
    gShmem := if s.gShmem = shm then nullPtr else s.gShmem
    mem := s.mem.munmap shm srv.size }

/-- `jfofs_new`. The handle it returns joins those of the process. -/
def jfofsNew (srv : ServerRegion sizes) (shmem : Nat) (s : ClientState) :
    Prog Kind (Int × ClientState) := do
  match ← alloc with
  | none => pure (memoryError, s)
  | some block => do
    use block
    match ← jackClientOpen with
    | none => do
      let jstatus ← status
      pure (jackError jstatus, s)
    | some jClient => do
      let _ ← jackCall jClient
      use block
      if shmem ≠ nullPtr then do
        access s shmem
        pure (success, { s with
          referenceCnt := s.referenceCnt + 1
          handles := s.handles ++ [⟨⟨false, shmem⟩, block, jClient⟩] })
      else do
        match ← shmemLink srv s with
        | (.error status, s) => pure (if status = shmMapError then status else shmError, s)
        | (.ok shmem, s) =>
          pure (success, { s with handles := s.handles ++ [⟨⟨true, shmem⟩, block, jClient⟩] })

/-- The lines of `jfofs_free` for the shared memory. -/
def leaveShmem (srv : ServerRegion sizes) (jfofs : HeldJfofs) (s : ClientState) :
    Prog Kind ClientState :=
  if jfofs.isShmemLinked then shmemUnmap srv jfofs.shmem s
  else do
    access s jfofs.shmem
    pure { s with referenceCnt := s.referenceCnt - 1 }

/-- `jfofs_free` -/
def jfofsFree (srv : ServerRegion sizes) (jfofs : HeldJfofs) (s : ClientState) :
    Prog Kind ClientState := do
  use jfofs.block
  let _ ← jackCall jfofs.jClient
  jackClientClose jfofs.jClient
  use jfofs.block
  let s ← leaveShmem srv jfofs s
  free jfofs.block
  pure s

/-- The calls of a client: `jfofs_new` with a pointer to the shared memory or `NULL`, and `jfofs_free`
    for the handle at place `i`. -/
inductive ApiCall where
  | new (shmem : Nat)
  | free (i : Nat)

/-- One call. A call of `jfofs_free` needs a live handle. -/
def apiCall (srv : ServerRegion sizes) (s : ClientState) : ApiCall → Prog Kind (Int × ClientState)
  | .new shmem => jfofsNew srv shmem s
  | .free i => do
    let jfofs ← deref s.handles[i]?
    let s' ← jfofsFree srv jfofs s
    pure (success, { s' with handles := s.handles.eraseIdx i })

/-- One call of a client, as a step of a machine. It fails if the client crashes. -/
def apiExec (srv : ServerRegion sizes) (env : Env) (p : ClientState × World Kind) (c : ApiCall) :
    Option (Int × (ClientState × World Kind)) :=
  match apiCall srv p.1 c env p.2 with
  | .error _ => none
  | .ok ((status, s), w) => some (status, (s, w))

/-- A client that has made some calls, and its log. -/
abbrev ApiLog : Type := List (Entry (ClientState × World Kind) ApiCall Int)

/-- The call of the process, with the answers of the system. -/
def ApiCall.op (sys : SystemReply) : ApiCall → HandleOp
  | .new shmem => .new sys shmem
  | .free i => .free i

/-- The call goes to the shared memory through a pointer behind which there is none, or to a handle that
    is not live. -/
def Dangling (s : ClientState) : ApiCall → Prop
  | .new shmem => shmem ≠ nullPtr ∧ s.mem.deref shmem = none
  | .free i => ∀ h, s.handles[i]? = some h → s.mem.deref h.shmem = none

/-- The call links the shared memory, and the system refuses its second mapping, the last of the seven
    requests of such a call. -/
def MappingRefused (env : Env) (w : World Kind) (c : ApiCall) : Prop :=
  c = .new nullPtr ∧ env.grant (w.asked + 6) = false

/-- A call that is no `jfofs_free` of a linked handle beside others. -/
def FreesLinkedLast (s : ClientState) (c : ApiCall) : Prop :=
  ∀ i h, c = .free i → s.handles[i]? = some h → h.isShmemLinked → s.handles.length = 1

/-! ## What a call leaves behind -/

/-- What a handle owns. -/
def HeldJfofs.own (jfofs : HeldJfofs) : Multiset (Handle Kind) := {jfofs.block} + {jfofs.jClient}

/-- What a list of handles owns. -/
def ownAll (handles : List HeldJfofs) : Multiset (Handle Kind) := (handles.map HeldJfofs.own).sum

/-- What a call of `jfofs_new` with this status leaves behind, next to the handle. -/
def leftBy (status : Int) : Multiset Kind :=
  if status = success ∨ status = memoryError then 0
  else if status = shmError then {.block} + {.jackClient}
  else if status = shmMapError then {.block} + {.jackClient} + {.fd}
  else {.block}

/-- The numbers of the answers of `jfofs_new`. -/
def code : NewStatus → Int
  | .success => success
  | .memoryError => memoryError
  | .jackError jstatus => jackError jstatus
  | .shmError => shmError
  | .shmMapError => shmMapError

variable {env : Env} {E : Fault → Prop} {srv : ServerRegion sizes} {jfofs : HeldJfofs}
  {s s' : ClientState} {H : Multiset (Handle Kind)} {shmem : Nat} {c : ApiCall}

lemma ownAll_append (l l' : List HeldJfofs) : ownAll (l ++ l') = ownAll l + ownAll l' := by
  rw [ownAll, List.map_append, List.sum_append, ownAll, ownAll]

lemma ownAll_singleton (jfofs : HeldJfofs) : ownAll [jfofs] = {jfofs.block} + {jfofs.jClient} := by
  rw [ownAll, List.map_singleton, List.sum_singleton, HeldJfofs.own]

lemma ownAll_eraseIdx {handles : List HeldJfofs} {i : Nat} (e : handles[i]? = some jfofs) :
    ownAll handles = jfofs.own + ownAll (handles.eraseIdx i) := by
  obtain ⟨lt, e⟩ := List.getElem?_eq_some_iff.1 e
  have perm := (List.getElem_cons_eraseIdx_perm lt).map HeldJfofs.own
  rw [ownAll, ← perm.sum_eq, List.map_cons, List.sum_cons, e, ownAll]

lemma jackError_ne (jstatus n : Int) (lt : n < 0x10000) : jackError jstatus ≠ n := by
  have le : 0x10000 ≤ 0x10000 ||| jstatus.toNat := Nat.left_le_or
  rw [jackError]
  omega

lemma leftBy_jackError (jstatus : Int) : leftBy (jackError jstatus) = {.block} := by
  have ne := jackError_ne jstatus
  rw [leftBy, if_neg (not_or.2 ⟨ne _ (by decide), ne _ (by decide)⟩), if_neg (ne _ (by decide)),
    if_neg (ne _ (by decide))]

/-! ## One call -/

lemma access_then {β : Type} {f : Unit → Prog Kind β} {Q : β → Multiset (Handle Kind) → Prop}
    (there : s.mem.deref shmem = some ()) (next : Triple env E H (f ()) Q) :
    Triple env E H (access s shmem >>= f) Q := by
  rw [access, there]
  exact .deref_then next

lemma access_none {β : Type} {f : Unit → Prog Kind β} {Q : β → Multiset (Handle Kind) → Prop}
    (gone : s.mem.deref shmem = none) (fault : E .badPtr) :
    Triple env E H (access s shmem >>= f) Q := by
  rw [access, gone]
  exact .deref_none fault

/-- What `shmem_link` answers, as the process sees it, and what it leaves behind. -/
inductive Linked (srv : ServerRegion sizes) (s : ClientState) :
    Except Int Nat × ClientState → Multiset (Handle Kind) → Prop where
  | linked (sys) {s'} :
    JackFofs.shmemLink srv sys s.process = some (.ok srv.base, s'.process) →
    s'.handles = s.handles →
    Linked srv s (.ok srv.base, s') 0
  | noObject (sys) :
    JackFofs.shmemLink srv sys s.process = some (.error .shmError, s.process) →
    Linked srv s (.error shmError, s) 0
  | noMapping (sys) {s'} {fd : Handle Kind} :
    JackFofs.shmemLink srv sys s.process = some (.error .shmMapError, s'.process) →
    s'.handles = s.handles →
    fd.kind = .fd →
    Linked srv s (.error shmMapError, s') {fd}

/-- `shmem_link` does what it does for the process, and keeps its file descriptor if the first mapping
    fails. -/
lemma shmemLink_spec : Triple env (· = .badPtr) 0 (shmemLink srv s) (Linked srv s) := by
  refine .acquire_then (fun fd kind => ?_) fun _ => ?_
  case refine_2 =>
    exact .pure (.noObject ⟨true, .ok (), false, none, true⟩ rfl)
  refine .use_then (by simp) (.request_then (.status_then fun n => ?_) fun _ => ?_)
  case refine_2 =>
    rw [add_zero]
    exact .pure (.noMapping ⟨true, .ok (), true, none, true⟩ rfl rfl kind)
  refine access_then (Space.deref_mmap sizes.shmem_pos) ?_
  refine .use_then (by simp) (.request_then ?_ fun _ => ?_)
  case refine_2 => exact .release_then rfl (.deref_none rfl)
  refine .release_then rfl (.deref_then (access_then (Space.deref_mmap srv.size_pos) ?_))
  refine .pure (.linked ⟨true, .ok (), true, some (env.status n).toNat, true⟩ ?_ rfl)
  simp [JackFofs.shmemLink, ClientState.process, guard, Space.deref_mmap sizes.shmem_pos,
    Space.deref_mmap srv.size_pos]

/-- What `jfofs_new` answers, as the process sees it, the handle it makes, and what it leaves behind. -/
def Made (srv : ServerRegion sizes) (s : ClientState) (shmem : Nat) (r : Int × ClientState)
    (H : Multiset (Handle Kind)) : Prop :=
  ∃ sys status hs L, JackFofs.jfofsNew srv sys shmem s.process = some (status, r.2.process) ∧
    r.1 = code status ∧ r.2.handles = s.handles ++ hs ∧ H = ownAll hs + L ∧
    L.map Handle.kind = leftBy r.1

/-- `jfofs_new` -/
lemma jfofsNew_spec :
    Triple env (· = .badPtr) 0 (jfofsNew srv shmem s) (Made srv s shmem) := by
  have none (s : ClientState) : s.handles = s.handles ++ [] := (List.append_nil _).symm
  refine .acquire_then (fun block kb => ?_) fun _ => ?_
  case refine_2 =>
    exact .pure ⟨⟨false, .ok (), true, Option.none, true⟩, .memoryError, [], 0, rfl, rfl, none s, rfl, rfl⟩
  refine .use_then (by simp) (.acquire_then (fun jClient kc => ?_) fun _ => ?_)
  case refine_2 =>
    refine .status_then fun n => .pure ⟨⟨true, .error (env.status n).toNat, true, Option.none, true⟩,
      .jackError (env.status n).toNat, [], {block}, rfl, ?_, none s, ?_, ?_⟩
    · rfl
    · exact add_comm _ _
    · rw [leftBy_jackError, Multiset.map_singleton, kb]
  refine .call (jackCall_spec (by simp)) (add_zero _).symm ?_
  rintro _ _ ⟨rfl, -⟩
  refine .use_then (by simp) ?_
  split
  case isTrue given =>
    cases there : s.mem.deref shmem with
    | none => exact access_none there rfl
    | some u =>
      refine access_then there (.pure ⟨⟨true, .ok (), true, Option.none, true⟩, .success, [_], 0, ?_, rfl,
        rfl, ?_, rfl⟩)
      · simp [JackFofs.jfofsNew, given, ClientState.process, there]
      · rw [ownAll_singleton]
        abel
  case isFalse null =>
    have null := not_not.1 null
    subst null
    refine .call shmemLink_spec (zero_add _).symm ?_
    intro r H linked
    cases linked with
    | linked sys e handles =>
      refine .pure ⟨{ sys with posixMemalign := true, jackClientOpen := .ok () }, .success, [_], 0, ?_,
        rfl, congrArg (· ++ _) handles, ?_, rfl⟩
      · rw [jfofsNew_null e]
        simp [ClientState.process]
      · rw [ownAll_singleton]
        abel
    | noObject sys e =>
      refine .pure ⟨{ sys with posixMemalign := true, jackClientOpen := .ok () }, .shmError, [],
        {block} + {jClient}, ?_, rfl, none s, ?_, ?_⟩
      · rw [jfofsNew_null e]
        rfl
      · show _ = 0 + _
        abel
      · rw [Multiset.map_add, Multiset.map_singleton, Multiset.map_singleton, kb, kc]
        rfl
    | @noMapping sys s' fd e handles kf =>
      refine .pure ⟨{ sys with posixMemalign := true, jackClientOpen := .ok () }, .shmMapError, [],
        {block} + {jClient} + {fd}, ?_, rfl, handles.trans (none s), ?_, ?_⟩
      · rw [jfofsNew_null e]
        rfl
      · show _ = 0 + _
        abel
      · rw [Multiset.map_add, Multiset.map_add, Multiset.map_singleton, Multiset.map_singleton,
          Multiset.map_singleton, kb, kc, kf]
        rfl

lemma leaveShmem_spec (there : s.mem.deref jfofs.shmem = some ()) :
    Triple env E 0 (leaveShmem srv jfofs s) fun s' H => H = 0 ∧ s'.handles = s.handles ∧
      JackFofs.jfofsFree srv jfofs.toJfofs s.process = some s'.process := by
  have there' : s.process.mem.deref jfofs.shmem = some () := there
  cases linked : jfofs.isShmemLinked with
  | true =>
    rw [leaveShmem, if_pos linked]
    refine access_then there (.pure ⟨rfl, rfl, ?_⟩)
    rw [JackFofs.jfofsFree, if_pos linked, JackFofs.shmemUnmap, there']
    rfl
  | false =>
    rw [leaveShmem, if_neg (Bool.eq_false_iff.1 linked)]
    refine access_then there (.pure ⟨rfl, rfl, ?_⟩)
    rw [JackFofs.jfofsFree, if_neg (Bool.eq_false_iff.1 linked), there']
    rfl

lemma leaveShmem_gone (gone : s.mem.deref jfofs.shmem = none) (fault : E .badPtr) :
    Triple env E H (leaveShmem srv jfofs s) fun _ _ => False := by
  rw [leaveShmem]
  split
  · exact access_none gone fault
  · exact access_none gone fault

/-- `jfofs_free`, where the shared memory is still mapped. -/
lemma jfofsFree_spec (there : s.mem.deref jfofs.shmem = some ()) :
    Triple env E jfofs.own (jfofsFree srv jfofs s) fun s' H => H = 0 ∧ s'.handles = s.handles ∧
      JackFofs.jfofsFree srv jfofs.toJfofs s.process = some s'.process := by
  rw [HeldJfofs.own]
  refine .use_then (by simp) (.call (jackCall_spec (by simp)) (add_zero _).symm ?_)
  rintro _ _ ⟨rfl, -⟩
  refine .release_then (by abel) (.use_then (by simp) ?_)
  refine .call (leaveShmem_spec there) (zero_add _).symm ?_
  rintro s' _ ⟨rfl, handles, e⟩
  exact .release_then (by abel) (.pure ⟨rfl, handles, e⟩)

/-- `jfofs_free` crashes where the shared memory is not mapped any more. -/
lemma jfofsFree_gone (gone : s.mem.deref jfofs.shmem = none) (fault : E .badPtr) :
    Triple env E jfofs.own (jfofsFree srv jfofs s) fun _ _ => False := by
  rw [HeldJfofs.own]
  refine .use_then (by simp) (.call (jackCall_spec (by simp)) (add_zero _).symm ?_)
  rintro _ _ ⟨rfl, -⟩
  refine .release_then (by abel) (.use_then (by simp) ?_)
  exact .stops (leaveShmem_gone gone fault) (add_zero _).symm

/-- What the process answers to a call, and what the client has afterwards. -/
def Called (srv : ServerRegion sizes) (s : ClientState) (c : ApiCall) (r : Int × ClientState)
    (H : Multiset (Handle Kind)) : Prop :=
  ∃ sys status L, handleCall srv s.process (c.op sys) = some (status, r.2.process) ∧
    r.1 = code status ∧ H = ownAll r.2.handles + L ∧ L.map Handle.kind = leftBy r.1

/-- A call that ends well is a call of the process, and keeps what the client has. -/
lemma apiCall_spec : Triple env (· = .badPtr) (ownAll s.handles) (apiCall srv s c) (Called srv s c) := by
  cases c with
  | new shmem =>
    refine .last jfofsNew_spec (zero_add _).symm ?_
    rintro r _ ⟨sys, status, hs, L, e, answer, handles, rfl, kinds⟩
    refine ⟨sys, status, L, e, answer, ?_, kinds⟩
    rw [handles, ownAll_append]
    abel
  | free i =>
    rw [apiCall]
    cases live : s.handles[i]? with
    | none => exact .deref_none rfl
    | some jfofs =>
      refine .deref_then ?_
      cases there : s.mem.deref jfofs.shmem with
      | none => exact .stops (jfofsFree_gone there rfl) (ownAll_eraseIdx live)
      | some u =>
        refine .call (jfofsFree_spec there) (ownAll_eraseIdx live) ?_
        rintro s' _ ⟨rfl, handles, e⟩
        refine .pure ⟨⟨true, .ok (), true, none, true⟩, .success, 0, ?_, rfl, ?_, rfl⟩
        · have live' : s.process.handles[i]? = some jfofs.toJfofs := by
            rw [ClientState.process, List.getElem?_map, live]
            rfl
          simp only [ApiCall.op, handleCall, live', e, Option.bind_eq_bind, Option.bind_some]
          simp [ClientState.process, List.eraseIdx_map]
        · abel

/-! ## Where a call crashes -/

section Crashes

variable {w : World Kind} {β : Type}

lemma access_crash {f : Unit → Prog Kind β} (run : (access s shmem >>= f) env w = .error .badPtr) :
    s.mem.deref shmem = none ∨ f () env w = .error .badPtr := by
  obtain gone | ⟨_, -, run⟩ := deref_crash run
  · exact .inl gone
  · exact .inr run

/-- `shmem_link` crashes only at `MAP_FAILED`, the answer to its fourth request. -/
lemma shmemLink_crash (run : shmemLink srv s env w = .error .badPtr) :
    env.grant (w.asked + 3) = false := by
  obtain ⟨r, w1, -, asked1, run⟩ := acquire_run run
  cases r with
  | none => exact (pure_crash run).elim
  | some fd =>
    obtain ⟨w2, asked2, run⟩ := request_crash (use_crash run)
    split at run
    case isFalse => exact (pure_crash run).elim
    obtain ⟨w3, asked3, run⟩ := status_crash run
    obtain gone | run := access_crash run
    · cases gone.symm.trans (Space.deref_mmap sizes.shmem_pos)
    obtain ⟨w4, asked4, run⟩ := request_crash (use_crash run)
    obtain ⟨w5, -, run⟩ := release_crash run
    cases mapped : env.grant w3.asked with
    | false =>
      rw [asked3, asked2, asked1] at mapped
      exact mapped
    | true =>
      rw [mapped] at run
      obtain gone | run := access_crash run
      · cases gone.symm.trans (Space.deref_mmap srv.size_pos)
      · exact (pure_crash run).elim

/-- `jfofs_new` crashes at the pointer it is given, or in `shmem_link`. -/
lemma jfofsNew_crash (run : jfofsNew srv shmem s env w = .error .badPtr) :
    (shmem = nullPtr ∧ env.grant (w.asked + 6) = false) ∨
      (shmem ≠ nullPtr ∧ s.mem.deref shmem = none) := by
  obtain ⟨r, w1, -, asked1, run⟩ := acquire_run run
  cases r with
  | none => exact (pure_crash run).elim
  | some block =>
    obtain ⟨r, w2, -, asked2, run⟩ := acquire_run (use_crash run)
    cases r with
    | none =>
      obtain ⟨w3, -, run⟩ := status_crash run
      exact (pure_crash run).elim
    | some jClient =>
      obtain ⟨_, w3, asked3, run⟩ := jackCall_crash run
      have run := use_crash run
      split at run
      case isTrue given =>
        obtain gone | run := access_crash run
        · exact .inr ⟨given, gone⟩
        · exact (pure_crash run).elim
      case isFalse null =>
        obtain crash | ⟨⟨r, s'⟩, w4, -, run⟩ := bind_crash run
        · have mapped := shmemLink_crash crash
          rw [asked3, asked2, asked1] at mapped
          exact .inl ⟨not_not.1 null, mapped⟩
        · cases r with
          | error status => exact (pure_crash run).elim
          | ok shmem => exact (pure_crash run).elim

/-- `jfofs_free` crashes where the shared memory is not mapped any more. -/
lemma jfofsFree_crash (run : jfofsFree srv jfofs s env w = .error .badPtr) :
    s.mem.deref jfofs.shmem = none := by
  obtain ⟨_, w1, -, run⟩ := jackCall_crash (use_crash run)
  obtain ⟨w2, -, run⟩ := release_crash run
  obtain crash | ⟨s', w3, -, run⟩ := bind_crash (use_crash run)
  · rw [leaveShmem] at crash
    split at crash
    all_goals
      obtain gone | run := access_crash crash
      · exact gone
      · exact (pure_crash run).elim
  · obtain ⟨w4, -, run⟩ := release_crash run
    exact (pure_crash run).elim

/-- A call crashes where it may. -/
lemma apiCall_crash (run : apiCall srv s c env w = .error .badPtr) :
    MappingRefused env w c ∨ Dangling s c := by
  cases c with
  | new shmem =>
    obtain ⟨rfl, refused⟩ | dangling := jfofsNew_crash run
    · exact .inl ⟨rfl, refused⟩
    · exact .inr dangling
  | free i =>
    refine .inr fun h live => ?_
    obtain none | ⟨jfofs, live', run⟩ := deref_crash run
    · cases live.symm.trans none
    cases live.symm.trans live'
    obtain crash | ⟨s', w1, -, run⟩ := bind_crash run
    · exact jfofsFree_crash crash
    · exact (pure_crash run).elim

end Crashes

/-! ## Runs -/

/-- What is known of a client that had `F` at first and has made the calls of the log. -/
structure ClientHas (srv : ServerRegion sizes) (F : Multiset (Handle Kind)) (log : ApiLog)
    (p : ClientState × World Kind) : Prop where
  owns : ∃ L, p.2.live = ownAll p.1.handles + (L + F) ∧
    L.map Handle.kind = (log.map fun x => leftBy x.out).sum
  mapping : OneMapping srv p.1.process
  usable : (∀ x ∈ log, FreesLinkedLast x.pre.1 x.op) → HandlesUsable srv p.1.process

variable {p p' : ClientState × World Kind} {F : Multiset (Handle Kind)} {log : ApiLog} {status : Int}

lemma clientHas_start (srv : ServerRegion sizes) (w : World Kind) :
    ClientHas srv w.live [] (.start, w) := by
  have start : Unlinked srv ClientState.start.process := .client
  refine ⟨⟨0, ?_, rfl⟩, start.oneMapping, fun _ => start.usable⟩
  show _ = 0 + _
  rw [zero_add, zero_add]

/-- A call ends well, or crashes. -/
lemma ClientHas.called (has : ClientHas srv F log p) (env : Env) (c : ApiCall) :
    apiCall srv p.1 c env p.2 = .error .badPtr ∨
      ∃ r w H, apiCall srv p.1 c env p.2 = .ok (r, w) ∧ Called srv p.1 c r H ∧
        ∃ L, w.live = H + (L + F) ∧ L.map Handle.kind = (log.map fun x => leftBy x.out).sum := by
  obtain ⟨L, live, kinds⟩ := has.owns
  obtain ⟨e, run, rfl⟩ | ⟨r, w, H, run, live, called⟩ := apiCall_spec.run live
  · exact .inl run
  · exact .inr ⟨r, w, H, run, called, L, live, kinds⟩

lemma FreesLinkedLast.process {sys : SystemReply} (last : FreesLinkedLast s c) :
    FreesLast s.process (c.op sys) := by
  intro i h e live linked
  cases c with
  | new shmem => cases e
  | free j =>
    cases e
    rw [ClientState.process, List.getElem?_map, Option.map_eq_some_iff] at live
    obtain ⟨h', live, rfl⟩ := live
    rw [ClientState.process, List.length_map]
    exact last i h' rfl live linked

/-- The mapping after a call. -/
lemma Called.process {r : Int × ClientState} (called : Called srv s c r H)
    (one : OneMapping srv s.process) :
    OneMapping srv r.2.process ∧
      (FreesLinkedLast s c → HandlesUsable srv s.process → HandlesUsable srv r.2.process) := by
  obtain ⟨sys, status, L, e, -⟩ := called
  by_cases success : status = .success
  · subst success
    have step := handleCall_step one e
    exact ⟨step.oneMapping one, fun last usable => step.usable one last.process usable⟩
  · have same := handleCall_failed e success
    exact ⟨one.failed same, fun _ usable => usable.failed same⟩

/-- One more call. -/
lemma ClientHas.call {r : Int × ClientState} {w : World Kind} {L : Multiset (Handle Kind)}
    (has : ClientHas srv F log p) (called : Called srv p.1 c r H) (live : w.live = H + (L + F))
    (kinds : L.map Handle.kind = (log.map fun x => leftBy x.out).sum) :
    ClientHas srv F (log ++ [⟨p, c, r.1⟩]) (r.2, w) := by
  obtain ⟨one, usable⟩ := called.process has.mapping
  refine ⟨?_, one, fun last => ?_⟩
  · obtain ⟨sys, status, L', -, -, rfl, kinds'⟩ := called
    refine ⟨L' + L, ?_, ?_⟩
    · rw [live]
      abel
    · rw [Multiset.map_add, kinds, kinds', List.map_append, List.sum_append, List.map_singleton,
        List.sum_singleton, add_comm]
  · have before (x : Entry (ClientState × World Kind) ApiCall Int) (mem : x ∈ log) :
        FreesLinkedLast x.pre.1 x.op := last x (List.mem_append_left _ mem)
    have now := last ⟨p, c, r.1⟩ (List.mem_append_right _ (List.mem_singleton_self _))
    exact usable now (has.usable before)

/-- A client gets through its calls, or crashes at one of them. -/
lemma ClientHas.run (has : ClientHas srv F log p) (env : Env) (calls : List ApiCall) :
    ∃ log' p', execAll (apiExec srv env) p (calls.take log'.length) = some (log', p') ∧
      ClientHas srv F (log ++ log') p' ∧
      (log'.length = calls.length ∨ ∃ c, calls[log'.length]? = some c ∧
        apiCall srv p'.1 c env p'.2 = .error .badPtr) := by
  induction calls generalizing p log with
  | nil => exact ⟨[], p, rfl, by rwa [List.append_nil], .inl rfl⟩
  | cons c calls ih =>
    obtain crash | ⟨r, w, H, e, called, L, live, kinds⟩ := has.called env c
    · exact ⟨[], p, rfl, by rwa [List.append_nil], .inr ⟨c, rfl, crash⟩⟩
    · obtain ⟨log', p', run, has', ended⟩ := ih (has.call called live kinds)
      have step : apiExec srv env p c = some (r.1, (r.2, w)) := by
        rw [apiExec, e]
      refine ⟨⟨p, c, r.1⟩ :: log', p', ?_, ?_, ?_⟩
      · simp [execAll, step, run]
      · rwa [List.append_assoc] at has'
      · exact ended.imp (congrArg Nat.succ) id

/-- Where the shared memory is not mapped, every `jfofs_free` crashes. -/
lemma ClientHas.crash (has : ClientHas srv F log p) (gone : p.1.mem = .empty) (i : Nat) :
    apiCall srv p.1 (.free i) env p.2 = .error .badPtr := by
  obtain ⟨L, live, -⟩ := has.owns
  have spec : Triple env (· = .badPtr) (ownAll p.1.handles) (apiCall srv p.1 (.free i))
      fun _ _ => False := by
    rw [apiCall]
    cases e : p.1.handles[i]? with
    | none => exact .deref_none rfl
    | some jfofs =>
      refine .deref_then (.stops (jfofsFree_gone ?_ rfl) (ownAll_eraseIdx e))
      rw [gone, Space.deref_empty]
  obtain ⟨e, run, rfl⟩ := spec.faults live
  exact run

/-- After `jfofs_free` for a linked handle the other handles crash. -/
lemma ClientHas.freed (has : ClientHas srv F log p) {i : Nat} {h : HeldJfofs}
    (live : p.1.handles[i]? = some h) (linked : h.isShmemLinked)
    (e : apiExec srv env p (.free i) = some (status, p')) (j : Nat) :
    apiCall srv p'.1 (.free j) env p'.2 = .error .badPtr := by
  obtain crash | ⟨r, w, H, run, called, L, live', kinds⟩ := has.called env (.free i)
  · rw [apiExec, crash] at e
    cases e
  · rw [apiExec, run] at e
    cases e
    refine (has.call called live' kinds).crash ?_ j
    obtain ⟨sys, status, L, e, -⟩ := called
    rw [handleCall_free e] at e
    refine (handleCall_step has.mapping e).unmapped (h := h.toJfofs) ?_ linked
    rw [ClientState.process, List.getElem?_map, live]
    rfl

/-- Any calls of `jfofs_new` and `jfofs_free` by a client process that has no handle at first, whatever
    the system refuses and answers. The client gets through all of them, or crashes at one. That one is a
    `jfofs_new` to which the system refuses the second mapping of the shared memory, or it goes through a
    pointer behind which nothing is mapped, or to a handle that is not live.

    In every state it reaches it has the blocks and the JACK clients of its handles, and what the calls
    have left behind: nothing if there was no memory, a block if there was no JACK client, a JACK client
    as well if the shared memory could not be opened, and a file descriptor too if it could not be mapped.
    As long as it frees linked handles only as the last ones, all its handles can be used. When it has
    freed a linked handle beside others, `jfofs_free` for any of the others crashes, and nothing has to be
    refused for that. -/
theorem api_leaks (srv : ServerRegion sizes) (calls : List ApiCall) (env : Env) (w : World Kind) :
    ∃ log p, execAll (apiExec srv env) (.start, w) (calls.take log.length) = some (log, p) ∧
      (log.length = calls.length ∨ ∃ c, calls[log.length]? = some c ∧
        apiCall srv p.1 c env p.2 = .error .badPtr ∧ (MappingRefused env p.2 c ∨ Dangling p.1 c)) ∧
      (∃ L, p.2.live = (p.1.handles.map HeldJfofs.own).sum + L + w.live ∧
        L.map Handle.kind = (log.map fun x => leftBy x.out).sum) ∧
      ((∀ x ∈ log, FreesLinkedLast x.pre.1 x.op) → HandlesUsable srv p.1.process) ∧
      ∀ i h status p', p.1.handles[i]? = some h → h.isShmemLinked →
        apiExec srv env p (.free i) = some (status, p') →
        ∀ j h', p'.1.handles[j]? = some h' →
          apiCall srv p'.1 (.free j) env p'.2 = .error .badPtr := by
  obtain ⟨log, p, run, has, ended⟩ := (clientHas_start srv w).run env calls
  rw [List.nil_append] at has
  obtain ⟨L, live, kinds⟩ := has.owns
  refine ⟨log, p, run, ended.imp_right ?_, ⟨L, ?_, kinds⟩, has.usable, ?_⟩
  · rintro ⟨c, next, crash⟩
    exact ⟨c, next, crash, apiCall_crash crash⟩
  · rw [live, ownAll, add_assoc]
  · intro i h status p' live linked e j h' _
    exact has.freed live linked e j

/-- Everything is granted, and every status is zero. -/
def granted : Env := ⟨fun _ => true, fun _ => 0⟩

-- two linked handles: the second `jfofs_free` crashes
example : ∃ log p, execAll (apiExec region480 granted) (.start, ⟨0, 0⟩)
      [.new nullPtr, .new nullPtr, .free 0] = some (log, p) ∧
    apiExec region480 granted p (.free 0) = none :=
  ⟨_, _, rfl, rfl⟩

end JackFofs.Resources
