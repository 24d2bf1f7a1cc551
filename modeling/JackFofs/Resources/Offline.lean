import JackFofs.Offline.Process
import JackFofs.Resources.System

/-!
# The resources of an offline job

`jfofs_offline_create` and `jfofs_offline_close` of `offline.c`, and the calls between them, as far as
they obtain, use and give back resources. Each of the failing exits of `jfofs_offline_create` gives
back what has been obtained so far, by a list of its own.

The buffers of the channels are entered in `ch_buf`, which has `MAX_CHANNELS` elements, and
`job->ch_buf[8]` is `job->interleaved`. Nothing checks that there are not more channels.
-/

namespace JackFofs.Resources
open Ownership Prog

/-- The pointers of `offline_job_s`, and the block of the job itself. -/
structure HeldJob where
  block : Handle Kind
  fofBank : Handle Kind
  chBuf : Filled maxChannels (Handle Kind)
  interleaved : Handle Kind
  sf : Handle Kind

/-- The loop of `jfofs_offline_create` that allocates `n` more channel buffers, each for the next element
    of `ch_buf`. If one fails it frees those before it. -/
def allocChBufs (chBuf : Filled maxChannels (Handle Kind)) :
    (n : Nat) → Prog Kind (Option (Filled maxChannels (Handle Kind)))
  | 0 => pure (some chBuf)
  | n + 1 =>
    within chBuf.elems.length maxChannels fun lt => do
      match ← alloc with
      | none => do
        releaseAll chBuf.elems
        pure none
      | some buf => allocChBufs (chBuf.push buf lt) n

/-- `jfofs_offline_create`, with the number of channels of the mode. -/
def jfofsOfflineCreate (nChans : Nat) : Prog Kind (Option HeldJob × Int) := do
  match ← alloc with
  | none => pure (none, memoryError)
  | some job => do
    use job
    match ← fofNewBank with
    | none => do
      free job
      pure (none, memoryError)
    | some fofBank => do
      match ← allocChBufs (.empty _ _) nChans with
      | none => do
        fofFreeBank fofBank
        free job
        pure (none, memoryError)
      | some chBuf => do
        match ← alloc with
        | none => do
          releaseAll chBuf.elems
          fofFreeBank fofBank
          free job
          pure (none, memoryError)
        | some interleaved => do
          match ← sfOpen with
          | none => do
            free interleaved
            releaseAll chBuf.elems
            fofFreeBank fofBank
            free job
            pure (none, failure)
          | some sf => pure (some ⟨job, fofBank, chBuf, interleaved, sf⟩, success)

/-- `jfofs_offline_add` -/
def jfofsOfflineAdd (job : HeldJob) : Prog Kind Int := do
  use job.block
  fofAddV job.fofBank

/-- `jfofs_offline_process`. The answer of `sf_writef_float` is the number of frames it has written. -/
def jfofsOfflineProcess (blockSize : Int) (job : HeldJob) : Prog Kind Int := do
  use job.block
  use job.fofBank
  useAll job.chBuf.elems
  use job.interleaved
  use job.sf
  let written ← status
  if written ≠ blockSize then pure failure else pure success

/-- `jfofs_offline_close` -/
def jfofsOfflineClose (job : HeldJob) : Prog Kind Unit := do
  use job.block
  sfClose job.sf
  fofFreeBank job.fofBank
  free job.interleaved
  releaseAll job.chBuf.elems
  free job.block

/-- The calls a client makes between `jfofs_offline_create` and `jfofs_offline_close`. -/
inductive OfflineCall where
  | add
  | process
deriving DecidableEq

/-- One call. -/
def offlineCall (blockSize : Int) (job : HeldJob) : OfflineCall → Prog Kind Int
  | .add => jfofsOfflineAdd job
  | .process => jfofsOfflineProcess blockSize job

/-- The calls in order, with their answers. -/
def offlineCalls (blockSize : Int) (job : HeldJob) : List OfflineCall → Prog Kind (List Int)
  | [] => pure []
  | c :: cs => do
    let status ← offlineCall blockSize job c
    let rest ← offlineCalls blockSize job cs
    pure (status :: rest)

/-- The use the header shows: create, any calls, close. The result is the status of
    `jfofs_offline_create` and the answers of the calls. -/
def offlineSession (nChans : Nat) (blockSize : Int) (calls : List OfflineCall) :
    Prog Kind (Int × List Int) := do
  let (job, status) ← jfofsOfflineCreate nChans
  match job with
  | none => pure (status, [])
  | some job => do
    let answers ← offlineCalls blockSize job calls
    jfofsOfflineClose job
    pure (status, answers)

/-! ## The specifications -/

/-- What a job owns. -/
def HeldJob.own (job : HeldJob) : Multiset (Handle Kind) :=
  {job.block} + {job.fofBank} + (job.chBuf.elems : Multiset (Handle Kind)) + {job.interleaved} + {job.sf}

variable {env : Env} {E : Fault → Prop} {job : HeldJob} {nChans n : Nat} {blockSize : Int}
  {chBuf : Filled maxChannels (Handle Kind)} {H : Multiset (Handle Kind)}

lemma coe_push {buf : Handle Kind} (lt : chBuf.elems.length < maxChannels) :
    ({buf} + (chBuf.elems : Multiset (Handle Kind)) : Multiset (Handle Kind)) =
      ((chBuf.push buf lt).elems : Multiset (Handle Kind)) := by
  rw [Filled.push, ← Multiset.coe_add, Multiset.coe_singleton]
  exact add_comm _ _

/-- The loop allocates all channel buffers or none, if there is room for them. -/
lemma allocChBufs_spec (room : chBuf.elems.length + n ≤ maxChannels) :
    Triple env E (chBuf.elems : Multiset (Handle Kind)) (allocChBufs chBuf n) fun r H =>
      (∃ a, r = some a ∧ H = a.elems ∧ a.elems.length = chBuf.elems.length + n) ∨
        (r = none ∧ H = 0 ∧ ¬ env.Grants) := by
  induction n generalizing chBuf with
  | zero => exact .pure (.inl ⟨chBuf, rfl, rfl, rfl⟩)
  | succ n ih =>
    have lt : chBuf.elems.length < maxChannels := by omega
    refine .within lt (.acquire_then (fun buf _ => ?_) fun no => ?_)
    · have length : (chBuf.push buf lt).elems.length = chBuf.elems.length + 1 := List.length_append
      refine .last (ih (by omega)) ((coe_push lt).trans (add_zero _).symm) ?_
      rintro r H (⟨a, rfl, rfl, eq⟩ | ⟨rfl, rfl, no⟩)
      · exact .inl ⟨a, rfl, add_zero _, by omega⟩
      · exact .inr ⟨rfl, rfl, no⟩
    · refine .call (.releaseAll chBuf.elems) (add_zero _).symm ?_
      rintro _ _ rfl
      exact .pure (.inr ⟨rfl, rfl, no⟩)

/-- Otherwise it leaves the array, as long as nothing is refused. -/
lemma allocChBufs_outside (grants : env.Grants) (many : maxChannels < chBuf.elems.length + n)
    (fault : E .outside) : Triple env E H (allocChBufs chBuf n) fun _ _ => False := by
  induction n generalizing chBuf H with
  | zero =>
    have fits := chBuf.fits
    omega
  | succ n ih =>
    by_cases lt : chBuf.elems.length < maxChannels
    · refine .within lt (.acquire_then (fun buf _ => ih ?_) fun no => absurd grants no)
      have length : (chBuf.push buf lt).elems.length = chBuf.elems.length + 1 := List.length_append
      omega
    · exact .outside (Nat.not_lt.1 lt) fault

/-- What `jfofs_offline_create` answers, and what it leaves behind. -/
def Created (env : Env) (nChans : Nat) (r : Option HeldJob × Int) (H : Multiset (Handle Kind)) :
    Prop :=
  (∃ job, r = (some job, success) ∧ H = job.own ∧ job.chBuf.elems.length = nChans) ∨
    (r.1 = none ∧ (r.2 = memoryError ∨ r.2 = failure) ∧ H = 0 ∧ ¬ env.Grants)

/-- `jfofs_offline_create` makes a whole job, or fails and gives back everything. -/
lemma jfofsOfflineCreate_spec (chans : nChans ≤ maxChannels) :
    Triple env E 0 (jfofsOfflineCreate nChans) (Created env nChans) := by
  refine .acquire_then (fun job _ => ?_) fun no => .pure (.inr ⟨rfl, .inl rfl, rfl, no⟩)
  refine .use_then (by simp) (.acquire_then (fun fofBank _ => ?_) fun no => ?_)
  case refine_2 => exact .release_then rfl (.pure (.inr ⟨rfl, .inl rfl, rfl, no⟩))
  have room : (Filled.empty maxChannels (Handle Kind)).elems.length + nChans ≤ maxChannels :=
    (Nat.zero_add nChans).symm ▸ chans
  refine .call (allocChBufs_spec room) (zero_add _).symm ?_
  rintro r H (⟨chBuf, rfl, rfl, length⟩ | ⟨rfl, rfl, no⟩)
  case inr =>
    refine .release_then (by abel) (.release_then rfl (.pure (.inr ⟨rfl, .inl rfl, rfl, no⟩)))
  refine .acquire_then (fun interleaved _ => ?_) fun no => ?_
  case refine_2 =>
    refine .call (.releaseAll chBuf.elems) rfl ?_
    rintro _ _ rfl
    exact .release_then (by abel) (.release_then rfl (.pure (.inr ⟨rfl, .inl rfl, rfl, no⟩)))
  refine .acquire_then (fun sf _ => .pure (.inl ⟨_, rfl, ?_, ?_⟩)) fun no => ?_
  · show _ = ({job} + {fofBank} + (chBuf.elems : Multiset (Handle Kind)) + {interleaved} + {sf} : Multiset _)
    abel
  · exact length.trans (Nat.zero_add nChans)
  · refine .release_then rfl (.call (.releaseAll chBuf.elems) rfl ?_)
    rintro _ _ rfl
    exact .release_then (by abel) (.release_then rfl (.pure (.inr ⟨rfl, .inr rfl, rfl, no⟩)))

/-- With more channels it leaves `ch_buf`, as long as nothing is refused. -/
lemma jfofsOfflineCreate_outside (grants : env.Grants) (many : maxChannels < nChans) (fault : E .outside) :
    Triple env E 0 (jfofsOfflineCreate nChans) fun _ _ => False := by
  refine .acquire_then (fun job _ => ?_) fun no => absurd grants no
  refine .use_then (by simp) (.acquire_then (fun fofBank _ => ?_) fun no => absurd grants no)
  have many : maxChannels < 0 + nChans := (Nat.zero_add nChans).symm ▸ many
  exact .stops (allocChBufs_outside grants many fault) (zero_add _).symm

/-- `jfofs_offline_close` gives back a whole job. -/
lemma jfofsOfflineClose_spec : Triple env E job.own (jfofsOfflineClose job) fun _ H => H = 0 := by
  rw [HeldJob.own]
  refine .use_then (by simp) (.release_then (F := {job.block} + {job.fofBank} +
    (job.chBuf.elems : Multiset (Handle Kind)) + {job.interleaved}) (by abel) ?_)
  refine .release_then (F := {job.block} + (job.chBuf.elems : Multiset (Handle Kind)) + {job.interleaved})
    (by abel) ?_
  refine .release_then (F := {job.block} + (job.chBuf.elems : Multiset (Handle Kind))) (by abel) ?_
  refine .call (.releaseAll job.chBuf.elems) (add_comm _ _) ?_
  rintro _ _ rfl
  exact .release (by abel)

/-- The calls on a job keep what it owns. -/
lemma offlineCall_spec (c : OfflineCall) :
    Triple env E job.own (offlineCall blockSize job c) fun _ H => H = job.own := by
  rw [HeldJob.own]
  cases c with
  | add =>
    exact .use_then (by simp) (.use_then (by simp) (.mono .status (fun _ fault => fault) fun _ _ e => e.1))
  | process =>
    refine .use_then (by simp) (.use_then (by simp) ?_)
    refine .call (.useAll fun h mem => ?_) (add_zero _).symm ?_
    · simp [mem]
    rintro _ _ rfl
    rw [add_zero]
    refine .use_then (by simp) (.use_then (by simp) (.status_then fun written => ?_))
    split <;> exact .pure rfl

/-- So do all calls. -/
lemma offlineCalls_spec (calls : List OfflineCall) :
    Triple env E job.own (offlineCalls blockSize job calls) fun answers H =>
      H = job.own ∧ answers.length = calls.length := by
  induction calls with
  | nil => exact .pure ⟨rfl, rfl⟩
  | cons c calls ih =>
    refine .call (offlineCall_spec c) (add_zero _).symm ?_
    rintro status _ rfl
    refine .call ih rfl ?_
    rintro answers _ ⟨rfl, length⟩
    exact .pure ⟨by abel, congrArg Nat.succ length⟩

lemma offlineSession_spec (chans : nChans ≤ maxChannels) (calls : List OfflineCall) :
    Triple env E 0 (offlineSession nChans blockSize calls) fun r H => H = 0 ∧
      ((r.1 = success ∧ r.2.length = calls.length) ∨
        ((r.1 = memoryError ∨ r.1 = failure) ∧ r.2 = [] ∧ ¬ env.Grants)) := by
  refine .call (jfofsOfflineCreate_spec chans) (add_zero 0).symm ?_
  rintro ⟨r, status⟩ H (⟨job, e, rfl, -⟩ | ⟨none, failed, rfl, no⟩)
  · cases e
    refine .call (offlineCalls_spec calls) rfl ?_
    rintro answers _ ⟨rfl, length⟩
    refine .call jfofsOfflineClose_spec rfl ?_
    rintro _ _ rfl
    exact .pure ⟨rfl, .inl ⟨rfl, length⟩⟩
  · cases none
    exact .pure ⟨rfl, .inr ⟨failed, rfl, no⟩⟩

/-- Whatever the libraries and the system refuse, and whatever status they answer: for a mode of at most
    `MAX_CHANNELS` channels, a session of `jfofs_offline_create`, any calls of `jfofs_offline_add` and
    `jfofs_offline_process` and `jfofs_offline_close` uses no resource that it does not have, gives back
    each one it has obtained exactly once, and leaves none behind. If no job is made, the status says so,
    and one is made if nothing is refused. For a mode of more channels, if nothing is refused, it writes
    beyond `ch_buf`. -/
theorem offline_session_clean (nChans : Nat) (blockSize : Int) (calls : List OfflineCall) (env : Env)
    (w : World Kind) :
    (nChans ≤ maxChannels →
      ∃ status answers w', offlineSession nChans blockSize calls env w = .ok ((status, answers), w') ∧
        w'.live = w.live ∧
        ((status = success ∧ answers.length = calls.length) ∨
          ((status = memoryError ∨ status = failure) ∧ answers = [] ∧ ¬ env.Grants))) ∧
    (maxChannels < nChans → env.Grants →
      offlineSession nChans blockSize calls env w = .error .outside) := by
  refine ⟨fun chans => ?_, fun many grants => ?_⟩
  · obtain ⟨e, -, false⟩ | ⟨⟨status, answers⟩, w', H, run, live, rfl, post⟩ :=
      (offlineSession_spec (E := fun _ => False) chans calls).run (zero_add w.live).symm
    · exact false.elim
    · exact ⟨status, answers, w', run, by rw [live, zero_add], post⟩
  · have spec : Triple env (· = .outside) 0 (offlineSession nChans blockSize calls) fun _ _ => False :=
      .stops (jfofsOfflineCreate_outside grants many rfl) (add_zero 0).symm
    obtain ⟨e, run, rfl⟩ := spec.faults (zero_add w.live).symm
    exact run

/-! ## The job of `Offline/Process` -/

section Process

variable {Bank Sample Argv : Type} {lib : Library Bank Sample Argv} {w w' : World Kind}
  {sampleRate mode nPreallocateFofs : Int} {size : Nat}

/-- The library grants what the environment grants, in the order of `jfofs_offline_create`. -/
structure Grants (lib : Library Bank Sample Argv) (sampleRate mode nPreallocateFofs : Int) (size : Nat)
    (grant : Nat → Bool) : Prop where
  job : lib.calloc 0 = grant 0
  bank : (lib.fofNewBank sampleRate mode nPreallocateFofs size).isSome = grant 1
  buf : ∀ i, lib.calloc (i + 1) = grant (i + 2)
  file : (lib.sfOpen sampleRate (lib.fofModeToChannels mode)).isSome =
    grant (lib.fofModeToChannels mode + 3)

/-- The numbers of the answers of `offline.c`. -/
def offlineCode : OfflineStatus → Int
  | .success => success
  | .failure => failure
  | .memoryError => memoryError

/-- The loop gets all buffers if all are granted. -/
lemma allocChBufs_answer {r : Option (Filled maxChannels (Handle Kind))}
    (run : allocChBufs chBuf n env w = .ok (r, w')) :
    (r.isSome → w'.asked = w.asked + n) ∧
      r.isSome = (List.range n).all fun i => env.grant (w.asked + i) := by
  induction n generalizing chBuf w with
  | zero =>
    cases run
    exact ⟨fun _ => rfl, rfl⟩
  | succ n ih =>
    obtain ⟨lt, run⟩ := within_inv run
    obtain ⟨buf, w1, grant, asked, run⟩ := acquire_run run
    have first : env.grant (w.asked + 0) = buf.isSome := grant.symm
    rw [List.range_succ_eq_map, List.all_cons, first, List.all_map]
    cases buf with
    | none =>
      obtain ⟨_, w2, -, run⟩ := bind_inv run
      cases run
      exact ⟨fun none => absurd none Bool.false_ne_true, rfl⟩
    | some buf =>
      obtain ⟨rest, all⟩ := ih run
      refine ⟨fun some => ?_, ?_⟩
      · rw [rest some, asked]
        omega
      · rw [all, asked]
        congr 1
        funext i
        rw [Function.comp, Nat.succ_eq_add_one, Nat.add_assoc, Nat.add_comm 1 i]

/-- The answer of `jfofs_offline_create`, by what is granted: whether there is a job, and the status. -/
def createAnswer (nChans : Nat) (grant : Nat → Bool) : Bool × OfflineStatus :=
  if !grant 0 || !grant 1 || !(List.range (nChans + 1)).all fun i => grant (i + 2) then
    (false, .memoryError)
  else if grant (nChans + 3) then (true, .success) else (false, .failure)

/-- What `jfofs_offline_create` of `Offline/Process` answers. -/
lemma jfofsOfflineCreate_answer {grant : Nat → Bool}
    (grants : Grants lib sampleRate mode nPreallocateFofs size grant) :
    ((JackFofs.jfofsOfflineCreate lib sampleRate mode nPreallocateFofs size).1.isSome,
        (JackFofs.jfofsOfflineCreate lib sampleRate mode nPreallocateFofs size).2) =
      createAnswer (lib.fofModeToChannels mode) grant := by
  have bufs : ((List.range (lib.fofModeToChannels mode + 1)).any fun i => !lib.calloc (i + 1)) =
      !(List.range (lib.fofModeToChannels mode + 1)).all fun i => grant (i + 2) := by
    simp only [grants.buf, List.all_eq_not_any_not, Bool.not_not]
  rw [JackFofs.jfofsOfflineCreate, createAnswer, grants.job]
  dsimp only
  rw [bufs, ← grants.bank, ← grants.file]
  cases grant 0 with
  | false => rfl
  | true =>
  cases lib.fofNewBank sampleRate mode nPreallocateFofs size with
  | none => rfl
  | some fofBank =>
  cases (List.range (lib.fofModeToChannels mode + 1)).all fun i => grant (i + 2) with
  | false => rfl
  | true =>
  cases lib.sfOpen sampleRate (lib.fofModeToChannels mode) with
  | none => rfl
  | some sf => rfl

/-- The same for the model of this module. -/
lemma offlineCreate_answer {r : Option HeldJob × Int}
    (run : jfofsOfflineCreate nChans env w = .ok (r, w')) :
    r.1.isSome = (createAnswer nChans fun i => env.grant (w.asked + i)).1 ∧
      r.2 = offlineCode (createAnswer nChans fun i => env.grant (w.asked + i)).2 := by
  rw [createAnswer, Nat.add_zero]
  obtain ⟨job, w1, grant, asked1, run⟩ := acquire_run run
  rw [← grant]
  cases job with
  | none =>
    cases run
    exact ⟨rfl, rfl⟩
  | some job =>
  obtain ⟨_, w2, run2, run⟩ := bind_inv run
  cases use_inv run2
  obtain ⟨fofBank, w2, grant, asked2, run⟩ := acquire_run run
  rw [← asked1, ← grant]
  cases fofBank with
  | none =>
    obtain ⟨_, _, -, run⟩ := bind_inv run
    cases run
    exact ⟨rfl, rfl⟩
  | some fofBank =>
  obtain ⟨chBuf, w3, run3, run⟩ := bind_inv run
  obtain ⟨asked3, all⟩ := allocChBufs_answer run3
  have grants : ((List.range nChans).all fun i => env.grant (w.asked + (i + 2))) = chBuf.isSome := by
    rw [all, asked2, asked1]
    congr 1
    funext i
    exact congrArg env.grant (by omega)
  rw [List.range_succ, List.all_append, grants]
  cases chBuf with
  | none =>
    obtain ⟨_, _, -, run⟩ := bind_inv run
    obtain ⟨_, _, -, run⟩ := bind_inv run
    cases run
    exact ⟨rfl, rfl⟩
  | some chBuf =>
  obtain ⟨interleaved, w4, grant, asked4, run⟩ := acquire_run run
  have asked3 := asked3 rfl
  have at3 : w.asked + (nChans + 2) = w3.asked := by omega
  rw [List.all_cons, List.all_nil, at3, ← grant]
  cases interleaved with
  | none =>
    obtain ⟨_, _, -, run⟩ := bind_inv run
    obtain ⟨_, _, -, run⟩ := bind_inv run
    obtain ⟨_, _, -, run⟩ := bind_inv run
    cases run
    exact ⟨rfl, rfl⟩
  | some interleaved =>
  obtain ⟨sf, w5, grant, -, run⟩ := acquire_run run
  have at4 : w.asked + (nChans + 3) = w4.asked := by omega
  rw [at4, ← grant]
  cases sf with
  | none =>
    obtain ⟨_, _, -, run⟩ := bind_inv run
    obtain ⟨_, _, -, run⟩ := bind_inv run
    obtain ⟨_, _, -, run⟩ := bind_inv run
    obtain ⟨_, _, -, run⟩ := bind_inv run
    cases run
    exact ⟨rfl, rfl⟩
  | some sf =>
    cases run
    exact ⟨rfl, rfl⟩

/-- `jfofs_offline_create` answers the same in both models, and makes a job in both or in neither. -/
theorem jfofsOfflineCreate_same (chans : lib.fofModeToChannels mode ≤ maxChannels)
    (grants : Grants lib sampleRate mode nPreallocateFofs size fun i => env.grant (w.asked + i)) :
    ∃ r w', jfofsOfflineCreate (lib.fofModeToChannels mode) env w = .ok (r, w') ∧
      r.1.isSome = (JackFofs.jfofsOfflineCreate lib sampleRate mode nPreallocateFofs size).1.isSome ∧
      r.2 = offlineCode (JackFofs.jfofsOfflineCreate lib sampleRate mode nPreallocateFofs size).2 := by
  obtain ⟨e, -, none⟩ | ⟨r, w', H, run, -⟩ :=
    (jfofsOfflineCreate_spec (E := fun _ => False) chans).run (zero_add w.live).symm
  · exact none.elim
  refine ⟨r, w', run, ?_⟩
  have answer := offlineCreate_answer run
  rw [← jfofsOfflineCreate_answer grants] at answer
  exact answer

end Process

end JackFofs.Resources
