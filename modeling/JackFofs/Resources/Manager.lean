import JackFofs.Conc.Bounds
import JackFofs.Resources.Clients

/-!
# The life of the server

`shmem_create`, `manager_create` with the functions it calls, `manager_free` and `main` with its
`exit_handler`, as far as they obtain, use and give back resources. The name of the shared memory is
left out: it belongs to no process.

`manager_new` follows the pointers to the controller and the mixer without a check, and
`manager_activate_clients` those to the DSP clients. So the server may crash if one of them could not
be made. Otherwise `main` gives back everything but the mapping of the shared memory.

The DSP clients are entered in arrays of `MAX_DSP_CLIENTS` elements, and their number comes from the
command line. `mgr->dsp[8]` is `mgr->mix`. So all this is for servers of at most `MAX_DSP_CLIENTS`
clients and `MAX_CHANNELS` channels. With more of them, and nothing refused, the server leaves an array
while it starts.

The signal that ends the server comes when it has been started, and only one comes.
-/

namespace JackFofs.Resources
open Ownership Prog

/-- The pointers of `manager_s`, and its own block. The first `setup.n_clients` elements of `dsp` are
    filled. -/
structure HeldManager where
  block : Handle Kind
  ctrl : Option HeldCtrl
  mix : Option HeldMix
  dsp : Filled maxDspClients (Option HeldDsp)

/-- `shmem_create`: the mapping, or a status. -/
def shmemCreate : Prog Kind (Except Int (Handle Kind)) := do
  match ← acquire .fd with
  | none => pure (.error shmError)
  | some fd => do
    use fd
    let truncated ← status
    if truncated < 0 then do
      release fd
      pure (.error shmError)
    else do
      use fd
      let mapped ← acquire .mapping
      release fd
      match mapped with
      | none => pure (.error shmMapError)
      | some shmem => do
        use shmem
        pure (.ok shmem)

/-- The loop of `manager_new` that makes `n` more DSP clients and enters them in `mgr->dsp` and in
    `mgr->ctrl->dsp`. -/
def newDspClients (nChans : Nat) (dsp : Filled maxDspClients (Option HeldDsp)) :
    (n : Nat) → Prog Kind (Filled maxDspClients (Option HeldDsp))
  | 0 => pure dsp
  | n + 1 => do
    let (d, _) ← dspClientNew nChans
    within dsp.elems.length maxDspClients fun lt => newDspClients nChans (dsp.push d lt) n

/-- `manager_new` -/
def managerNew (shmem : Handle Kind) (nClients nChans : Nat) : Prog Kind (Option HeldManager) := do
  match ← alloc with
  | none => pure none
  | some block => do
    use block
    let (ctrl, _) ← ctrlClientNew
    let (mix, _) ← mixClientNew nChans
    let m ← deref mix
    use m.block
    let c ← deref ctrl
    use c.block
    jackTell c.jClient
    jackTell c.jClient
    use shmem
    let dsp ← newDspClients nChans (.empty _ _) nClients
    pure (some ⟨block, ctrl, mix, dsp⟩)

/-- `manager_activate_clients` -/
def managerActivateClients (mgr : HeldManager) : Prog Kind Int := do
  use mgr.block
  let status ← mixClientActivate mgr.mix
  if status ≠ 0 then pure status
  else do
    let status ← firstError (mgr.dsp.elems.map dspClientActivate)
    if status ≠ 0 then pure status else ctrlClientActivate mgr.ctrl

/-- `manager_deactivate_clients` -/
def managerDeactivateClients (mgr : HeldManager) : Prog Kind Int := do
  use mgr.block
  let status ← ctrlClientDeactivate mgr.ctrl
  if status ≠ 0 then pure status
  else do
    let status ← firstError (mgr.dsp.elems.map dspClientDeactivate)
    if status ≠ 0 then pure status else mixClientDeactivate mgr.mix

/-- One round of the first loop of `manager_connect_clients`: the controller to a DSP client. -/
def connectCtrl (ctrl : Option HeldCtrl) (dsp : Option HeldDsp) : Prog Kind Int := do
  let ctrl ← deref ctrl
  use ctrl.block
  let dsp ← deref dsp
  use dsp.block
  jackCall ctrl.jClient

/-- One round of the second loop of `manager_connect_clients`: a DSP client to the mixer, channel by
    channel. -/
def connectMix (mix : Option HeldMix) (dsp : Option HeldDsp) : Prog Kind Int := do
  let dsp ← deref dsp
  use dsp.block
  firstError <| (List.range dsp.nChans).map fun _ => do
    let mix ← deref mix
    use mix.block
    jackCall dsp.jClient

/-- `manager_connect_clients` -/
def managerConnectClients (mgr : HeldManager) : Prog Kind Int := do
  use mgr.block
  let status ← firstError (mgr.dsp.elems.map (connectCtrl mgr.ctrl))
  if status ≠ 0 then pure status
  else do
    let status ← firstError (mgr.dsp.elems.map (connectMix mgr.mix))
    if status ≠ 0 then pure status else pure success

/-- The loop of `manager_free` over the DSP clients. -/
def freeDspClients : List (Option HeldDsp) → Prog Kind Unit
  | [] => pure ()
  | dsp :: rest => do
    freePtr dspClientFree dsp
    freeDspClients rest

/-- `manager_free`, of a manager that is not `NULL` -/
def managerFree (mgr : HeldManager) : Prog Kind Unit := do
  let _ ← managerDeactivateClients mgr
  freePtr mixClientFree mgr.mix
  freeDspClients mgr.dsp.elems
  freePtr ctrlClientFree mgr.ctrl
  free mgr.block

/-- `manager_create`: the manager, or `NULL` and a status. -/
def managerCreate (nClients nChans : Nat) : Prog Kind (Except Int HeldManager) := do
  match ← shmemCreate with
  | .error status => pure (.error status)
  | .ok shmem => do
    match ← managerNew shmem nClients nChans with
    | none => pure (.error memoryError)
    | some mgr => do
      let status ← managerActivateClients mgr
      if status ≠ 0 then do
        managerFree mgr
        pure (.error status)
      else do
        let status ← managerConnectClients mgr
        if status ≠ 0 then do
          managerFree mgr
          pure (.error status)
        else pure (.ok mgr)

/-- What `exit_handler` does with a manager that is not `NULL`. -/
def exitManager (mgr : HeldManager) : Prog Kind Unit := do
  let _ ← managerDeactivateClients mgr
  managerFree mgr

/-- `exit_handler`: the argument of `exit`. -/
def exitHandler (mgr : Option HeldManager) (status : Int) : Prog Kind Int := do
  freePtr exitManager mgr
  pure (if status ≠ 0 then 1 else 0)

/-- `main` of the server: whether the server has been started, and the exit code. A server that has
    been started runs until it gets a signal, and `termination_handler` ends it, or `sleep` returns. -/
def serverMain (nClients nChans : Nat) (signalled : Bool) : Prog Kind (Bool × Int) := do
  match ← managerCreate nClients nChans with
  | .error status => do
    let code ← exitHandler none status
    pure (false, code)
  | .ok mgr => do
    let code ← exitHandler (some mgr) (if signalled then 1 else 0)
    pure (true, code)

/-! ## The specifications -/

/-- What a list of DSP clients owns. -/
def ownDsp (dsp : List (Option HeldDsp)) : Multiset (Handle Kind) :=
  (dsp.map (ownPtr HeldDsp.own)).sum

@[simp] lemma ownDsp_cons (d : Option HeldDsp) (l : List (Option HeldDsp)) :
    ownDsp (d :: l) = ownPtr HeldDsp.own d + ownDsp l := by
  rw [ownDsp, List.map_cons, List.sum_cons, ownDsp]

lemma ownDsp_append (l l' : List (Option HeldDsp)) : ownDsp (l ++ l') = ownDsp l + ownDsp l' := by
  rw [ownDsp, List.map_append, List.sum_append, ownDsp, ownDsp]

/-- What a manager owns. -/
def HeldManager.own (mgr : HeldManager) : Multiset (Handle Kind) :=
  {mgr.block} + ownPtr HeldCtrl.own mgr.ctrl + ownPtr HeldMix.own mgr.mix + ownDsp mgr.dsp.elems

/-- The managers that `manager_new` makes. -/
structure HeldManager.Made (env : Env) (mgr : HeldManager) : Prop where
  ctrl : mgr.ctrl.isSome
  mix : mgr.mix.isSome
  dsp : env.Grants → ∀ d ∈ mgr.dsp.elems, d.isSome

variable {env : Env} {E : Fault → Prop} {H : Multiset (Handle Kind)} {shmem : Handle Kind}
  {nClients nChans n : Nat} {mgr : HeldManager} {signalled : Bool}

/-- `shmem_create` leaves nothing behind but a mapping that it returns. -/
lemma shmemCreate_spec : Triple env E 0 shmemCreate fun r H =>
    (∃ shmem : Handle Kind, r = .ok shmem ∧ shmem.kind = .mapping ∧ H = {shmem}) ∨
      ∃ status, r = .error status ∧ status ≠ 0 ∧ H = 0 ∧ ¬ env.Calm := by
  refine .acquire_then (fun fd _ => ?_) fun no => ?_
  case refine_2 => exact .pure (.inr ⟨_, rfl, by decide, rfl, fun calm => no calm.grants⟩)
  refine .use_then (by simp) (.status_then fun n => ?_)
  split
  case isTrue neg =>
    refine .release_then rfl (.pure (.inr ⟨_, rfl, by decide, rfl, fun calm => ?_⟩))
    rw [calm.status] at neg
    exact absurd neg (by decide)
  refine .use_then (by simp) (.acquire_then (fun shmem kind => ?_) fun no => ?_)
  · refine .release_then (by abel) (.use_then (by simp) (.pure (.inl ⟨shmem, rfl, kind, rfl⟩)))
  · refine .release_then (by abel)
      (.pure (.inr ⟨_, rfl, by decide, rfl, fun calm => no calm.grants⟩))

/-- The DSP clients in the array, and what the constructors have left behind: all clients have been made
    if nothing is refused, and nothing is left behind unless one is missing. -/
structure Entered (env : Env) (dsp : Filled maxDspClients (Option HeldDsp)) (H : Multiset (Handle Kind)) :
    Prop where
  all : env.Grants → ∀ d ∈ dsp.elems, d.isSome
  left : ∃ G, H = ownDsp dsp.elems + G ∧ ((∀ d ∈ dsp.elems, d.isSome) → G = 0)

lemma entered_empty : Entered env (.empty _ _) 0 :=
  ⟨fun _ _ mem => absurd mem List.not_mem_nil, 0, rfl, fun _ => rfl⟩

/-- One more client. -/
lemma Entered.push {dsp : Filled maxDspClients (Option HeldDsp)} {d : Option HeldDsp} {status : Int}
    {H' : Multiset (Handle Kind)} (entered : Entered env dsp H)
    (made : Constructed env HeldDsp.own (d, status) H') (lt : dsp.elems.length < maxDspClients) :
    Entered env (dsp.push d lt) (H' + H) := by
  obtain ⟨all, G, rfl, whole⟩ := entered
  have own : ownDsp (dsp.push d lt).elems = ownDsp dsp.elems + ownPtr HeldDsp.own d := by
    rw [Filled.push, ownDsp_append, ownDsp_cons]
    exact congrArg _ (add_zero _)
  have last : d ∈ (dsp.push d lt).elems := List.mem_append_right _ (List.mem_singleton_self d)
  refine ⟨fun grants x mem => ?_, ?_⟩
  · obtain mem | mem := List.mem_append.1 mem
    · exact all grants x mem
    · obtain ⟨a, e, -⟩ | ⟨-, no⟩ := made
      · rw [List.mem_singleton.1 mem]
        exact Option.isSome_of_eq_some e
      · exact absurd grants no
  · rw [own]
    obtain ⟨a, e, rfl⟩ | ⟨e, -⟩ := made
    · have e : d = some a := e
      subst e
      exact ⟨G, by rw [ownPtr]; abel, fun some => whole fun d mem => some d (List.mem_append_left _ mem)⟩
    · have e : d = none := e
      subst e
      exact ⟨G + H', by rw [ownPtr]; abel, fun some => absurd (some none last) Bool.false_ne_true⟩

/-- The loop makes and enters `n` more clients if the arrays have room for them. -/
lemma newDspClients_spec (chans : nChans ≤ maxChannels)
    {dsp : Filled maxDspClients (Option HeldDsp)} (room : dsp.elems.length + n ≤ maxDspClients)
    (entered : Entered env dsp H) :
    Triple env E H (newDspClients nChans dsp n) fun dsp' H' =>
      dsp'.elems.length = dsp.elems.length + n ∧ Entered env dsp' H' := by
  induction n generalizing dsp H with
  | zero => exact .pure ⟨rfl, entered⟩
  | succ n ih =>
    refine .call (dspClientNew_spec chans) (zero_add H).symm ?_
    rintro ⟨d, status⟩ H' made
    have lt : dsp.elems.length < maxDspClients := by omega
    have length : (dsp.push d lt).elems.length = dsp.elems.length + 1 := List.length_append
    refine .within lt (.mono (ih (by omega) (entered.push made lt)) (fun _ fault => fault) ?_)
    rintro dsp' H' ⟨eq, entered⟩
    exact ⟨by omega, entered⟩

/-- Otherwise it leaves the arrays, as long as nothing is refused. -/
lemma newDspClients_outside (chans : nChans ≤ maxChannels)
    {dsp : Filled maxDspClients (Option HeldDsp)} (many : maxDspClients < dsp.elems.length + n)
    (fault : E .outside) : Triple env E H (newDspClients nChans dsp n) fun _ _ => False := by
  induction n generalizing dsp H with
  | zero =>
    have fits := dsp.fits
    omega
  | succ n ih =>
    refine .call (dspClientNew_spec chans) (zero_add H).symm ?_
    rintro ⟨d, status⟩ H' -
    by_cases lt : dsp.elems.length < maxDspClients
    · have length : (dsp.push d lt).elems.length = dsp.elems.length + 1 := List.length_append
      exact .within lt (ih (by omega))
    · exact .outside (Nat.not_lt.1 lt) fault

/-- `manager_new` makes a manager with a controller and a mixer. It crashes if there is none, and
    leaves nothing behind if all DSP clients have been made. -/
lemma managerNew_spec (few : nClients ≤ maxDspClients) (chans : nChans ≤ maxChannels) :
    Triple env (Refused env) {shmem} (managerNew shmem nClients nChans) fun r H =>
      (r = none ∧ H = {shmem} ∧ ¬ env.Grants) ∨ ∃ mgr, r = some mgr ∧ mgr.Made env ∧
      mgr.dsp.elems.length = nClients ∧
      ∃ G, H = mgr.own + {shmem} + G ∧ ((∀ d ∈ mgr.dsp.elems, d.isSome) → G = 0) := by
  refine .acquire_then (fun block _ => ?_) fun no => .pure (.inl ⟨rfl, rfl, no⟩)
  refine .use_then (by simp) (.call ctrlClientNew_spec (zero_add _).symm ?_)
  rintro ⟨ctrl, status⟩ Hc madec
  refine .call (mixClientNew_spec chans) (zero_add _).symm ?_
  rintro ⟨mix, status⟩ Hm madem
  obtain ⟨m, e, rfl⟩ | ⟨e, no⟩ := madem
  case inr =>
    have e : mix = none := e
    subst e
    exact .deref_none ⟨rfl, no⟩
  have e : mix = some m := e
  subst e
  refine .deref_then (.use_then (by simp [HeldMix.own]) ?_)
  obtain ⟨c, e, rfl⟩ | ⟨e, no⟩ := madec
  case inr =>
    have e : ctrl = none := e
    subst e
    exact .deref_none ⟨rfl, no⟩
  have e : ctrl = some c := e
  subst e
  refine .deref_then (.use_then (by simp [HeldCtrl.own]) ?_)
  refine .use_then (by simp [HeldCtrl.own]) (.use_then (by simp [HeldCtrl.own]) ?_)
  have room : 0 + nClients ≤ maxDspClients := (Nat.zero_add nClients).symm ▸ few
  refine .use_then (by simp) (.call (newDspClients_spec chans room entered_empty) (zero_add _).symm ?_)
  rintro dsp _ ⟨length, all, G, rfl, whole⟩
  refine .pure (.inr ⟨_, rfl, ⟨rfl, rfl, all⟩, length.trans (Nat.zero_add _), G, ?_, whole⟩)
  show _ = {block} + c.own + m.own + ownDsp dsp.elems + {shmem} + G
  abel

/-- With more DSP clients or channels it leaves an array, as long as nothing is refused. -/
lemma managerNew_outside (grants : env.Grants) (many : maxDspClients < nClients ∨ maxChannels < nChans)
    (fault : E .outside) :
    Triple env E {shmem} (managerNew shmem nClients nChans) fun _ _ => False := by
  refine .acquire_then (fun block _ => ?_) fun no => absurd grants no
  refine .use_then (by simp) (.call ctrlClientNew_spec (zero_add _).symm ?_)
  rintro ⟨ctrl, status⟩ Hc madec
  by_cases chans : nChans ≤ maxChannels
  case neg => exact .stops (mixClientNew_outside grants (Nat.not_le.1 chans) fault) (zero_add _).symm
  have many : maxDspClients < 0 + nClients := by omega
  refine .call (mixClientNew_spec chans) (zero_add _).symm ?_
  rintro ⟨mix, status⟩ Hm madem
  obtain ⟨m, e, rfl⟩ | ⟨-, no⟩ := madem
  case inr => exact absurd grants no
  have e : mix = some m := e
  subst e
  refine .deref_then (.use_then (by simp [HeldMix.own]) ?_)
  obtain ⟨c, e, rfl⟩ | ⟨-, no⟩ := madec
  case inr => exact absurd grants no
  have e : ctrl = some c := e
  subst e
  refine .deref_then (.use_then (by simp [HeldCtrl.own]) ?_)
  refine .use_then (by simp [HeldCtrl.own]) (.use_then (by simp [HeldCtrl.own]) ?_)
  exact .use_then (by simp) (.stops (newDspClients_outside chans many fault) (zero_add _).symm)

/-! ### The calls for all clients -/

lemma mem_ownDsp {l : List (Option HeldDsp)} {d : HeldDsp} {h : Handle Kind} (mem : some d ∈ l)
    (own : h ∈ d.own) : h ∈ ownDsp l := by
  induction l with
  | nil => exact absurd mem List.not_mem_nil
  | cons d' l ih =>
    rw [ownDsp_cons, Multiset.mem_add]
    cases mem with
    | head => exact .inl own
    | tail _ mem => exact .inr (ih mem)

lemma HeldManager.mem_own_ctrl {c : HeldCtrl} (e : mgr.ctrl = some c) :
    c.block ∈ mgr.own ∧ c.jClient ∈ mgr.own := by
  simp [HeldManager.own, e, ownPtr, HeldCtrl.own]

lemma HeldManager.mem_own_mix {m : HeldMix} (e : mgr.mix = some m) :
    m.block ∈ mgr.own ∧ m.jClient ∈ mgr.own := by
  simp [HeldManager.own, e, ownPtr, HeldMix.own]

lemma HeldManager.mem_own_dsp {d : HeldDsp} (mem : some d ∈ mgr.dsp.elems) :
    d.block ∈ mgr.own ∧ d.jClient ∈ mgr.own := by
  constructor
  · exact Multiset.mem_add.2 (.inr (mem_ownDsp mem (by simp [HeldDsp.own])))
  · exact Multiset.mem_add.2 (.inr (mem_ownDsp mem (by simp [HeldDsp.own])))

/-- A call for all DSP clients in turn. -/
lemma eachDsp_spec (made : mgr.Made env) :
    Triple env (Refused env) mgr.own
      (firstError (mgr.dsp.elems.map (clientCall HeldDsp.block HeldDsp.jClient))) fun status H =>
      H = mgr.own ∧ (status = 0 → ∀ d ∈ mgr.dsp.elems, d.isSome) ∧ (env.Calm → status = 0) := by
  refine .firstError (R := fun d => d.isSome) fun d mem => clientCall_spec (fun grants => made.dsp grants d mem) ?_
  rintro d rfl
  exact HeldManager.mem_own_dsp mem

lemma managerActivateClients_spec (made : mgr.Made env) :
    Triple env (Refused env) mgr.own (managerActivateClients mgr) fun status H =>
      H = mgr.own ∧ (status = 0 → ∀ d ∈ mgr.dsp.elems, d.isSome) ∧ (env.Calm → status = 0) := by
  refine .use_then (by simp [HeldManager.own]) ?_
  refine .call (clientCall_spec (fun _ => made.mix) fun _ => HeldManager.mem_own_mix) (add_zero _).symm ?_
  rintro status _ ⟨rfl, -, calm⟩
  rw [add_zero]
  split
  case isTrue ne => exact .pure ⟨rfl, fun zero => absurd zero ne, calm⟩
  refine .call (eachDsp_spec made) (add_zero _).symm ?_
  rintro status _ ⟨rfl, all, calm⟩
  rw [add_zero]
  split
  case isTrue ne => exact .pure ⟨rfl, fun zero => absurd zero ne, calm⟩
  case isFalse eq =>
    refine .mono (clientCall_spec (fun _ => made.ctrl) fun _ => HeldManager.mem_own_ctrl)
      (fun _ fault => fault) ?_
    rintro status' _ ⟨rfl, -, calm⟩
    exact ⟨rfl, fun _ => all (not_not.1 eq), calm⟩

lemma managerDeactivateClients_spec (made : mgr.Made env) :
    Triple env (Refused env) mgr.own (managerDeactivateClients mgr) fun _ H => H = mgr.own := by
  refine .use_then (by simp [HeldManager.own]) ?_
  refine .call (clientCall_spec (fun _ => made.ctrl) fun _ => HeldManager.mem_own_ctrl) (add_zero _).symm ?_
  rintro status _ ⟨rfl, -, -⟩
  rw [add_zero]
  split
  · exact .pure rfl
  refine .call (eachDsp_spec made) (add_zero _).symm ?_
  rintro status _ ⟨rfl, -, -⟩
  rw [add_zero]
  split
  · exact .pure rfl
  · exact .mono (clientCall_spec (fun _ => made.mix) fun _ => HeldManager.mem_own_mix)
      (fun _ fault => fault) fun _ _ post => post.1

lemma managerConnectClients_spec (made : mgr.Made env) (all : ∀ d ∈ mgr.dsp.elems, d.isSome) :
    Triple env E mgr.own (managerConnectClients mgr) fun status H =>
      H = mgr.own ∧ (env.Calm → status = 0) := by
  obtain ⟨ctrl, ec⟩ := Option.isSome_iff_exists.1 made.ctrl
  obtain ⟨mix, em⟩ := Option.isSome_iff_exists.1 made.mix
  obtain ⟨blockc, clientc⟩ := HeldManager.mem_own_ctrl ec
  obtain ⟨blockm, -⟩ := HeldManager.mem_own_mix em
  refine .use_then (by simp [HeldManager.own]) (.call (.firstError (R := fun _ => True) fun d mem => ?_)
    (add_zero _).symm ?_)
  · obtain ⟨d, rfl⟩ := Option.isSome_iff_exists.1 (all d mem)
    obtain ⟨blockd, -⟩ := HeldManager.mem_own_dsp mem
    rw [ec]
    refine .deref_then (.use_then blockc (.deref_then (.use_then blockd ?_)))
    exact .mono (jackCall_spec clientc) (fun _ fault => fault) fun _ _ post => ⟨post.1, trivial, post.2⟩
  rintro status _ ⟨rfl, -, calm⟩
  rw [add_zero]
  split
  · exact .pure ⟨rfl, calm⟩
  refine .call (.firstError (R := fun _ => True) fun d mem => ?_) (add_zero _).symm ?_
  · obtain ⟨d, rfl⟩ := Option.isSome_iff_exists.1 (all d mem)
    obtain ⟨blockd, clientd⟩ := HeldManager.mem_own_dsp mem
    rw [em]
    refine .deref_then (.use_then blockd (.mono (.firstError (R := fun _ => True) fun i _ => ?_)
      (fun _ fault => fault) fun _ _ post => ⟨post.1, trivial, post.2.2⟩))
    refine .deref_then (.use_then blockm ?_)
    exact .mono (jackCall_spec clientd) (fun _ fault => fault) fun _ _ post => ⟨post.1, trivial, post.2⟩
  rintro status _ ⟨rfl, -, calm⟩
  rw [add_zero]
  split
  · exact .pure ⟨rfl, calm⟩
  · exact .pure ⟨rfl, fun _ => rfl⟩

/-! ### The end -/

lemma freeDspClients_spec (l : List (Option HeldDsp)) :
    Triple env E (ownDsp l) (freeDspClients l) fun _ H => H = 0 := by
  induction l with
  | nil => exact .pure rfl
  | cons dsp l ih =>
    refine .call (freePtr_spec (fun _ => dspClientFree_spec) dsp) (ownDsp_cons dsp l) ?_
    rintro _ _ rfl
    rw [zero_add]
    exact ih

/-- `manager_free` gives back all that the manager owns, whatever the deactivation answers. -/
lemma managerFree_spec (made : mgr.Made env) :
    Triple env (Refused env) mgr.own (managerFree mgr) fun _ H => H = 0 := by
  refine .call (managerDeactivateClients_spec made) (add_zero _).symm ?_
  rintro _ _ rfl
  rw [HeldManager.own]
  refine .call (freePtr_spec (fun _ => mixClientFree_spec) mgr.mix)
    (F := {mgr.block} + ownPtr HeldCtrl.own mgr.ctrl + ownDsp mgr.dsp.elems) (by abel) ?_
  rintro _ _ rfl
  refine .call (freeDspClients_spec mgr.dsp.elems) (F := {mgr.block} + ownPtr HeldCtrl.own mgr.ctrl)
    (by abel) ?_
  rintro _ _ rfl
  refine .call (freePtr_spec (fun _ => ctrlClientFree_spec) mgr.ctrl) (F := {mgr.block}) (by abel) ?_
  rintro _ _ rfl
  exact .release (by abel)

lemma exitHandler_spec {p : Option HeldManager} {status : Int}
    (made : ∀ mgr, p = some mgr → mgr.Made env) :
    Triple env (Refused env) (ownPtr HeldManager.own p) (exitHandler p status) fun code H =>
      H = 0 ∧ code = if status ≠ 0 then 1 else 0 := by
  cases p with
  | none => exact .pure ⟨rfl, rfl⟩
  | some mgr =>
    have made := made mgr rfl
    refine .call (.call (managerDeactivateClients_spec made) (add_zero _).symm ?_)
      (add_zero _).symm ?_ (R := fun _ H => H = 0)
    · rintro _ _ rfl
      rw [add_zero]
      exact managerFree_spec made
    · rintro _ _ rfl
      exact .pure ⟨rfl, rfl⟩

/-! ### The start -/

/-- Only the mapping of the shared memory. -/
def OnlyMapping (H : Multiset (Handle Kind)) : Prop :=
  ∃ shmem : Handle Kind, shmem.kind = .mapping ∧ H = {shmem}

/-- What `manager_create` answers, and what it leaves behind. -/
def ServerCreated (env : Env) (nClients : Nat) (r : Except Int HeldManager) (H : Multiset (Handle Kind)) :
    Prop :=
  (∃ mgr shmem, r = .ok mgr ∧ mgr.Made env ∧ mgr.dsp.elems.length = nClients ∧
    (∀ d ∈ mgr.dsp.elems, d.isSome) ∧ shmem.kind = .mapping ∧ H = mgr.own + {shmem}) ∨
  ∃ status, r = .error status ∧ status ≠ 0 ∧ ¬ env.Calm ∧
    (env.Grants → H = 0 ∨ OnlyMapping H)

/-- `manager_create` makes a whole manager or fails. -/
lemma managerCreate_spec (few : nClients ≤ maxDspClients) (chans : nChans ≤ maxChannels) :
    Triple env (Refused env) 0 (managerCreate nClients nChans) (ServerCreated env nClients) := by
  refine .call shmemCreate_spec (add_zero 0).symm ?_
  rintro r _ (⟨shmem, rfl, kind, rfl⟩ | ⟨status, rfl, ne, rfl, no⟩)
  case inr => exact .pure (.inr ⟨status, rfl, ne, no, fun _ => .inl rfl⟩)
  refine .call (managerNew_spec few chans) rfl ?_
  rintro r _ (⟨rfl, rfl, no⟩ | ⟨mgr, rfl, made, length, G, rfl, whole⟩)
  case inl =>
    exact .pure (.inr ⟨_, rfl, by decide, fun calm => no calm.grants, fun grants => absurd grants no⟩)
  -- what is left when the manager has been freed
  have left {H : Multiset (Handle Kind)} (e : H = {shmem} + G) (grants : env.Grants) :
      H = 0 ∨ OnlyMapping H := by
    rw [whole (made.dsp grants), add_zero] at e
    exact .inr ⟨shmem, kind, e⟩
  refine .call (managerActivateClients_spec made) (F := {shmem} + G) (by abel) ?_
  rintro status _ ⟨rfl, all, calm⟩
  split
  case isTrue ne =>
    refine .call (managerFree_spec made) rfl ?_
    rintro _ _ rfl
    exact .pure (.inr ⟨status, rfl, ne, fun c => ne (calm c), left (zero_add _)⟩)
  case isFalse eq =>
    have all := all (not_not.1 eq)
    refine .call (managerConnectClients_spec made all) rfl ?_
    rintro status _ ⟨rfl, calm⟩
    split
    case isTrue ne =>
      refine .call (managerFree_spec made) rfl ?_
      rintro _ _ rfl
      exact .pure (.inr ⟨status, rfl, ne, fun c => ne (calm c), left (zero_add _)⟩)
    case isFalse =>
      refine .pure (.inl ⟨mgr, shmem, rfl, made, length, all, kind, ?_⟩)
      rw [whole all]
      abel

/-- With more DSP clients or channels `manager_create` leaves an array, as long as no call fails. -/
lemma managerCreate_outside (calm : env.Calm) (many : maxDspClients < nClients ∨ maxChannels < nChans)
    (fault : E .outside) : Triple env E 0 (managerCreate nClients nChans) fun _ _ => False := by
  refine .call shmemCreate_spec (add_zero 0).symm ?_
  rintro r _ (⟨shmem, rfl, -, rfl⟩ | ⟨status, rfl, -, rfl, no⟩)
  · exact .stops (managerNew_outside calm.grants many fault) rfl
  · exact absurd calm no

/-- The server leaves an array while it starts, as long as no call fails, exactly where an access of
    `Conc/Bounds` is outside of its array. -/
theorem managerCreate_outside_iff (setup : Setup) (chans : nChans ≤ maxChannels) (calm : env.Calm)
    (w : World Kind) :
    managerCreate setup.nClients nChans env w = .error .outside ↔
      ¬ ∀ u ∈ managerCreateUses setup, u.Inside setup.nSlots := by
  rw [managerCreate_inside_iff]
  constructor
  · intro run few
    obtain ⟨e, run', rfl, -⟩ | ⟨r, w', H, run', -⟩ :=
      (managerCreate_spec few chans).run (zero_add w.live).symm
    · cases run.symm.trans run'
    · cases run.symm.trans run'
  · intro many
    obtain ⟨e, run, rfl⟩ := (managerCreate_outside (E := (· = .outside)) calm
      (.inl (Nat.not_le.1 many)) rfl).faults (zero_add w.live).symm
    exact run

/-- What is left at the end of `main`. -/
structure ServerEnd (env : Env) (signalled : Bool) (r : Bool × Int) (H : Multiset (Handle Kind)) :
    Prop where
  started : r.1 = true → (r.2 = if signalled then 1 else 0) ∧ OnlyMapping H
  failed : r.1 = false → r.2 = 1 ∧ ¬ env.Calm ∧ (env.Grants → H = 0 ∨ OnlyMapping H)

lemma serverMain_spec (few : nClients ≤ maxDspClients) (chans : nChans ≤ maxChannels) :
    Triple env (Refused env) 0 (serverMain nClients nChans signalled) (ServerEnd env signalled) := by
  refine .call (managerCreate_spec few chans) (add_zero 0).symm ?_
  rintro r H (⟨mgr, shmem, rfl, made, -, -, kind, rfl⟩ | ⟨status, rfl, ne, no, left⟩)
  · refine .call (exitHandler_spec (p := some mgr) ?_) (add_zero _) ?_
    · rintro _ ⟨⟩
      exact made
    rintro code _ ⟨rfl, ecode⟩
    refine .pure ⟨fun _ => ⟨?_, shmem, kind, zero_add _⟩, fun h => absurd h.symm Bool.false_ne_true⟩
    rw [ecode]
    cases signalled <;> rfl
  · have none_made (mgr : HeldManager) (e : none = some mgr) : mgr.Made env :=
      absurd e.symm (Option.some_ne_none mgr)
    refine .call (exitHandler_spec none_made) (add_comm H 0) ?_
    rintro code _ ⟨rfl, ecode⟩
    refine .pure ⟨fun h => absurd h Bool.false_ne_true, fun _ => ⟨?_, no, ?_⟩⟩
    · rw [ecode, if_pos ne]
    · rw [zero_add]
      exact left

/-- The server, whatever the system and the libraries refuse and answer, with at most `MAX_DSP_CLIENTS`
    DSP clients and `MAX_CHANNELS` channels. `main` either crashes at a `NULL` pointer, which it does not
    if nothing is refused, or it comes to its end. It uses nothing that it does not have and gives nothing
    back twice. If the server has been started, all its JACK clients have been closed at the end, and all
    its banks and blocks have been freed; only the mapping of the shared memory remains. If it has not
    been started, the exit code says so, and at most the mapping remains, as long as nothing is refused.
    It is started if no call fails.

    With more DSP clients or more channels, and no call that fails, the server writes beyond an array
    while it starts. -/
theorem server_life (nClients nChans : Nat) (signalled : Bool) (env : Env) (w : World Kind) :
    (nClients ≤ maxDspClients → nChans ≤ maxChannels →
      (serverMain nClients nChans signalled env w = .error .badPtr ∧ ¬ env.Grants) ∨
        ∃ r w' H, serverMain nClients nChans signalled env w = .ok (r, w') ∧ w'.live = H + w.live ∧
          ServerEnd env signalled r H) ∧
    (maxDspClients < nClients ∨ maxChannels < nChans → env.Calm →
      serverMain nClients nChans signalled env w = .error .outside) := by
  refine ⟨fun few chans => ?_, fun many calm => ?_⟩
  · obtain ⟨e, run, rfl, no⟩ | ended := (serverMain_spec few chans).run (zero_add w.live).symm
    · exact .inl ⟨run, no⟩
    · exact .inr ended
  · have spec : Triple env (· = .outside) 0 (serverMain nClients nChans signalled) fun _ _ => False :=
      .stops (managerCreate_outside calm many rfl) (add_zero 0).symm
    obtain ⟨e, run, rfl⟩ := spec.faults (zero_add w.live).symm
    exact run

end JackFofs.Resources
