import JackFofs.Resources.System

/-!
# The resources of the JACK clients

The constructors and destructors of `ctrl_client.c`, `dsp_client.c` and `mix_client.c`. Only some of
the failing exits give back what has been obtained so far; `dsp_client_new` frees its block when it
gets no bank, but leaves its JACK client open. Where nothing is refused the object owns everything.

The ports of the channels are stored in arrays of `MAX_CHANNELS` elements. Nothing checks that there
are not more channels.
-/

namespace JackFofs.Resources
open Ownership Prog

/-- The resources of `ctrl_client_s`: its block and its JACK client. -/
structure HeldCtrl where
  block : Handle Kind
  jClient : Handle Kind

/-- The resources of `mix_client_s`. -/
structure HeldMix where
  block : Handle Kind
  jClient : Handle Kind

/-- The resources of `dsp_client_s`, and the number of its output ports. -/
structure HeldDsp where
  block : Handle Kind
  jClient : Handle Kind
  fofBank : Handle Kind
  nChans : Nat

/-! ## The constructors -/

/-- `ctrl_client_new`. Its port may be `NULL`. -/
def ctrlClientNew : Prog Kind (Option HeldCtrl × Int) := do
  match ← alloc with
  | none => pure (none, enomem)
  | some block => do
    use block
    match ← jackClientOpen with
    | none => do
      let jstatus ← status
      pure (none, jackError jstatus)
    | some jClient => do
      jackTell jClient
      let _port ← jackPortRegister jClient
      jackTell jClient
      jackTell jClient
      pure (some ⟨block, jClient⟩, 0)

/-- `port[i] = jack_port_register(..)`, for an array of `MAX_CHANNELS` ports -/
def storePort (jClient : Handle Kind) (i : Nat) : Prog Kind Bool :=
  within i maxChannels fun _ => jackPortRegister jClient

/-- The loops of `mix_client_new` and `dsp_client_new` over `n` channels from `i` on, as long as they get
    the ports of a channel. -/
def registerPorts (ports : Nat → Prog Kind Bool) : (i n : Nat) → Prog Kind Bool
  | _, 0 => pure true
  | i, n + 1 => do
    if ← ports i then registerPorts ports (i + 1) n else pure false

/-- The ports of a channel in `mix_client_new`: `in_port[i]` and `out_port[i]`. -/
def mixPorts (jClient : Handle Kind) (i : Nat) : Prog Kind Bool := do
  if ← storePort jClient i then storePort jClient i else pure false

/-- `mix_client_new` -/
def mixClientNew (nChans : Nat) : Prog Kind (Option HeldMix × Int) := do
  match ← alloc with
  | none => pure (none, enomem)
  | some block => do
    use block
    match ← jackClientOpen with
    | none => do
      free block
      pure (none, 0)
    | some jClient => do
      jackTell jClient
      if ← registerPorts (mixPorts jClient) 0 nChans then pure (some ⟨block, jClient⟩, 0)
      else pure (none, 0)

/-- `dsp_client_new`: an input port, and an output port for each channel. -/
def dspClientNew (nChans : Nat) : Prog Kind (Option HeldDsp × Int) := do
  match ← alloc with
  | none => pure (none, enomem)
  | some block => do
    use block
    match ← jackClientOpen with
    | none => do
      free block
      pure (none, 0)
    | some jClient => do
      jackTell jClient
      match ← fofNewBank with
      | none => do
        free block
        pure (none, 0)
      | some fofBank => do
        if ← jackPortRegister jClient then
          if ← registerPorts (storePort jClient) 0 nChans then
            pure (some ⟨block, jClient, fofBank, nChans⟩, 0)
          else pure (none, 0)
        else pure (none, 0)

/-! ## The calls for a client -/

/-- What `ctrl_client_activate` and its like have in common: a call of JACK for the client of an
    object. -/
def clientCall {α : Type} (block jClient : α → Handle Kind) (client : Option α) : Prog Kind Int := do
  let a ← deref client
  use (block a)
  jackCall (jClient a)

/-- `ctrl_client_activate` -/
def ctrlClientActivate : Option HeldCtrl → Prog Kind Int := clientCall HeldCtrl.block HeldCtrl.jClient

/-- `ctrl_client_deactivate` -/
def ctrlClientDeactivate : Option HeldCtrl → Prog Kind Int := clientCall HeldCtrl.block HeldCtrl.jClient

/-- `mix_client_activate` -/
def mixClientActivate : Option HeldMix → Prog Kind Int := clientCall HeldMix.block HeldMix.jClient

/-- `mix_client_deactivate` -/
def mixClientDeactivate : Option HeldMix → Prog Kind Int := clientCall HeldMix.block HeldMix.jClient

/-- `dsp_client_activate` -/
def dspClientActivate : Option HeldDsp → Prog Kind Int := clientCall HeldDsp.block HeldDsp.jClient

/-- `dsp_client_deactivate` -/
def dspClientDeactivate : Option HeldDsp → Prog Kind Int := clientCall HeldDsp.block HeldDsp.jClient

/-! ## The destructors -/

/-- What `ctrl_client_free` and `mix_client_free` have in common. -/
def clientFree (block jClient : Handle Kind) : Prog Kind Unit := do
  use block
  let _ ← jackCall jClient
  jackClientClose jClient
  free block

/-- `ctrl_client_free` -/
def ctrlClientFree (ctrl : HeldCtrl) : Prog Kind Unit := clientFree ctrl.block ctrl.jClient

/-- `mix_client_free` -/
def mixClientFree (mix : HeldMix) : Prog Kind Unit := clientFree mix.block mix.jClient

/-- `dsp_client_free` -/
def dspClientFree (dsp : HeldDsp) : Prog Kind Unit := do
  use dsp.block
  let _ ← jackCall dsp.jClient
  jackClientClose dsp.jClient
  fofFreeBank dsp.fofBank
  free dsp.block

/-- Frees the object behind a pointer that is not `NULL`. -/
def freePtr {α : Type} (free : α → Prog Kind Unit) : Option α → Prog Kind Unit
  | none => pure ()
  | some a => free a

/-! ## The specifications -/

/-- What the object behind a pointer owns. -/
def ownPtr {α : Type} (own : α → Multiset (Handle Kind)) : Option α → Multiset (Handle Kind)
  | none => 0
  | some a => own a

/-- What a controller client owns. -/
def HeldCtrl.own (ctrl : HeldCtrl) : Multiset (Handle Kind) := {ctrl.block} + {ctrl.jClient}

/-- What a mix client owns. -/
def HeldMix.own (mix : HeldMix) : Multiset (Handle Kind) := {mix.block} + {mix.jClient}

/-- What a DSP client owns. -/
def HeldDsp.own (dsp : HeldDsp) : Multiset (Handle Kind) :=
  {dsp.block} + {dsp.jClient} + {dsp.fofBank}

/-- The result of a constructor: an object with everything it owns, or `NULL`, with something left
    behind perhaps, and only if the environment refuses something. -/
def Constructed {α : Type} (env : Env) (own : α → Multiset (Handle Kind)) (r : Option α × Int)
    (H : Multiset (Handle Kind)) : Prop :=
  (∃ a, r.1 = some a ∧ H = own a) ∨ (r.1 = none ∧ ¬ env.Grants)

variable {env : Env} {E : Fault → Prop} {H : Multiset (Handle Kind)} {jClient : Handle Kind}
  {nChans n : Nat} {ctrl : HeldCtrl} {mix : HeldMix} {dsp : HeldDsp}

/-- What is known of a registration: it keeps the resources, and fails only if a port is refused. -/
def Registered (env : Env) (H : Multiset (Handle Kind)) (got : Bool) (H' : Multiset (Handle Kind)) :
    Prop :=
  H' = H ∧ (got = false → ¬ env.Grants)

lemma jackPortRegister_spec (mem : jClient ∈ H) :
    Triple env E H (jackPortRegister jClient) (Registered env H) :=
  .use_then mem .request

lemma storePort_spec (mem : jClient ∈ H) {i : Nat} (lt : i < maxChannels) :
    Triple env E H (storePort jClient i) (Registered env H) :=
  .within lt (jackPortRegister_spec mem)

lemma mixPorts_spec (mem : jClient ∈ H) {i : Nat} (lt : i < maxChannels) :
    Triple env E H (mixPorts jClient i) (Registered env H) := by
  refine .call (storePort_spec mem lt) (add_zero H).symm ?_
  rintro got _ ⟨rfl, refused⟩
  rw [add_zero]
  cases got with
  | true => exact storePort_spec mem lt
  | false => exact .pure ⟨rfl, refused⟩

/-- The loop registers the ports of all channels if there is room for them. -/
lemma registerPorts_spec {ports : Nat → Prog Kind Bool} {i : Nat} (room : i + n ≤ maxChannels)
    (spec : ∀ i < maxChannels, Triple env E H (ports i) (Registered env H)) :
    Triple env E H (registerPorts ports i n) (Registered env H) := by
  induction n generalizing i with
  | zero => exact .pure ⟨rfl, fun h => absurd h.symm Bool.false_ne_true⟩
  | succ n ih =>
    refine .call (spec i (by omega)) (add_zero H).symm ?_
    rintro got _ ⟨rfl, refused⟩
    rw [add_zero]
    cases got with
    | true => exact ih (by omega)
    | false => exact .pure ⟨rfl, refused⟩

/-- Otherwise it leaves the array, as long as no port is refused. -/
lemma registerPorts_outside {ports : Nat → Prog Kind Bool} {i : Nat} (grants : env.Grants)
    (le : i ≤ maxChannels) (many : maxChannels < i + n)
    (spec : ∀ i < maxChannels, Triple env E H (ports i) (Registered env H))
    (last : Triple env E H (ports maxChannels) fun _ _ => False) :
    Triple env E H (registerPorts ports i n) fun _ _ => False := by
  induction n generalizing i with
  | zero => omega
  | succ n ih =>
    by_cases lt : i < maxChannels
    · refine .call (spec i lt) (add_zero H).symm ?_
      rintro got _ ⟨rfl, refused⟩
      rw [add_zero]
      cases got with
      | true => exact ih lt (by omega)
      | false => exact absurd grants (refused rfl)
    · have eq : i = maxChannels := by omega
      subst eq
      exact .stops last (add_zero H).symm

lemma ctrlClientNew_spec : Triple env E 0 ctrlClientNew (Constructed env HeldCtrl.own) := by
  refine .acquire_then (fun block _ => ?_) fun no => .pure (.inr ⟨rfl, no⟩)
  refine .use_then (by simp) (.acquire_then (fun jClient _ => ?_) fun no => ?_)
  case refine_2 => exact .status_then fun _ => .pure (.inr ⟨rfl, no⟩)
  refine .use_then (by simp) (.call (.use_then (by simp) .request) (add_zero _).symm ?_)
  rintro port _ ⟨rfl, -⟩
  refine .use_then (by simp) (.use_then (by simp) (.pure (.inl ⟨_, rfl, ?_⟩)))
  show _ = ({block} + {jClient} : Multiset (Handle Kind))
  abel

lemma mixClientNew_spec (chans : nChans ≤ maxChannels) :
    Triple env E 0 (mixClientNew nChans) (Constructed env HeldMix.own) := by
  refine .acquire_then (fun block _ => ?_) fun no => .pure (.inr ⟨rfl, no⟩)
  refine .use_then (by simp) (.acquire_then (fun jClient _ => ?_) fun no => ?_)
  case refine_2 => exact .release_then rfl (.pure (.inr ⟨rfl, no⟩))
  have room : 0 + nChans ≤ maxChannels := (Nat.zero_add nChans).symm ▸ chans
  refine .use_then (by simp) (.call (registerPorts_spec room fun i => mixPorts_spec (by simp))
    (add_zero _).symm ?_)
  rintro all _ ⟨rfl, refused⟩
  cases all with
  | false => exact .pure (.inr ⟨rfl, refused rfl⟩)
  | true =>
    refine .pure (.inl ⟨_, rfl, ?_⟩)
    show _ = ({block} + {jClient} : Multiset (Handle Kind))
    abel

/-- With more channels than `MAX_CHANNELS` the mixer writes beyond its ports. -/
lemma mixClientNew_outside (grants : env.Grants) (many : maxChannels < nChans) (fault : E .outside) :
    Triple env E 0 (mixClientNew nChans) fun _ _ => False := by
  refine .acquire_then (fun block _ => ?_) fun no => absurd grants no
  refine .use_then (by simp) (.acquire_then (fun jClient _ => ?_) fun no => absurd grants no)
  have many : maxChannels < 0 + nChans := (Nat.zero_add nChans).symm ▸ many
  refine .use_then (by simp) (.stops (registerPorts_outside grants (Nat.zero_le _) many
    (fun i => mixPorts_spec (by simp)) ?_) (add_zero _).symm)
  exact .stops (.outside (Nat.le_refl _) fault) (add_zero _).symm

lemma dspClientNew_spec (chans : nChans ≤ maxChannels) :
    Triple env E 0 (dspClientNew nChans) (Constructed env HeldDsp.own) := by
  refine .acquire_then (fun block _ => ?_) fun no => .pure (.inr ⟨rfl, no⟩)
  refine .use_then (by simp) (.acquire_then (fun jClient _ => ?_) fun no => ?_)
  case refine_2 => exact .release_then rfl (.pure (.inr ⟨rfl, no⟩))
  refine .use_then (by simp) (.acquire_then (fun fofBank _ => ?_) fun no => ?_)
  case refine_2 => exact .release_then (add_left_comm _ _ _) (.pure (.inr ⟨rfl, no⟩))
  refine .call (jackPortRegister_spec (by simp)) (add_zero _).symm ?_
  rintro got _ ⟨rfl, refused⟩
  rw [add_zero]
  cases got with
  | false => exact .pure (.inr ⟨rfl, refused rfl⟩)
  | true =>
  have room : 0 + nChans ≤ maxChannels := (Nat.zero_add nChans).symm ▸ chans
  refine .call (registerPorts_spec room fun i => storePort_spec (by simp)) (add_zero _).symm ?_
  rintro all _ ⟨rfl, refused⟩
  cases all with
  | false => exact .pure (.inr ⟨rfl, refused rfl⟩)
  | true =>
    refine .pure (.inl ⟨_, rfl, ?_⟩)
    show _ = ({block} + {jClient} + {fofBank} : Multiset (Handle Kind))
    abel

/-- The object behind a pointer is there if nothing is refused. -/
lemma clientCall_spec {α : Type} {block jClient : α → Handle Kind} {client : Option α}
    (there : env.Grants → client.isSome) (own : ∀ a, client = some a → block a ∈ H ∧ jClient a ∈ H) :
    Triple env (Refused env) H (clientCall block jClient client) fun status H' =>
      H' = H ∧ client.isSome ∧ (env.Calm → status = 0) := by
  cases client with
  | none => exact .deref_none ⟨rfl, fun all => Bool.false_ne_true (there all)⟩
  | some a =>
    obtain ⟨block, jClient⟩ := own a rfl
    refine .deref_then (.use_then block (.mono (jackCall_spec jClient) (fun _ fault => fault) ?_))
    rintro status _ ⟨rfl, calm⟩
    exact ⟨rfl, rfl, calm⟩

lemma clientFree_spec {block : Handle Kind} :
    Triple env E ({block} + {jClient}) (clientFree block jClient) fun _ H => H = 0 := by
  refine .use_then (by simp) (.call (jackCall_spec (by simp)) (add_zero _).symm ?_)
  rintro _ _ ⟨rfl, -⟩
  exact .release_then (by abel) (.release (add_zero _).symm)

lemma ctrlClientFree_spec : Triple env E ctrl.own (ctrlClientFree ctrl) fun _ H => H = 0 :=
  clientFree_spec

lemma mixClientFree_spec : Triple env E mix.own (mixClientFree mix) fun _ H => H = 0 :=
  clientFree_spec

lemma dspClientFree_spec : Triple env E dsp.own (dspClientFree dsp) fun _ H => H = 0 := by
  rw [HeldDsp.own]
  refine .use_then (by simp) (.call (jackCall_spec (by simp)) (add_zero _).symm ?_)
  rintro _ _ ⟨rfl, -⟩
  refine .release_then (F := {dsp.block} + {dsp.fofBank}) (by abel) ?_
  exact .release_then (add_comm _ _) (.release (add_zero _).symm)

lemma freePtr_spec {α : Type} {own : α → Multiset (Handle Kind)} {free : α → Prog Kind Unit}
    (spec : ∀ a, Triple env E (own a) (free a) fun _ H => H = 0) (client : Option α) :
    Triple env E (ownPtr own client) (freePtr free client) fun _ H => H = 0 := by
  cases client with
  | none => exact .pure rfl
  | some a => exact spec a

end JackFofs.Resources
