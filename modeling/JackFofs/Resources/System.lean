import JackFofs.Base.Types
import JackFofs.Lib.Ownership

/-!
# Memory, JACK and the libraries

What the constructors and destructors of the program obtain and give back: blocks of memory, JACK
clients, fof banks, sound files, file descriptors and the mapping of the shared memory. A call of a
library uses the object it is given. JACK ports go with their client. The structures `Held..` name what
an object of the source holds.

The status codes are the numbers of `jfofs_status_e`.
-/

namespace JackFofs.Resources
open Ownership Prog

/-- The kinds of resources. -/
inductive Kind where
  | block
  | jackClient
  | bank
  | sndFile
  | fd
  | mapping
deriving DecidableEq, Repr

/-- `JFOFS_SUCCESS` -/
def success : Int := 0

/-- `JFOFS_FAILURE` -/
def failure : Int := 1

/-- `JFOFS_MEMORY_ERROR` -/
def memoryError : Int := 2

/-- `JFOFS_SHM_ERROR` -/
def shmError : Int := 4

/-- `JFOFS_SHM_MAP_ERROR` -/
def shmMapError : Int := 5

/-- `JFOFS_JACK_ERROR_MASK | jstatus` -/
def jackError (jstatus : Int) : Int := (0x10000 ||| jstatus.toNat : Nat)

/-- `ENOMEM`, the answer of `posix_memalign` when it fails. -/
def enomem : Int := 12

/-! ## Memory -/

/-- `malloc`, `calloc` and `posix_memalign` -/
def alloc : Prog Kind (Option (Handle Kind)) := acquire .block

/-- `free`, of a pointer that is not `NULL` -/
def free (block : Handle Kind) : Prog Kind Unit := release block

/-! ## JACK -/

/-- `jack_client_open` -/
def jackClientOpen : Prog Kind (Option (Handle Kind)) := acquire .jackClient

/-- `jack_client_close` -/
def jackClientClose (jClient : Handle Kind) : Prog Kind Unit := release jClient

/-- A call of the JACK library for a client that answers a status: `jack_activate`,
    `jack_deactivate` and `jack_connect`. -/
def jackCall (jClient : Handle Kind) : Prog Kind Int := do
  use jClient
  status

/-- A call of the JACK library for a client whose answer nobody looks at, such as the registration of
    a callback, or that always has one, such as `jack_get_sample_rate`. -/
def jackTell (jClient : Handle Kind) : Prog Kind Unit := use jClient

/-- `jack_port_register`; the answer says whether the port is not `NULL`. -/
def jackPortRegister (jClient : Handle Kind) : Prog Kind Bool := do
  use jClient
  request

/-! ## libfofs and libsndfile -/

/-- `fof_newBank` -/
def fofNewBank : Prog Kind (Option (Handle Kind)) := acquire .bank

/-- `fof_freeBank` -/
def fofFreeBank (bank : Handle Kind) : Prog Kind Unit := release bank

/-- A call of libfofs for a bank that answers a status: `fof_add_v`. -/
def fofAddV (bank : Handle Kind) : Prog Kind Int := do
  use bank
  status

/-- `sf_open` -/
def sfOpen : Prog Kind (Option (Handle Kind)) := acquire .sndFile

/-- `sf_close` -/
def sfClose (sf : Handle Kind) : Prog Kind Unit := release sf

/-! ## Specifications -/

/-- The only fault: a pointer is bad, and the environment refuses something. -/
def Refused (env : Env) (e : Fault) : Prop := e = .badPtr ∧ ¬ env.Grants

lemma jackCall_spec {env : Env} {E : Fault → Prop} {H : Multiset (Handle Kind)} {jClient : Handle Kind}
    (mem : jClient ∈ H) :
    Triple env E H (jackCall jClient) fun status H' => H' = H ∧ (env.Calm → status = 0) :=
  .use_then mem .status

lemma jackCall_crash {β : Type} {env : Env} {w : World Kind} {jClient : Handle Kind}
    {f : Int → Prog Kind β} (run : (jackCall jClient >>= f) env w = .error .badPtr) :
    ∃ n w1, w1.asked = w.asked + 1 ∧ f n env w1 = .error .badPtr := by
  obtain crash | ⟨n, w1, call, run⟩ := bind_crash run
  · rw [jackCall] at crash
    cases use_crash crash
  · obtain ⟨_, w0, used, answer⟩ := bind_inv call
    cases use_inv used
    cases answer
    exact ⟨_, _, rfl, run⟩

end JackFofs.Resources
