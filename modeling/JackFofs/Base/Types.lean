import Mathlib.Data.Nat.ModEq
import Mathlib.Tactic.Common

/-!
# Types and conversions

Model of `jfofs_types.h`, `setup.h` and the inline functions of `jfofs_private.h`: status codes,
clock sources, the server setup, and the conversion from microseconds to frames.

C integers are naturals or integers with the wrap-around written out: `u64` and `u32` reduce a value
to the unsigned type, `toInt32` is the cast to `int`. Setup fields are C `int`s that are never
negative when they are used (they come from JACK or from the command line defaults), so they are
naturals.
-/

namespace JackFofs

/-- Reduction to `uint64_t`. -/
def u64 (x : Nat) : Nat := x % 2 ^ 64

/-- Reduction to `uint32_t`, the type behind `jack_nframes_t`. -/
def u32 (x : Nat) : Nat := x % 2 ^ 32

/-- The cast `(int)x` of an unsigned value: two's complement on 32 bits. -/
def toInt32 (x : Nat) : Int := Int.bmod x (2 ^ 32)

/-- `MAX_CHANNELS` -/
def maxChannels : Nat := 8

/-- `MAX_DSP_CLIENTS` -/
def maxDspClients : Nat := 8

/-- The values of `jfofs_status_e` that the queue returns. -/
inductive JfofsStatus where
  | success
  | memoryError
  | fofLimitError
  | fofLateWarning
  | fofExcessInfo
deriving DecidableEq, Repr

/-- `jfofs_clock_source_e` -/
inductive ClockSource where
  | unspecified
  | jackFrameTime
  | jackTransport
  | offlineFreeRunning
deriving DecidableEq, Repr

/-- The value of a clock source as a C `int`. -/
def ClockSource.code : ClockSource → Int
  | .unspecified => 0
  | .jackFrameTime => 1
  | .jackTransport => 2
  | .offlineFreeRunning => 3

/-- `jfofs_clock_source_normalize` -/
def jfofsClockSourceNormalize (clockSource : Int) : ClockSource :=
  if clockSource = ClockSource.jackTransport.code then .jackTransport
  else if clockSource = ClockSource.offlineFreeRunning.code then .offlineFreeRunning
  else .jackFrameTime

/-- `jfofs_clock_uses_transport` -/
def jfofsClockUsesTransport (clockSource : Int) : Bool :=
  jfofsClockSourceNormalize clockSource = .jackTransport

/-- The fields of `setup_s` that the queue and the controller read. -/
structure Setup where
  clockSource : Int
  nClients : Nat
  nMaxFofs : Nat
  nSlots : Nat
  sampleRate : Nat
  maxBufferSize : Nat
deriving DecidableEq, Repr

/-- A server on the JACK frame clock with one DSP client and two slots of two frames, one frame a
    microsecond. -/
def twoSlots (nMaxFofs : Nat) : Setup where
  clockSource := 1
  nClients := 1
  nMaxFofs := nMaxFofs
  nSlots := 2
  sampleRate := 1000000
  maxBufferSize := 2

/-- `jfofs_time_to_nframes`: the product is a `uint64_t`, the result a `jack_nframes_t`. -/
def jfofsTimeToNframes (t sampleRate : Nat) : Nat :=
  u32 (u64 (t * sampleRate) / 1000000)

/-- Every conversion result is a 32-bit frame number. -/
lemma jfofsTimeToNframes_lt (t sampleRate : Nat) : jfofsTimeToNframes t sampleRate < 2 ^ 32 :=
  Nat.mod_lt _ (by decide)

/-- Normalizing is idempotent on codes. -/
@[simp] lemma jfofsClockSourceNormalize_code (clockSource : Int) :
    jfofsClockSourceNormalize (jfofsClockSourceNormalize clockSource).code =
      jfofsClockSourceNormalize clockSource := by
  unfold jfofsClockSourceNormalize
  split
  · rfl
  · split <;> rfl

/-- Normalizing does not change whether a clock follows the transport. -/
@[simp] lemma jfofsClockUsesTransport_code (clockSource : Int) :
    jfofsClockUsesTransport (jfofsClockSourceNormalize clockSource).code =
      jfofsClockUsesTransport clockSource := by
  simp only [jfofsClockUsesTransport, jfofsClockSourceNormalize_code]

/-- `uint64_t` reduction is the identity below `2 ^ 64`. -/
lemma u64_of_lt {x : Nat} (lt : x < 2 ^ 64) : u64 x = x :=
  Nat.mod_eq_of_lt lt

/-- The cast to `int` is the identity below `2 ^ 31`. -/
lemma toInt32_of_lt {x : Nat} (lt : x < 2 ^ 31) : toInt32 x = x := by
  unfold toInt32
  rw [Int.bmod_def]
  omega

/-- The cast to `int` never makes a value larger. -/
lemma toInt32_le (x : Nat) : toInt32 x ≤ x := by
  unfold toInt32
  rw [Int.bmod_def]
  omega

/-- The cast to `int` of a 32-bit value from `2 ^ 31` on is negative. -/
lemma toInt32_of_ge {x : Nat} (ge : 2 ^ 31 ≤ x) (lt : x < 2 ^ 32) : toInt32 x = x - 2 ^ 32 := by
  unfold toInt32
  rw [Int.bmod_def]
  omega

end JackFofs
