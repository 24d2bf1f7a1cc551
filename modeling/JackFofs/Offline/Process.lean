import JackFofs.Base.Types
import JackFofs.Lib.Grid
import JackFofs.Lib.Run

/-!
# Offline rendering

Model of `offline.c`: a job renders blocks with a fof bank and writes them to a sound file. The two
libraries are parameters (`Library`): a fof bank fills the channel buffers in `fof_next`, a sound
file takes frames in `sf_writef_float` and says how many it took. `Appends` is what the code relies
on about the file.

`jfofs_offline_process` copies the channel buffers into one interleaved buffer, which is reused for
every block. The build is the one without `JFOFS_USE_NEXTI`.
-/

namespace JackFofs
open Grid Runs

/-- The status codes of `offline.c`. -/
inductive OfflineStatus where
  | success
  | failure
  | memoryError
deriving DecidableEq, Repr

/-- A sound file open for writing: its channels and the samples in it, frame by frame. The number of
    frames is an `sf_count_t`. -/
structure SndFile (Sample : Type) where
  channels : Nat
  samples : List Sample
  frames_lt : samples.length < 2 ^ 63 * channels

/-- The functions of libfofs, libsndfile and the C library that a job calls. -/
structure Library (Bank Sample Argv : Type) where
  zero : Sample
  calloc : Nat → Bool
  fofModeToChannels : Int → Nat
  fofNewBank : (sampleRate mode nPreallocateFofs blockSize : Int) → Option Bank
  fofAddV : Bank → (timeUs : Nat) → Argv → Int × Bank
  fofNext : Bank → (nframes : Nat) → (chBuf : Nat → Nat → Sample) → Bank × (Nat → Nat → Sample)
  sfOpen : (sampleRate : Int) → (channels : Nat) → Option (SndFile Sample)
  sfWritefFloat : SndFile Sample → (Int → Sample) → (frames : Nat) → Int × SndFile Sample

/-- `offline_job_s` -/
structure OfflineJob (Bank Sample : Type) where
  fofBank : Bank
  sf : SndFile Sample
  nChans : Nat
  blockSize : Nat
  chBuf : Nat → Nat → Sample
  interleaved : Int → Sample
  frameCount : Nat

variable {Bank Sample Argv : Type}

/-- A new file is empty and has the channels asked for, and `sf_writef_float` appends the frames it
    reports. -/
structure Appends (lib : Library Bank Sample Argv) : Prop where
  opened : ∀ {sampleRate channels sf}, lib.sfOpen sampleRate channels = some sf →
    sf.channels = channels ∧ sf.samples = []
  written : ∀ {sf buf frames sf'} {n : Nat}, lib.sfWritefFloat sf buf frames = ((n : Int), sf') →
    sf'.channels = sf.channels ∧
      sf'.samples = sf.samples ++ (List.range (n * sf.channels)).map fun (i : Nat) => buf i

/-- `jfofs_offline_create`. The calls of `calloc` are for the job, for the buffer of each channel and
    for the interleaved buffer. -/
def jfofsOfflineCreate (lib : Library Bank Sample Argv)
    (sampleRate mode nPreallocateFofs : Int) (blockSize : Nat) :
    Option (OfflineJob Bank Sample) × OfflineStatus :=
  if !lib.calloc 0 then (none, .memoryError)
  else
    let nChans := lib.fofModeToChannels mode
    match lib.fofNewBank sampleRate mode nPreallocateFofs blockSize with
    | none => (none, .memoryError)
    | some fofBank =>
      if (List.range (nChans + 1)).any fun i => !lib.calloc (i + 1) then (none, .memoryError)
      else
        match lib.sfOpen sampleRate nChans with
        | none => (none, .failure)
        | some sf =>
          (some {
            fofBank := fofBank
            sf := sf
            nChans := nChans
            blockSize := blockSize
            chBuf := fun _ _ => lib.zero
            interleaved := fun _ => lib.zero
            frameCount := 0 }, .success)

/-- `jfofs_offline_add` -/
def jfofsOfflineAdd (lib : Library Bank Sample Argv) (job : OfflineJob Bank Sample) (timeUs : Nat)
    (argv : Argv) : Int × OfflineJob Bank Sample :=
  let (status, fofBank) := lib.fofAddV job.fofBank timeUs argv
  (status, { job with fofBank := fofBank })

/-- The writes of the nested loops of `jfofs_offline_process`, in order: index and value. The index
    is computed in `int`. -/
def interleave (chBuf : Nat → Nat → Sample) (blockSize nChans : Nat) : List (Int × Sample) :=
  (List.range blockSize).flatMap fun f =>
    (List.range nChans).map fun c => (toInt32 (f * nChans + c), chBuf c f)

/-- `jfofs_offline_process` -/
def jfofsOfflineProcess (lib : Library Bank Sample Argv) (job : OfflineJob Bank Sample) :
    OfflineStatus × OfflineJob Bank Sample :=
  let (fofBank, chBuf) := lib.fofNext job.fofBank job.blockSize job.chBuf
  let interleaved := store job.interleaved (interleave chBuf job.blockSize job.nChans)
  let (written, sf) := lib.sfWritefFloat job.sf interleaved job.blockSize
  let job := { job with fofBank := fofBank, chBuf := chBuf, interleaved := interleaved, sf := sf }
  if written ≠ job.blockSize then (.failure, job)
  else (.success, { job with frameCount := u64 (job.frameCount + job.blockSize) })

/-- The calls a client makes between `jfofs_offline_create` and `jfofs_offline_close`. -/
inductive OfflineOp (Argv : Type) where
  | add (timeUs : Nat) (argv : Argv)
  | process

/-- What such a call returns. -/
inductive OfflineOut where
  | added (status : Int)
  | processed (status : OfflineStatus)
deriving DecidableEq

/-- One call. -/
def execOffline (lib : Library Bank Sample Argv) (job : OfflineJob Bank Sample) :
    OfflineOp Argv → Option (OfflineOut × OfflineJob Bank Sample)
  | .add timeUs argv =>
    let (status, job) := jfofsOfflineAdd lib job timeUs argv
    some (.added status, job)
  | .process =>
    let (status, job) := jfofsOfflineProcess lib job
    some (.processed status, job)

/-- The block that the next call of `jfofs_offline_process` renders: `ch_buf` after `fof_next`. -/
def nextBlock (lib : Library Bank Sample Argv) (job : OfflineJob Bank Sample) : Nat → Nat → Sample :=
  (lib.fofNext job.fofBank job.blockSize job.chBuf).2

/-- The blocks that the calls of `jfofs_offline_process` of a run rendered, in order. -/
def renderedBlocks (lib : Library Bank Sample Argv)
    (log : List (Entry (OfflineJob Bank Sample) (OfflineOp Argv) OfflineOut)) :
    List (Nat → Nat → Sample) :=
  log.filterMap fun x =>
    match x.op with
    | .add .. => none
    | .process => some (nextBlock lib x.pre)

/-! ## One block -/

section Block

variable {blockSize nChans : Nat} {chBuf : Nat → Nat → Sample} {w : Int × Sample}

lemma mem_interleave (small : blockSize * nChans < 2 ^ 31) :
    w ∈ interleave chBuf blockSize nChans ↔
      ∃ f c, f < blockSize ∧ c < nChans ∧ w = (((f * nChans + c : Nat) : Int), chBuf c f) := by
  have index {f c : Nat} (hf : f < blockSize) (hc : c < nChans) :
      toInt32 (f * nChans + c) = (f * nChans + c : Nat) :=
    toInt32_of_lt (Nat.lt_trans (index_lt hf hc) small)
  simp only [interleave, List.mem_flatMap, List.mem_map, List.mem_range]
  constructor
  · rintro ⟨f, hf, c, hc, rfl⟩
    exact ⟨f, c, hf, hc, by rw [index hf hc]⟩
  · rintro ⟨f, c, hf, hc, rfl⟩
    exact ⟨f, hf, c, hc, by rw [index hf hc]⟩

/-- Every write of the loops stays inside the interleaved buffer. -/
lemma interleave_inside (small : blockSize * nChans < 2 ^ 31)
    (mem : w ∈ interleave chBuf blockSize nChans) : 0 ≤ w.1 ∧ w.1 < (blockSize * nChans : Nat) := by
  obtain ⟨f, c, hf, hc, rfl⟩ := (mem_interleave small).1 mem
  have lt := index_lt hf hc
  constructor <;> dsimp only <;> omega

/-- After the loops the interleaved buffer holds the block frame by frame, whatever it held before. -/
lemma store_interleave (small : blockSize * nChans < 2 ^ 31) (buf : Int → Sample) {f c : Nat}
    (hf : f < blockSize) (hc : c < nChans) :
    store buf (interleave chBuf blockSize nChans) ((f * nChans + c : Nat) : Int) = chBuf c f := by
  have mem : (((f * nChans + c : Nat) : Int), chBuf c f) ∈ interleave chBuf blockSize nChans :=
    (mem_interleave small).2 ⟨f, c, hf, hc, rfl⟩
  refine store_of_mem (fun w memw w' memw' e => ?_) buf mem
  -- the index of a sample determines its frame and its channel
  obtain ⟨f1, c1, -, hc1, rfl⟩ := (mem_interleave small).1 memw
  obtain ⟨f2, c2, -, hc2, rfl⟩ := (mem_interleave small).1 memw'
  have e : f1 * nChans + c1 = f2 * nChans + c2 := Int.ofNat.inj e
  have ef : f1 = f2 := by rw [← index_div (r := f1) hc1, e, index_div hc2]
  have ec : c1 = c2 := by rw [← index_mod (r := f1) hc1, e, index_mod hc2]
  rw [ef, ec]

end Block

/-! ## Runs -/

/-- The job after rendering `blocks`: the file is the blocks one after the other. -/
structure FileHolds (size chans : Nat) (blocks : List (Nat → Nat → Sample))
    (job : OfflineJob Bank Sample) : Prop where
  blockSize : job.blockSize = size
  nChans : job.nChans = chans
  channels : job.sf.channels = chans
  samples : job.sf.samples = stack size chans (blocks.map fun block f c => block c f)
  frameCount : job.frameCount = blocks.length * size

variable {lib : Library Bank Sample Argv} {job job' : OfflineJob Bank Sample}
  {blocks : List (Nat → Nat → Sample)}

/-- The frames of a file fit into an `sf_count_t`. -/
lemma SndFile.blocks_lt {sf : SndFile Sample} {size : Nat}
    (samples : sf.samples = stack size sf.channels (blocks.map fun block f c => block c f)) :
    blocks.length * size < 2 ^ 63 := by
  have lt := sf.frames_lt
  rw [samples, length_stack, List.length_map, ← Nat.mul_assoc] at lt
  exact Nat.lt_of_mul_lt_mul_right lt

/-- A new job has rendered nothing. -/
lemma jfofsOfflineCreate_rendered (appends : Appends lib) {sampleRate mode nPreallocateFofs : Int}
    {blockSize : Nat} {status : OfflineStatus}
    (e : jfofsOfflineCreate lib sampleRate mode nPreallocateFofs blockSize = (some job, status)) :
    FileHolds blockSize (lib.fofModeToChannels mode) [] job := by
  rw [jfofsOfflineCreate] at e
  split at e
  · cases congrArg Prod.fst e
  dsimp only at e
  split at e
  · cases congrArg Prod.fst e
  split at e
  · cases congrArg Prod.fst e
  split at e
  case h_1 => cases congrArg Prod.fst e
  case h_2 sf opened =>
    obtain ⟨channels, samples⟩ := appends.opened opened
    cases e
    exact ⟨rfl, rfl, channels, samples, (Nat.zero_mul _).symm⟩

/-- A call that succeeds appends its block. -/
lemma jfofsOfflineProcess_rendered (appends : Appends lib) {size chans : Nat}
    (small : size * chans < 2 ^ 31) (rend : FileHolds size chans blocks job)
    (e : jfofsOfflineProcess lib job = (.success, job')) :
    FileHolds size chans (blocks ++ [nextBlock lib job]) job' := by
  cases next : lib.fofNext job.fofBank job.blockSize job.chBuf with
  | mk fofBank chBuf =>
  cases write : lib.sfWritefFloat job.sf (store job.interleaved (interleave chBuf size chans))
    size with
  | mk written sf =>
  have block : nextBlock lib job = chBuf := congrArg Prod.snd next
  rw [← rend.blockSize, ← rend.nChans] at write
  simp only [jfofsOfflineProcess, next, write] at e
  rw [rend.blockSize, rend.nChans] at write e
  split at e
  case isTrue => cases congrArg Prod.fst e
  case isFalse same =>
    rw [not_not.1 same] at write
    obtain ⟨channels, samples⟩ := appends.written write
    rw [rend.channels] at channels samples
    cases e
    -- the frames appended are the block in row-major order
    have frames : ((List.range (size * chans)).map fun (i : Nat) =>
        store job.interleaved (interleave chBuf size chans) i) =
        rowMajor size chans fun f c => chBuf c f := by
      rw [rowMajor, List.map_inj_left]
      intro i mem
      have lt := List.mem_range.1 mem
      have pos : 0 < chans := by
        apply Nat.pos_of_ne_zero
        rintro rfl
        exact Nat.not_lt_zero i lt
      have hf : i / chans < size := Nat.div_lt_of_lt_mul (by rwa [Nat.mul_comm])
      have entry : _ = chBuf (i % chans) (i / chans) :=
        store_interleave small job.interleaved hf (Nat.mod_lt i pos)
      rw [Nat.mul_comm, Nat.div_add_mod] at entry
      exact entry
    have rend' : sf.samples = stack size chans
        ((blocks ++ [nextBlock lib job]).map fun block f c => block c f) := by
      rw [samples, frames, rend.samples, block, List.map_append, stack, stack,
        List.flatMap_append]
      simp
    have count : (blocks ++ [nextBlock lib job]).length * size = blocks.length * size + size := by
      rw [List.length_append, List.length_singleton, Nat.succ_mul]
    refine ⟨rfl, rfl, channels, rend', ?_⟩
    -- the file counts its frames in 63 bits, so the counter of the job does not wrap
    rw [← channels] at rend'
    have lt := SndFile.blocks_lt rend'
    rw [count] at lt ⊢
    show u64 (job.frameCount + size) = _
    rw [rend.frameCount]
    exact u64_of_lt (by omega)

/-- A call of `jfofs_offline_add` writes nothing. -/
lemma jfofsOfflineAdd_rendered {size chans : Nat} (rend : FileHolds size chans blocks job)
    (timeUs : Nat) (argv : Argv) :
    FileHolds size chans blocks (jfofsOfflineAdd lib job timeUs argv).2 :=
  ⟨rend.blockSize, rend.nChans, rend.channels, rend.samples, rend.frameCount⟩

/-- The log of a run with a successful last entry renders one block more, if that entry is a call of
    `jfofs_offline_process`. -/
lemma FileHolds.step (appends : Appends lib) {size chans : Nat} (small : size * chans < 2 ^ 31)
    {log : List (Entry (OfflineJob Bank Sample) (OfflineOp Argv) OfflineOut)}
    {x : Entry (OfflineJob Bank Sample) (OfflineOp Argv) OfflineOut}
    (ok : x.op = .process → x.out = .processed .success)
    (rend : FileHolds size chans (renderedBlocks lib log) x.pre)
    (e : execOffline lib x.pre x.op = some (x.out, job')) :
    FileHolds size chans (renderedBlocks lib (log ++ [x])) job' := by
  obtain ⟨job, op, out⟩ := x
  have blocks : renderedBlocks lib (log ++ [⟨job, op, out⟩]) =
      renderedBlocks lib log ++ renderedBlocks lib [⟨job, op, out⟩] := List.filterMap_append
  rw [blocks]
  cases op with
  | add timeUs argv =>
    have e : (jfofsOfflineAdd lib job timeUs argv).2 = job' :=
      congrArg Prod.snd (Option.some.inj e)
    rw [show renderedBlocks lib [⟨job, .add timeUs argv, out⟩] = [] from rfl, List.append_nil, ← e]
    exact jfofsOfflineAdd_rendered rend timeUs argv
  | process =>
    have success : out = .processed .success := ok rfl
    subst success
    have e : jfofsOfflineProcess lib job = (.success, job') := by
      rw [execOffline] at e
      generalize jfofsOfflineProcess lib job = r at e
      obtain ⟨status, job1⟩ := r
      cases e
      rfl
    exact jfofsOfflineProcess_rendered appends small rend e

/-- No call changes the sizes of the buffers. -/
lemma execOffline_sizes {op : OfflineOp Argv} {out : OfflineOut}
    (e : execOffline lib job op = some (out, job')) :
    job'.blockSize = job.blockSize ∧ job'.nChans = job.nChans := by
  cases op with
  | add timeUs argv =>
    have e : (jfofsOfflineAdd lib job timeUs argv).2 = job' :=
      congrArg Prod.snd (Option.some.inj e)
    rw [← e]
    exact ⟨rfl, rfl⟩
  | process =>
    have e : (jfofsOfflineProcess lib job).2 = job' := congrArg Prod.snd (Option.some.inj e)
    rw [← e, jfofsOfflineProcess]
    dsimp only
    split <;> exact ⟨rfl, rfl⟩

/-- Run any calls on a new job. If every call of `jfofs_offline_process` succeeds, the file holds the
    blocks these calls rendered, sample for sample, and `frame_count` is the number of its frames.
    Successful or not, the calls write inside the interleaved buffer. -/
theorem offline_output (lib : Library Bank Sample Argv) (appends : Appends lib)
    (sampleRate mode nPreallocateFofs : Int) (blockSize nChans : Nat)
    (chans : nChans = lib.fofModeToChannels mode) (small : blockSize * nChans < 2 ^ 31)
    (job : OfflineJob Bank Sample)
    (created : jfofsOfflineCreate lib sampleRate mode nPreallocateFofs blockSize =
      (some job, .success)) (ops : List (OfflineOp Argv)) :
    ∃ log job', execAll (execOffline lib) job ops = some (log, job') ∧
      (∀ x ∈ log, ∀ w ∈ interleave (nextBlock lib x.pre) x.pre.blockSize x.pre.nChans,
        0 ≤ w.1 ∧ w.1 < (blockSize * nChans : Nat)) ∧
      ((∀ x ∈ log, x.op = .process → x.out = .processed .success) →
        job'.sf.samples.length = (renderedBlocks lib log).length * blockSize * nChans ∧
        job'.frameCount = (renderedBlocks lib log).length * blockSize ∧
        ∀ (i f c : Nat) (hi : i < (renderedBlocks lib log).length), f < blockSize → c < nChans →
          job'.sf.samples[(i * blockSize + f) * nChans + c]? =
            some ((renderedBlocks lib log)[i] c f)) := by
  have total {job : OfflineJob Bank Sample} {op : OfflineOp Argv} (_ : True) (_ : op ∈ ops) :
      ∃ out job', execOffline lib job op = some (out, job') ∧ True := by
    cases op <;> exact ⟨_, _, rfl, trivial⟩
  obtain ⟨log, job', e, -⟩ : ∃ log job', execAll (execOffline lib) job ops = some (log, job') ∧ True :=
    execAll_total (fun _ => True) total trivial
  have init := jfofsOfflineCreate_rendered appends created
  rw [← chans] at init
  have run := (run_of_execAll e).1
  have sizes_step {x : Entry (OfflineJob Bank Sample) (OfflineOp Argv) OfflineOut}
      {job1 : OfflineJob Bank Sample} (_ : x ∈ log)
      (pre : x.pre.blockSize = blockSize ∧ x.pre.nChans = nChans)
      (e : execOffline lib x.pre x.op = some (x.out, job1)) :
      job1.blockSize = blockSize ∧ job1.nChans = nChans := by
    have same := execOffline_sizes e
    rw [same.1, same.2]
    exact pre
  have sizes := (run.inv (fun job => job.blockSize = blockSize ∧ job.nChans = nChans) sizes_step
    ⟨init.blockSize, init.nChans⟩).2
  refine ⟨log, job', e, fun x memx w mem => ?_, fun ok => ?_⟩
  · obtain ⟨size, chans⟩ := sizes x memx
    rw [size, chans] at mem
    exact interleave_inside small mem
  have rend : FileHolds blockSize nChans (renderedBlocks lib log) job' :=
    run.inv_log (fun log job => FileHolds blockSize nChans (renderedBlocks lib log) job)
      (fun mem rend e => rend.step appends small (ok _ mem) e) init
  refine ⟨?_, rend.frameCount, fun i f c hi hf hc => ?_⟩
  · rw [rend.samples, length_stack, List.length_map, Nat.mul_assoc]
  · rw [rend.samples, getElem?_stack (by rwa [List.length_map]) hf hc, List.getElem_map]

/-- Block `n` of a signal that is different in every sample. -/
def markedBlock (n c f : Nat) : Int := 100 * n + 10 * c + f

/-- A library that renders marked blocks and keeps a file of up to 32 samples in memory. -/
def memoryLibrary : Library Nat Int Unit where
  zero := 0
  calloc _ := true
  fofModeToChannels mode := mode.toNat
  fofNewBank _ _ _ _ := some 0
  fofAddV bank _ _ := (0, bank)
  fofNext bank _ _ := (bank + 1, markedBlock bank)
  sfOpen _ channels :=
    if pos : 0 < channels then some ⟨channels, [], Nat.mul_pos (by decide) pos⟩ else none
  sfWritefFloat sf buf frames :=
    let samples := sf.samples ++ (List.range (frames * sf.channels)).map fun (i : Nat) => buf i
    if fits : samples.length ≤ 32 then
      (frames, ⟨sf.channels, samples, by have lt := sf.frames_lt; omega⟩)
    else (-1, sf)

lemma memoryLibrary_appends : Appends memoryLibrary := by
  constructor
  case opened =>
    intro sampleRate channels sf e
    simp only [memoryLibrary] at e
    split at e
    · cases e
      exact ⟨rfl, rfl⟩
    · cases e
  case written =>
    intro sf buf frames sf' n e
    simp only [memoryLibrary] at e
    split at e
    · have en : (frames : Int) = n := congrArg Prod.fst e
      cases Int.ofNat.inj en
      cases congrArg Prod.snd e
      exact ⟨rfl, rfl⟩
    · have en : (-1 : Int) = n := congrArg Prod.fst e
      omega

/-- Two blocks of two frames in stereo. -/
theorem offline_output_two : ∃ job log job',
    jfofsOfflineCreate memoryLibrary 48000 2 8 2 = (some job, .success) ∧
      execAll (execOffline memoryLibrary) job [.process, .add 5 (), .process] = some (log, job') ∧
      job'.frameCount = 4 ∧ job'.sf.samples[(1 * 2 + 1) * 2 + 0]? = some 101 := by
  obtain ⟨job, created⟩ : ∃ job, jfofsOfflineCreate memoryLibrary 48000 2 8 2 = (some job, .success) :=
    ⟨_, rfl⟩
  obtain ⟨log, job', run, -, output⟩ := offline_output memoryLibrary memoryLibrary_appends 48000 2 8 2
    2 rfl (by decide) job created [.process, .add 5 (), .process]
  have created' := created
  cases Option.some.inj (congrArg Prod.fst created)
  refine ⟨_, log, job', created', run, ?_⟩
  have elog := congrArg Prod.fst (Option.some.inj (run.symm.trans rfl))
  dsimp only at elog
  have blocks : renderedBlocks memoryLibrary log = [markedBlock 0, markedBlock 1] := by
    rw [elog]
    rfl
  have ok : ∀ x ∈ log, x.op = .process → x.out = .processed .success := by
    rw [elog]
    intro x mem op
    simp only [List.mem_cons, List.not_mem_nil, or_false] at mem
    obtain rfl | rfl | rfl := mem
    · rfl
    · cases op
    · rfl
  rw [blocks] at output
  obtain ⟨-, count, sample⟩ := output ok
  exact ⟨count, sample 1 1 0 (by decide) (by decide) (by decide)⟩

end JackFofs
