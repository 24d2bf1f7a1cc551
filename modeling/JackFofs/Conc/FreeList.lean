import JackFofs.Lib.Stacks
import JackFofs.Queue.Lists

/-!
# The free list, one shared access a step

`fof_queue_allocate_fof`, `fof_queue_free_fof` and `fof_queue_free_fofs` as machines. A program
counter says which shared access comes next and carries the local variables that are live there;
`allocStep` and `pushStep` make that access. The atomic loads, the compare-exchanges and the plain
reads and writes of a `next` field are one step each. `fof_queue_free_fof` is the case
`head = tail` of `fof_queue_free_fofs`.

The `DEBUG_ENABLE` counters are left out here: their updates are not atomic and nothing but debug
output reads them.
-/

namespace JackFofs
open Linked

variable {α : Type}

/-- The program counter of `fof_queue_allocate_fof`. -/
inductive AllocPc where
  /-- `fof = __atomic_load_n(&(q->free_fofs))` -/
  | load
  /-- the argument `fof->next` of the compare-exchange -/
  | read (fof : Addr)
  /-- the compare-exchange of `q->free_fofs` from `fof` to the value read -/
  | cas (fof : Addr) (next : Option Addr)
  /-- `fof->next = NULL` -/
  | clear (fof : Addr)
deriving DecidableEq

/-- How a step of `fof_queue_allocate_fof` goes on. -/
inductive AllocRes where
  | more (pc : AllocPc)
  | failed
  | got (fof : Addr)

/-- One step of `fof_queue_allocate_fof`. -/
def allocStep (q : FofQueue α) : AllocPc → AllocRes × FofQueue α
  | .load =>
    match q.freeFofs with
    | none => (.failed, q)
    | some fof => (.more (.read fof), q)
  | .read fof => (.more (.cas fof (q.next fof)), q)
  | .cas fof next =>
    if q.freeFofs = some fof then (.more (.clear fof), { q with freeFofs := next })
    else (.more .load, q)
  | .clear fof => (.got fof, q.setNext fof none)

/-- The next step is a compare-exchange that succeeds with a value for `fof->next` that is no longer
    the one in memory. -/
def staleCas (q : FofQueue α) : AllocPc → Bool
  | .cas fof next => q.freeFofs = some fof && next != q.next fof
  | _ => false

/-- A compare-exchange that is not stale installs the `next` field in memory. -/
lemma next_eq_of_fresh {q : FofQueue α} {fof : Addr} {next : Option Addr}
    (fresh : ¬ staleCas q (.cas fof next)) (head : q.freeFofs = some fof) : next = q.next fof := by
  by_contra ne
  exact fresh (by simp [staleCas, head, ne])

/-- The program counter of `fof_queue_free_fofs`. -/
inductive PushPc where
  /-- `fof = __atomic_load_n(&(q->free_fofs))` -/
  | load
  /-- `tail->next = fof` -/
  | write (fof : Option Addr)
  /-- the expected value `tail->next` of the compare-exchange -/
  | read
  /-- the compare-exchange of `q->free_fofs` from the expected value to `head` -/
  | cas (expected : Option Addr)
  /-- a compare-exchange that failed stores the value it found in `tail->next` -/
  | writeBack (found : Option Addr)
deriving DecidableEq

/-- One step of `fof_queue_free_fofs`; `none` when the call is over. -/
def pushStep (q : FofQueue α) (head tail : Addr) : PushPc → Option PushPc × FofQueue α
  | .load => (some (.write q.freeFofs), q)
  | .write fof => (some .read, q.setNext tail fof)
  | .read => (some (.cas (q.next tail)), q)
  | .cas expected =>
    if q.freeFofs = expected then (none, { q with freeFofs := some head })
    else (some (.writeBack q.freeFofs), q)
  | .writeBack found => (some .load, q.setNext tail found)

/-! ## What the steps do -/

section Steps

variable {q q' : FofQueue α} {head tail : Addr} {l : List Addr} {pc : PushPc}

/-- A chain `l` from `head` to `tail` that is being freed: it ends in `tail->next`, which is the
    value the compare-exchange expects. -/
structure PushOk (q : FofQueue α) (head tail : Addr) (l : List Addr) (pc : PushPc) : Prop where
  last : ∃ p, l = p ++ [tail]
  nodup : l.Nodup
  chain : Seg q.next (some head) l (q.next tail)
  expected : ∀ {e}, pc = .cas e → q.next tail = e

lemma PushOk.mem_tail (ok : PushOk q head tail l pc) : tail ∈ l := by
  obtain ⟨p, rfl⟩ := ok.last
  exact List.mem_append_right p (List.mem_singleton_self tail)

/-- A chain being freed only depends on the `next` fields of its cells. -/
lemma PushOk.congr (ok : PushOk q head tail l pc) (next : ∀ c ∈ l, q'.next c = q.next c) :
    PushOk q' head tail l pc := by
  have et := next tail ok.mem_tail
  refine ⟨ok.last, ok.nodup, ?_, fun e => et.trans (ok.expected e)⟩
  rw [et]
  exact ok.chain.congr next

/-- Writing `tail->next` moves the end of the chain. -/
lemma PushOk.setNext {pc' : PushPc} (ok : PushOk q head tail l pc) (v : Option Addr)
    (no : ∀ e, pc' ≠ .cas e) : PushOk (q.setNext tail v) head tail l pc' := by
  obtain ⟨p, rfl⟩ := ok.last
  have nm : tail ∉ p := by
    have dj := (List.nodup_append.1 ok.nodup).2.2
    exact fun mem => dj tail mem tail (List.mem_singleton_self tail) rfl
  refine ⟨⟨p, rfl⟩, ok.nodup, ?_, fun {e} h => absurd h (no e)⟩
  rw [next_setNext, Function.update_self]
  exact ok.chain.retarget nm

/-- A step of `fof_queue_free_fofs` touches nothing but `tail->next`, or it is the compare-exchange
    that succeeds, and then the chain ends in the old head of the free list. -/
lemma pushStep_cases (ok : PushOk q head tail l pc) :
    (∃ pc', pushStep q head tail pc = (some pc', q) ∧ PushOk q head tail l pc') ∨
    (∃ pc' v, pushStep q head tail pc = (some pc', q.setNext tail v) ∧
      PushOk (q.setNext tail v) head tail l pc') ∨
    (pushStep q head tail pc = (none, { q with freeFofs := some head }) ∧
      Seg q.next (some head) l q.freeFofs) := by
  have keep {pc' : PushPc} (no : ∀ e, pc' ≠ .cas e) : PushOk q head tail l pc' :=
    ⟨ok.last, ok.nodup, ok.chain, fun {e} h => absurd h (no e)⟩
  cases pc with
  | load => exact .inl ⟨_, rfl, keep fun e h => nomatch h⟩
  | write fof => exact .inr (.inl ⟨_, fof, rfl, ok.setNext fof fun e h => nomatch h⟩)
  | read =>
    refine .inl ⟨_, rfl, ok.last, ok.nodup, ok.chain, fun e => ?_⟩
    cases e
    rfl
  | cas e =>
    have et := ok.expected rfl
    by_cases h : q.freeFofs = e
    · refine .inr (.inr ⟨if_pos h, ?_⟩)
      rw [h, ← et]
      exact ok.chain
    · exact .inl ⟨_, if_neg h, keep fun e h => nomatch h⟩
  | writeBack found => exact .inr (.inl ⟨_, found, rfl, ok.setNext found fun e h => nomatch h⟩)

/-- A single cell is a chain. -/
lemma PushOk.single (q : FofQueue α) (fof : Addr) : PushOk q fof fof [fof] .load := by
  refine ⟨⟨[], rfl⟩, List.nodup_singleton fof, ?_, fun e => nomatch e⟩
  rw [Seg.cons_iff, Seg.nil_iff]
  exact ⟨rfl, rfl⟩

end Steps

end JackFofs
