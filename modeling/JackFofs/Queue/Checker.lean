import Mathlib.Data.List.Perm.Subperm
import JackFofs.Queue.Basic
import JackFofs.Lib.Seg

/-!
# The free-list checker

Model of `check_free_list` of `debug.c`, which walks the free list of a queue whose memory may be
damaged. The array `fof_visited` has `max_fofs` elements; what lies beyond its end in memory is
arbitrary (`junk`), and the checker keeps a list of the indexes it uses (`used`). Addresses are
counted in cells, as everywhere, and what is printed is left out.

The limits are those `shmem_create` passes to `define_fof_limits`, so `fof_max` is one past the last
cell. Both tests of the checker let this address pass.
-/

namespace JackFofs
open Linked

variable {α : Type}

/-- `debug_info_s` -/
structure DebugInfo where
  fofMin : Addr
  fofMax : Addr
deriving DecidableEq, Repr

/-- `define_fof_limits` -/
def defineFofLimits (min max : Addr) : DebugInfo where
  fofMin := min
  fofMax := max

/-- The variables of `check_free_list`: the array, the two counters and the indexes used so far. -/
structure CheckVars where
  fofVisited : Int → Int
  errorCnt : Int
  cnt : Int
  used : List Int

/-- What `check_free_list` returns, `*cnt`, and the indexes of `fof_visited` it used. -/
structure CheckResult where
  status : Int
  cnt : Int
  used : List Int
deriving DecidableEq, Repr

/-- The test of the address. -/
def checkAddr (d : DebugInfo) (fof : Addr) (v : CheckVars) : CheckVars :=
  if fof < d.fofMin ∨ fof > d.fofMax then { v with errorCnt := v.errorCnt + 1 } else v

/-- The integrity test: the index, and whether the cell has been visited before. -/
def checkIntegrity (d : DebugInfo) (maxFofs : Int) (fof : Addr) (v : CheckVars) : CheckVars :=
  let o : Int := fof - d.fofMin
  let v := if o > maxFofs ∨ o < 0 then { v with errorCnt := v.errorCnt + 1 } else v
  let v := if v.fofVisited o ≠ 0 then { v with errorCnt := v.errorCnt + 1 } else v
  { v with fofVisited := Function.update v.fofVisited o (v.fofVisited o + 1), used := v.used ++ [o] }

/-- One round of the loop, up to the increment of `*cnt`. -/
def checkRound (d : DebugInfo) (maxFofs : Int) (integrity : Bool) (fof : Addr) (v : CheckVars) :
    CheckVars :=
  let v := checkAddr d fof v
  let v := if integrity then checkIntegrity d maxFofs fof v else v
  { v with cnt := v.cnt + 1 }

/-- The loop of `check_free_list`. -/
def checkLoop (d : DebugInfo) (q : FofQueue α) (integrity : Bool) :
    (fuel : Nat) → (fof : Option Addr) → CheckVars → Option CheckResult
  | _, none, v => some ⟨v.errorCnt, v.cnt, v.used⟩
  | 0, some _, _ => none
  | fuel + 1, some fof, v =>
    let v := checkRound d q.maxFofs integrity fof v
    if v.cnt > q.maxFofs then some ⟨-1, v.cnt, v.used⟩
    else checkLoop d q integrity fuel (q.next fof) v

/-- `check_free_list`. The loop before the walk clears the array. -/
def checkFreeList (fuel : Nat) (d : DebugInfo) (junk : Int → Int) (q : FofQueue α) (cnt : Int)
    (integrity : Bool) : Option CheckResult :=
  checkLoop d q integrity fuel q.freeFofs
    { fofVisited := fun o => if 0 ≤ o ∧ o < q.maxFofs then 0 else junk o
      errorCnt := 0
      cnt := cnt
      used := (List.range q.maxFofs.toNat).map Int.ofNat }

/-! ## The walk -/

section Walk

variable {q : FofQueue α} {M fuel : Nat} {v : CheckVars} {fof : Option Addr}

/-- The limits of a pool of `M` cells. -/
abbrev poolLimits (M : Nat) : DebugInfo := defineFofLimits 0 M

lemma checkIntegrity_fields (d : DebugInfo) (maxFofs : Int) (a : Addr) (v : CheckVars) :
    (checkIntegrity d maxFofs a v).cnt = v.cnt ∧
      (checkIntegrity d maxFofs a v).used = v.used ++ [(a : Int) - d.fofMin] := by
  unfold checkIntegrity
  dsimp only
  split <;> split <;> exact ⟨rfl, rfl⟩

/-- A round counts its cell and uses its index, whatever the tests say. -/
lemma checkRound_fields (maxFofs : Int) (a : Addr) (v : CheckVars) :
    (checkRound (poolLimits M) maxFofs true a v).cnt = v.cnt + 1 ∧
      (checkRound (poolLimits M) maxFofs true a v).used = v.used ++ [(a : Int)] := by
  obtain ⟨cnt, used⟩ := checkIntegrity_fields (poolLimits M) maxFofs a (checkAddr (poolLimits M) a v)
  have same : (checkAddr (poolLimits M) a v).cnt = v.cnt ∧
      (checkAddr (poolLimits M) a v).used = v.used := by
    unfold checkAddr
    split <;> exact ⟨rfl, rfl⟩
  rw [same.1] at cnt
  rw [same.2, show (poolLimits M).fofMin = 0 from rfl] at used
  refine ⟨congrArg (· + 1) cnt, used.trans ?_⟩
  show v.used ++ [(a : Int) - 0] = _
  rw [Int.sub_zero]

/-- A round at a cell of the pool that has not been visited finds no error. -/
lemma checkRound_fresh {a : Addr} (lt : a < M) (fresh : v.fofVisited a = 0) :
    checkRound (poolLimits M) M true a v =
      { fofVisited := Function.update v.fofVisited a 1, errorCnt := v.errorCnt, cnt := v.cnt + 1
        used := v.used ++ [(a : Int)] } := by
  have addr : checkAddr (poolLimits M) a v = v := by
    apply if_neg
    rintro (low | high)
    · exact Nat.not_lt_zero a low
    · exact Nat.not_lt.2 (Nat.le_of_lt lt) high
  have index : (a : Int) - ((poolLimits M).fofMin : Nat) = a := Int.sub_zero _
  have inside : ¬ ((a : Int) > M ∨ (a : Int) < 0) := by
    have lt : (a : Int) < M := Int.ofNat_lt.2 lt
    omega
  simp only [checkRound, addr, checkIntegrity, index, if_neg inside, fresh, if_true, ne_eq,
    not_true_eq_false, if_false, Int.zero_add]

/-- A run that ends with some fuel ends the same way with more. -/
lemma checkLoop_mono {d : DebugInfo} {integrity : Bool} {fuel' : Nat} {r : CheckResult}
    (le : fuel ≤ fuel') (e : checkLoop d q integrity fuel fof v = some r) :
    checkLoop d q integrity fuel' fof v = some r := by
  induction fuel generalizing fuel' fof v with
  | zero =>
    cases fof with
    | none =>
      cases fuel' <;> exact e
    | some a => cases e
  | succ fuel ih =>
    cases fuel' with
    | zero => exact absurd le (Nat.not_succ_le_zero fuel)
    | succ fuel' =>
      cases fof with
      | none => exact e
      | some a =>
        rw [checkLoop] at e ⊢
        split at e
        case isTrue full => rwa [if_pos full]
        case isFalse going =>
          rw [if_neg going]
          exact ih (Nat.le_of_succ_le_succ le) e

/-- The loop ends. It uses the indexes of the cells it visits, at most `M + 1` of them, and gives up
    if there are that many. -/
lemma checkLoop_used (maxFofs : q.maxFofs = M) {n : Nat} (pos : 1 ≤ n) (left : v.cnt + n = M + 1)
    (enough : n ≤ fuel) :
    ∃ r, checkLoop (poolLimits M) q true fuel fof v = some r ∧
      r.used = v.used ++ (walk q.next n fof).map Int.ofNat ∧
      ((walk q.next n fof).length = n → r.status = -1) := by
  induction n generalizing fuel fof v with
  | zero => exact absurd pos (Nat.not_succ_le_zero 0)
  | succ n ih =>
    cases fuel with
    | zero => exact absurd enough (Nat.not_succ_le_zero n)
    | succ fuel =>
      cases fof with
      | none =>
        refine ⟨_, rfl, (List.append_nil _).symm, fun len => ?_⟩
        exact absurd len (Nat.succ_ne_zero n).symm
      | some a =>
        obtain ⟨cnt, used⟩ := checkRound_fields (M := M) (q.maxFofs) a v
        rw [checkLoop]
        rw [walk, List.map_cons, List.length_cons, cnt]
        split
        case isTrue full =>
          have n0 : n = 0 := by omega
          subst n0
          exact ⟨_, rfl, used, fun _ => rfl⟩
        case isFalse going =>
          obtain ⟨r, e, er, len⟩ := @ih fuel (checkRound (poolLimits M) q.maxFofs true a v) (q.next a)
            (by omega) (by omega) (Nat.le_of_succ_le_succ enough)
          refine ⟨r, e, ?_, fun l => len (Nat.succ.inj l)⟩
          rw [er, used, List.append_assoc]
          rfl

/-- On a list of cells of the pool that ends the loop finds no error. -/
lemma checkLoop_seg (maxFofs : q.maxFofs = M) {l : List Addr} (sg : Seg q.next fof l none)
    (pool : ∀ a ∈ l, a < M) (fresh : ∀ a ∈ l, v.fofVisited a = 0) (room : v.cnt + l.length ≤ M)
    (enough : l.length ≤ fuel) :
    ∃ r, checkLoop (poolLimits M) q true fuel fof v = some r ∧ r.status = v.errorCnt ∧
      r.cnt = v.cnt + l.length := by
  induction l generalizing fuel fof v with
  | nil =>
    rw [Seg.nil_iff] at sg
    subst sg
    exact ⟨_, by cases fuel <;> rfl, rfl, (Int.add_zero _).symm⟩
  | cons a l ih =>
    have nd := List.nodup_cons.1 sg.nodup
    rw [Seg.cons_iff] at sg
    obtain ⟨rfl, sg⟩ := sg
    rw [List.length_cons] at room enough
    cases fuel with
    | zero => exact absurd enough (Nat.not_succ_le_zero _)
    | succ fuel =>
      have round := checkRound_fresh (pool a List.mem_cons_self) (fresh a List.mem_cons_self)
      rw [checkLoop, maxFofs, round]
      have going : ¬ v.cnt + 1 > (M : Int) := by omega
      dsimp only
      rw [if_neg going]
      -- the rest of the list does not come back to `a`
      have fresh' : ∀ b ∈ l, Function.update v.fofVisited a 1 b = 0 := by
        intro b mem
        have ne : (b : Int) ≠ a := by
          intro e
          cases Int.ofNat.inj e
          exact nd.1 mem
        rw [Function.update_of_ne ne]
        exact fresh b (List.mem_cons_of_mem a mem)
      obtain ⟨r, e, status, cnt⟩ := ih 
        (v := ⟨Function.update v.fofVisited a 1, v.errorCnt, v.cnt + 1, v.used ++ [(a : Int)]⟩) sg
        (fun b mem => pool b (List.mem_cons_of_mem a mem)) fresh' (by dsimp only; omega)
        (Nat.le_of_succ_le_succ enough)
      refine ⟨r, e, status, cnt.trans ?_⟩
      show v.cnt + 1 + (l.length : Int) = v.cnt + ((l.length + 1 : Nat) : Int)
      omega

end Walk

/-! ## What the checker accepts -/

/-- Following `next` from the head pointer reaches `NULL` through pairwise distinct cells of a pool
    of `M` cells, `n` of them. -/
def WellFormed (next : Addr → Option Addr) (head : Option Addr) (M n : Nat) : Prop :=
  ∃ l, Seg next head l none ∧ l.Nodup ∧ (∀ a ∈ l, a < M) ∧ l.length = n

/-- The checker ends, uses `fof_visited` only at the indexes it has, answers `0` for the well-formed
    lists only, and counts their cells. -/
def CheckerRight (M : Nat) (junk : Int → Int) (q : FofQueue α) : Prop :=
  ∃ r, (∀ fuel, M + 1 ≤ fuel → checkFreeList fuel (poolLimits M) junk q 0 true = some r) ∧
    (∀ o ∈ r.used, 0 ≤ o ∧ o < M) ∧
    (r.status = 0 ↔ ∃ n, WellFormed q.next q.freeFofs M n) ∧
    ∀ n, WellFormed q.next q.freeFofs M n → r.cnt = n

section Accepts

variable {q : FofQueue α} {M : Nat}

/-- Distinct cells of the pool are no more than the pool has. -/
lemma WellFormed.le {next : Addr → Option Addr} {head : Option Addr} {n : Nat}
    (wf : WellFormed next head M n) : n ≤ M := by
  obtain ⟨l, -, nd, pool, rfl⟩ := wf
  have sub : l ⊆ List.range M := fun a mem => List.mem_range.2 (pool a mem)
  have le := (List.subperm_of_subset nd sub).length_le
  rwa [List.length_range] at le

/-- A walk that stays below `fof_max` stays in the pool. -/
lemma walk_lt {next : Addr → Option Addr} (cells : ∀ a, a < M → ∀ b, next a = some b → b ≤ M) {n : Nat}
    {head : Option Addr} (start : ∀ b, head = some b → b ≤ M) (nm : M ∉ walk next n head) :
    ∀ a ∈ walk next n head, a < M := by
  induction n generalizing head with
  | zero => exact fun a mem => absurd mem List.not_mem_nil
  | succ n ih =>
    cases head with
    | none => exact fun a mem => absurd mem List.not_mem_nil
    | some b =>
      rw [walk, List.mem_cons, not_or] at nm
      have lt : b < M := Nat.lt_of_le_of_ne (start b rfl) (Ne.symm nm.1)
      intro a mem
      rw [walk] at mem
      obtain rfl | mem := List.mem_cons.1 mem
      · exact lt
      · exact ih (cells b lt) nm.2 a mem

/-- For every pool and every memory in which the pointers are `NULL`, cells of the pool or `fof_max`,
    the checker does what it is for exactly if `fof_max` is not among the first `M + 1` addresses of
    the chain. -/
theorem checker_right_iff (M : Nat) (junk : Int → Int) (q : FofQueue α) (maxFofs : q.maxFofs = M)
    (start : ∀ b, q.freeFofs = some b → b ≤ M)
    (cells : ∀ a, a < M → ∀ b, q.next a = some b → b ≤ M) :
    CheckerRight M junk q ↔ M ∉ walk q.next (M + 1) q.freeFofs := by
  -- the run with a given fuel, and the indexes it uses
  have run {fuel : Nat} (enough : M + 1 ≤ fuel) :
      ∃ r, checkFreeList fuel (poolLimits M) junk q 0 true = some r ∧
        r.used = (List.range M).map Int.ofNat ++
          (walk q.next (M + 1) q.freeFofs).map Int.ofNat ∧
        ((walk q.next (M + 1) q.freeFofs).length = M + 1 → r.status = -1) := by
    have used := @checkLoop_used _ q M fuel
      ⟨fun o => if 0 ≤ o ∧ o < q.maxFofs then 0 else junk o, 0, 0,
        (List.range q.maxFofs.toNat).map Int.ofNat⟩ q.freeFofs maxFofs (M + 1) (Nat.succ_pos M)
      (Int.zero_add _) enough
    rw [show q.maxFofs.toNat = M by rw [maxFofs]; rfl] at used
    rw [checkFreeList, show q.maxFofs.toNat = M by rw [maxFofs]; rfl]
    exact used
  constructor
  · rintro ⟨r, ends, inside, -⟩ mem
    obtain ⟨r', e, used, -⟩ := run (Nat.le_refl (M + 1))
    rw [ends (M + 1) (Nat.le_refl _)] at e
    cases e
    have mem : (M : Int) ∈ r.used := by
      rw [used]
      exact List.mem_append_right _ (List.mem_map.2 ⟨M, mem, rfl⟩)
    exact absurd (inside M mem).2 (Int.lt_irrefl _)
  · intro nm
    have pool := walk_lt cells start nm
    obtain ⟨r, e, used, full⟩ := run (Nat.le_refl (M + 1))
    have inside : ∀ o ∈ r.used, 0 ≤ o ∧ o < M := by
      intro o mem
      rw [used, ← List.map_append] at mem
      obtain ⟨a, mema, rfl⟩ := List.mem_map.1 mem
      have lt : a < M := by
        obtain mema | mema := List.mem_append.1 mema
        · exact List.mem_range.1 mema
        · exact pool a mema
      exact ⟨Int.natCast_nonneg a, Int.ofNat_lt.2 lt⟩
    refine ⟨r, fun fuel enough => checkLoop_mono enough e, inside, ?_⟩
    -- a well-formed list is what the walk visits
    have visits {n : Nat} (wf : WellFormed q.next q.freeFofs M n) :
        (walk q.next (M + 1) q.freeFofs).length = n := by
      have le := wf.le
      obtain ⟨l, sg, -, -, rfl⟩ := wf
      rw [sg.walk_eq (Nat.le_succ_of_le le)]
    obtain len | ⟨len, sg⟩ := walk_cases q.next (M + 1) q.freeFofs
    · have never (n : Nat) : ¬ WellFormed q.next q.freeFofs M n := by
        intro wf
        have le := wf.le
        have e := visits wf
        omega
      refine ⟨⟨fun zero => ?_, fun ⟨n, wf⟩ => absurd wf (never n)⟩, fun n wf => absurd wf (never n)⟩
      rw [full len] at zero
      cases zero
    · have fresh : ∀ a ∈ walk q.next (M + 1) q.freeFofs,
          (if 0 ≤ (a : Int) ∧ (a : Int) < q.maxFofs then 0 else junk a) = 0 := by
        intro a mem
        have lt : (a : Int) < M := Int.ofNat_lt.2 (pool a mem)
        rw [maxFofs]
        exact if_pos ⟨Int.natCast_nonneg a, lt⟩
      obtain ⟨r', e', status, cnt⟩ := checkLoop_seg
        (v := ⟨fun o => if 0 ≤ o ∧ o < q.maxFofs then 0 else junk o, 0, 0,
          (List.range q.maxFofs.toNat).map Int.ofNat⟩) maxFofs sg pool fresh
        (by dsimp only; omega) (Nat.le_of_lt len)
      have same : r' = r := Option.some.inj (e'.symm.trans e)
      subst same
      refine ⟨⟨fun _ => ⟨_, _, sg, sg.nodup, pool, rfl⟩, fun _ => status⟩, fun n wf => ?_⟩
      rw [cnt, visits wf]
      exact Int.zero_add _

/-- A pool of one cell whose free list starts at `fof_max`: the checker uses `fof_visited[1]`. -/
theorem checker_past_end : ¬ CheckerRight 1 (fun _ => 0)
    { FofQueue.zero (0 : Nat) with maxFofs := 1, freeFofs := some 1 } := by
  rintro ⟨r, ends, inside, -⟩
  have e := ends 2 (Nat.le_refl 2)
  cases Option.some.inj (e.symm.trans rfl)
  exact absurd (inside 1 (by decide)).2 (by decide)

/-- A pool of two cells whose free list is `1`, `0`. -/
theorem checker_right_two : CheckerRight 2 (fun _ => 7)
    { FofQueue.zero (0 : Nat) with
      maxFofs := 2, freeFofs := some 1, fof := fun a => ⟨if a = 1 then some 0 else none, 0, 0⟩ } := by
  apply (checker_right_iff 2 (fun _ => 7) _ rfl ?_ ?_).2
  · decide
  · intro b e
    cases e
    decide
  · intro a _ b e
    have e : (if a = 1 then some 0 else none) = some b := e
    split at e
    · cases e
      decide
    · cases e

end Accepts

end JackFofs
