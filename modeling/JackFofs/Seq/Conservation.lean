import JackFofs.Seq.System

/-!
# Conservation of cells

Every operation of the server ends and keeps `SysInv` (`exec_total`), so every run does
(`run_total`). In particular no cell is ever lost or doubled.
-/

namespace JackFofs
open Linked Runs

variable {α : Type} {setup : Setup} {s s' : Sys α} {L : Place → List Addr} {fuel : Nat}

/-- Every operation ends, whatever its arguments, and keeps the invariant. -/
lemma exec_total (ok : SetupOk setup) (enough : setup.nMaxFofs ≤ fuel) (inv : SysInv setup s L)
    (op : Op α) : ∃ out s', exec fuel s op = some (out, s') ∧ ∃ L', SysInv setup s' L' := by
  cases op with
  | add timeUs argv =>
    obtain ⟨status, s', L', e, inv', -⟩ := exec_add fuel inv ok.nSlots timeUs argv rfl
    exact ⟨.added status, s', e, L', inv'⟩
  | flush =>
    obtain ⟨s', L', e, inv'⟩ := exec_flush inv enough
    exact ⟨.done, s', e, L', inv'⟩
  | storeClockSource clockSource =>
    obtain ⟨s', e, inv'⟩ := exec_storeClockSource inv clockSource
    exact ⟨.done, s', e, L, inv'⟩
  | cycle nframes jack =>
    obtain ⟨n, handed, s', L', e, inv'⟩ := exec_cycle inv ok.nSlots enough nframes jack
    exact ⟨.cycled n handed, s', e, L', inv'⟩

/-- Every run from an initial state ends in a state with the invariant. -/
lemma run_total (ok : SetupOk setup) (enough : setup.nMaxFofs ≤ fuel) (q : FofQueue α)
    (ops : List (Op α)) :
    ∃ log s', execAll (exec fuel) (Sys.init setup q) ops = some (log, s') ∧
      ∃ L, SysInv setup s' L := by
  apply execAll_total fun s => ∃ L, SysInv setup s L
  · intro s op inv _
    obtain ⟨L, inv⟩ := inv
    exact exec_total ok enough inv op
  · exact ⟨initLists setup.nMaxFofs, sysInv_init ok q⟩

/-- The states of a run keep the invariant. -/
lemma run_inv {log : List (LogEntry α)} (ok : SetupOk setup) (enough : setup.nMaxFofs ≤ fuel)
    (run : Run (exec fuel) s log s') (inv : SysInv setup s L) :
    (∃ L', SysInv setup s' L') ∧ ∀ x ∈ log, ∃ L', SysInv setup x.pre L' := by
  have step {x : LogEntry α} {s1 : Sys α} (_ : x ∈ log) (inv : ∃ L', SysInv setup x.pre L')
      (e : exec fuel x.pre x.op = some (x.out, s1)) : ∃ L', SysInv setup s1 L' := by
    obtain ⟨L', inv⟩ := inv
    obtain ⟨out, s2, e2, inv2⟩ := exec_total ok enough inv x.op
    rw [e] at e2
    cases e2
    exact inv2
  exact run.inv (fun s => ∃ L, SysInv setup s L) step ⟨L, inv⟩

/-- After any sequence of whole operations the free list, the slot lists and the excess list are
    `NULL`-terminated, visit no cell twice, are pairwise disjoint and together contain each cell of
    the pool, and the counter of free cells is right. -/
theorem cells_conserved (setup : Setup) (nMaxFofs : 1 ≤ setup.nMaxFofs) (nSlots : 1 ≤ setup.nSlots)
    (nClients : 1 ≤ setup.nClients) (fuel : Nat) (enough : setup.nMaxFofs ≤ fuel)
    (q : FofQueue α) (ops : List (Op α)) :
    ∃ log s', ∃ L : Place → List Addr, execAll (exec fuel) (Sys.init setup q) ops = some (log, s') ∧
      (∀ k, s'.q.Has k → Seg s'.q.next (s'.q.head k) (L k) none ∧ (L k).Nodup) ∧
      (∀ k m, s'.q.Has k → s'.q.Has m → k ≠ m → (L k).Disjoint (L m)) ∧
      (∀ c, c < setup.nMaxFofs ↔ ∃ k, s'.q.Has k ∧ c ∈ L k) ∧
      s'.q.freeCnt = (L .free).length := by
  obtain ⟨log, s', e, L, inv⟩ := run_total ⟨nMaxFofs, nSlots, nClients⟩ enough q ops
  have part := inv.holds.part
  refine ⟨log, s', L, e, fun k has => ⟨inv.holds.list has, part.nodup k⟩, fun k m _ _ ne => ?_,
    fun c => ⟨fun lt => ?_, fun ⟨k, _, mem⟩ => ?_⟩, inv.holds.count⟩
  · exact fun c mem mem' => ne (part.disjoint mem mem')
  · obtain ⟨k, mem⟩ := part.cover (List.mem_range.2 lt)
    refine ⟨k, ?_, mem⟩
    -- a place that does not exist holds no cell
    apply Classical.byContradiction
    intro has
    rw [inv.holds.unused has] at mem
    exact List.not_mem_nil mem
  · exact List.mem_range.1 (part.mem_cells mem)

/-- Three cells in a ring of three slots: two calls of `fof_queue_add`, a flush and a cycle. -/
theorem cells_conserved_three : ∃ log s', ∃ L : Place → List Addr,
    execAll (exec 3) (Sys.init ⟨2, 1, 3, 3, 48000, 64⟩ (.zero 0))
      [.add 5 7, .add 9000000 8, .storeClockSource 1, .cycle 100 ⟨0, .stopped, 5⟩, .flush] =
        some (log, s') ∧ s'.q.freeCnt = (L .free).length ∧ (L .free).Nodup := by
  obtain ⟨log, s', L, e, list, -, -, count⟩ := cells_conserved ⟨2, 1, 3, 3, 48000, 64⟩ (by decide)
    (by decide) (by decide) 3 (by decide) (.zero 0)
    [.add 5 7, .add 9000000 8, .storeClockSource 1, .cycle 100 ⟨0, .stopped, 5⟩, .flush]
  exact ⟨log, s', L, e, count, (list .free trivial).2⟩

end JackFofs
