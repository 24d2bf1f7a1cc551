import JackFofs.Conc.Lists

/-!
# The invariant of the machine

Every step of the machine keeps `ConcInv` and changes the lists as its event says (`ConcInv.exec`),
unless it pops a stale value or flushes a nonempty excess list. Each effect of a step is one of the
rules for shared stacks.
-/

namespace JackFofs
open Linked Runs

variable {α : Type}

/-! ## Lists after an event -/

section Moved

variable {who k : Loc} {L : Loc → List Addr} {ev : Ev α} {j : Nat}

lemma moved_keeps (keeps : ev.Keeps) : ev.moved who L = L := by
  cases ev <;> first | rfl | exact absurd keeps id

/-- The private cells of the others stay. -/
lemma moved_private (ne : k ≠ who) (priv : ∀ i, k ≠ .place i) : ev.moved who L k = L k := by
  cases ev <;> simp [Ev.moved, Function.update_of_ne, ne, priv]

/-- Only the insertion into a slot and the exchange of a slot change its list. -/
lemma moved_slot (priv : ∀ i, who ≠ .place i) (link : ∀ fof, ev ≠ .linked fof j)
    (take : ∀ n head, ev ≠ .took n j head) :
    ev.moved who L (.place (.slot j)) = L (.place (.slot j)) := by
  have ne := (priv (.slot j)).symm
  cases ev with
  | linked fof slot =>
    have nj : j ≠ slot := fun e => link fof (e ▸ rfl)
    simp [Ev.moved, Function.update_of_ne, ne, nj]
  | took n slot head =>
    have nj : j ≠ slot := fun e => take n head (e ▸ rfl)
    simp [Ev.moved, Function.update_of_ne, ne, nj]
  | _ => simp [Ev.moved, Function.update_of_ne, ne]

end Moved

/-! ## The invariant after a step -/

section Step

variable {cells : List Addr} {s : Machine α} {L L' : Loc → List Addr} {q q' : FofQueue α}
  {ev : Ev α} {p : Nat}

lemma free_isStack (n : Nat) : IsStack n (.place .free) := trivial

lemma own_not_stack (n p : Nat) : ¬ IsStack n (.own p) := id

lemma ctrl_not_stack (n : Nat) : ¬ IsStack n .ctrl := id

lemma excess_not_stack (n : Nat) : ¬ IsStack n (.place .excess) := id

lemma own_ne_place (p : Nat) (i : Place) : Loc.own p ≠ .place i := by
  intro e
  cases e

lemma ctrl_ne_place (i : Place) : Loc.ctrl ≠ .place i := by
  intro e
  cases e

lemma ctrl_ne_own (p : Nat) : Loc.ctrl ≠ .own p := by
  intro e
  cases e

lemma ConcInv.free_list (inv : ConcInv cells s L) :
    Seg s.q.next s.q.freeFofs (L (.place .free)) none :=
  inv.lists.list (free_isStack _)

lemma ConcInv.slot_list {j : Nat} (inv : ConcInv cells s L) (lt : j < s.q.nSlots) :
    Seg s.q.next (s.q.slot j) (L (.place (.slot j))) none :=
  inv.lists.list (k := .place (.slot j)) lt

/-- Only slots of the ring have cells. -/
lemma ConcInv.slot_list_of_mem {j : Nat} {c : Addr} (inv : ConcInv cells s L)
    (mem : c ∈ L (.place (.slot j))) : Seg s.q.next (s.q.slot j) (L (.place (.slot j))) none := by
  have lt : j < s.q.nSlots := by
    by_contra ge
    rw [inv.unused j (Nat.not_lt.1 ge)] at mem
    exact absurd mem List.not_mem_nil
  exact inv.slot_list lt

lemma sameTops_place {S : Loc → Prop} {i : Place} (h : ∀ k, k ≠ i → q'.head k = q.head k) :
    SameTops S (.place i) (locTop q) (locTop q') := by
  intro k _ ne
  cases k with
  | place k => exact h k fun e => ne (e ▸ rfl)
  | own p => rfl
  | ctrl => rfl

/-- The lists after writes to `next` fields of private cells. -/
lemma ConcInv.write_lists {k : Loc} (inv : ConcInv cells s L) (heads : SameHeads s.q q')
    (hk : ¬ IsStack s.q.nSlots k) (out : ∀ c, c ∉ L k → q'.fof c = s.q.fof c) :
    Stacks cells q'.next (locTop q') (IsStack q'.nSlots) L := by
  rw [heads.nSlots]
  apply (inv.lists.write hk fun c nm => next_eq_of_fof (out c nm)).congr
  intro i hi
  cases i with
  | place i =>
    cases i with
    | free => exact heads.free
    | slot j => exact congrFun heads.slot j
    | excess => exact absurd hi id
  | own p => rfl
  | ctrl => rfl

/-- The lists after a push on the free list or on a slot by a thread that pushes all its cells. -/
lemma ConcInv.push_lists {k : Loc} {i : Place} {h : Option Addr} (inv : ConcInv cells s L)
    (hi : IsStack s.q.nSlots (.place i)) (hk : ¬ IsStack s.q.nSlots k)
    (chain : Seg s.q.next h (L k) (s.q.head i)) (nSlots : q'.nSlots = s.q.nSlots)
    (next : q'.next = s.q.next) (head : q'.head i = h)
    (heads : ∀ j, j ≠ i → q'.head j = s.q.head j) :
    Stacks cells q'.next (locTop q') (IsStack q'.nSlots)
      (Function.update (Function.update L k []) (.place i) (L k ++ L (.place i))) := by
  have pm : (L k).Perm (L k ++ []) := by rw [List.append_nil]
  rw [nSlots, next]
  exact inv.lists.push hi hk pm chain (sameTops_place heads) head

/-- The rest of the invariant after a step of a thread. -/
lemma ConcInv.of_thread {t : Thread α} (inv : ConcInv cells s L)
    (lists : Stacks cells q'.next (locTop q') (IsStack q'.nSlots) (ev.moved (.own p) L))
    (unused : ∀ j, s.q.nSlots ≤ j → ∀ fof, ev ≠ .linked fof j) (notTake : ∀ n j h, ev ≠ .took n j h)
    (nSlots : q'.nSlots = s.q.nSlots) (firstFof : q'.firstFof = s.q.firstFof)
    (out : ∀ c, c ∉ L (.own p) → q'.fof c = s.q.fof c)
    (self : ev.moved (.own p) L (.own p) = t.pc.cells) (ok : AddOk q' t.pc) :
    ConcInv cells ({ s with q := q' }.setThread p t) (ev.moved (.own p) L) := by
  have other (p' : Nat) (ne : p' ≠ p) : ev.moved (.own p) L (.own p') = L (.own p') :=
    moved_private (fun e => ne (Loc.own.inj e)) (own_ne_place p')
  have ctrl : ev.moved (.own p) L .ctrl = L .ctrl := moved_private (ctrl_ne_own p) ctrl_ne_place
  constructor
  case lists => exact lists
  case unused =>
    intro j le
    rw [setThread_q, nSlots] at le
    rw [moved_slot (own_ne_place p) (unused j le) fun n h => notTake n j h]
    exact inv.unused j le
  case nSlots =>
    rw [setThread_q, nSlots]
    exact inv.nSlots
  case own =>
    intro p'
    by_cases e : p' = p
    · subst e
      rw [setThread_self]
      exact self
    · rw [setThread_of_ne _ _ _ e, other p' e]
      exact inv.own p'
  case threads =>
    intro p'
    by_cases e : p' = p
    · subst e
      rw [setThread_self]
      exact ok
    · rw [setThread_of_ne _ _ _ e]
      refine (inv.threads p').congr nSlots fun c mem => next_eq_of_fof (out c ?_)
      rw [← inv.own p'] at mem
      exact inv.lists.part.notMem mem fun h => e (Loc.own.inj h)
  case ctrl =>
    rw [ctrl]
    exact inv.ctrl.congr nSlots firstFof fun c mem =>
      next_eq_of_fof (out c (inv.lists.part.notMem mem (ctrl_ne_own p)))

/-- A step of `fof_queue_add` keeps the invariant. -/
lemma ConcInv.add {pc' : AddPc} (inv : ConcInv cells s L)
    (eff : AddEffect s.q (s.thread p).pc ev pc' q') :
    ConcInv cells ({ s with q := q' }.setThread p { s.thread p with pc := pc' })
      (ev.moved (.own p) L) := by
  have own := inv.own p
  have self {k : Loc} {l : List Addr} (ne : Loc.own p ≠ k) :
      Function.update (Function.update L (.own p) []) k l (.own p) = [] := by
    rw [Function.update_of_ne ne, Function.update_self]
  cases eff with
  | @write ev pc' q' keeps heads first _ out cells ok =>
    rw [← own] at out cells
    have moved : ev.moved (.own p) L = L := moved_keeps keeps
    refine inv.of_thread ?_ ?_ ?_ heads.nSlots first out ?_ ok
    · rw [moved]
      exact inv.write_lists heads (own_not_stack _ p) out
    · rintro j - fof rfl
      exact keeps
    · rintro n j h rfl
      exact keeps
    · rw [moved]
      exact cells.symm
  | @pop fof pc head =>
    rw [pc] at own
    have heads (k : Place) (ne : k ≠ .free) :
        FofQueue.head { s.q with freeFofs := s.q.next fof } k = s.q.head k := by
      cases k with
      | free => exact absurd rfl ne
      | slot j => rfl
      | excess => rfl
    obtain ⟨r, er, st⟩ := inv.lists.pop (free_isStack _) (own_not_stack _ p) head
      (sameTops_place heads) rfl
    refine inv.of_thread ?_ (fun _ _ _ h => nomatch h) (fun _ _ _ h => nomatch h) rfl rfl
      (fun _ _ => rfl) ?_ trivial
    · rw [Ev.moved, er]
      exact st
    · rw [Ev.moved, Function.update_self, own]
      rfl
  | @link fof nextFrame slot pc lt head =>
    have own : L (.own p) = [fof] := by
      obtain pc | pc := pc <;> rw [pc] at own <;> exact own
    have chain : Seg s.q.next (some fof) (L (.own p)) (s.q.head (.slot slot)) := by
      rw [own, Seg.cons_iff, Seg.nil_iff]
      exact ⟨rfl, head⟩
    refine inv.of_thread ?_ ?_ (fun _ _ _ h => nomatch h) rfl rfl (fun _ _ => rfl) ?_ trivial
    · refine inv.push_lists lt (own_not_stack _ p) chain rfl rfl (Function.update_self ..) ?_
      intro k ne
      cases k with
      | free => rfl
      | slot j =>
        have nj : j ≠ slot := fun e => ne (e ▸ rfl)
        exact Function.update_of_ne nj ..
      | excess => rfl
    · intro j le fof' e
      cases e
      omega
    · exact self (own_ne_place p _)
  | @excess fof pc =>
    refine inv.of_thread ?_ (fun _ _ _ h => nomatch h) (fun _ _ _ h => nomatch h) rfl rfl
      (fun _ _ => rfl) (self (own_ne_place p _)) trivial
    have pm : ([] ++ (L (.own p) ++ L (.place .excess))).Perm (L (.own p) ++ L (.place .excess)) :=
      List.Perm.refl _
    have st := inv.lists.move (own_not_stack _ p) (excess_not_stack _) (own_ne_place p .excess) pm
    apply st.congr
    intro k hk
    cases k with
    | place k =>
      cases k with
      | free => rfl
      | slot j => rfl
      | excess => exact absurd hk id
    | own p => rfl
    | ctrl => rfl
  | @free fof ppc pc head =>
    rw [pc] at own
    have chain : Seg s.q.next (some fof) (L (.own p)) (s.q.head .free) := by
      rw [own, AddPc.cells, Seg.cons_iff, Seg.nil_iff]
      exact ⟨rfl, head⟩
    refine inv.of_thread ?_ (fun _ _ _ h => nomatch h) (fun _ _ _ h => nomatch h) rfl rfl
      (fun _ _ => rfl) (self (own_ne_place p _)) trivial
    refine inv.push_lists (free_isStack _) (own_not_stack _ p) chain rfl rfl rfl fun k ne => ?_
    cases k with
    | free => exact absurd rfl ne
    | slot j => rfl
    | excess => rfl

/-- The rest of the invariant after a step of the controller. -/
lemma ConcInv.of_ctrl {ctrl' : CtrlClient} {cpc' : CtrlPc} (inv : ConcInv cells s L)
    (lists : Stacks cells q'.next (locTop q') (IsStack q'.nSlots) (ev.moved .ctrl L))
    (notLink : ∀ fof j, ev ≠ .linked fof j)
    (unused : ∀ j, s.q.nSlots ≤ j → ∀ n h, ev ≠ .took n j h)
    (nSlots : q'.nSlots = s.q.nSlots) (out : ∀ c, c ∉ L .ctrl → q'.fof c = s.q.fof c)
    (ok : CtrlOk q' (ev.moved .ctrl L .ctrl) cpc') :
    ConcInv cells { s with q := q', ctrl := ctrl', cpc := cpc' } (ev.moved .ctrl L) := by
  have own (p : Nat) : ev.moved .ctrl L (.own p) = L (.own p) :=
    moved_private (ctrl_ne_own p).symm (own_ne_place p)
  constructor
  case lists => exact lists
  case unused =>
    intro j le
    rw [nSlots] at le
    rw [moved_slot ctrl_ne_place (fun fof => notLink fof j) (unused j le)]
    exact inv.unused j le
  case nSlots =>
    rw [nSlots]
    exact inv.nSlots
  case own => exact fun p => (own p).trans (inv.own p)
  case threads =>
    intro p
    refine (inv.threads p).congr nSlots fun c mem => next_eq_of_fof (out c ?_)
    rw [← inv.own p] at mem
    exact inv.lists.part.notMem mem (ctrl_ne_own p).symm
  case ctrl => exact ok

/-- A step of the controller keeps the invariant. -/
lemma ConcInv.control {ctrl' : CtrlClient} {cpc' : CtrlPc} (inv : ConcInv cells s L)
    (eff : CtrlEffect s.q (L .ctrl) ev cpc' q') :
    ConcInv cells { s with q := q', ctrl := ctrl', cpc := cpc' } (ev.moved .ctrl L) := by
  cases eff with
  | @write ev cpc' q' keeps heads out ok =>
    have moved : ev.moved .ctrl L = L := moved_keeps keeps
    refine inv.of_ctrl ?_ ?_ ?_ heads.nSlots out ?_
    · rw [moved]
      exact inv.write_lists heads (ctrl_not_stack _) out
    · rintro fof j rfl
      exact keeps
    · rintro j - n h rfl
      exact keeps
    · rw [moved]
      exact ok
  | @take n slot cpc' q' empty lt heads same ok =>
    have next : q'.next = s.q.next := funext fun c => next_eq_of_fof (congrFun same c)
    have tops : SameTops (IsStack s.q.nSlots) (.place (.slot slot)) (locTop s.q) (locTop q') := by
      intro k hk ne
      cases k with
      | place k =>
        cases k with
        | free => exact heads.free
        | slot j =>
          have nj : j ≠ slot := fun e => ne (e ▸ rfl)
          have e : q'.slot j = (s.q.setSlot slot none).slot j := congrFun heads.slot j
          exact e.trans (Function.update_of_ne nj ..)
        | excess => exact absurd hk id
      | own p => rfl
      | ctrl => rfl
    have top : locTop q' (.place (.slot slot)) = none := by
      have e : q'.slot slot = (s.q.setSlot slot none).slot slot := congrFun heads.slot slot
      exact e.trans (Function.update_self ..)
    have stack : IsStack s.q.nSlots (.place (.slot slot)) := lt
    have st := inv.lists.take stack (ctrl_not_stack _) tops top
    refine inv.of_ctrl ?_ (fun _ _ h => nomatch h) ?_ heads.nSlots (fun c _ => by rw [same]) ?_
    · rw [heads.nSlots, next]
      exact st
    · intro j le n' h e
      cases e
      omega
    · rw [Ev.moved, Function.update_self, empty, List.append_nil]
      exact ok _ (inv.lists.list stack)
  | @free head cpc' q' chain heads same ok =>
    have next : q'.next = s.q.next := funext fun c => next_eq_of_fof (congrFun same c)
    refine inv.of_ctrl ?_ (fun _ _ h => nomatch h) (fun _ _ _ _ h => nomatch h) heads.nSlots
      (fun c _ => by rw [same]) ?_
    · refine inv.push_lists (free_isStack _) (ctrl_not_stack _) chain heads.nSlots next heads.free ?_
      intro k ne
      cases k with
      | free => exact absurd rfl ne
      | slot j => exact congrFun heads.slot j
      | excess => exact heads.excess
    · rw [Ev.moved, Function.update_of_ne (ctrl_ne_place _), Function.update_self]
      exact ok

/-- The conditions under which a step keeps the lists in order: it does not pop a stale value, and a
    flush finds the excess list empty. -/
structure Regular (s : Machine α) (act : Act α) : Prop where
  fresh : ∀ p pc, act = .step p → (s.thread p).pc = .alloc pc → ¬ staleCas s.q pc
  noExcess : act = .ctrlStep → ∀ after, s.cpc = .flush after .takeExcess → s.q.excess = none

/-- Every regular step keeps the invariant, and moves cells as its event says. -/
theorem ConcInv.exec {s' : Machine α} {act : Act α} (inv : ConcInv cells s L) (reg : Regular s act)
    (e : s.exec act = some (ev, s')) : ConcInv cells s' (ev.moved act.who L) := by
  cases Machine.executed e with
  | @call p timeUs argv pc =>
    have own := inv.own p
    rw [pc] at own
    exact inv.of_thread inv.lists (fun _ _ _ h => nomatch h) (fun _ _ _ h => nomatch h) rfl rfl
      (fun _ _ => rfl) own trivial
  | @step p ev pc' q' step =>
    exact inv.add (addStep_effect inv.nSlots (inv.threads p) (fun pc => reg.fresh p pc rfl) step)
  | cycle cpc =>
    have ok := inv.ctrl
    rw [cpc] at ok
    exact inv.of_ctrl inv.lists (fun _ _ h => nomatch h) (fun _ _ _ _ h => nomatch h) rfl
      (fun _ _ => rfl) ok
  | flush cpc =>
    have ok := inv.ctrl
    rw [cpc] at ok
    refine inv.of_ctrl inv.lists (fun _ _ h => nomatch h) (fun _ _ _ _ h => nomatch h) rfl
      (fun _ _ => rfl) ?_
    have empty : Ev.moved .ctrl L (Ev.quiet : Ev α) .ctrl = [] := ok
    rw [empty]
    exact flushFrom_ok s.q 0
  | ctrlStep step =>
    exact inv.control (ctrlStep_effect inv.nSlots inv.ctrl (reg.noExcess rfl) step)
  | storeClockSource =>
    refine inv.of_ctrl ?_ (fun _ _ h => nomatch h) (fun _ _ _ _ h => nomatch h) rfl
      (fun _ _ => rfl) ?_
    · exact inv.write_lists ⟨rfl, rfl, rfl, rfl, rfl, rfl⟩ (ctrl_not_stack _) fun _ _ => rfl
    · exact inv.ctrl.congr rfl rfl fun _ _ => rfl

/-- What a step leaves alone: the cells and the program counters of the others, the parameters of the
    queue, and `next_frame` if it is a step of a thread. -/
structure Framed (who : Loc) (L : Loc → List Addr) (s s' : Machine α) : Prop where
  fof : ∀ c, c ∉ L who → s'.q.fof c = s.q.fof c
  thread : ∀ p, who ≠ .own p → s'.thread p = s.thread p
  cpc : who ≠ .ctrl → s'.cpc = s.cpc
  nSlots : s'.q.nSlots = s.q.nSlots
  sampleRate : s'.q.sampleRate = s.q.sampleRate
  bufferSize : s'.q.bufferSize = s.q.bufferSize
  nextFrame : who ≠ .ctrl → s'.q.nextFrame = s.q.nextFrame

/-- Every regular step leaves the rest of the machine alone. -/
theorem ConcInv.framed {s' : Machine α} {act : Act α} (inv : ConcInv cells s L)
    (reg : Regular s act) (e : s.exec act = some (ev, s')) : Framed act.who L s s' := by
  have other (p p' : Nat) (t : Thread α) (s1 : Machine α) (ne : Loc.own p ≠ .own p') :
      (s1.setThread p t).thread p' = s1.thread p' :=
    setThread_of_ne _ _ _ fun e => ne (e ▸ rfl)
  cases Machine.executed e with
  | @call p timeUs argv pc =>
    exact ⟨fun _ _ => rfl, fun p' ne => other p p' _ s ne, fun _ => rfl, rfl, rfl, rfl, fun _ => rfl⟩
  | @step p ev pc' q' step =>
    have own := inv.own p
    have eff := addStep_effect inv.nSlots (inv.threads p) (fun pc => reg.fresh p pc rfl) step
    have thread (p' : Nat) (ne : Loc.own p ≠ .own p') := other p p'
      { s.thread p with pc := pc' } { s with q := q' } ne
    cases eff with
    | @write ev pc' q' keeps heads first frame out cells ok =>
      rw [← own] at out
      exact ⟨out, thread, fun _ => rfl, heads.nSlots, heads.sampleRate, heads.bufferSize,
        fun _ => frame⟩
    | pop => exact ⟨fun _ _ => rfl, thread, fun _ => rfl, rfl, rfl, rfl, fun _ => rfl⟩
    | link => exact ⟨fun _ _ => rfl, thread, fun _ => rfl, rfl, rfl, rfl, fun _ => rfl⟩
    | excess => exact ⟨fun _ _ => rfl, thread, fun _ => rfl, rfl, rfl, rfl, fun _ => rfl⟩
    | free => exact ⟨fun _ _ => rfl, thread, fun _ => rfl, rfl, rfl, rfl, fun _ => rfl⟩
  | cycle =>
    exact ⟨fun _ _ => rfl, fun _ _ => rfl, fun ne => absurd rfl ne, rfl, rfl, rfl, fun _ => rfl⟩
  | flush =>
    exact ⟨fun _ _ => rfl, fun _ _ => rfl, fun ne => absurd rfl ne, rfl, rfl, rfl, fun _ => rfl⟩
  | ctrlStep step =>
    cases ctrlStep_effect inv.nSlots inv.ctrl (reg.noExcess rfl) step with
    | write _ heads out _ =>
      exact ⟨out, fun _ _ => rfl, fun ne => absurd rfl ne, heads.nSlots, heads.sampleRate,
        heads.bufferSize, fun ne => absurd rfl ne⟩
    | take _ _ heads same _ =>
      exact ⟨fun c _ => congrFun same c, fun _ _ => rfl, fun ne => absurd rfl ne, heads.nSlots,
        heads.sampleRate, heads.bufferSize, fun ne => absurd rfl ne⟩
    | free _ heads same _ =>
      exact ⟨fun c _ => congrFun same c, fun _ _ => rfl, fun ne => absurd rfl ne, heads.nSlots,
        heads.sampleRate, heads.bufferSize, fun ne => absurd rfl ne⟩
  | storeClockSource =>
    exact ⟨fun _ _ => rfl, fun _ _ => rfl, fun ne => absurd rfl ne, rfl, rfl, rfl, fun _ => rfl⟩

/-! ## Where the events come from -/

lemma ConcInv.of_allocated {s' : Machine α} {act : Act α} {fof : Addr} (inv : ConcInv cells s L)
    (reg : Regular s act) (e : s.exec act = some (.allocated fof, s')) :
    ∃ p, act = .step p ∧ (s.thread p).pc = .alloc (.cas fof (s.q.next fof)) ∧
      (L (.place .free)).head? = some fof := by
  cases Machine.executed e with
  | @step p _ pc' q' step =>
    cases addStep_effect inv.nSlots (inv.threads p) (fun pc => reg.fresh p pc rfl) step with
    | write keeps => exact absurd keeps id
    | pop pc head =>
      exact ⟨p, rfl, pc, inv.free_list.head_eq.symm.trans head⟩
  | ctrlStep step =>
    cases ctrlStep_effect inv.nSlots inv.ctrl (reg.noExcess rfl) step with
    | write keeps => exact absurd keeps id

lemma ConcInv.of_linked {s' : Machine α} {act : Act α} {fof : Addr} {slot : Nat}
    (inv : ConcInv cells s L) (reg : Regular s act) (e : s.exec act = some (.linked fof slot, s')) :
    ∃ p nextFrame, act = .step p ∧ slot < s.q.nSlots ∧ L (.own p) = [fof] ∧
      ((s.thread p).pc = .far fof nextFrame slot (.cas (s.q.slot slot)) ∨
        (s.thread p).pc = .near fof nextFrame slot (.cas (s.q.slot slot))) := by
  cases Machine.executed e with
  | @step p _ pc' q' step =>
    cases addStep_effect inv.nSlots (inv.threads p) (fun pc => reg.fresh p pc rfl) step with
    | write keeps => exact absurd keeps id
    | @link _ nextFrame _ pc lt =>
      have own : L (.own p) = [fof] := by
        rw [inv.own p]
        obtain pc | pc := pc <;> rw [pc] <;> rfl
      exact ⟨p, nextFrame, rfl, lt, own, pc⟩
  | ctrlStep step =>
    cases ctrlStep_effect inv.nSlots inv.ctrl (reg.noExcess rfl) step with
    | write keeps => exact absurd keeps id

lemma ConcInv.of_excess {s' : Machine α} {act : Act α} {fof : Addr}
    (inv : ConcInv cells s L) (reg : Regular s act) (e : s.exec act = some (.excess fof, s')) :
    ∃ p, act = .step p ∧ (s.thread p).pc = .excess fof .push := by
  cases Machine.executed e with
  | @step p _ pc' q' step =>
    cases addStep_effect inv.nSlots (inv.threads p) (fun pc => reg.fresh p pc rfl) step with
    | write keeps => exact absurd keeps id
    | excess pc => exact ⟨p, rfl, pc⟩
  | ctrlStep step =>
    cases ctrlStep_effect inv.nSlots inv.ctrl (reg.noExcess rfl) step with
    | write keeps => exact absurd keeps id

lemma ConcInv.of_took {s' : Machine α} {act : Act α} {n : Option Nat} {slot : Nat}
    {head : Option Addr} (inv : ConcInv cells s L) (reg : Regular s act)
    (e : s.exec act = some (.took n slot head, s')) :
    act = .ctrlStep ∧ slot < s.q.nSlots ∧ head = s.q.slot slot := by
  cases Machine.executed e with
  | @step p _ pc' q' step =>
    cases addStep_effect inv.nSlots (inv.threads p) (fun pc => reg.fresh p pc rfl) step with
    | write keeps => exact absurd keeps id
  | ctrlStep step =>
    cases ctrlStep_effect inv.nSlots inv.ctrl (reg.noExcess rfl) step with
    | write keeps => exact absurd keeps id
    | take _ lt => exact ⟨rfl, lt, rfl⟩

/-- The excess list changes in no other way than by the excess branch. -/
lemma ConcInv.excess_eq {s' : Machine α} {act : Act α} (inv : ConcInv cells s L)
    (reg : Regular s act) (e : s.exec act = some (ev, s')) (no : ∀ fof, ev ≠ .excess fof) :
    s'.q.excess = s.q.excess := by
  cases Machine.executed e with
  | call => rfl
  | @step p _ pc' q' step =>
    cases addStep_effect inv.nSlots (inv.threads p) (fun pc => reg.fresh p pc rfl) step with
    | write _ heads => exact heads.excess
    | pop => rfl
    | link => rfl
    | @excess fof => exact absurd rfl (no fof)
    | free => rfl
  | cycle => rfl
  | flush => rfl
  | ctrlStep step =>
    cases ctrlStep_effect inv.nSlots inv.ctrl (reg.noExcess rfl) step with
    | write _ heads => exact heads.excess
    | take _ _ heads => exact heads.excess
    | free _ heads => exact heads.excess
  | storeClockSource => rfl

end Step

/-! ## Where the machine starts -/

/-- The lists of a queue that nobody is working on. -/
def restLists (L : Place → List Addr) : Loc → List Addr
  | .place k => L k
  | _ => []

/-- A machine in which no call is in progress. -/
structure AtRest (s : Machine α) : Prop where
  threads : ∀ p, (s.thread p).pc = .idle
  ctrl : s.cpc = .idle

/-- With a single producer the machine is at rest when its call and the controller are. -/
lemma AtRest.of_single {s : Machine α} {p : Nat} (others : ∀ i, i ≠ p → (s.thread i).pc = .idle)
    (idle : (s.thread p).pc = .idle) (cpc : s.cpc = .idle) : AtRest s := by
  refine ⟨fun i => ?_, cpc⟩
  by_cases e : i = p
  · subst e
    exact idle
  · exact others i e

lemma concInv_rest {cells : List Addr} {s : Machine α} {L : Place → List Addr} (rest : AtRest s)
    (holds : Holds s.q cells L) (pos : 1 ≤ s.q.nSlots) : ConcInv cells s (restLists L) := by
  have nodup (k : Loc) : (restLists L k).Nodup := by
    cases k with
    | place k => exact holds.part.nodup k
    | own p => exact List.nodup_nil
    | ctrl => exact List.nodup_nil
  constructor
  case lists =>
    refine ⟨fun {k} hk => ?_, nodup, fun {k k' a} mem mem' => ?_, fun {k a} mem => ?_, fun mem => ?_⟩
    · cases k with
      | place k =>
        cases k with
        | free => exact holds.list (k := .free) trivial
        | slot j => exact holds.list (k := .slot j) hk
        | excess => exact absurd hk id
      | own p => exact absurd hk id
      | ctrl => exact absurd hk id
    · cases k <;> cases k' <;> first
        | exact congrArg Loc.place (holds.part.disjoint mem mem')
        | exact absurd mem List.not_mem_nil
        | exact absurd mem' List.not_mem_nil
    · cases k with
      | place k => exact holds.part.mem_cells mem
      | own p => exact absurd mem List.not_mem_nil
      | ctrl => exact absurd mem List.not_mem_nil
    · obtain ⟨k, memk⟩ := holds.part.cover mem
      exact ⟨.place k, memk⟩
  case unused => exact fun j le => holds.unused fun lt => absurd lt (Nat.not_lt.2 le)
  case nSlots => exact pos
  case own =>
    intro p
    rw [rest.threads p]
    rfl
  case threads =>
    intro p
    rw [rest.threads p]
    trivial
  case ctrl =>
    rw [rest.ctrl]
    rfl

/-- The machine starts with all cells free. -/
lemma concInv_init {setup : Setup} (nMaxFofs : 1 ≤ setup.nMaxFofs) (nSlots : 1 ≤ setup.nSlots)
    (q : FofQueue α) (argv : α) :
    ConcInv (List.range setup.nMaxFofs) (Machine.init setup q argv)
      (restLists (initLists setup.nMaxFofs)) := by
  obtain ⟨-, -, -, -, slots, -, -⟩ := fofQueueInit_fields q setup
  have rest : AtRest (Machine.init setup q argv) := ⟨fun _ => rfl, rfl⟩
  exact concInv_rest rest (fofQueueInit_holds q setup nMaxFofs) (slots ▸ nSlots)

end JackFofs
