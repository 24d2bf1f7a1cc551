import JackFofs.Seq.Conservation

/-!
# The delivery of an event

An event is waiting in a slot (`Pending`) from the call of `fof_queue_add` that accepted it until a
cycle takes the slot, and is nowhere afterwards (`Gone`). In a run whose cycles are quiet the event
is therefore handed over by the first cycle whose frame belongs to its slot, once and with its own
data, and by no other cycle (`delivered_of_pending`). Which frames these are is left to the clock.
-/

namespace JackFofs
open Linked Runs

variable {α : Type}

/-- The events that an operation handed over. -/
def handedBy : Out α → List (Handed α)
  | .cycled _ handed => handed
  | _ => []

/-- The operation handed event `e` to some DSP client. -/
def Hands (x : LogEntry α) (e : Nat) : Prop := ∃ h ∈ handedBy x.out, h.event = e

/-- The operation handed event `e` to exactly one DSP client, with the given data. -/
def HandsOnce (x : LogEntry α) (e nClients timeUs : Nat) (argv : α) : Prop :=
  ∃ dsp, dsp < nClients ∧ (handedBy x.out).filter (·.event = e) = [⟨e, dsp, timeUs, argv⟩]

/-- The operation is a cycle whose frame satisfies `due`. -/
def CycleAt (due : Nat → Prop) (x : LogEntry α) : Prop := ∃ n handed, x.out = .cycled n handed ∧ due n

lemma cycleAt_iff {due : Nat → Prop} {x : LogEntry α} {n : Nat} {handed : List (Handed α)}
    (out : x.out = .cycled n handed) : CycleAt due x ↔ due n := by
  rw [CycleAt, out]
  refine ⟨fun ⟨n', handed', e, now⟩ => ?_, fun now => ⟨n, handed, rfl, now⟩⟩
  cases e
  exact now

lemma not_cycleAt {due : Nat → Prop} {x : LogEntry α} {status : JfofsStatus}
    (out : x.out = .added status) : ¬ CycleAt due x := by
  intro now
  obtain ⟨n, handed, e, -⟩ := now
  rw [out] at e
  cases e

/-- The first cycle of the log that is due hands event `e` over, and nothing else does. -/
def Delivered (due : Nat → Prop) (e nClients timeUs : Nat) (argv : α) : List (LogEntry α) → Prop
  | [] => True
  | x :: log =>
    (CycleAt due x → HandsOnce x e nClients timeUs argv ∧ ∀ y ∈ log, ¬ Hands y e) ∧
      (¬ CycleAt due x → ¬ Hands x e ∧ Delivered due e nClients timeUs argv log)

section Delivered

variable {due due' : Nat → Prop} {e nClients timeUs : Nat} {argv : α} {log l1 l2 : List (LogEntry α)}
  {x : LogEntry α}

/-- The first due cycle hands the event over. -/
lemma Delivered.at_due (del : Delivered due e nClients timeUs argv (l1 ++ x :: l2))
    (first : ∀ y ∈ l1, ¬ CycleAt due y) (now : CycleAt due x) :
    HandsOnce x e nClients timeUs argv ∧ ∀ y ∈ l2, ¬ Hands y e := by
  induction l1 with
  | nil => exact del.1 now
  | cons y l1 ih =>
    obtain ⟨-, del⟩ := del.2 (first y List.mem_cons_self)
    exact ih del fun z mem => first z (List.mem_cons_of_mem y mem)

/-- Only a due cycle hands the event over. -/
lemma Delivered.due_of_hands (del : Delivered due e nClients timeUs argv (l1 ++ x :: l2))
    (hands : Hands x e) : CycleAt due x ∧ ∀ y ∈ l1, ¬ CycleAt due y := by
  induction l1 with
  | nil =>
    refine ⟨?_, fun y mem => absurd mem List.not_mem_nil⟩
    apply Classical.byContradiction
    intro no
    exact (del.2 no).1 hands
  | cons y l1 ih =>
    by_cases now : CycleAt due y
    · have mem : x ∈ l1 ++ x :: l2 := List.mem_append_right _ List.mem_cons_self
      exact absurd hands ((del.1 now).2 x mem)
    · obtain ⟨-, del⟩ := del.2 now
      obtain ⟨due_x, none⟩ := ih del
      refine ⟨due_x, fun z mem => ?_⟩
      cases mem with
      | head => exact now
      | tail _ mem => exact none z mem

/-- No event is handed over twice. -/
lemma Delivered.hands_once (del : Delivered due e nClients timeUs argv (l1 ++ x :: l2))
    (hands : Hands x e) :
    HandsOnce x e nClients timeUs argv ∧ (∀ y ∈ l1, ¬ Hands y e) ∧ ∀ y ∈ l2, ¬ Hands y e := by
  obtain ⟨now, first⟩ := del.due_of_hands hands
  obtain ⟨once, later⟩ := del.at_due first now
  refine ⟨once, fun y mem handsy => ?_, later⟩
  obtain ⟨m1, m2, rfl⟩ := List.append_of_mem mem
  rw [List.append_assoc, List.cons_append] at del
  exact first y mem (del.due_of_hands handsy).1

lemma HandsOnce.hands (once : HandsOnce x e nClients timeUs argv) : Hands x e := by
  obtain ⟨dsp, -, eq⟩ := once
  have mem : (⟨e, dsp, timeUs, argv⟩ : Handed α) ∈ (handedBy x.out).filter (·.event = e) := by
    rw [eq]
    exact List.mem_singleton_self _
  exact ⟨_, (List.mem_filter.1 mem).1, rfl⟩

/-- Once a cycle has been due, the event has been handed over. -/
lemma Delivered.hands_of_due (del : Delivered due e nClients timeUs argv (l1 ++ l2))
    (now : ∃ y ∈ l1, CycleAt due y) : ∃ y ∈ l1, Hands y e := by
  induction l1 with
  | nil =>
    obtain ⟨y, mem, -⟩ := now
    exact absurd mem List.not_mem_nil
  | cons z l1 ih =>
    by_cases due_z : CycleAt due z
    · exact ⟨z, List.mem_cons_self, (del.1 due_z).1.hands⟩
    · obtain ⟨y, mem, due_y⟩ := now
      cases mem with
      | head => exact absurd due_y due_z
      | tail _ mem =>
        obtain ⟨w, memw, hands⟩ := ih (del.2 due_z).2 ⟨y, mem, due_y⟩
        exact ⟨w, List.mem_cons_of_mem z memw, hands⟩

/-- Two notions of being due are the same if they agree on every cycle until one is due. -/
lemma Delivered.congr (del : Delivered due e nClients timeUs argv log)
    (agree : ∀ l1 x l2, log = l1 ++ x :: l2 → (∀ y ∈ l1, ¬ CycleAt due' y) →
      (CycleAt due x ↔ CycleAt due' x)) : Delivered due' e nClients timeUs argv log := by
  induction log with
  | nil => trivial
  | cons x log ih =>
    have same := agree [] x log rfl fun y mem => absurd mem List.not_mem_nil
    refine ⟨fun now => del.1 (same.2 now), fun later => ?_⟩
    obtain ⟨not, del⟩ := del.2 fun now => later (same.1 now)
    refine ⟨not, ih del fun l1 y l2 e none => agree (x :: l1) y l2 (congrArg (x :: ·) e) ?_⟩
    intro z mem
    cases mem with
    | head => exact later
    | tail _ mem => exact none z mem

end Delivered

/-! ## Waiting and gone -/

/-- Event `e` waits in slot `j` with the given data. -/
def Pending (s : Sys α) (L : Place → List Addr) (e j timeUs : Nat) (argv : α) : Prop :=
  ∃ c ∈ L (.slot j), s.tag c = e ∧ s.q.payload c = (timeUs, argv)

/-- Event `e` has been and is nowhere any more. -/
def Gone (s : Sys α) (L : Place → List Addr) (e : Nat) : Prop :=
  e < s.count ∧ ∀ k c, k.Busy → c ∈ L k → s.tag c ≠ e

variable {setup : Setup} {s s' : Sys α} {L L' : Place → List Addr} {fuel e j timeUs n : Nat} {argv : α}

lemma Pending.added (pd : Pending s L e j timeUs argv) (ad : Added s s' L L') :
    Pending s' L' e j timeUs argv := by
  obtain ⟨c, mem, et, ep⟩ := pd
  have busy : (Place.slot j).Busy := slot_ne_free j
  obtain ⟨mem', et', ep'⟩ := ad.stays busy mem
  exact ⟨c, mem', et'.trans et, ep'.trans ep⟩

lemma Gone.added (gone : Gone s L e) (ad : Added s s' L L') : Gone s' L' e := by
  refine ⟨?_, fun k c busy mem => ?_⟩
  · rw [ad.count]
    exact Nat.lt_succ_of_lt gone.1
  · obtain ⟨mem, et⟩ | et := ad.appears busy mem
    · rw [et]
      exact gone.2 k c busy mem
    · rw [et]
      exact Nat.ne_of_gt gone.1

/-- The cells that a cycle leaves busy were busy before it. -/
lemma mem_of_mem_released {k m : Place} {c : Addr} (busy : m.Busy) (mem : c ∈ released L k m) :
    c ∈ L m ∧ m ≠ k := by
  by_cases e : m = k
  · subst e
    rw [released_self busy] at mem
    exact absurd mem List.not_mem_nil
  · rw [released_of_ne busy e] at mem
    exact ⟨mem, e⟩

/-! ## What a cycle hands over -/

/-- A cycle hands over the events of the list it takes. -/
lemma mem_handedFrom {h : Handed α} {l : List Addr} (mem : h ∈ s.handedFrom l) :
    ∃ c ∈ l, h.event = s.tag c := by
  rw [Sys.handedFrom] at mem
  generalize s.ctrl.lastDsp = i at mem
  induction l generalizing i with
  | nil => exact absurd mem List.not_mem_nil
  | cons c l ih =>
    cases mem with
    | head => exact ⟨c, List.mem_cons_self, rfl⟩
    | tail _ mem =>
      obtain ⟨c', mem', e⟩ := ih _ mem
      exact ⟨c', List.mem_cons_of_mem c mem', e⟩

/-- A list without cells of event `e` contributes nothing to it. -/
lemma filter_roundRobin_nil {nClients i : Nat} {l : List Addr} (no : ∀ c ∈ l, s.tag c ≠ e) :
    ((roundRobin s.q.payload nClients i l).map (·.handed s.tag)).filter (·.event = e) = [] := by
  induction l generalizing i with
  | nil => rfl
  | cons c l ih =>
    have ne : ¬ s.tag c = e := no c List.mem_cons_self
    have ih := ih (i := (i + 1) % nClients) fun c' mem => no c' (List.mem_cons_of_mem c mem)
    refine (List.filter_cons_of_neg ?_).trans ih
    exact fun h => ne (of_decide_eq_true h)

/-- The one cell of event `e` in a list is handed over once, to an existing DSP client. -/
lemma filter_roundRobin {nClients i : Nat} {l : List Addr} {c : Addr} (nd : l.Nodup)
    (lt : i < nClients) (mem : c ∈ l) (only : ∀ c' ∈ l, s.tag c' = s.tag c → c' = c) :
    ∃ dsp, dsp < nClients ∧
      ((roundRobin s.q.payload nClients i l).map (·.handed s.tag)).filter (·.event = s.tag c) =
        [⟨s.tag c, dsp, (s.q.payload c).1, (s.q.payload c).2⟩] := by
  induction l generalizing i with
  | nil => exact absurd mem List.not_mem_nil
  | cons b l ih =>
    obtain ⟨nm, nd⟩ := List.nodup_cons.1 nd
    rw [roundRobin, List.map_cons]
    by_cases eb : b = c
    · subst eb
      have no (c' : Addr) (mem' : c' ∈ l) : s.tag c' ≠ s.tag b := by
        intro et
        rw [only c' (List.mem_cons_of_mem b mem') et] at mem'
        exact nm mem'
      refine ⟨i, lt, ?_⟩
      refine (List.filter_cons_of_pos ?_).trans (congrArg _ (filter_roundRobin_nil no))
      exact decide_eq_true rfl
    · have ne : ¬ s.tag b = s.tag c := fun et => eb (only b List.mem_cons_self et)
      have mem : c ∈ l := by
        cases mem with
        | head => exact absurd rfl eb
        | tail _ mem => exact mem
      obtain ⟨dsp, ltd, rest⟩ := ih nd (Nat.mod_lt (i + 1) (Nat.zero_lt_of_lt lt)) mem
        fun c' mem' et => only c' (List.mem_cons_of_mem b mem') et
      refine ⟨dsp, ltd, (List.filter_cons_of_neg ?_).trans rest⟩
      exact fun h => ne (of_decide_eq_true h)

/-! ## One step -/

/-- The slot of a frame for the queue of a setup. -/
def Setup.slotOf (setup : Setup) (n : Nat) : Nat := n / setup.maxBufferSize &&& (setup.nSlots - 1)

lemma SysInv.slotOf (inv : SysInv setup s L) (n : Nat) : slotOfFrame s.q n = setup.slotOf n := by
  rw [slotOfFrame, Setup.slotOf, inv.bufferSize, inv.nSlots]

/-- The operation is a call of `fof_queue_add` or a quiet cycle. -/
def QuietEntry (x : LogEntry α) : Prop :=
  match x.op with
  | .add _ _ => True
  | .cycle nframes jack => Quiet nframes jack x.pre.ctrl x.pre.q
  | _ => False

variable {x : LogEntry α} {s1 : Sys α}

/-- What a quiet cycle with frame `n` does to the events. -/
structure QuietCycle (setup : Setup) (x : LogEntry α) (s1 : Sys α) (L : Place → List Addr)
    (n : Nat) : Prop where
  out : x.out = .cycled n (x.pre.handedFrom (L (.slot (setup.slotOf n))))
  inv : SysInv setup s1 (released L (.slot (setup.slotOf n)))
  tag : s1.tag = x.pre.tag
  count : s1.count = x.pre.count
  payload : s1.q.payload = x.pre.q.payload

/-- The two kinds of quiet operations, with everything they do to the events. -/
lemma quiet_cases (ok : SetupOk setup) (enough : setup.nMaxFofs ≤ fuel) (inv : SysInv setup x.pre L)
    (quiet : QuietEntry x) (run : exec fuel x.pre x.op = some (x.out, s1)) :
    (∃ status L1, x.out = .added status ∧ SysInv setup s1 L1 ∧ Added x.pre s1 L L1) ∨
      ∃ n, QuietCycle setup x s1 L n := by
  obtain ⟨s, op, out⟩ := x
  cases op with
  | add timeUs argv =>
    obtain ⟨status, s2, L1, e, inv1, ad, -⟩ := exec_add fuel inv ok.nSlots timeUs argv rfl
    rw [run] at e
    cases e
    exact .inl ⟨status, L1, rfl, inv1, ad⟩
  | flush => exact absurd quiet id
  | storeClockSource c => exact absurd quiet id
  | cycle nframes jack =>
    obtain ⟨s2, e, inv1, tag, count, payload, -⟩ :=
      exec_cycle_quiet inv ok.nSlots enough quiet rfl
    rw [run, Option.some.injEq, Prod.mk.injEq] at e
    obtain ⟨eo, rfl⟩ := e
    rw [inv.slotOf] at inv1 eo
    exact .inr ⟨_, eo, inv1, tag, count, payload⟩

/-- An event that is gone stays gone. -/
lemma step_gone (ok : SetupOk setup) (enough : setup.nMaxFofs ≤ fuel) (inv : SysInv setup x.pre L)
    (quiet : QuietEntry x) (run : exec fuel x.pre x.op = some (x.out, s1)) (gone : Gone x.pre L e) :
    ¬ Hands x e ∧ ∃ L1, SysInv setup s1 L1 ∧ Gone s1 L1 e := by
  obtain ⟨status, L1, out, inv1, ad⟩ | ⟨n, qc⟩ :=
    quiet_cases ok enough inv quiet run
  · refine ⟨fun ⟨h, mem, _⟩ => ?_, L1, inv1, gone.added ad⟩
    rw [out] at mem
    exact absurd mem List.not_mem_nil
  · refine ⟨fun ⟨h, mem, eh⟩ => ?_, _, qc.inv, ?_, fun k c busy mem => ?_⟩
    · rw [qc.out] at mem
      obtain ⟨c, memc, ec⟩ := mem_handedFrom mem
      have busy : (Place.slot (setup.slotOf n)).Busy := slot_ne_free _
      exact gone.2 _ c busy memc (ec.symm.trans eh)
    · rw [qc.count]
      exact gone.1
    · rw [qc.tag]
      exact gone.2 k c busy (mem_of_mem_released busy mem).1

/-- A waiting event is handed over exactly when its slot is taken. -/
lemma step_pending (ok : SetupOk setup) (enough : setup.nMaxFofs ≤ fuel)
    (inv : SysInv setup x.pre L) (quiet : QuietEntry x)
    (run : exec fuel x.pre x.op = some (x.out, s1)) (pd : Pending x.pre L e j timeUs argv) :
    (CycleAt (setup.slotOf · = j) x →
      HandsOnce x e setup.nClients timeUs argv ∧ ∃ L1, SysInv setup s1 L1 ∧ Gone s1 L1 e) ∧
    (¬ CycleAt (setup.slotOf · = j) x →
      ¬ Hands x e ∧ ∃ L1, SysInv setup s1 L1 ∧ Pending s1 L1 e j timeUs argv) := by
  have busy : (Place.slot j).Busy := slot_ne_free j
  obtain ⟨status, L1, out, inv1, ad⟩ | ⟨n, qc⟩ :=
    quiet_cases ok enough inv quiet run
  · refine ⟨fun now => absurd now (not_cycleAt out),
      fun _ => ⟨fun ⟨h, mem, _⟩ => ?_, L1, inv1, pd.added ad⟩⟩
    rw [out] at mem
    exact absurd mem List.not_mem_nil
  have out := qc.out
  have inv1 := qc.inv
  obtain ⟨c, memc, et, ep⟩ := pd
  have only {k : Place} {c' : Addr} (bk : k.Busy) (mem' : c' ∈ L k) (e' : x.pre.tag c' = e) :
      c' = c :=
    inv.tag_inj bk busy mem' memc (e'.trans et.symm)
  constructor
  · intro now
    have due : setup.slotOf n = j := (cycleAt_iff out).1 now
    rw [due] at out inv1
    refine ⟨?_, _, inv1, ?_, fun k c' bk mem' => ?_⟩
    · obtain ⟨dsp, lt, e'⟩ := filter_roundRobin (inv.holds.part.nodup (.slot j)) inv.lastDsp memc
        fun c' mem' e' => only busy mem' (e'.trans et)
      rw [et, ep] at e'
      rw [inv.nClients] at lt
      rw [HandsOnce, out]
      exact ⟨dsp, lt, e'⟩
    · rw [qc.count, ← et]
      exact inv.tag_lt busy memc
    · rw [qc.tag]
      obtain ⟨old, nk⟩ := mem_of_mem_released bk mem'
      intro e'
      cases only bk old e'
      exact nk (inv.holds.part.disjoint old memc)
  · intro no
    have ne : setup.slotOf n ≠ j := fun due => no ⟨n, _, out, due⟩
    have nk : Place.slot j ≠ .slot (setup.slotOf n) := fun e' => ne (Place.slot.inj e').symm
    refine ⟨fun ⟨h, mem, eh⟩ => ?_, _, inv1, c, ?_, ?_, ?_⟩
    · rw [out] at mem
      obtain ⟨c', memc', ec'⟩ := mem_handedFrom mem
      have bk : (Place.slot (setup.slotOf n)).Busy := slot_ne_free _
      cases only bk memc' (ec'.symm.trans eh)
      exact nk (inv.holds.part.disjoint memc memc')
    · rw [released_of_ne busy nk]
      exact memc
    · rw [qc.tag]
      exact et
    · rw [qc.payload]
      exact ep

/-! ## Runs -/

variable {log : List (LogEntry α)}

lemma not_hands_of_gone (ok : SetupOk setup) (enough : setup.nMaxFofs ≤ fuel)
    (run : Run (exec fuel) s log s') (quiet : ∀ x ∈ log, QuietEntry x) (inv : SysInv setup s L)
    (gone : Gone s L e) : ∀ x ∈ log, ¬ Hands x e := by
  induction run generalizing L with
  | nil => exact fun x mem => absurd mem List.not_mem_nil
  | @cons s s1 s' op out log run1 run ih =>
    obtain ⟨no, L1, inv1, gone1⟩ :=
      step_gone (x := ⟨s, op, out⟩) ok enough inv (quiet _ List.mem_cons_self) run1 gone
    intro y mem
    cases mem with
    | head => exact no
    | tail _ mem => exact ih (fun z mem => quiet z (List.mem_cons_of_mem _ mem)) inv1 gone1 y mem

lemma gone_end (ok : SetupOk setup) (enough : setup.nMaxFofs ≤ fuel)
    (run : Run (exec fuel) s log s') (quiet : ∀ x ∈ log, QuietEntry x) (inv : SysInv setup s L)
    (gone : Gone s L e) : ∃ L', SysInv setup s' L' ∧ Gone s' L' e := by
  induction run generalizing L with
  | nil => exact ⟨L, inv, gone⟩
  | @cons s s1 s' op out log run1 run ih =>
    obtain ⟨-, L1, inv1, gone1⟩ :=
      step_gone (x := ⟨s, op, out⟩) ok enough inv (quiet _ List.mem_cons_self) run1 gone
    exact ih (fun z mem => quiet z (List.mem_cons_of_mem _ mem)) inv1 gone1

/-- At the end of a run a waiting event is gone if a cycle has taken its slot, and waits otherwise. -/
lemma pending_end (ok : SetupOk setup) (enough : setup.nMaxFofs ≤ fuel)
    (run : Run (exec fuel) s log s') (quiet : ∀ x ∈ log, QuietEntry x) (inv : SysInv setup s L)
    (pd : Pending s L e j timeUs argv) :
    ((∃ x ∈ log, CycleAt (setup.slotOf · = j) x) ∧ ∃ L', SysInv setup s' L' ∧ Gone s' L' e) ∨
      ((∀ x ∈ log, ¬ CycleAt (setup.slotOf · = j) x) ∧
        ∃ L', SysInv setup s' L' ∧ Pending s' L' e j timeUs argv) := by
  induction run generalizing L with
  | nil => exact .inr ⟨fun x mem => absurd mem List.not_mem_nil, L, inv, pd⟩
  | @cons s s1 s' op out log run1 run ih =>
    obtain ⟨yes, no⟩ :=
      step_pending (x := ⟨s, op, out⟩) ok enough inv (quiet _ List.mem_cons_self) run1 pd
    have quiet1 (z : LogEntry α) (mem : z ∈ log) : QuietEntry z :=
      quiet z (List.mem_cons_of_mem _ mem)
    by_cases now : CycleAt (setup.slotOf · = j) (⟨s, op, out⟩ : LogEntry α)
    · obtain ⟨-, L1, inv1, gone1⟩ := yes now
      exact .inl ⟨⟨_, List.mem_cons_self, now⟩, gone_end ok enough run quiet1 inv1 gone1⟩
    · obtain ⟨-, L1, inv1, pd1⟩ := no now
      obtain ⟨⟨x, mem, due⟩, rest⟩ | ⟨none, rest⟩ := ih quiet1 inv1 pd1
      · exact .inl ⟨⟨x, List.mem_cons_of_mem _ mem, due⟩, rest⟩
      · refine .inr ⟨fun x mem => ?_, rest⟩
        cases mem with
        | head => exact now
        | tail _ mem => exact none x mem

/-- A waiting event is handed over by the first cycle whose frame belongs to its slot, and by no
    other. -/
theorem delivered_of_pending (ok : SetupOk setup) (enough : setup.nMaxFofs ≤ fuel)
    (run : Run (exec fuel) s log s') (quiet : ∀ x ∈ log, QuietEntry x) (inv : SysInv setup s L)
    (pd : Pending s L e j timeUs argv) :
    Delivered (setup.slotOf · = j) e setup.nClients timeUs argv log := by
  induction run generalizing L with
  | nil => trivial
  | @cons s s1 s' op out log run1 run ih =>
    obtain ⟨yes, no⟩ :=
      step_pending (x := ⟨s, op, out⟩) ok enough inv (quiet _ List.mem_cons_self) run1 pd
    have quiet1 (z : LogEntry α) (mem : z ∈ log) : QuietEntry z :=
      quiet z (List.mem_cons_of_mem _ mem)
    refine ⟨fun now => ?_, fun later => ?_⟩
    · obtain ⟨once, L1, inv1, gone1⟩ := yes now
      exact ⟨once, not_hands_of_gone ok enough run quiet1 inv1 gone1⟩
    · obtain ⟨not, L1, inv1, pd1⟩ := no later
      exact ⟨not, ih quiet1 inv1 pd1⟩

/-! ## Accepted events -/

/-- The setups the documentation allows, with the ranges of the C types. -/
structure RingSetup (setup : Setup) : Prop where
  nMaxFofs : 1 ≤ setup.nMaxFofs
  pow : ∃ e, setup.nSlots = 2 ^ e
  nSlots_lt : setup.nSlots < 2 ^ 31
  bufferSize_pos : 1 ≤ setup.maxBufferSize
  bufferSize_lt : setup.maxBufferSize < 2 ^ 31
  nClients : 1 ≤ setup.nClients

lemma RingSetup.ok (ring : RingSetup setup) : SetupOk setup := by
  refine ⟨ring.nMaxFofs, ?_, ring.nClients⟩
  obtain ⟨e, he⟩ := ring.pow
  rw [he]
  exact Nat.one_le_two_pow

lemma twoSlots_ring {nMaxFofs : Nat} (pos : 1 ≤ nMaxFofs) : RingSetup (twoSlots nMaxFofs) := by
  refine ⟨pos, ⟨1, rfl⟩, ?_, ?_, ?_, ?_⟩ <;> exact of_decide_eq_true rfl

lemma SysInv.ringOk (inv : SysInv setup s L) (ring : RingSetup setup) : RingOk s.q := by
  refine ⟨?_, ?_, ?_, ?_⟩
  · rw [inv.nSlots]
    exact ring.pow
  · rw [inv.nSlots]
    exact ring.nSlots_lt
  · rw [inv.bufferSize]
    exact ring.bufferSize_pos
  · rw [inv.bufferSize]
    exact ring.bufferSize_lt

lemma RingSetup.slotOf_eq (ring : RingSetup setup) (n : Nat) :
    setup.slotOf n = n / setup.maxBufferSize % setup.nSlots := by
  obtain ⟨e, he⟩ := ring.pow
  rw [Setup.slotOf, he, Nat.and_two_pow_sub_one_eq_mod]

/-- The slot `fof_queue_add` picks for the start frame `t`, as a function of `next_frame`: the slot
    of the block `(t - next_frame) / buffer_size` blocks ahead of the one of `next_frame`. -/
def Setup.slotFor (setup : Setup) (t nextFrame : Nat) : Nat :=
  (nextFrame / setup.maxBufferSize + (t - nextFrame) / setup.maxBufferSize) % setup.nSlots

/-- An accepted event waits in the slot of its block, less than a revolution ahead. -/
lemma accepted_pending (ring : RingSetup setup) (inv : SysInv setup x.pre L)
    (run : exec fuel x.pre x.op = some (x.out, s1)) {t : Nat}
    (add : x.op = .add timeUs argv) (accepted : x.out = .added .success)
    (et : t = jfofsTimeToNframes timeUs setup.sampleRate) :
    x.pre.q.nextFrame ≤ t ∧ SameClock x.pre.q s1.q ∧ s1.ctrl = x.pre.ctrl ∧
      ((t - x.pre.q.nextFrame) / setup.maxBufferSize < 2 ^ 31 →
        (t - x.pre.q.nextFrame) / setup.maxBufferSize < setup.nSlots) ∧
      ∃ L1, SysInv setup s1 L1 ∧
        Pending s1 L1 x.pre.count (setup.slotFor t x.pre.q.nextFrame) timeUs argv := by
  obtain ⟨status, s2, L1, e, inv1, ad, success⟩ :=
    exec_add fuel inv ring.ok.nSlots timeUs argv et
  rw [← add, run, accepted, Option.some.injEq, Prod.mk.injEq] at e
  obtain ⟨est, rfl⟩ := e
  cases est
  obtain ⟨le, inside, c, j, ej, mem, tag, payload⟩ := success rfl
  have lt : (t - x.pre.q.nextFrame) / x.pre.q.bufferSize < 2 ^ 32 := by
    have lt : t < 2 ^ 32 := et ▸ jfofsTimeToNframes_lt timeUs setup.sampleRate
    have le := Nat.div_le_self (t - x.pre.q.nextFrame) x.pre.q.bufferSize
    omega
  rw [slotIndex, targetSlot_eq (inv.ringOk ring) inv.cacheOk _ lt, inv.bufferSize, inv.nSlots] at ej
  refine ⟨le, ad.clock, ad.ctrl, fun small => ?_, L1, inv1, c, ?_, tag, payload⟩
  · rw [← inv.bufferSize] at small
    rw [slotIndex_eq small, inv.bufferSize, inv.nSlots] at inside
    omega
  · rw [Setup.slotFor, ← ej]
    exact mem

/-- An operation hands over only events that were accepted before it. -/
lemma lt_count_of_hands (ok : SetupOk setup) (enough : setup.nMaxFofs ≤ fuel)
    (inv : SysInv setup x.pre L) (quiet : QuietEntry x)
    (run : exec fuel x.pre x.op = some (x.out, s1)) (hands : Hands x e) : e < x.pre.count := by
  obtain ⟨h, mem, eh⟩ := hands
  obtain ⟨status, L1, out, -⟩ | ⟨n, qc⟩ := quiet_cases ok enough inv quiet run
  · rw [out] at mem
    exact absurd mem List.not_mem_nil
  · rw [qc.out] at mem
    obtain ⟨c, memc, ec⟩ := mem_handedFrom mem
    have busy : (Place.slot (setup.slotOf n)).Busy := slot_ne_free _
    rw [← eh, ec]
    exact inv.tag_lt busy memc

/-- No operation before the call of `fof_queue_add` hands its event over. -/
lemma not_hands_before (ok : SetupOk setup) (enough : setup.nMaxFofs ≤ fuel)
    (run : Run (exec fuel) s log s') (quiet : ∀ x ∈ log, QuietEntry x) (inv : SysInv setup s L) :
    s.count ≤ s'.count ∧ ∀ x ∈ log, ∀ e, Hands x e → e < s'.count := by
  induction run generalizing L with
  | nil => exact ⟨Nat.le_refl _, fun x mem => absurd mem List.not_mem_nil⟩
  | @cons s s1 s' op out log run1 run ih =>
    have quiet1 (z : LogEntry α) (mem : z ∈ log) : QuietEntry z :=
      quiet z (List.mem_cons_of_mem _ mem)
    have now := quiet _ List.mem_cons_self
    have step : s.count ≤ s1.count ∧ ∃ L1, SysInv setup s1 L1 := by
      obtain ⟨status, L1, -, inv1, ad⟩ | ⟨n, qc⟩ :=
        quiet_cases (x := ⟨s, op, out⟩) ok enough inv now run1
      · rw [ad.count]
        exact ⟨Nat.le_succ _, L1, inv1⟩
      · rw [qc.count]
        exact ⟨Nat.le_refl _, _, qc.inv⟩
    obtain ⟨le1, L1, inv1⟩ := step
    obtain ⟨le2, all⟩ := ih quiet1 inv1
    refine ⟨Nat.le_trans le1 le2, fun y mem e hands => ?_⟩
    cases mem with
    | head =>
      have lt := lt_count_of_hands (x := ⟨s, op, out⟩) ok enough inv now run1 hands
      exact Nat.lt_of_lt_of_le lt (Nat.le_trans le1 le2)
    | tail _ mem => exact all y mem e hands

/-- Where a quiet run is right after a call of `fof_queue_add` that accepted an event with start
    frame `t`. -/
structure Accepted (setup : Setup) (fuel : Nat) (before : List (LogEntry α)) (a : LogEntry α)
    (after : List (LogEntry α)) (s1 s' : Sys α) (L1 : Place → List Addr) (t timeUs : Nat)
    (argv : α) : Prop where
  run : Run (exec fuel) s1 after s'
  quiet : ∀ x ∈ after, QuietEntry x
  inv : SysInv setup s1 L1
  queue : SameClock a.pre.q s1.q
  ctrl : s1.ctrl = a.pre.ctrl
  le : a.pre.q.nextFrame ≤ t
  lt : t < 2 ^ 32
  inside : (t - a.pre.q.nextFrame) / setup.maxBufferSize < 2 ^ 31 →
    (t - a.pre.q.nextFrame) / setup.maxBufferSize < setup.nSlots
  pending : Pending s1 L1 a.pre.count (setup.slotFor t a.pre.q.nextFrame) timeUs argv
  before : ∀ x ∈ before ++ [a], ¬ Hands x a.pre.count

variable {before after l1 l2 : List (LogEntry α)} {a : LogEntry α} {L1 : Place → List Addr} {t : Nat}
  {due : Nat → Prop}

/-- Every accepted event of a quiet run. -/
lemma Accepted.of_run (ring : RingSetup setup) (enough : setup.nMaxFofs ≤ fuel)
    (inv : SysInv setup s L) (inva : SysInv setup a.pre L') (run1 : Run (exec fuel) s before a.pre)
    (runa : exec fuel a.pre a.op = some (a.out, s1)) (run2 : Run (exec fuel) s1 after s')
    (quiet : ∀ x ∈ before ++ a :: after, QuietEntry x) (add : a.op = .add timeUs argv)
    (accepted : a.out = .added .success) (et : t = jfofsTimeToNframes timeUs setup.sampleRate) :
    ∃ L1, Accepted setup fuel before a after s1 s' L1 t timeUs argv := by
  obtain ⟨le, queue, ctrl, inside, L1, inv1, pending⟩ :=
    accepted_pending ring inva runa add accepted et
  refine ⟨L1, run2, fun x mem => ?_, inv1, queue, ctrl, le, ?_, inside, pending, fun x mem hands => ?_⟩
  · exact quiet x (List.mem_append_right _ (List.mem_cons_of_mem a mem))
  · rw [et]
    exact jfofsTimeToNframes_lt timeUs setup.sampleRate
  · obtain mem | mem := List.mem_append.1 mem
    · have quiet1 (y : LogEntry α) (mem : y ∈ before) : QuietEntry y :=
        quiet y (List.mem_append_left _ mem)
      exact Nat.lt_irrefl _ ((not_hands_before ring.ok enough run1 quiet1 inv).2 x mem _ hands)
    · cases List.mem_singleton.1 mem
      have quieta := quiet a (List.mem_append_right _ List.mem_cons_self)
      exact Nat.lt_irrefl _ (lt_count_of_hands ring.ok enough inva quieta runa hands)

/-- The event is handed over at most once in the whole run, and by a due cycle. -/
lemma Accepted.once (acc : Accepted setup fuel before a after s1 s' L1 t timeUs argv)
    (del : Delivered due a.pre.count setup.nClients timeUs argv after)
    (split : before ++ a :: after = l1 ++ x :: l2) (hands : Hands x a.pre.count) :
    CycleAt due x ∧ HandsOnce x a.pre.count setup.nClients timeUs argv ∧
      (∀ y ∈ l1, ¬ Hands y a.pre.count) ∧ ∀ y ∈ l2, ¬ Hands y a.pre.count := by
  have old := acc.before
  have later : ∃ m, l1 = (before ++ [a]) ++ m ∧ after = m ++ x :: l2 := by
    rw [List.append_cons] at split
    obtain ⟨m, e1, e2⟩ | ⟨m, e1, e2⟩ := List.append_eq_append_iff.1 split
    · exact ⟨m, e1, e2⟩
    · cases m with
      | nil => exact ⟨[], by rw [e1, List.append_nil, List.append_nil], e2.symm⟩
      | cons b m =>
        obtain ⟨rfl, -⟩ := List.cons.inj e2
        refine absurd hands (old x ?_)
        rw [e1]
        exact List.mem_append_right _ List.mem_cons_self
  obtain ⟨m, rfl, rfl⟩ := later
  obtain ⟨once, no1, no2⟩ := del.hands_once hands
  refine ⟨(del.due_of_hands hands).1, once, fun y mem => ?_, no2⟩
  obtain mem | mem := List.mem_append.1 mem
  · exact old y mem
  · exact no1 y mem

/-- What exact delivery means for an accepted event with start frame `t`, over the whole run: a cycle
    whose block ends at or before `t` does not hand it over, and the first cycle after the call whose
    block contains `t` hands it to exactly one DSP client, with its own data, as no other does. -/
structure ExactDelivery (setup : Setup) (before : List (LogEntry α)) (a : LogEntry α)
    (after : List (LogEntry α)) (t timeUs : Nat) (argv : α) : Prop where
  early : ∀ x ∈ before ++ a :: after, CycleAt (fun n => n + setup.maxBufferSize ≤ t) x →
    ¬ Hands x a.pre.count
  block : ∀ x ∈ before ++ a :: after, Hands x a.pre.count →
    CycleAt (fun n => n ≤ t ∧ t < n + setup.maxBufferSize) x
  first : ∀ l1 x l2, after = l1 ++ x :: l2 →
    CycleAt (fun n => n ≤ t ∧ t < n + setup.maxBufferSize) x →
    (∀ y ∈ l1, ¬ CycleAt (fun n => n ≤ t ∧ t < n + setup.maxBufferSize) y) →
    HandsOnce x a.pre.count setup.nClients timeUs argv ∧
      (∀ y ∈ before ++ [a] ++ l1, ¬ Hands y a.pre.count) ∧ ∀ y ∈ l2, ¬ Hands y a.pre.count

/-- Delivery by the cycle that contains the start frame is exact. -/
lemma Accepted.exact (acc : Accepted setup fuel before a after s1 s' L1 t timeUs argv)
    (del : Delivered (fun n => n ≤ t ∧ t < n + setup.maxBufferSize) a.pre.count setup.nClients timeUs
      argv after) : ExactDelivery setup before a after t timeUs argv := by
  have block (x : LogEntry α) (mem : x ∈ before ++ a :: after) (hands : Hands x a.pre.count) :
      CycleAt (fun n => n ≤ t ∧ t < n + setup.maxBufferSize) x := by
    obtain ⟨m1, m2, split⟩ := List.append_of_mem mem
    exact (acc.once del split hands).1
  refine ⟨fun x mem early hands => ?_, block, fun l1 x l2 eafter now first => ?_⟩
  · obtain ⟨n, handed, out, le, lt⟩ := block x mem hands
    obtain ⟨n', handed', out', le'⟩ := early
    rw [out] at out'
    cases out'
    omega
  · have split : before ++ a :: after = (before ++ [a] ++ l1) ++ x :: l2 := by
      rw [List.append_cons, eafter, List.append_assoc _ l1]
    have once : HandsOnce x a.pre.count setup.nClients timeUs argv := by
      rw [eafter] at del
      exact (del.at_due first now).1
    exact (acc.once del split once.hands).2

end JackFofs
