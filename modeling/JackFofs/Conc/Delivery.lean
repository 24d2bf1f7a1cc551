import JackFofs.Conc.Contention
import JackFofs.Lib.Mailbox
import JackFofs.Lib.RoundRobin

/-!
# What happens to the events

The slots are mailboxes of events: a thread posts the event of its call into a slot, a cycle collects
a slot for the DSP clients and a flush throws it away. `mailOf` reads these operations off the log
of a run, from the arguments of the calls and the events of the steps only, and `delivery` says that
the shared memory follows them: the list of a slot carries the events that wait there, and the
controller hands out what the cycles have collected, event by event and to the DSP clients in turn.
-/

namespace JackFofs
open Linked Mailbox RoundRobin Runs

variable {α : Type}

/-- What an entry of the log does to the mailboxes. -/
def mailOp (x : Step α) : Option (MailOp Nat Nat (Nat × α)) :=
  match x.op, x.out with
  | .call p timeUs argv, _ => some (.draft p (timeUs, argv))
  | .step p, .linked _ slot => some (.post p slot)
  | .ctrlStep, .took (some _) slot _ => some (.collect slot)
  | .ctrlStep, .took none slot _ => some (.discard slot)
  | _, _ => none

/-- The mailboxes after a run. -/
def mailOf (log : List (Step α)) : Mail Nat Nat (Nat × α) := Mail.after (log.filterMap mailOp)

/-- The call of `dsp_client_add` of a step. -/
def Ev.dspAdd : Ev α → Option (DspAdd α)
  | .handed d => some d
  | _ => none

/-- The calls of `dsp_client_add` of a run. -/
def handedOut (log : List (Step α)) : List (DspAdd α) := log.filterMap fun x => x.out.dspAdd

/-- The event that `dsp_client_add` is called with. -/
def DspAdd.event (d : DspAdd α) : Nat × α := (d.timeUs, d.argv)

/-- The events of the calls of a run that answered `JFOFS_SUCCESS`. -/
def accepted (log : List (Step α)) : List (Nat × α) :=
  log.filterMap fun x =>
    match x.op with
    | .step p =>
      if x.out.status = some .success then some ((x.pre.thread p).timeUs, (x.pre.thread p).argv)
      else none
    | _ => none

/-- The state of the loop that hands a list to the DSP clients: the cycles have collected the events
    `collected`, and `handed` of them have been handed out. -/
def Handing (q : FofQueue α) (ctrl : CtrlClient) (collected handed : List (Nat × α)) : CtrlPc → Prop
  | .hand _ fof i =>
    i = handed.length % ctrl.nClients ∧
      ∃ rest, Seg q.next (some fof) rest none ∧ collected = handed ++ rest.map q.payload
  | _ => ctrl.lastDsp = handed.length % ctrl.nClients ∧ collected = handed

/-- The events that a step of the controller collects. -/
def Ev.collects (waiting : Nat → List (Nat × α)) : Ev α → List (Nat × α)
  | .took (some _) slot _ => waiting slot
  | _ => []

/-- What the log of a run says about the shared memory after it. -/
structure Delivering (cells : List Addr) (n : Nat) (log : List (Step α)) (s : Machine α)
    (L : Loc → List Addr) : Prop where
  conc : ConcInv cells s L
  nClients : s.ctrl.nClients = n
  draft : ∀ p, (s.thread p).pc ≠ .idle →
    (mailOf log).draft p = some ((s.thread p).timeUs, (s.thread p).argv)
  carries : ∀ p fof, (s.thread p).pc.filled = some fof →
    Carries s.q fof (s.thread p).timeUs (s.thread p).argv
  waiting : ∀ j, (L (.place (.slot j))).map s.q.payload = (mailOf log).waiting j
  handing : Handing s.q s.ctrl (mailOf log).collected ((handedOut log).map (·.event)) s.cpc
  dsps : (handedOut log).map (·.dsp) = deal n 0 (handedOut log).length

/-! ## The log after a step -/

section Log

variable {log : List (Step α)} {x : Step α}

lemma mailOf_append_none (none : mailOp x = none) : mailOf (log ++ [x]) = mailOf log := by
  simp [mailOf, none]

lemma mailOf_append {op : MailOp Nat Nat (Nat × α)} (some : mailOp x = some op) :
    mailOf (log ++ [x]) = (mailOf log).step op := by
  simp [mailOf, some, Mail.after_append]

lemma handedOut_append : handedOut (log ++ [x]) = handedOut log ++ x.out.dspAdd.toList := by
  cases e : x.out.dspAdd <;> simp [handedOut, e]

lemma collected_append {s : Machine α} {ev : Ev α} :
    (mailOf (log ++ [⟨s, .ctrlStep, ev⟩])).collected =
      (mailOf log).collected ++ ev.collects (mailOf log).waiting := by
  cases ev with
  | took n slot head =>
    cases n with
    | none =>
      rw [mailOf_append rfl]
      exact (List.append_nil _).symm
    | some n =>
      rw [mailOf_append rfl]
      rfl
  | _ =>
    rw [mailOf_append_none rfl]
    exact (List.append_nil _).symm

end Log

/-! ## The loop of the controller -/

section Hand

variable {q q' : FofQueue α} {ctrl ctrl' : CtrlClient} {cpc cpc' : CtrlPc} {ev : Ev α}
  {l : List Addr} {collected handed : List (Nat × α)}

/-- The cells that the loop has still to hand out belong to the controller. -/
lemma CtrlOk.rest_subset {n i : Nat} {fof : Addr} {rest : List Addr} (ok : CtrlOk q l (.hand n fof i))
    (chain : Seg q.next (some fof) rest none) : rest ⊆ l := by
  obtain ⟨-, l1, l2, rfl, -, chain2⟩ := ok
  cases chain with
  | cons chain =>
    rw [chain.unique chain2]
    exact List.subset_append_right l1 _

/-- The loop over a list goes on when another thread has made a step. -/
lemma Handing.congr (handing : Handing q ctrl collected handed cpc) (ok : CtrlOk q l cpc)
    (same : ∀ c ∈ l, q'.fof c = q.fof c) : Handing q' ctrl collected handed cpc := by
  cases cpc with
  | hand n fof i =>
    obtain ⟨turn, rest, chain, eq⟩ := handing
    have sub := ok.rest_subset chain
    refine ⟨turn, rest, chain.congr fun c mem => next_eq_of_fof (same c (sub mem)), ?_⟩
    rw [eq]
    congr 1
    refine List.map_congr_left fun c mem => ?_
    rw [FofQueue.payload, FofQueue.payload, same c (sub mem)]
  | _ => exact handing

/-- Outside of the loop everything has been handed out. -/
lemma Handing.of_not_hand (last : ctrl.lastDsp = handed.length % ctrl.nClients)
    (eq : collected = handed) (no : ∀ n fof i, cpc ≠ .hand n fof i) :
    Handing q ctrl collected handed cpc := by
  cases cpc with
  | hand n fof i => exact absurd rfl (no n fof i)
  | _ => exact ⟨last, eq⟩

lemma afterMode_ne_hand (q : FofQueue α) (ctrl : CtrlClient) (c : Cycle) (n : Nat) (fof : Addr)
    (i : Nat) : afterMode q ctrl c ≠ .hand n fof i := by
  unfold afterMode
  split <;> exact fun h => by cases h

lemma afterFlush_ne_hand (q : FofQueue α) (ctrl : CtrlClient) (after : AfterFlush) (n : Nat)
    (fof : Addr) (i : Nat) : (afterFlush q ctrl after).1 ≠ .hand n fof i := by
  cases after with
  | mode c => exact afterMode_ne_hand q _ c n fof i
  | _ => exact fun h => by cases h

/-- A flush hands nothing out and collects nothing. -/
lemma FlushStep.silent {pc : FlushPc} {rest : Option FlushPc} (waiting : Nat → List (Nat × α))
    (step : FlushStep q pc ev rest q') : ev.dspAdd = none ∧ ev.collects waiting = [] := by
  cases step <;> exact ⟨rfl, rfl⟩

/-- The loop at a cell: its event comes next, and then those of the cells behind it. -/
lemma Handing.cell {n i : Nat} {fof : Addr} {adds : List (DspAdd α)}
    (handing : Handing q ctrl collected (adds.map (·.event)) (.hand n fof i)) :
    i = adds.length % ctrl.nClients ∧ ∃ rest, Seg q.next (q.next fof) rest none ∧
      collected = (adds ++ [dspAdd q i fof]).map (·.event) ++ rest.map q.payload := by
  obtain ⟨turn, rest, chain, all⟩ := handing
  rw [List.length_map] at turn
  cases chain with
  | @cons _ rest _ chain =>
    refine ⟨turn, rest, chain, ?_⟩
    rw [all, List.map_append, List.append_assoc]
    rfl

/-- A step of the controller hands out what it has collected, in order and in turn. -/
lemma Handing.step {adds : List (DspAdd α)} {waiting : Nat → List (Nat × α)} (pos : 1 ≤ q.nSlots)
    (handing : Handing q ctrl collected (adds.map (·.event)) cpc)
    (slots : ∀ j, j < q.nSlots → ∃ l, Seg q.next (q.slot j) l none ∧ l.map q.payload = waiting j)
    (e : ctrlStep q ctrl cpc = some (ev, cpc', ctrl', q')) :
    Handing q' ctrl' (collected ++ ev.collects waiting) ((adds ++ ev.dspAdd.toList).map (·.event))
        cpc' ∧
      ∀ d, ev.dspAdd = some d → d.dsp = adds.length % ctrl.nClients := by
  have silent (dsp : ev.dspAdd = none) (col : ev.collects waiting = [])
      (h : Handing q' ctrl' collected (adds.map (·.event)) cpc') :
      Handing q' ctrl' (collected ++ ev.collects waiting) ((adds ++ ev.dspAdd.toList).map (·.event))
          cpc' ∧
        ∀ d, ev.dspAdd = some d → d.dsp = adds.length % ctrl.nClients := by
    rw [dsp, col, List.append_nil, Option.toList_none, List.append_nil]
    exact ⟨h, fun d h => by cases h⟩
  have turns (i : Nat) (fof : Addr) (turn : i = adds.length % ctrl.nClients) :
      (i + 1) % ctrl.nClients =
        ((adds ++ [dspAdd q i fof]).map (·.event)).length % ctrl.nClients := by
    rw [turn, Nat.mod_add_mod, List.length_map, List.length_append]
    rfl
  cases ctrlStep_cases e with
  | changed => exact silent rfl rfl handing
  | unchanged =>
    exact silent rfl rfl (.of_not_hand handing.1 handing.2 (afterMode_ne_hand q ctrl _))
  | flush step =>
    obtain ⟨dsp, col⟩ := step.silent waiting
    exact silent dsp col handing
  | @flushed after pc ev q' step =>
    obtain ⟨dsp, col⟩ := step.silent waiting
    obtain ⟨nClients, last⟩ := afterFlush_turn q' ctrl after
    refine silent dsp col (.of_not_hand ?_ handing.2 (afterFlush_ne_hand q' ctrl after))
    rw [nClients, last]
    exact handing.1
  | publishTransport => exact silent rfl rfl handing
  | publish => exact silent rfl rfl handing
  | @stamp n c =>
    obtain ⟨nClients, last⟩ := stampCtrl_turn ctrl n c
    refine silent rfl rfl ⟨?_, handing.2⟩
    rw [nClients, last]
    exact handing.1
  | @take n =>
    obtain ⟨last, all⟩ := handing
    obtain ⟨l, chain, eq⟩ := slots _ (slotOfFrame_lt_nSlots pos n)
    refine ⟨?_, fun d h => by cases h⟩
    show Handing _ ctrl (collected ++ waiting (slotOfFrame q n)) ((adds ++ []).map DspAdd.event) _
    rw [all, List.append_nil, ← eq]
    cases head : q.slot (slotOfFrame q n) with
    | none =>
      rw [head] at chain
      cases chain
      exact ⟨last, List.append_nil _⟩
    | some fof =>
      rw [head] at chain
      exact ⟨last, l, chain, rfl⟩
  | @hand n fof i next eq =>
    obtain ⟨turn, rest, chain, all⟩ := handing.cell
    rw [eq] at chain
    refine ⟨⟨turns i fof turn, rest, chain, ?_⟩, fun d h => ?_⟩
    · exact (List.append_nil _).trans all
    · cases h
      exact turn
  | @handLast n fof i first eq _ =>
    obtain ⟨turn, rest, chain, all⟩ := handing.cell
    rw [eq] at chain
    cases chain
    refine ⟨⟨turns i fof turn, ?_⟩, fun d h => ?_⟩
    · exact (List.append_nil _).trans (all.trans (List.append_nil _))
    · cases h
      exact turn
  | @handNone n fof i eq _ =>
    obtain ⟨turn, rest, chain, all⟩ := handing.cell
    rw [eq] at chain
    cases chain
    refine ⟨⟨turns i fof turn, ?_⟩, fun d h => ?_⟩
    · exact (List.append_nil _).trans (all.trans (List.append_nil _))
    · cases h
      exact turn
  | give => exact silent rfl rfl handing
  | given => exact silent rfl rfl handing

end Hand

/-! ## One step -/

section Step

variable {cells : List Addr} {n p : Nat} {log : List (Step α)} {s s' : Machine α}
  {L : Loc → List Addr} {ev : Ev α} {act : Act α}

lemma addStep_dspAdd {q q' : FofQueue α} {timeUs : Nat} {argv : α} {pc pc' : AddPc}
    (e : addStep q timeUs argv pc = some (ev, pc', q')) : ev.dspAdd = none := by
  cases addStep_cases e <;> rfl

/-- A step of a thread is no operation on the mailboxes unless it links its cell. -/
lemma mailOp_step (no : ∀ fof j, ev ≠ .linked fof j) : mailOp ⟨s, .step p, ev⟩ = none := by
  cases ev with
  | linked fof j => exact absurd rfl (no fof j)
  | _ => rfl

/-- The events in a slot stay as they are. -/
lemma Framed.map_payload (act : Act α) (framed : Framed act.who L s s') (inv : ConcInv cells s L)
    (j : Nat) :
    (L (.place (.slot j))).map s'.q.payload = (L (.place (.slot j))).map s.q.payload := by
  refine List.map_congr_left fun c mem => ?_
  have same := framed.fof c (inv.lists.part.notMem mem (who_ne_place act (.slot j)).symm)
  rw [FofQueue.payload, FofQueue.payload, same]

/-- What waits in the slots after a step that neither links a cell nor takes a slot. -/
lemma Delivering.waiting_kept (act : Act α) (ev : Ev α) (del : Delivering cells n log s L)
    (framed : Framed act.who L s s') (none : mailOp ⟨s, act, ev⟩ = none)
    (link : ∀ fof j, ev ≠ .linked fof j) (take : ∀ n j h, ev ≠ .took n j h) (j : Nat) :
    (ev.moved act.who L (.place (.slot j))).map s'.q.payload =
      (mailOf (log ++ [⟨s, act, ev⟩])).waiting j := by
  rw [mailOf_append_none none, moved_slot (who_ne_place act) (fun fof => link fof j)
    fun n h => take n j h, framed.map_payload act del.conc j]
  exact del.waiting j

/-- What waits in the slots after a step of a thread. -/
lemma Delivering.step_waiting {pc' : AddPc} {q' : FofQueue α} (del : Delivering cells n log s L)
    (reg : Regular s (.step p)) (framed : Framed (.own p) L s s') (eq : s'.q = q')
    (step : addStep s.q (s.thread p).timeUs (s.thread p).argv (s.thread p).pc = some (ev, pc', q'))
    (j : Nat) : (ev.moved (.own p) L (.place (.slot j))).map s'.q.payload =
      (mailOf (log ++ [⟨s, .step p, ev⟩])).waiting j := by
  have kept := Delivering.waiting_kept (.step p) ev del framed
  cases addStep_effect del.conc.nSlots (del.conc.threads p) (fun pc => reg.fresh p pc rfl) step with
  | write keeps =>
    have link (fof : Addr) (j : Nat) : ev ≠ .linked fof j := by
      rintro rfl
      exact keeps
    refine kept (mailOp_step link) link (fun n j h => ?_) j
    rintro rfl
    exact keeps
  | @link fof nextFrame slot pc =>
    have filled : (s.thread p).pc.filled = some fof := by
      obtain pc | pc := pc <;> rw [pc] <;> rfl
    have own : L (.own p) = [fof] := by
      rw [del.conc.own p]
      obtain pc | pc := pc <;> rw [pc] <;> rfl
    have payload : s'.q.payload = s.q.payload := by
      rw [eq]
      rfl
    rw [mailOf_append rfl, Mail.step, del.draft p (addStep_busy step), Ev.moved, own, payload]
    dsimp only
    by_cases same : j = slot
    · subst same
      rw [Function.update_self, Function.update_self, List.map_append, del.waiting j, List.map_singleton,
        del.carries p fof filled]
      rfl
    · have ne : Loc.place (.slot j) ≠ .place (.slot slot) := fun h => by
        cases h
        exact same rfl
      rw [Function.update_of_ne ne, Function.update_of_ne same,
        Function.update_of_ne (own_ne_place p _).symm]
      exact del.waiting j
  | pop => exact kept rfl (fun _ _ h => by cases h) (fun _ _ _ h => by cases h) j
  | excess => exact kept rfl (fun _ _ h => by cases h) (fun _ _ _ h => by cases h) j
  | free => exact kept rfl (fun _ _ h => by cases h) (fun _ _ _ h => by cases h) j

/-- What waits in the slots after a step of the controller. -/
lemma Delivering.ctrlStep_waiting (del : Delivering cells n log s L)
    (framed : Framed .ctrl L s s') (j : Nat) (link : ∀ fof j, ev ≠ .linked fof j) :
    (ev.moved .ctrl L (.place (.slot j))).map s'.q.payload =
      (mailOf (log ++ [⟨s, .ctrlStep, ev⟩])).waiting j := by
  have taken (n : Option Nat) (slot : Nat) (head : Option Addr) (waiting : Nat → List (Nat × α))
      (eq : waiting = Function.update (mailOf log).waiting slot []) :
      (Ev.moved .ctrl L (.took n slot head : Ev α) (.place (.slot j))).map s'.q.payload = waiting j := by
    rw [eq, Ev.moved, Function.update_of_ne (ctrl_ne_place _).symm]
    by_cases same : j = slot
    · subst same
      rw [Function.update_self, Function.update_self]
      rfl
    · have ne : Loc.place (.slot j) ≠ .place (.slot slot) := fun h => by
        cases h
        exact same rfl
      rw [Function.update_of_ne ne, Function.update_of_ne same, framed.map_payload .ctrlStep del.conc]
      exact del.waiting j
  cases ev with
  | took n slot head =>
    cases n with
    | none =>
      rw [mailOf_append rfl]
      exact taken none slot head _ rfl
    | some n =>
      rw [mailOf_append rfl]
      exact taken (some n) slot head _ rfl
  | linked fof j => exact absurd rfl (link fof j)
  | _ =>
    exact del.waiting_kept .ctrlStep _ framed rfl (fun _ _ h => by cases h)
      (fun _ _ _ h => by cases h) j

/-- Where the operations on the mailboxes come from. -/
lemma mailOp_cases {op : MailOp Nat Nat (Nat × α)} (e : mailOp ⟨s, act, ev⟩ = some op) :
    (∃ p timeUs argv, act = .call p timeUs argv ∧ op = .draft p (timeUs, argv)) ∨
      (∃ p fof j, act = .step p ∧ ev = .linked fof j ∧ op = .post p j) ∨
      ∃ n j head, act = .ctrlStep ∧ ev = .took n j head ∧ (op = .collect j ∨ op = .discard j) := by
  cases act with
  | call p timeUs argv =>
    cases e
    exact .inl ⟨p, timeUs, argv, rfl, rfl⟩
  | step p =>
    cases ev with
    | linked fof j =>
      cases e
      exact .inr (.inl ⟨p, fof, j, rfl, rfl, rfl⟩)
    | _ => cases e
  | ctrlStep =>
    cases ev with
    | took n j head =>
      refine .inr (.inr ⟨n, j, head, rfl, rfl, ?_⟩)
      cases n with
      | none =>
        cases e
        exact .inr rfl
      | some n =>
        cases e
        exact .inl rfl
    | _ => cases e
  | _ => cases e

/-- Only the start of a call makes up a new event. -/
lemma draft_append (no : ∀ p timeUs argv, act ≠ .call p timeUs argv) :
    (mailOf (log ++ [⟨s, act, ev⟩])).draft = (mailOf log).draft := by
  cases e : mailOp ⟨s, act, ev⟩ with
  | none => rw [mailOf_append_none e]
  | some op =>
    rw [mailOf_append e]
    obtain ⟨p, timeUs, argv, h, -⟩ | ⟨p, fof, j, -, -, rfl⟩ | ⟨n, j, head, -, -, rfl | rfl⟩ :=
      mailOp_cases e
    · exact absurd h (no p timeUs argv)
    · rfl
    · rfl
    · rfl

/-- A thread collects nothing. -/
lemma collected_step :
    (mailOf (log ++ [⟨s, .step p, ev⟩])).collected = (mailOf log).collected := by
  cases ev with
  | linked fof j =>
    rw [mailOf_append rfl]
    rfl
  | _ => rw [mailOf_append_none rfl]

/-- A quiet action is nothing to the mailboxes, unless it starts a call. -/
lemma Delivering.quiet (s0 : Machine α) (del : Delivering cells n log s L)
    (none : mailOp ⟨s0, act, .quiet⟩ = none) : Delivering cells n (log ++ [⟨s0, act, .quiet⟩]) s L := by
  have mail : mailOf (log ++ [⟨s0, act, .quiet⟩]) = mailOf log := mailOf_append_none none
  have out : handedOut (log ++ [⟨s0, act, .quiet⟩]) = handedOut log :=
    handedOut_append.trans (List.append_nil _)
  refine ⟨del.conc, del.nClients, ?_, del.carries, ?_, ?_, ?_⟩
  · rw [mail]
    exact del.draft
  · rw [mail]
    exact del.waiting
  · rw [mail, out]
    exact del.handing
  · rw [out]
    exact del.dsps

/-- Every regular step does to the shared memory what its entry of the log says. -/
lemma Delivering.exec (pos : 1 ≤ n) (del : Delivering cells n log s L) (reg : Regular s act)
    (e : s.exec act = some (ev, s')) :
    Delivering cells n (log ++ [⟨s, act, ev⟩]) s' (ev.moved act.who L) := by
  have conc := del.conc.exec reg e
  have framed := del.conc.framed reg e
  have others (p : Nat) (ne : act.who ≠ .own p) (fof : Addr) (mem : fof ∈ (s.thread p).pc.cells) :
      s'.q.payload fof = s.q.payload fof := by
    rw [← del.conc.own p] at mem
    have same := framed.fof fof (del.conc.lists.part.notMem mem ne.symm)
    rw [FofQueue.payload, FofQueue.payload, same]
  have carried (p : Nat) (ne : act.who ≠ .own p) (fof : Addr)
      (filled : (s.thread p).pc.filled = some fof) :
      Carries s'.q fof (s.thread p).timeUs (s.thread p).argv :=
    (others p ne fof (filled_mem filled)).trans (del.carries p fof filled)
  cases Machine.executed e with
  | @call p timeUs argv idle =>
    have mail : mailOf (log ++ [⟨s, .call p timeUs argv, .quiet⟩]) =
        (mailOf log).step (.draft p (timeUs, argv)) := mailOf_append rfl
    have out : handedOut (log ++ [⟨s, .call p timeUs argv, .quiet⟩]) = handedOut log :=
      handedOut_append.trans (List.append_nil _)
    refine ⟨conc, del.nClients, ?_, ?_, ?_, ?_, ?_⟩
    · rw [mail]
      refine setThread_forall (P := fun i t => t.pc ≠ .idle →
        Function.update (mailOf log).draft p (some (timeUs, argv)) i = some (t.timeUs, t.argv)) s p _
        (fun _ => Function.update_self ..) fun i ne busy => ?_
      rw [Function.update_of_ne ne]
      exact del.draft i busy
    · exact setThread_forall (P := fun _ t => ∀ fof, t.pc.filled = some fof →
        Carries s.q fof t.timeUs t.argv) s p _ (fun fof filled => by cases filled)
        fun i _ => del.carries i
    · rw [mail]
      exact del.waiting
    · rw [mail, out]
      exact del.handing
    · rw [out]
      exact del.dsps
  | @step p _ pc' q' step =>
    have out : handedOut (log ++ [⟨s, .step p, ev⟩]) = handedOut log := by
      rw [handedOut_append, addStep_dspAdd step]
      exact List.append_nil _
    have ctrl (c : Addr) (mem : c ∈ L .ctrl) : q'.fof c = s.q.fof c :=
      framed.fof c (del.conc.lists.part.notMem mem (ctrl_ne_own p))
    refine ⟨conc, del.nClients, ?_, ?_, del.step_waiting reg framed rfl step, ?_, ?_⟩
    · rw [draft_append (fun _ _ _ h => by cases h)]
      exact setThread_forall (P := fun i t => t.pc ≠ .idle →
        (mailOf log).draft i = some (t.timeUs, t.argv)) { s with q := q' } p _
        (fun _ => del.draft p (addStep_busy step)) fun i _ => del.draft i
    · exact setThread_forall (P := fun _ t => ∀ fof, t.pc.filled = some fof →
        Carries q' fof t.timeUs t.argv) { s with q := q' } p _ (carries_step (del.carries p) step)
        fun i ne => carried i fun h => ne (Loc.own.inj h).symm
    · rw [collected_step, out]
      exact del.handing.congr del.conc.ctrl ctrl
    · rw [out]
      exact del.dsps
  | cycle idle =>
    have handing := del.handing
    rw [idle] at handing
    exact Delivering.quiet s ⟨conc, del.nClients, del.draft, del.carries, del.waiting, handing, del.dsps⟩ rfl
  | flush idle =>
    have handing := del.handing
    rw [idle] at handing
    exact Delivering.quiet s ⟨conc, del.nClients, del.draft, del.carries, del.waiting, handing, del.dsps⟩ rfl
  | @ctrlStep _ cpc' ctrl' q' step =>
    have slots (j : Nat) (lt : j < s.q.nSlots) :
        ∃ l, Seg s.q.next (s.q.slot j) l none ∧ l.map s.q.payload = (mailOf log).waiting j :=
      ⟨_, del.conc.slot_list lt, del.waiting j⟩
    obtain ⟨handing, turn⟩ := del.handing.step del.conc.nSlots slots step
    rw [← collected_append (s := s), ← handedOut_append (x := ⟨s, .ctrlStep, ev⟩)] at handing
    have link : ∀ fof j, ev ≠ .linked fof j := by
      rintro fof j rfl
      obtain ⟨p, -, ep, -⟩ := del.conc.of_linked reg e
      cases ep
    refine ⟨conc, (ctrlStep_nClients step).trans del.nClients, ?_, fun p => ?_, fun j => ?_, handing, ?_⟩
    · rw [draft_append (fun _ _ _ h => by cases h)]
      exact del.draft
    · exact carried p (ctrl_ne_own p)
    · exact del.ctrlStep_waiting framed j link
    · rw [handedOut_append]
      rw [del.nClients] at turn
      have dsps := del.dsps
      cases dsp : ev.dspAdd with
      | none =>
        rw [Option.toList_none, List.append_nil]
        exact dsps
      | some d =>
        rw [Option.toList_some, List.map_append, List.length_append, dsps, List.map_singleton,
          List.length_singleton, deal_succ pos, Nat.zero_add, turn d dsp]
  | storeClockSource =>
    exact Delivering.quiet s
      ⟨conc, del.nClients, del.draft, del.carries, del.waiting, del.handing.congr del.conc.ctrl
        fun _ _ => rfl, del.dsps⟩ rfl

/-- What the log says about the calls that succeeded. -/
structure Posted (k : Nat) (log : List (Step α)) (s : Machine α) : Prop where
  nSlots : s.q.nSlots = k
  accepted : (mailOf log).posted = accepted log
  boxes : ∀ op ∈ log.filterMap mailOp, ∀ j ∈ op.box, j < k

/-- Only slots of the ring are used. -/
lemma ConcInv.box_lt {op : MailOp Nat Nat (Nat × α)} {j : Nat} (inv : ConcInv cells s L)
    (reg : Regular s act) (e : s.exec act = some (ev, s')) (mail : mailOp ⟨s, act, ev⟩ = some op)
    (mem : j ∈ op.box) : j < s.q.nSlots := by
  obtain ⟨p, timeUs, argv, -, rfl⟩ | ⟨p, fof, j', -, rfl, rfl⟩ | ⟨n, j', head, -, rfl, rfl | rfl⟩ :=
    mailOp_cases mail
  · cases mem
  · cases mem
    obtain ⟨-, -, -, lt, -⟩ := inv.of_linked reg e
    exact lt
  · cases mem
    exact (inv.of_took reg e).2.1
  · cases mem
    exact (inv.of_took reg e).2.1

/-- The events that are posted are those of the calls that succeed. -/
lemma Delivering.posted_append (del : Delivering cells n log s L) (e : s.exec act = some (ev, s')) :
    (mailOf (log ++ [⟨s, act, ev⟩])).posted = (mailOf log).posted ++ accepted [⟨s, act, ev⟩] := by
  cases act with
  | call p timeUs argv =>
    rw [mailOf_append rfl]
    exact (List.append_nil _).symm
  | step p =>
    cases ev with
    | linked fof j =>
      have busy : (s.thread p).pc ≠ .idle := by
        cases Machine.executed e with
        | step step => exact addStep_busy step
      rw [mailOf_append rfl, Mail.step, del.draft p busy]
      rfl
    | _ =>
      rw [mailOf_append_none rfl]
      exact (List.append_nil _).symm
  | ctrlStep =>
    cases ev with
    | took n j head =>
      cases n <;> rw [mailOf_append rfl] <;> exact (List.append_nil _).symm
    | _ =>
      rw [mailOf_append_none rfl]
      exact (List.append_nil _).symm
  | _ =>
    rw [mailOf_append_none rfl]
    exact (List.append_nil _).symm

lemma Posted.exec {k : Nat} (posted : Posted k log s) (del : Delivering cells n log s L)
    (reg : Regular s act) (e : s.exec act = some (ev, s')) :
    Posted k (log ++ [⟨s, act, ev⟩]) s' := by
  refine ⟨(del.conc.framed reg e).nSlots.trans posted.nSlots, ?_, fun op mem j box => ?_⟩
  · rw [del.posted_append e, posted.accepted]
    exact (List.filterMap_append ..).symm
  · rw [List.filterMap_append, List.mem_append] at mem
    obtain mem | mem := mem
    · exact posted.boxes op mem j box
    · obtain ⟨x, mem, mail⟩ := List.mem_filterMap.1 mem
      cases List.mem_singleton.1 mem
      rw [← posted.nSlots]
      exact del.conc.box_lt reg e mail box

end Step

/-! ## Whole runs -/

/-- The events that have been collected and not handed out yet: those of the cells that the loop has
    still to visit. -/
def Undelivered (s : Machine α) (events : List (Nat × α)) : Prop :=
  match s.cpc with
  | .hand _ fof _ => ∃ l, Seg s.q.next (some fof) l none ∧ events = l.map s.q.payload
  | _ => events = []

section Run

variable {setup : Setup} {s : Machine α} {log : List (Step α)}

/-- What the log says holds after every regular run. -/
lemma delivering_run (nMaxFofs : 1 ≤ setup.nMaxFofs) (nSlots : 1 ≤ setup.nSlots)
    (nClients : 1 ≤ setup.nClients) (q : FofQueue α) (argv : α)
    (run : Run Machine.exec (Machine.init setup q argv) log s)
    (regular : ∀ x ∈ log, Regular x.pre x.op) :
    ∃ L, Delivering (List.range setup.nMaxFofs) setup.nClients log s L ∧ Posted setup.nSlots log s := by
  have conc := concInv_init nMaxFofs nSlots q argv
  refine run.inv_log (fun log s => ∃ L, Delivering (List.range setup.nMaxFofs) setup.nClients log s L ∧
    Posted setup.nSlots log s) (fun mem inv e => ?_) ⟨_, ⟨conc, rfl, ?_, ?_, ?_, ?_, rfl⟩, ?_⟩
  · obtain ⟨L, del, posted⟩ := inv
    exact ⟨_, del.exec nClients (regular _ mem) e, posted.exec del (regular _ mem) e⟩
  · exact fun p busy => absurd rfl busy
  · exact fun p fof filled => by cases filled
  · exact fun j => rfl
  · exact ⟨(Nat.zero_mod _).symm, rfl⟩
  · obtain ⟨-, -, -, -, slots, -, -⟩ := fofQueueInit_fields q setup
    exact ⟨slots, rfl, fun op mem => absurd mem List.not_mem_nil⟩

lemma Handing.undelivered {collected handed : List (Nat × α)}
    (handing : Handing s.q s.ctrl collected handed s.cpc) :
    ∃ rest, Undelivered s rest ∧ collected = handed ++ rest := by
  unfold Undelivered
  cases cpc : s.cpc with
  | hand n fof i =>
    rw [cpc] at handing
    obtain ⟨-, rest, chain, eq⟩ := handing
    exact ⟨_, ⟨rest, chain, rfl⟩, eq⟩
  | _ =>
    rw [cpc] at handing
    exact ⟨[], rfl, handing.2.trans (List.append_nil _).symm⟩

/-- Take any run in which no stale value is popped and no flush finds an excess list. The DSP clients
    have got the events that the cycles have collected, in this order and in turn, except for those
    that the controller is about to hand out. The list of every slot in the shared memory carries the
    events that wait there, the newest first. -/
theorem delivery (nMaxFofs : 1 ≤ setup.nMaxFofs) (nSlots : 1 ≤ setup.nSlots)
    (nClients : 1 ≤ setup.nClients) (q : FofQueue α) (argv : α) (acts : List (Act α))
    (run : execAll Machine.exec (Machine.init setup q argv) acts = some (log, s))
    (regular : ∀ x ∈ log, Regular x.pre x.op) :
    (∃ rest, Undelivered s rest ∧ (mailOf log).collected = (handedOut log).map (·.event) ++ rest) ∧
      (handedOut log).map (·.dsp) = deal setup.nClients 0 (handedOut log).length ∧
      ∀ j, j < setup.nSlots → ∃ l, Seg s.q.next (s.q.slot j) l none ∧
        l.map s.q.payload = (mailOf log).waiting j := by
  obtain ⟨L, del, posted⟩ :=
    delivering_run nMaxFofs nSlots nClients q argv (run_of_execAll run).1 regular
  refine ⟨del.handing.undelivered, del.dsps, fun j lt => ⟨_, ?_, del.waiting j⟩⟩
  rw [← posted.nSlots] at lt
  exact del.conc.slot_list lt

/-- Threads 0 and 1 add events to one slot at the same time, and a cycle takes it and hands
    the first of them out. -/
def twoAddsThenCycle : List (Act Nat) :=
  .call 0 0 7 :: .call 1 1 8 :: List.replicate 4 (.step 0) ++ List.replicate 12 (.step 1) ++
    List.replicate 8 (.step 0) ++ .cycle 2 ⟨0, .stopped, 0⟩ :: List.replicate 5 .ctrlStep

theorem delivery_two :
    ∃ log s rest, execAll Machine.exec (Machine.init (twoSlots 3) (FofQueue.zero 0) 0) twoAddsThenCycle =
        some (log, s) ∧ Undelivered s rest ∧ (mailOf log).collected = (0, 7) :: rest := by
  have runs : ∃ log s, execAll Machine.exec (Machine.init (twoSlots 3) (FofQueue.zero 0) 0)
        twoAddsThenCycle = some (log, s) ∧
      (∀ x ∈ log, staleAlloc x.pre.q (x.op.pc x.pre) = false) ∧ (∀ x ∈ log, x.pre.q.excess = none) ∧
      (handedOut log).map (·.event) = [(0, 7)] := ⟨_, _, rfl, by decide, by decide, rfl⟩
  obtain ⟨log, s, run, fresh, empty, handed⟩ := runs
  obtain ⟨⟨rest, undelivered, collected⟩, -, -⟩ := delivery (by decide) (by decide) (by decide)
    (FofQueue.zero 0) 0 twoAddsThenCycle run fun x mem => .of_empty (fresh x mem) (empty x mem)
  rw [handed] at collected
  exact ⟨log, s, rest, run, undelivered, collected⟩

/-- In such a run no event that was accepted is lost, copied or changed: the events of the calls that
    answered `JFOFS_SUCCESS` are those that the DSP clients have got, those that are about to be handed
    out, those that a flush threw away and those on the lists of the slots. -/
theorem accepted_conserved (nMaxFofs : 1 ≤ setup.nMaxFofs) (nSlots : 1 ≤ setup.nSlots)
    (nClients : 1 ≤ setup.nClients) (q : FofQueue α) (argv : α) (acts : List (Act α))
    (run : execAll Machine.exec (Machine.init setup q argv) acts = some (log, s))
    (regular : ∀ x ∈ log, Regular x.pre x.op) :
    ∃ (rest : List (Nat × α)) (lists : Nat → List Addr), Undelivered s rest ∧
      (∀ j, j < setup.nSlots → Seg s.q.next (s.q.slot j) (lists j) none) ∧
      (accepted log : Multiset (Nat × α)) =
        (handedOut log).map (·.event) + rest + (mailOf log).discarded +
          ∑ j ∈ Finset.range setup.nSlots, ((lists j).map s.q.payload : Multiset (Nat × α)) := by
  obtain ⟨L, del, posted⟩ :=
    delivering_run nMaxFofs nSlots nClients q argv (run_of_execAll run).1 regular
  obtain ⟨rest, undelivered, collected⟩ := del.handing.undelivered
  refine ⟨rest, fun j => L (.place (.slot j)), undelivered, fun j lt => ?_, ?_⟩
  · rw [← posted.nSlots] at lt
    exact del.conc.slot_list lt
  · have conserved : (mailOf log).Conserved (Finset.range setup.nSlots) :=
      Mail.after_conserved fun op mem j box => Finset.mem_range.2 (posted.boxes op mem j box)
    rw [Mail.Conserved, posted.accepted, collected, ← Multiset.coe_add] at conserved
    simp only [del.waiting]
    exact conserved

/-- Both events of the run are accounted for. -/
theorem accepted_conserved_two :
    ∃ (log : List (Step Nat)) (s : Machine Nat) (rest : List (Nat × Nat)) (lists : Nat → List Addr),
      execAll Machine.exec (Machine.init (twoSlots 3) (FofQueue.zero 0) 0) twoAddsThenCycle =
        some (log, s) ∧ Undelivered s rest ∧
      ((([(1, 8), (0, 7)] : List (Nat × Nat)) : Multiset (Nat × Nat)) = ([(0, 7)] : List (Nat × Nat)) +
        rest + (mailOf log).discarded +
          ∑ j ∈ Finset.range 2, ((lists j).map s.q.payload : Multiset (Nat × Nat))) := by
  have runs : ∃ log s, execAll Machine.exec (Machine.init (twoSlots 3) (FofQueue.zero 0) 0)
        twoAddsThenCycle = some (log, s) ∧
      (∀ x ∈ log, staleAlloc x.pre.q (x.op.pc x.pre) = false) ∧ (∀ x ∈ log, x.pre.q.excess = none) ∧
      (handedOut log).map (·.event) = [(0, 7)] ∧ accepted log = [(1, 8), (0, 7)] :=
    ⟨_, _, rfl, by decide, by decide, rfl, rfl⟩
  obtain ⟨log, s, run, fresh, empty, handed, acc⟩ := runs
  obtain ⟨rest, lists, undelivered, -, conserved⟩ := accepted_conserved (by decide) (by decide)
    (by decide) (FofQueue.zero 0) 0 twoAddsThenCycle run
    fun x mem => .of_empty (fresh x mem) (empty x mem)
  rw [handed, acc] at conserved
  exact ⟨log, s, rest, lists, run, undelivered, conserved⟩

end Run

end JackFofs
