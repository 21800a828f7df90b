import Uring.Shard.Escalation
import Uring.Shard.Panic

/-!
# Fairness of a turn

A turn takes messages until the channel is empty or one of its two intake budgets is used
up, then consumes completions until the queue is empty or its budget is used up. What it
takes is read off its labels, whatever else arrives in the meantime, so the same account
also bounds how many turns a message or a completion waits.
-/

namespace Uring

open Uring.Core

/-- The position of a phase in a turn; the exits come last. -/
def Phase.rank : Phase → Nat
  | .wait => 0
  | .drainCq => 1
  | .drainWake => 2
  | .intake => 3
  | .submitBefore => 4
  | .reap => 5
  | .submitAfter => 6
  | .endTurn => 7
  | .closing _ => 8
  | .exited _ => 9
  | .aborted => 10

/-- The label that ends a turn. -/
def Event.isEndTurn : Event → Bool
  | .endTurn .. => true
  | _ => false

/-- The messages sent by a label. -/
def Event.sends : Event → List Msg
  | .send _ m => [m]
  | .join _ => [.shutdown]
  | _ => []

namespace Shard

/-- The bytes allocated for a message at intake. -/
def allocates (c : Params) (s : Shard) : Msg → Nat
  | .read m =>
    if s.shuttingDown then 0
    else match alignedGeometry c.usizeMax m.offset m.len m.align with
      | none => 0
      | some (_, _, regionLen) => (checkedAdd c.usizeMax regionLen (m.align - 1)).getD 0
  | _ => 0

/-- The message taken by a label, with the bytes allocated for it. -/
def takes (c : Params) (s : Shard) : Event → List (Msg × Nat)
  | .intake .. =>
    if s.budget.canTakeMessage then (s.chan.take 1).map fun m => (m, s.allocates c m) else []
  | _ => []

/-- The completion consumed by a label. -/
def reaps (s : Shard) : Event → List Cqe
  | .reap .. => if s.budget.canReap then s.cq.take 1 else []
  | _ => []

/-- The completion posted by a label. -/
def posts (s : Shard) : Event → List Cqe
  | .post k res _ => (s.held[k]?.map fun e => ⟨e, res⟩).toList
  | _ => []

/-- The SQEs that the kernel has accepted so far. -/
def acceptedSqes (s : Shard) : Nat := s.hist.consumed.length

/-- What one label moves in and out of the two input queues. -/
structure Flow (c : Params) (s : Shard) (e : Event) (s' : Shard) : Prop where
  fifo : s.chan ++ e.sends = (s.takes c e).map Prod.fst ++ s'.chan
  cqFifo : s.cq ++ s.posts e = s.reaps e ++ s'.cq

/-- The control state of a turn is untouched. -/
structure SameTurn (s s' : Shard) : Prop where
  phase : s'.phase = s.phase
  budget : s'.budget = s.budget
  before : s'.submittedBeforeReap = s.submittedBeforeReap
  after : s'.submittedAfterReap = s.submittedAfterReap
  accepted : s'.acceptedSqes = s.acceptedSqes

/-- What a label does to the control state of a turn that it does not end. -/
inductive TurnStep (c : Params) (s : Shard) (e : Event) (s' : Shard) : Prop
  /-- A label of the environment, or one of the steps before the intake. -/
  | outside (ht : s.takes c e = []) (hr : s.reaps e = []) (h : s.SameTurn s')
  | head (ht : s.takes c e = []) (hr : s.reaps e = []) (hs : s.phase.rank ≤ 1)
      (hp : s'.phase.rank ≤ 2) (ha : s'.acceptedSqes = s.acceptedSqes)
  | opened (ht : s.takes c e = []) (hr : s.reaps e = []) (hs : s.phase = .drainWake)
      (hp : s'.phase = .intake) (hb : s'.budget = .fresh) (ha : s'.acceptedSqes = s.acceptedSqes)
  | took (m : Msg) (n : Nat) (ht : s.takes c e = [(m, n)]) (hr : s.reaps e = [])
      (hs : s.phase = .intake) (hp : s'.phase = .intake) (hcan : s.budget.canTakeMessage = true)
      (hb : s'.budget = { s.budget with
        messages := s.budget.messages + 1
        allocationBytes := min c.usizeMax (s.budget.allocationBytes + n) })
      (ha : s'.acceptedSqes = s.acceptedSqes)
  | intakeDone (ht : s.takes c e = []) (hr : s.reaps e = []) (hs : s.phase = .intake)
      (hp : s'.phase = .submitBefore) (hb : s'.budget = s.budget)
      (hstop : s.budget.canTakeMessage = false ∨ s.chan = [])
      (hlabel : ∃ base order, e = .intake base order) (ha : s'.acceptedSqes = s.acceptedSqes)
  | submitBefore (ht : s.takes c e = []) (hr : s.reaps e = []) (hs : s.phase = .submitBefore)
      (hp : s'.phase = .reap) (hb : s'.budget = s.budget)
      (ha : s'.acceptedSqes = s.acceptedSqes + s'.submittedBeforeReap)
  | reaped (q : Cqe) (ht : s.takes c e = []) (hr : s.reaps e = [q]) (hs : s.phase = .reap)
      (hp : s'.phase = .reap) (hcan : s.budget.canReap = true)
      (hb : s'.budget = { s.budget with completions := s.budget.completions + 1 })
      (hbefore : s'.submittedBeforeReap = s.submittedBeforeReap)
      (ha : s'.acceptedSqes = s.acceptedSqes)
  | reapDone (ht : s.takes c e = []) (hr : s.reaps e = []) (hs : s.phase = .reap)
      (hp : s'.phase = .submitAfter) (hb : s'.budget = s.budget)
      (hbefore : s'.submittedBeforeReap = s.submittedBeforeReap)
      (hstop : s.budget.canReap = false ∨ s.cq = [])
      (hlabel : ∃ fileLen late, e = .reap fileLen late) (ha : s'.acceptedSqes = s.acceptedSqes)
  | submitAfter (ht : s.takes c e = []) (hr : s.reaps e = []) (hs : s.phase = .submitAfter)
      (hp : s'.phase = .endTurn) (hb : s'.budget = s.budget)
      (hbefore : s'.submittedBeforeReap = s.submittedBeforeReap)
      (ha : s'.acceptedSqes = s.acceptedSqes + s'.submittedAfterReap)

/-- Intake of one message leaves both queues and the ring alone and charges its allocation. -/
structure Charged (c : Params) (m : Msg) (t t' : Shard) : Prop where
  chan : t'.chan = t.chan
  cq : t'.cq = t.cq
  phase : t'.phase = t.phase
  accepted : t'.acceptedSqes = t.acceptedSqes
  budget : t'.budget = { t.budget with
    allocationBytes := min c.usizeMax (t.budget.allocationBytes + t.allocates c m) }

theorem charged_of_zero {c : Params} {m : Msg} {t t' : Shard}
    (hle : t.budget.allocationBytes ≤ c.usizeMax) (hzero : t.allocates c m = 0)
    (hchan : t'.chan = t.chan) (hcq : t'.cq = t.cq) (hphase : t'.phase = t.phase)
    (haccepted : t'.hist.consumed = t.hist.consumed) (hbudget : t'.budget = t.budget) :
    Charged c m t t' where
  chan := hchan
  cq := hcq
  phase := hphase
  accepted := congrArg List.length haccepted
  budget := by rw [hbudget, hzero, Nat.add_zero, Nat.min_eq_right hle]

theorem intakeRead_charged {c : Params} {t t' : Shard} {m : ReadMsg} {base : Nat}
    (hle : t.budget.allocationBytes ≤ c.usizeMax) (h : t.intakeRead c m base = some t') :
    Charged c (.read m) t t' := by
  unfold intakeRead at h
  by_cases hd : t.shuttingDown = true
  · rw [if_pos hd] at h
    cases h
    have hzero : t.allocates c (.read m) = 0 := by rw [allocates, if_pos hd]
    exact charged_of_zero hle hzero rfl rfl rfl rfl rfl
  · rw [if_neg hd] at h
    simp only [Option.bind_eq_bind, Option.bind_eq_some_iff] at h
    obtain ⟨⟨k, head, region⟩, hg, h⟩ := h
    have hbytes : t.allocates c (.read m) =
        (checkedAdd c.usizeMax region (m.align - 1)).getD 0 := by
      rw [allocates, if_neg hd, hg]
    simp only at h
    split at h
    · rename_i hcap
      cases h
      exact charged_of_zero hle (by rw [hbytes, hcap]; rfl) rfl rfl rfl rfl rfl
    · rename_i cap hcap
      have hcharge : t.allocates c (.read m) = cap := by rw [hbytes, hcap]; rfl
      split at h
      · cases h
      · split at h
        · cases h
          exact ⟨rfl, rfl, rfl, rfl, by rw [hcharge]⟩
        · simp only [Option.bind_eq_some_iff, Option.pure_def, Option.some.injEq] at h
          obtain ⟨sqe, _, rfl⟩ := h
          exact ⟨rfl, rfl, rfl, rfl, by rw [hcharge]⟩

theorem intakeMsg_charged {c : Params} {t t' : Shard} {m : Msg} {base : Nat} {order : List Nat}
    (hle : t.budget.allocationBytes ≤ c.usizeMax) (h : t.intakeMsg c m base order = some t') :
    Charged c m t t' := by
  cases m with
  | read r => exact intakeRead_charged hle h
  | cancel id =>
    cases h
    rcases hp : t.pending.lookup id with - | p
    · have hmiss : t.cancel id = t.toLedger := by simp only [Ledger.cancel, hp]
      simp only [hmiss]
      exact charged_of_zero hle rfl rfl rfl rfl rfl rfl
    · have hhit : t.cancel id = { t.toLedger with
          pending := t.pending.insert id { p with cancelRequested := true } }.queueCancel id := by
        simp only [Ledger.cancel, hp]
      have hframe := Ledger.queueCancel_frame { t.toLedger with
        pending := t.pending.insert id { p with cancelRequested := true } } id
      simp only [hhit]
      exact charged_of_zero hle rfl hframe.chan hframe.cq rfl hframe.consumed rfl
  | shutdown =>
    cases h
    have hframe := Ledger.queueCancels_frame { t.toLedger with shuttingDown := true } order
    exact charged_of_zero hle rfl hframe.chan hframe.cq rfl hframe.consumed rfl

/-- One intake label. -/
theorem intake_turn {c : Params} {s : Shard} {base : Nat} {order : List Nat}
    (hs : s.phase = .intake) (hle : s.budget.allocationBytes ≤ c.usizeMax)
    (hr : (s.intake c base order).phase.rank ≤ 7) :
    Flow c s (.intake base order) (s.intake c base order) ∧
      TurnStep c s (.intake base order) (s.intake c base order) := by
  by_cases hb : s.budget.canTakeMessage = true
  · rcases hchan : s.chan with - | ⟨m, rest⟩
    · -- the channel is empty
      have ht : s.takes c (.intake base order) = [] := by
        rw [takes, if_pos hb, hchan]
        rfl
      have heq : s.intake c base order =
          { s with shuttingDown := s.shuttingDown || s.disconnected, phase := .submitBefore } := by
        unfold intake
        rw [if_pos hb, hchan]
      rw [heq]
      refine ⟨⟨?_, ?_⟩, .intakeDone ht rfl hs rfl rfl (Or.inr hchan) ⟨_, _, rfl⟩ rfl⟩
      · rw [ht]
        exact List.append_nil _
      · exact List.append_nil _
    · have ht : s.takes c (.intake base order) = [(m, s.allocates c m)] := by
        rw [takes, if_pos hb, hchan]
        rfl
      have heq : s.intake c base order = (({ s with
          chan := rest
          budget := { s.budget with messages := s.budget.messages + 1 } } : Shard).intakeMsg
            c m base order).getD { s with phase := .aborted } := by
        unfold intake
        rw [if_pos hb, hchan]
      rw [heq] at hr ⊢
      cases hmsg : ({ s with chan := rest, budget := { s.budget with
          messages := s.budget.messages + 1 } } : Shard).intakeMsg c m base order with
      | none =>
        rw [hmsg] at hr
        exact absurd (show 10 ≤ 7 from hr) (by decide)
      | some t =>
        have hcharged := intakeMsg_charged (by exact hle) hmsg
        simp only [Option.getD_some]
        refine ⟨⟨?_, ?_⟩, .took m _ ht rfl hs (hcharged.phase.trans hs) hb hcharged.budget
          hcharged.accepted⟩
        · rw [ht, hcharged.chan, hchan]
          exact List.append_nil _
        · change s.cq ++ [] = [] ++ t.cq
          rw [hcharged.cq, List.append_nil, List.nil_append]
  · have ht : s.takes c (.intake base order) = [] := by rw [takes, if_neg hb]
    have heq : s.intake c base order = { s with phase := .submitBefore } := by
      unfold intake
      rw [if_neg hb]
    rw [heq]
    refine ⟨⟨?_, ?_⟩, .intakeDone ht rfl hs rfl rfl (Or.inl (Bool.eq_false_iff.mpr hb))
      ⟨_, _, rfl⟩ rfl⟩
    · rw [ht]
      exact List.append_nil _
    · exact List.append_nil _

/-- One reap label. -/
theorem reap_turn {c : Params} {s : Shard} {fileLen : Except IoError Nat} {late : Bool}
    (hs : s.phase = .reap) (hr : (s.reap c fileLen late).phase.rank ≤ 7) :
    Flow c s (.reap fileLen late) (s.reap c fileLen late) ∧
      TurnStep c s (.reap fileLen late) (s.reap c fileLen late) := by
  obtain ⟨_, ⟨hb, ht⟩ | ⟨hb, hq, ht⟩ | ht | ⟨hb, q, rest, l, hq, hl, ht⟩⟩ :=
    reap_cases c s fileLen late
  · have hreaps : s.reaps (.reap fileLen late) = [] := by
      rw [reaps, if_neg (Bool.eq_false_iff.mp hb)]
    rw [ht]
    refine ⟨⟨List.append_nil _, ?_⟩, .reapDone rfl hreaps hs rfl rfl rfl (Or.inl hb)
      ⟨_, _, rfl⟩ rfl⟩
    rw [hreaps]
    exact List.append_nil _
  · have hreaps : s.reaps (.reap fileLen late) = [] := by
      rw [reaps, if_pos hb, hq]
      rfl
    rw [ht]
    refine ⟨⟨List.append_nil _, ?_⟩, .reapDone rfl hreaps hs rfl rfl rfl (Or.inr hq)
      ⟨_, _, rfl⟩ rfl⟩
    rw [hreaps]
    exact List.append_nil _
  · rw [ht] at hr
    exact absurd (show 10 ≤ 7 from hr) (by decide)
  · have hframe := Ledger.reapCqe_frame hl
    have hreaps : s.reaps (.reap fileLen late) = [q] := by
      rw [reaps, if_pos hb, hq]
      rfl
    rw [ht]
    refine ⟨⟨?_, ?_⟩, .reaped q rfl hreaps hs hs hb rfl rfl (congrArg List.length hframe.consumed)⟩
    · exact (List.append_nil _).trans hframe.chan.symm
    · rw [hreaps, hq]
      simp only [posts, List.append_nil]
      rw [hframe.cq]
      rfl

/-- A submit result leaves the queues and the budget alone. -/
theorem applyResult_turn (s : Shard) (r : Except IoError Nat) (order : List Nat) :
    (s.applyResult r order).1.chan = s.chan ∧ (s.applyResult r order).1.cq = s.cq ∧
      (s.applyResult r order).1.budget = s.budget ∧
      (s.applyResult r order).1.submittedBeforeReap = s.submittedBeforeReap ∧
      (s.applyResult r order).1.acceptedSqes = s.acceptedSqes ∧
      (s.applyResult r order).2 = acceptedCount r := by
  have hn := handleSubmitResult_count r s.submitState
  rcases hcase : handleSubmitResult r s.submitState with ⟨st, n, callback⟩
  rw [hcase] at hn
  have hframe := (s.withSubmitState st).queueCancels_frame order
  unfold applyResult
  rw [hcase]
  cases callback with
  | false =>
    simp only [Bool.false_eq_true, if_false]
    exact ⟨rfl, rfl, rfl, rfl, rfl, hn⟩
  | true =>
    simp only [if_true]
    exact ⟨hframe.chan, hframe.cq, rfl, rfl, congrArg List.length hframe.consumed, hn⟩

/-- `submit_ring` reports how many entries the kernel accepted. -/
theorem submitRing_turn {c : Params} {s s' : Shard} {kernelWork : Bool}
    {r : Except IoError Nat} {order : List Nat} {n : Nat}
    (h : s.submitRing c kernelWork r order = some (s', n)) :
    s'.chan = s.chan ∧ s'.cq = s.cq ∧ s'.budget = s.budget ∧
      s'.submittedBeforeReap = s.submittedBeforeReap ∧ s'.acceptedSqes = s.acceptedSqes + n := by
  rw [submitRing_eq] at h
  simp only at h
  split at h
  · cases h
    exact ⟨rfl, rfl, rfl, rfl, rfl⟩
  · obtain ⟨t, ht, happly⟩ := Option.map_eq_some_iff.mp h
    have hentered : t.chan = s.chan ∧ t.cq = s.cq ∧ t.budget = s.budget ∧
        t.submittedBeforeReap = s.submittedBeforeReap ∧
        t.acceptedSqes = s.acceptedSqes + acceptedCount r := by
      cases r with
      | ok k =>
        simp only [enter] at ht
        split at ht
        · cases ht
        · rename_i hle
          cases ht
          refine ⟨rfl, rfl, rfl, rfl, ?_⟩
          change (_ ++ List.take k _).length = _
          rw [List.length_append, List.length_take, Nat.min_eq_left (not_lt.mp hle)]
          rfl
      | error e =>
        cases ht
        exact ⟨rfl, rfl, rfl, rfl, rfl⟩
    obtain ⟨hchan, hcq, hbudget, hbefore, haccepted⟩ := hentered
    obtain ⟨hchan', hcq', hbudget', hbefore', haccepted', hn⟩ := t.applyResult_turn r order
    rw [happly] at hchan' hcq' hbudget' hbefore' haccepted' hn
    refine ⟨hchan'.trans hchan, hcq'.trans hcq, hbudget'.trans hbudget, hbefore'.trans hbefore, ?_⟩
    rw [haccepted', haccepted, ← hn]

/-- What a label does to a turn that it does not end. -/
theorem turn_step {c : Params} {s s' : Shard} {e : Event} (h : step c s e = some s')
    (he : e.isEndTurn = false) (hr : s'.phase.rank ≤ 7)
    (hle : s.phase = .intake → s.budget.allocationBytes ≤ c.usizeMax) :
    Flow c s e s' ∧ TurnStep c s e s' := by
  cases (step_transition h).2 with
  | send ht =>
    obtain ⟨_, _, _, rfl⟩ := sendMsg_eq_some ht
    exact ⟨⟨rfl, List.append_nil _⟩, .outside rfl rfl ⟨rfl, rfl, rfl, rfl, rfl⟩⟩
  | join hj ht =>
    obtain ⟨_, _, _, rfl⟩ := sendMsg_eq_some ht
    exact ⟨⟨rfl, List.append_nil _⟩, .outside rfl rfl ⟨rfl, rfl, rfl, rfl, rfl⟩⟩
  | signal | closeRx | hangup | cqSignal =>
    exact ⟨⟨List.append_nil _, List.append_nil _⟩, .outside rfl rfl ⟨rfl, rfl, rfl, rfl, rfl⟩⟩
  | post hl =>
    obtain ⟨e, _, he, rfl⟩ := Ledger.post_eq_some hl
    refine ⟨⟨List.append_nil _, ?_⟩, .outside rfl rfl ⟨rfl, rfl, rfl, rfl, rfl⟩⟩
    rw [posts, he]
    rfl
  | wake hp =>
    exact ⟨⟨List.append_nil _, List.append_nil _⟩,
      .head rfl rfl (by rw [hp]; decide) (show (1 : Nat) ≤ 2 by decide) rfl⟩
  | drainCq hp =>
    exact ⟨⟨List.append_nil _, List.append_nil _⟩,
      .head rfl rfl (by rw [hp]; decide) (Nat.le_refl 2) rfl⟩
  | drainWake hp =>
    exact ⟨⟨List.append_nil _, List.append_nil _⟩, .opened rfl rfl hp rfl rfl rfl⟩
  | intake hp ho => exact intake_turn hp (hle hp) hr
  | submitBefore hp ho ht =>
    obtain ⟨hchan, hcq, hbudget, _, haccepted⟩ := submitRing_turn ht
    exact ⟨⟨(List.append_nil _).trans hchan.symm, (List.append_nil _).trans hcq.symm⟩,
      .submitBefore rfl rfl hp rfl hbudget haccepted⟩
  | submitAfter hp ho ht =>
    obtain ⟨hchan, hcq, hbudget, hbefore, haccepted⟩ := submitRing_turn ht
    exact ⟨⟨(List.append_nil _).trans hchan.symm, (List.append_nil _).trans hcq.symm⟩,
      .submitAfter rfl rfl hp rfl hbudget hbefore haccepted⟩
  | reap hp => exact reap_turn hp hr
  | endTurn => cases he
  | closeSem hp hs =>
    have hrank : Phase.rank (.closing _) ≤ 7 := hp ▸ hr
    exact absurd hrank (show ¬ 8 ≤ 7 by decide)
  | dropRx hp hs => exact absurd (show 9 ≤ 7 from hr) (by decide)

/-- The messages taken along a run, each with the bytes allocated for it. -/
def taken (c : Params) (s : Shard) (es : List Event) : List (Msg × Nat) :=
  outputs (step c) (takes c) s es

/-- The completions consumed along a run. -/
def reapedCqes (c : Params) (s : Shard) (es : List Event) : List Cqe :=
  outputs (step c) reaps s es

/-- The completions posted along a run. -/
def postedCqes (c : Params) (s : Shard) (es : List Event) : List Cqe :=
  outputs (step c) posts s es

/-- The messages sent along a run. -/
def sentMsgs (es : List Event) : List Msg := es.flatMap Event.sends

/-- The bytes allocated for taken messages. -/
def allocated (ts : List (Msg × Nat)) : Nat := (ts.map Prod.snd).sum

/-- The taken messages have used up one of the two intake budgets. -/
def UsedUp (ts : List (Msg × Nat)) : Prop :=
  ts.length = turnMessages ∨ turnAllocationBytes ≤ allocated ts

/-- At some point of the run the channel was empty, all messages up to there being taken, and
nothing was taken afterwards. -/
def ChanEmptied (c : Params) (s : Shard) (es : List Event) : Prop :=
  ∃ pre u, pre <+: es ∧ run (step c) s pre = some u ∧ u.chan = [] ∧
    (taken c s pre).map Prod.fst = s.chan ++ sentMsgs pre ∧ taken c s pre = taken c s es

/-- At some point of the run the completion queue was empty, all completions up to there
being consumed, and none was consumed afterwards. -/
def CqEmptied (c : Params) (s : Shard) (es : List Event) : Prop :=
  ∃ pre u, pre <+: es ∧ run (step c) s pre = some u ∧ u.cq = [] ∧
    reapedCqes c s pre = s.cq ++ postedCqes c s pre ∧ reapedCqes c s pre = reapedCqes c s es

/-- The account of a turn that has not ended. -/
structure TurnBook (c : Params) (s : Shard) (es : List Event) (u : Shard) : Prop where
  fifo : s.chan ++ sentMsgs es = (taken c s es).map Prod.fst ++ u.chan
  cqFifo : s.cq ++ postedCqes c s es = reapedCqes c s es ++ u.cq
  untaken : u.phase.rank ≤ 2 → taken c s es = []
  unreaped : u.phase.rank ≤ 4 → reapedCqes c s es = []
  budget : 3 ≤ u.phase.rank → u.budget = ⟨(taken c s es).length, (reapedCqes c s es).length,
    min c.usizeMax (allocated (taken c s es))⟩
  /-- Before each message taken, neither intake budget was used up. -/
  under : ∀ p x q, taken c s es = p ++ x :: q →
    p.length < turnMessages ∧ allocated p < turnAllocationBytes
  stopped : 4 ≤ u.phase.rank → UsedUp (taken c s es) ∨ ChanEmptied c s es
  takenSome : 4 ≤ u.phase.rank → s.chan ≠ [] → taken c s es ≠ []
  reapUnder : (reapedCqes c s es).length ≤ turnCompletions
  reapStopped : 6 ≤ u.phase.rank →
    (reapedCqes c s es).length = turnCompletions ∨ CqEmptied c s es
  reapedSome : 6 ≤ u.phase.rank → min turnCompletions s.cq.length ≤ (reapedCqes c s es).length
  accepted : u.acceptedSqes = s.acceptedSqes +
    (if 5 ≤ u.phase.rank then u.submittedBeforeReap else 0) +
    (if 7 ≤ u.phase.rank then u.submittedAfterReap else 0)
  intakeRan : 4 ≤ u.phase.rank → ∃ base order, Event.intake base order ∈ es
  reapRan : 6 ≤ u.phase.rank → ∃ fileLen late, Event.reap fileLen late ∈ es

section Book

variable {c : Params} {s u u' : Shard} {es : List Event} {e : Event}

theorem allocated_concat (ts : List (Msg × Nat)) (x : Msg × Nat) :
    allocated (ts ++ [x]) = allocated ts + x.2 := by
  simp [allocated]

theorem ChanEmptied.concat (h : ChanEmptied c s es)
    (ht : taken c s (es ++ [e]) = taken c s es) : ChanEmptied c s (es ++ [e]) := by
  obtain ⟨pre, v, hpre, hrun, hchan, hall, hsame⟩ := h
  exact ⟨pre, v, hpre.trans (List.prefix_append _ _), hrun, hchan, hall, hsame.trans ht.symm⟩

theorem CqEmptied.concat (h : CqEmptied c s es)
    (hr : reapedCqes c s (es ++ [e]) = reapedCqes c s es) : CqEmptied c s (es ++ [e]) := by
  obtain ⟨pre, v, hpre, hrun, hcq, hall, hsame⟩ := h
  exact ⟨pre, v, hpre.trans (List.prefix_append _ _), hrun, hcq, hall, hsame.trans hr.symm⟩

/-- The intake budget of a turn, in terms of what was taken. -/
theorem canTakeMessage_iff (hu : turnAllocationBytes ≤ c.usizeMax) {ts : List (Msg × Nat)}
    {n : Nat} :
    (TurnBudget.mk ts.length n (min c.usizeMax (allocated ts))).canTakeMessage = true ↔
      ts.length < turnMessages ∧ allocated ts < turnAllocationBytes := by
  simp only [TurnBudget.canTakeMessage, Bool.and_eq_true, decide_eq_true_eq]
  omega

theorem UsedUp.ne_nil {ts : List (Msg × Nat)} (h : UsedUp ts) : ts ≠ [] := by
  rintro rfl
  rcases h with h | h
  · cases h
  · exact absurd h (by decide)

theorem taken_le {ts : List (Msg × Nat)} (h : ∀ p x q, ts = p ++ x :: q →
    p.length < turnMessages ∧ allocated p < turnAllocationBytes) : ts.length ≤ turnMessages := by
  rcases List.eq_nil_or_concat ts with rfl | ⟨p, x, rfl⟩
  · exact Nat.zero_le _
  · have hp := (h p x [] (by simp)).1
    rw [List.concat_eq_append, List.length_append]
    exact hp

theorem TurnBook.allocation_le (h : TurnBook c s es u) (hp : u.phase = .intake) :
    u.budget.allocationBytes ≤ c.usizeMax := by
  rw [h.budget (by rw [hp]; exact Nat.le_refl 3)]
  exact Nat.min_le_left _ _

theorem taken_concat (hrun : run (step c) s es = some u) (e : Event) :
    taken c s (es ++ [e]) = taken c s es ++ u.takes c e := outputs_concat hrun e

theorem reapedCqes_concat (hrun : run (step c) s es = some u) (e : Event) :
    reapedCqes c s (es ++ [e]) = reapedCqes c s es ++ u.reaps e := outputs_concat hrun e

/-- Messages stay in order through one more label. -/
theorem TurnBook.fifo_next (h : TurnBook c s es u) (hrun : run (step c) s es = some u)
    (hflow : Flow c u e u') :
    s.chan ++ sentMsgs (es ++ [e]) = (taken c s (es ++ [e])).map Prod.fst ++ u'.chan := by
  have hsent : sentMsgs (es ++ [e]) = sentMsgs es ++ e.sends := by simp [sentMsgs]
  rw [taken_concat hrun, List.map_append, hsent, ← List.append_assoc, h.fifo, List.append_assoc,
    hflow.fifo, List.append_assoc]

/-- And so do completions. -/
theorem TurnBook.cqFifo_next (h : TurnBook c s es u) (hrun : run (step c) s es = some u)
    (hflow : Flow c u e u') :
    s.cq ++ postedCqes c s (es ++ [e]) = reapedCqes c s (es ++ [e]) ++ u'.cq := by
  have hposted : postedCqes c s (es ++ [e]) = postedCqes c s es ++ u.posts e :=
    outputs_concat hrun e
  rw [reapedCqes_concat hrun, hposted, ← List.append_assoc, h.cqFifo, List.append_assoc,
    hflow.cqFifo, List.append_assoc]

/-- A label that moves nothing out of the queues keeps the account of what was taken. -/
theorem TurnBook.still (h : TurnBook c s es u) (hrun : run (step c) s es = some u)
    (hflow : Flow c u e u') (ht : u.takes c e = []) (hr : u.reaps e = [])
    (huntaken : u'.phase.rank ≤ 2 → u.phase.rank ≤ 2)
    (hunreaped : u'.phase.rank ≤ 4 → u.phase.rank ≤ 4)
    (hbudget : 3 ≤ u'.phase.rank → u'.budget = if 3 ≤ u.phase.rank then u.budget else .fresh)
    (hstop : 4 ≤ u'.phase.rank → 4 ≤ u.phase.rank ∨
      (UsedUp (taken c s es) ∨ u.chan = []) ∧ ∃ base order, e = .intake base order)
    (hreapStop : 6 ≤ u'.phase.rank → 6 ≤ u.phase.rank ∨
      ((reapedCqes c s es).length = turnCompletions ∨ u.cq = []) ∧
        ∃ fileLen late, e = .reap fileLen late)
    (haccepted : u'.acceptedSqes = s.acceptedSqes +
      (if 5 ≤ u'.phase.rank then u'.submittedBeforeReap else 0) +
      (if 7 ≤ u'.phase.rank then u'.submittedAfterReap else 0)) :
    TurnBook c s (es ++ [e]) u' := by
  have htaken : taken c s (es ++ [e]) = taken c s es := by
    rw [taken_concat hrun, ht, List.append_nil]
  have hreaped : reapedCqes c s (es ++ [e]) = reapedCqes c s es := by
    rw [reapedCqes_concat hrun, hr, List.append_nil]
  refine ⟨h.fifo_next hrun hflow, h.cqFifo_next hrun hflow, ?_, ?_, ?_, ?_, ?_, ?_, ?_, ?_, ?_,
    haccepted, ?_, ?_⟩
  · intro hrank
    rw [htaken]
    exact h.untaken (huntaken hrank)
  · intro hrank
    rw [hreaped]
    exact h.unreaped (hunreaped hrank)
  · intro hrank
    rw [hbudget hrank, htaken, hreaped]
    by_cases hopen : 3 ≤ u.phase.rank
    · rw [if_pos hopen]
      exact h.budget hopen
    · rw [if_neg hopen, h.untaken (by omega), h.unreaped (by omega)]
      simp [TurnBudget.fresh, allocated]
  · rw [htaken]
    exact h.under
  · intro hrank
    rw [htaken]
    rcases hstop hrank with hlate | ⟨hused | hchan, -⟩
    · exact (h.stopped hlate).imp_right fun hempty => hempty.concat htaken
    · exact Or.inl hused
    · have hall := h.fifo
      rw [hchan, List.append_nil] at hall
      exact Or.inr ⟨es, u, List.prefix_append _ _, hrun, hchan, hall.symm, htaken.symm⟩
  · intro hrank hne
    rw [htaken]
    rcases hstop hrank with hlate | ⟨hused | hchan, -⟩
    · exact h.takenSome hlate hne
    · exact hused.ne_nil
    · intro hnil
      have hall := h.fifo
      rw [hnil, hchan] at hall
      exact hne (List.append_eq_nil_iff.mp hall).1
  · rw [hreaped]
    exact h.reapUnder
  · intro hrank
    rw [hreaped]
    rcases hreapStop hrank with hlate | ⟨hused | hcq, -⟩
    · exact (h.reapStopped hlate).imp_right fun hempty => hempty.concat hreaped
    · exact Or.inl hused
    · have hall := h.cqFifo
      rw [hcq, List.append_nil] at hall
      exact Or.inr ⟨es, u, List.prefix_append _ _, hrun, hcq, hall.symm, hreaped.symm⟩
  · intro hrank
    rw [hreaped]
    rcases hreapStop hrank with hlate | ⟨hused | hcq, -⟩
    · exact h.reapedSome hlate
    · rw [hused]
      exact Nat.min_le_left _ _
    · have hall := congrArg List.length h.cqFifo
      rw [hcq, List.append_nil, List.length_append] at hall
      omega
  · intro hrank
    rcases hstop hrank with hlate | ⟨-, base, order, rfl⟩
    · obtain ⟨base, order, hmem⟩ := h.intakeRan hlate
      exact ⟨base, order, List.mem_append_left _ hmem⟩
    · exact ⟨base, order, List.mem_append_right _ (List.mem_singleton_self _)⟩
  · intro hrank
    rcases hreapStop hrank with hlate | ⟨-, fileLen, late, rfl⟩
    · obtain ⟨fileLen, late, hmem⟩ := h.reapRan hlate
      exact ⟨fileLen, late, List.mem_append_left _ hmem⟩
    · exact ⟨fileLen, late, List.mem_append_right _ (List.mem_singleton_self _)⟩

/-- Taking a message extends what was taken, within both budgets. -/
theorem TurnBook.take (h : TurnBook c s es u) (hu : turnAllocationBytes ≤ c.usizeMax)
    (hrun : run (step c) s es = some u) (hflow : Flow c u e u') {m : Msg} {n : Nat}
    (ht : u.takes c e = [(m, n)]) (hr : u.reaps e = []) (hs : u.phase = .intake)
    (hp : u'.phase = .intake) (hcan : u.budget.canTakeMessage = true)
    (hb : u'.budget = { u.budget with
      messages := u.budget.messages + 1
      allocationBytes := min c.usizeMax (u.budget.allocationBytes + n) })
    (ha : u'.acceptedSqes = u.acceptedSqes) : TurnBook c s (es ++ [e]) u' := by
  have htaken : taken c s (es ++ [e]) = taken c s es ++ [(m, n)] := by
    rw [taken_concat hrun, ht]
  have hreaped : reapedCqes c s (es ++ [e]) = reapedCqes c s es := by
    rw [reapedCqes_concat hrun, hr, List.append_nil]
  have hrank : u.phase.rank = 3 := by rw [hs]; rfl
  have hrank' : u'.phase.rank = 3 := by rw [hp]; rfl
  have hbudget := h.budget hrank.ge
  have hunder : (taken c s es).length < turnMessages ∧
      allocated (taken c s es) < turnAllocationBytes := by
    rw [hbudget] at hcan
    exact (canTakeMessage_iff hu).mp hcan
  refine ⟨h.fifo_next hrun hflow, h.cqFifo_next hrun hflow, by omega, ?_, ?_, ?_, by omega,
    by omega, ?_, by omega, by omega, ?_, by omega, by omega⟩
  · intro _
    rw [hreaped]
    exact h.unreaped (by omega)
  · intro _
    rw [hb, hbudget, htaken, hreaped, List.length_append, allocated_concat]
    simp only [List.length_singleton, TurnBudget.mk.injEq, true_and]
    omega
  · intro p x q hsplit
    rw [htaken] at hsplit
    -- the last message was taken under the budget; the others before it
    rcases List.eq_nil_or_concat q with rfl | ⟨q', y, rfl⟩
    · obtain ⟨rfl, -⟩ := List.append_inj' hsplit rfl
      exact hunder
    · rw [List.concat_eq_append, ← List.cons_append, ← List.append_assoc] at hsplit
      obtain ⟨hinit, -⟩ := List.append_inj' hsplit rfl
      exact h.under p x q' hinit
  · rw [hreaped]
    exact h.reapUnder
  · have haccepted := h.accepted
    rw [hrank] at haccepted
    rw [ha, haccepted, hrank']
    rfl

/-- Consuming a completion extends what was reaped, within the budget. -/
theorem TurnBook.reap (h : TurnBook c s es u) (hrun : run (step c) s es = some u)
    (hflow : Flow c u e u') {q : Cqe} (ht : u.takes c e = []) (hr : u.reaps e = [q])
    (hs : u.phase = .reap) (hp : u'.phase = .reap) (hcan : u.budget.canReap = true)
    (hb : u'.budget = { u.budget with completions := u.budget.completions + 1 })
    (hbefore : u'.submittedBeforeReap = u.submittedBeforeReap)
    (ha : u'.acceptedSqes = u.acceptedSqes) : TurnBook c s (es ++ [e]) u' := by
  have htaken : taken c s (es ++ [e]) = taken c s es := by
    rw [taken_concat hrun, ht, List.append_nil]
  have hreaped : reapedCqes c s (es ++ [e]) = reapedCqes c s es ++ [q] := by
    rw [reapedCqes_concat hrun, hr]
  have hrank : u.phase.rank = 5 := by rw [hs]; rfl
  have hrank' : u'.phase.rank = 5 := by rw [hp]; rfl
  have hbudget := h.budget (by omega)
  refine ⟨h.fifo_next hrun hflow, h.cqFifo_next hrun hflow, by omega, by omega, ?_, ?_, ?_, ?_,
    ?_, by omega, by omega, ?_, ?_, by omega⟩
  · intro _
    rw [hb, hbudget, htaken, hreaped, List.length_append]
    rfl
  · rw [htaken]
    exact h.under
  · intro _
    rw [htaken]
    exact (h.stopped (by omega)).imp_right fun hempty => hempty.concat htaken
  · intro _
    rw [htaken]
    exact h.takenSome (by omega)
  · rw [hbudget, TurnBudget.canReap, decide_eq_true_eq] at hcan
    rw [hreaped, List.length_append]
    exact hcan
  · have haccepted := h.accepted
    rw [hrank] at haccepted
    rw [ha, haccepted, hrank', hbefore]
    rfl
  · intro _
    obtain ⟨base, order, hmem⟩ := h.intakeRan (by omega)
    exact ⟨base, order, List.mem_append_left _ hmem⟩

/-- One more label of a turn that it does not end. -/
theorem TurnBook.next (h : TurnBook c s es u) (hu : turnAllocationBytes ≤ c.usizeMax)
    (hrun : run (step c) s es = some u) (hstep : step c u e = some u') (he : e.isEndTurn = false)
    (hrank : u'.phase.rank ≤ 7) : TurnBook c s (es ++ [e]) u' := by
  obtain ⟨hflow, hturn⟩ := turn_step hstep he hrank h.allocation_le
  have haccepted := h.accepted
  cases hturn with
  | outside ht hr hsame =>
    have hp := hsame.phase
    apply h.still hrun hflow ht hr
    · rw [hp]; exact id
    · rw [hp]; exact id
    · intro h3
      rw [hp] at h3
      rw [if_pos h3, hsame.budget]
    · rw [hp]; exact Or.inl
    · rw [hp]; exact Or.inl
    · rw [hsame.accepted, haccepted, hp, hsame.before, hsame.after]
  | head ht hr hs hp ha =>
    apply h.still hrun hflow ht hr
    · omega
    · omega
    · omega
    · omega
    · omega
    · rw [ha, haccepted]
      simp only [show ¬ 5 ≤ u.phase.rank by omega, show ¬ 7 ≤ u.phase.rank by omega,
        show ¬ 5 ≤ u'.phase.rank by omega, show ¬ 7 ≤ u'.phase.rank by omega, if_false]
  | opened ht hr hs hp hb ha =>
    have hrank0 : u.phase.rank = 2 := by rw [hs]; rfl
    have hrank1 : u'.phase.rank = 3 := by rw [hp]; rfl
    apply h.still hrun hflow ht hr
    · omega
    · omega
    · intro _
      rw [if_neg (by omega), hb]
    · omega
    · omega
    · rw [ha, haccepted, hrank0, hrank1]
      rfl
  | took m n ht hr hs hp hcan hb ha => exact h.take hu hrun hflow ht hr hs hp hcan hb ha
  | intakeDone ht hr hs hp hb hstop hlabel ha =>
    have hrank0 : u.phase.rank = 3 := by rw [hs]; rfl
    have hrank1 : u'.phase.rank = 4 := by rw [hp]; rfl
    apply h.still hrun hflow ht hr
    · omega
    · omega
    · intro _
      rw [if_pos (by omega), hb]
    · intro _
      refine Or.inr ⟨?_, hlabel⟩
      rcases hstop with hcan | hchan
      · left
        rw [h.budget (by omega)] at hcan
        have hnot := (canTakeMessage_iff hu).not.mp (Bool.eq_false_iff.mp hcan)
        have hle := taken_le h.under
        unfold UsedUp
        omega
      · exact Or.inr hchan
    · omega
    · rw [ha, haccepted, hrank0, hrank1]
      rfl
  | submitBefore ht hr hs hp hb ha =>
    have hrank0 : u.phase.rank = 4 := by rw [hs]; rfl
    have hrank1 : u'.phase.rank = 5 := by rw [hp]; rfl
    apply h.still hrun hflow ht hr
    · omega
    · omega
    · intro _
      rw [if_pos (by omega), hb]
    · omega
    · omega
    · rw [ha, haccepted, hrank0, hrank1]
      rfl
  | reaped q ht hr hs hp hcan hb hbefore ha =>
    exact h.reap hrun hflow ht hr hs hp hcan hb hbefore ha
  | reapDone ht hr hs hp hb hbefore hstop hlabel ha =>
    have hrank0 : u.phase.rank = 5 := by rw [hs]; rfl
    have hrank1 : u'.phase.rank = 6 := by rw [hp]; rfl
    apply h.still hrun hflow ht hr
    · omega
    · omega
    · intro _
      rw [if_pos (by omega), hb]
    · omega
    · intro _
      refine Or.inr ⟨?_, hlabel⟩
      rcases hstop with hcan | hcq
      · left
        rw [h.budget (by omega), TurnBudget.canReap, decide_eq_false_iff_not] at hcan
        exact Nat.le_antisymm h.reapUnder (not_lt.mp hcan)
      · exact Or.inr hcq
    · rw [ha, haccepted, hrank0, hrank1, hbefore]
      rfl
  | submitAfter ht hr hs hp hb hbefore ha =>
    have hrank0 : u.phase.rank = 6 := by rw [hs]; rfl
    have hrank1 : u'.phase.rank = 7 := by rw [hp]; rfl
    apply h.still hrun hflow ht hr
    · omega
    · omega
    · intro _
      rw [if_pos (by omega), hb]
    · omega
    · omega
    · rw [ha, haccepted, hrank0, hrank1, hbefore]
      rfl

/-- The continuation flag of a turn, in terms of what it did. -/
theorem continueWithoutWait_iff (hu : turnAllocationBytes ≤ c.usizeMax) {ts : List (Msg × Nat)}
    {n a i j : Nat} {cq : List Cqe} {backlog sq : List Sqe} (hts : ts.length ≤ turnMessages)
    (hn : n ≤ turnCompletions) :
    (TurnBudget.mk ts.length n (min c.usizeMax (allocated ts))).continueWithoutWait (!cq.isEmpty)
        (!backlog.isEmpty || !sq.isEmpty) (min c.usizeMax (i + j)) = true ↔
      UsedUp ts ∨ n = turnCompletions ∨ cq ≠ [] ∨ (backlog ≠ [] ∨ sq ≠ []) ∧ a < a + i + j := by
  have htake : (!(TurnBudget.mk ts.length n (min c.usizeMax (allocated ts))).canTakeMessage) = true
      ↔ UsedUp ts := by
    rw [Bool.not_eq_true', ← Bool.not_eq_true, canTakeMessage_iff hu, UsedUp]
    omega
  have hreap : (!(TurnBudget.mk ts.length n (min c.usizeMax (allocated ts))).canReap) = true
      ↔ n = turnCompletions := by
    simp only [TurnBudget.canReap, Bool.not_eq_true', decide_eq_false_iff_not]
    omega
  have hpos : 0 < c.usizeMax := Nat.lt_of_lt_of_le (by decide) hu
  simp only [TurnBudget.continueWithoutWait, Bool.or_eq_true, Bool.and_eq_true, htake, hreap,
    decide_eq_true_eq, Bool.not_eq_true', List.isEmpty_eq_false_iff, or_assoc]
  have hsubmitted : 0 < min c.usizeMax (i + j) ↔ a < a + i + j := by omega
  rw [hsubmitted]

end Book

/-- A turn that has ended or aborted does not go back. -/
theorem rank_of_step {c : Params} {s s' : Shard} {e : Event} (h : step c s e = some s')
    (hr : s'.phase.rank ≤ 7) : s.phase.rank ≤ 7 := by
  have hexit : ∀ leaked, s.Exiting leaked → s'.phase.rank ≤ 7 → False := by
    intro leaked he hle
    rcases exiting_phase he h with hsame | hexit
    · rw [hsame] at hle
      rcases he with he | he
      · rw [he] at hle
        exact absurd (show 8 ≤ 7 from hle) (by decide)
      · rw [he] at hle
        exact absurd (show 9 ≤ 7 from hle) (by decide)
    · rw [hexit] at hle
      exact absurd (show 9 ≤ 7 from hle) (by decide)
  cases hp : s.phase with
  | closing leaked => exact (hexit leaked (Or.inl hp) hr).elim
  | exited leaked => exact (hexit leaked (Or.inr hp) hr).elim
  | aborted => exact absurd hp (step_transition h).1
  | _ => decide

/-- The account of every run from the head of the loop that ends no turn. -/
theorem turnBook_of_run {c : Params} {s u : Shard} {es : List Event}
    (hu : turnAllocationBytes ≤ c.usizeMax) (hs : s.phase = .wait)
    (hrun : run (step c) s es = some u) (hno : ∀ e ∈ es, e.isEndTurn = false)
    (hr : u.phase.rank ≤ 7) : TurnBook c s es u := by
  revert hno hr
  refine run_history (P := fun es u => (∀ e ∈ es, e.isEndTurn = false) → u.phase.rank ≤ 7 →
    TurnBook c s es u) ?_ ?_ hrun
  · intro _ _
    have hrank : s.phase.rank = 0 := by rw [hs]; rfl
    refine ⟨?_, ?_, fun _ => rfl, fun _ => rfl, by omega, ?_, by omega, by omega, Nat.zero_le _,
      by omega, by omega, ?_, by omega, by omega⟩
    · exact List.append_nil _
    · exact List.append_nil _
    · intro p x q h
      exact absurd h.symm (List.append_ne_nil_of_right_ne_nil _ (List.cons_ne_nil _ _))
    · rw [hrank]
      rfl
  · intro es u e u' hes ih hstep hno hr
    have hbook := ih (fun e he => hno e (List.mem_append_left _ he)) (rank_of_step hstep hr)
    exact hbook.next hu hes hstep (hno e (List.mem_append_right _ (List.mem_singleton_self _))) hr

/-- The last label of a turn. -/
theorem endTurn_turn {c : Params} {s s' : Shard} {overflow now now' : Nat}
    (h : step c s (.endTurn overflow now now') = some s') : s.phase = .endTurn ∧
      s'.chan = s.chan ∧ s'.cq = s.cq ∧ s'.acceptedSqes = s.acceptedSqes ∧
      (s'.phase = .wait → s'.continueWithoutWait = s.budget.continueWithoutWait (!s'.cq.isEmpty)
        (!s'.backlog.isEmpty || !s'.sq.isEmpty)
        (min c.usizeMax (s.submittedBeforeReap + s.submittedAfterReap))) := by
  cases (step_transition h).2 with
  | endTurn hp =>
    obtain ⟨m, n, hover⟩ := s.updateCqOverflow_eq overflow
    rcases finishTurn_cases c (s.updateCqOverflow overflow) now now' with
      ⟨_, _, _, ht⟩ | ⟨_, deadline, ht⟩ | ⟨deadline, ht⟩
    · rw [ht, hover]
      exact ⟨hp, rfl, rfl, rfl, nofun⟩
    · rw [ht, hover]
      exact ⟨hp, rfl, rfl, rfl, nofun⟩
    · rw [ht, hover]
      exact ⟨hp, rfl, rfl, rfl, fun _ => rfl⟩

/-- One whole turn: from the head of the loop to its end, with anything the environment does
in the meantime. -/
structure Turn (c : Params) (s : Shard) (es : List Event) (t : Shard) : Prop where
  starts : s.phase = .wait
  runs : run (step c) s es = some t
  ends : ∃ body overflow now now', es = body ++ [.endTurn overflow now now'] ∧
    ∀ e ∈ body, e.isEndTurn = false

/-- What a turn takes from its queues, and whether the next one waits. -/
structure TurnFacts (c : Params) (s : Shard) (es : List Event) (t : Shard) : Prop where
  intakeRan : ∃ base order, Event.intake base order ∈ es
  reapRan : ∃ fileLen late, Event.reap fileLen late ∈ es
  fifo : s.chan ++ sentMsgs es = (taken c s es).map Prod.fst ++ t.chan
  cqFifo : s.cq ++ postedCqes c s es = reapedCqes c s es ++ t.cq
  /-- No shorter prefix would do: before each message neither budget was used up. -/
  under : ∀ p x q, taken c s es = p ++ x :: q →
    p.length < turnMessages ∧ allocated p < turnAllocationBytes
  stopped : UsedUp (taken c s es) ∨ ChanEmptied c s es
  takenSome : s.chan ≠ [] → taken c s es ≠ []
  /-- A turn in which nothing is sent stops at a budget or takes the whole channel. -/
  takenAll : sentMsgs es = [] → UsedUp (taken c s es) ∨ (taken c s es).map Prod.fst = s.chan
  /-- The allocations exceed their budget by less than the last one. -/
  overshoot : ∀ p x, taken c s es = p ++ [x] →
    allocated (taken c s es) < turnAllocationBytes + x.2
  reapUnder : (reapedCqes c s es).length ≤ turnCompletions
  reapStopped : (reapedCqes c s es).length = turnCompletions ∨ CqEmptied c s es
  reapedSome : min turnCompletions s.cq.length ≤ (reapedCqes c s es).length
  reapedAll : postedCqes c s es = [] →
    (reapedCqes c s es).length = min turnCompletions s.cq.length
  accepted : s.acceptedSqes ≤ t.acceptedSqes
  /-- The next turn starts without waiting exactly when work may be left. -/
  continues : t.phase = .wait → (t.continueWithoutWait = true ↔
    UsedUp (taken c s es) ∨ (reapedCqes c s es).length = turnCompletions ∨ t.cq ≠ [] ∨
      (t.backlog ≠ [] ∨ t.sq ≠ []) ∧ s.acceptedSqes < t.acceptedSqes)

/-- The facts of a whole turn. -/
theorem Turn.facts {c : Params} {s t : Shard} {es : List Event} (h : Turn c s es t)
    (hu : turnAllocationBytes ≤ c.usizeMax) : TurnFacts c s es t := by
  obtain ⟨hs, hrun, body, overflow, now, now', rfl, hno⟩ := h
  rw [run_append, Option.bind_eq_some_iff] at hrun
  obtain ⟨u, hbody, hlast⟩ := hrun
  obtain ⟨t', hstep, hnil⟩ := Option.bind_eq_some_iff.mp hlast
  obtain rfl : t' = t := Option.some.inj hnil
  obtain ⟨hphase, hchan, hcq, haccepted, hflag⟩ := endTurn_turn hstep
  have hrank : u.phase.rank = 7 := by rw [hphase]; rfl
  have hbook := turnBook_of_run hu hs hbody hno hrank.le
  have htaken : taken c s (body ++ [.endTurn overflow now now']) = taken c s body := by
    rw [taken_concat hbody]
    exact List.append_nil _
  have hreaped : reapedCqes c s (body ++ [.endTurn overflow now now']) = reapedCqes c s body := by
    rw [reapedCqes_concat hbody]
    exact List.append_nil _
  have hposted : postedCqes c s (body ++ [.endTurn overflow now now']) = postedCqes c s body := by
    rw [postedCqes, outputs_concat hbody]
    exact List.append_nil _
  have hsent : sentMsgs (body ++ [.endTurn overflow now now']) = sentMsgs body := by
    simp [sentMsgs, Event.sends]
  have htotal : t'.acceptedSqes =
      s.acceptedSqes + u.submittedBeforeReap + u.submittedAfterReap := by
    rw [haccepted, hbook.accepted, hrank]
    rfl
  have hstopped := (hbook.stopped (by omega)).imp_right fun hempty => hempty.concat htaken
  have hreapStopped := (hbook.reapStopped (by omega)).imp_right fun hempty => hempty.concat hreaped
  have hfifo : s.chan ++ sentMsgs body = (taken c s body).map Prod.fst ++ t'.chan := by
    rw [hchan]
    exact hbook.fifo
  have hcqFifo : s.cq ++ postedCqes c s body = reapedCqes c s body ++ t'.cq := by
    rw [hcq]
    exact hbook.cqFifo
  rw [← htaken] at hstopped
  rw [← hreaped] at hreapStopped
  constructor
  · obtain ⟨base, order, hmem⟩ := hbook.intakeRan (by omega)
    exact ⟨base, order, List.mem_append_left _ hmem⟩
  · obtain ⟨fileLen, late, hmem⟩ := hbook.reapRan (by omega)
    exact ⟨fileLen, late, List.mem_append_left _ hmem⟩
  · rw [htaken, hsent]
    exact hfifo
  · rw [hreaped, hposted]
    exact hcqFifo
  · rw [htaken]
    exact hbook.under
  · exact hstopped
  · rw [htaken]
    exact hbook.takenSome (by omega)
  · intro hnone
    refine hstopped.imp_right ?_
    rintro ⟨pre, v, ⟨post, hpost⟩, _, _, hall, hsame⟩
    have hpre : sentMsgs pre = [] := by
      rw [← hpost, sentMsgs, List.flatMap_append] at hnone
      exact (List.append_eq_nil_iff.mp hnone).1
    rw [← hsame, hall, hpre, List.append_nil]
  · intro p x hsplit
    rw [hsplit, allocated_concat]
    rw [htaken] at hsplit
    have hunder := (hbook.under p x [] hsplit).2
    omega
  · rw [hreaped]
    exact hbook.reapUnder
  · exact hreapStopped
  · rw [hreaped]
    exact hbook.reapedSome (by omega)
  · intro hnone
    rw [hposted] at hnone
    rw [hnone, List.append_nil] at hcqFifo
    have hlength := congrArg List.length hcqFifo
    rw [List.length_append] at hlength
    have hsome := hbook.reapedSome (by omega)
    have hunder := hbook.reapUnder
    rw [hreaped]
    omega
  · omega
  · intro hwait
    rw [hflag hwait, hbook.budget (by omega), htaken, hreaped, htotal]
    exact continueWithoutWait_iff hu (taken_le hbook.under) hbook.reapUnder

/-- Successive turns; only the last may leave the loop. -/
inductive Turns (c : Params) : Nat → Shard → List Event → Shard → Prop
  | zero (s : Shard) : Turns c 0 s [] s
  | succ {n : Nat} {s t u : Shard} {es es' : List Event} (h : Turns c n s es t)
      (hlast : Turn c t es' u) : Turns c (n + 1) s (es ++ es') u

/-- What successive turns take: the queues are served in order, a message or more and a
batch of completions each turn, until what was there at the start is served. -/
structure Served (c : Params) (n : Nat) (s : Shard) (es : List Event) (t : Shard) : Prop where
  runs : run (step c) s es = some t
  fifo : s.chan ++ sentMsgs es = (taken c s es).map Prod.fst ++ t.chan
  cqFifo : s.cq ++ postedCqes c s es = reapedCqes c s es ++ t.cq
  takes : n ≤ (taken c s es).length ∨ s.chan.length ≤ (taken c s es).length
  reaps : turnCompletions * n ≤ (reapedCqes c s es).length ∨
    s.cq.length ≤ (reapedCqes c s es).length

theorem Turns.served {c : Params} {n : Nat} {s t : Shard} {es : List Event}
    (h : Turns c n s es t) (hu : turnAllocationBytes ≤ c.usizeMax) : Served c n s es t := by
  induction h with
  | zero s =>
    exact ⟨rfl, List.append_nil _, List.append_nil _, Or.inl (Nat.zero_le _),
      Or.inl (Nat.zero_le _)⟩
  | @succ n s t u es es' _ hlast ih =>
    have hfacts := hlast.facts hu
    have htaken : taken c s (es ++ es') = taken c s es ++ taken c t es' :=
      outputs_append ih.runs es'
    have hreaped : reapedCqes c s (es ++ es') = reapedCqes c s es ++ reapedCqes c t es' :=
      outputs_append ih.runs es'
    have hposted : postedCqes c s (es ++ es') = postedCqes c s es ++ postedCqes c t es' :=
      outputs_append ih.runs es'
    have hsent : sentMsgs (es ++ es') = sentMsgs es ++ sentMsgs es' := List.flatMap_append
    have hlengths := congrArg List.length ih.fifo
    have hcqLengths := congrArg List.length ih.cqFifo
    simp only [List.length_append, List.length_map] at hlengths hcqLengths
    refine ⟨?_, ?_, ?_, ?_, ?_⟩
    · rw [run_append, ih.runs]
      exact hlast.runs
    · rw [hsent, htaken, ← List.append_assoc, ih.fifo, List.append_assoc, hfacts.fifo,
        List.map_append, List.append_assoc]
    · rw [hposted, hreaped, ← List.append_assoc, ih.cqFifo, List.append_assoc, hfacts.cqFifo,
        List.append_assoc]
    · rw [htaken, List.length_append]
      by_cases hchan : t.chan = []
      · rw [hchan, List.length_nil] at hlengths
        omega
      · have hsome := List.length_pos_of_ne_nil (hfacts.takenSome hchan)
        have htakes := ih.takes
        omega
    · rw [hreaped, List.length_append]
      have hsome := hfacts.reapedSome
      have hreaps := ih.reaps
      by_cases hcq : turnCompletions ≤ t.cq.length
      · rw [Nat.min_eq_left hcq] at hsome
        rw [Nat.mul_succ]
        omega
      · rw [Nat.min_eq_right (by omega)] at hsome
        omega

/-- The element behind the ones served first. -/
theorem getElem_of_served {α : Type*} {ahead behind served rest more : List α} {x : α}
    (h : (ahead ++ x :: behind) ++ more = served ++ rest) (hlen : ahead.length < served.length) :
    served[ahead.length]? = some x := by
  have hget := congrArg (fun l => l[ahead.length]?) h
  rw [List.getElem?_append_left hlen] at hget
  rw [← hget]
  simp

/-- Turns are fair: each takes the shortest prefix that its budgets allow and a full batch of
completions, both whatever the other's load; a message waits at most one turn for each
message ahead of it, a completion one for each batch ahead; and queued entries of which the
kernel accepts none do not keep the loop from waiting. -/
theorem turn_fairness (c : Params) (hu : WideUsize c.usizeMax) :
    (∀ s es t, Turn c s es t → TurnFacts c s es t) ∧
    (∀ n s es t, Turns c n s es t → ∀ ahead m behind, s.chan = ahead ++ m :: behind →
      ahead.length + 1 ≤ n → ((taken c s es).map Prod.fst)[ahead.length]? = some m) ∧
    (∀ n s es t, Turns c n s es t → ∀ ahead q behind, s.cq = ahead ++ q :: behind →
      ahead.length / turnCompletions + 1 ≤ n → (reapedCqes c s es)[ahead.length]? = some q) ∧
    (∀ s es t, Turn c s es t → t.phase = .wait → ¬ UsedUp (taken c s es) →
      (reapedCqes c s es).length ≠ turnCompletions → t.cq = [] → t.acceptedSqes = s.acceptedSqes →
      t.continueWithoutWait = false) := by
  have hbytes : turnAllocationBytes ≤ c.usizeMax := by
    unfold WideUsize at hu
    unfold turnAllocationBytes
    omega
  refine ⟨?_, ?_, ?_, ?_⟩
  · intro s es t h
    exact h.facts hbytes
  · intro n s es t h ahead m behind hchan hn
    have hserved := h.served hbytes
    have hfifo := hserved.fifo
    have htakes := hserved.takes
    rw [hchan] at hfifo htakes
    apply getElem_of_served hfifo
    rw [List.length_append, List.length_cons] at htakes
    rw [List.length_map]
    omega
  · intro n s es t h ahead q behind hcq hn
    have hserved := h.served hbytes
    have hfifo := hserved.cqFifo
    have hreaps := hserved.reaps
    rw [hcq] at hfifo hreaps
    apply getElem_of_served hfifo
    rw [List.length_append, List.length_cons] at hreaps
    unfold turnCompletions at hreaps hn
    omega
  · intro s es t h hwait hused hreaped hcq haccepted
    rw [← Bool.not_eq_true, (h.facts hbytes).continues hwait]
    rintro (hused' | hreaped' | hcq' | ⟨_, hlt⟩)
    · exact hused hused'
    · exact hreaped hreaped'
    · exact hcq' hcq
    · omega

/-- A ring whose queues hold more than a turn takes. -/
def wideRing : Params := ⟨128, 128, 2 ^ 64 - 1, 5⟩

/-- The keys of a table into which `n` ids were inserted. -/
def newestFirst (n : Nat) : List Nat := (List.range n).reverse

/-- The start of a turn. -/
def turnHead : List Event := [.wake, .drainCq, .drainWake]

/-- The rest of a turn that has taken 64 reads in, and the next turn with the last one. -/
def lastTurn : List Event :=
  [.submit false (.ok 64) (newestFirst 64), .reap (.ok 0) false,
    .submit false (.ok 0) (newestFirst 64), .endTurn 0 0 0, .wake, .drainCq, .drainWake,
    .intake 0 (newestFirst 64), .intake 0 (newestFirst 65), .submit false (.ok 1) (newestFirst 65),
    .reap (.ok 0) false, .submit false (.ok 0) (newestFirst 65), .endTurn 0 0 0]

/-- Two turns take 65 reads in. While the loop sleeps the kernel completes them all and 65
cancels arrive. -/
def filled : List Event :=
  (List.range 65).map (fun id => .send 0 (.read ⟨id, 0, 0, 1, 1, ⟨0, none, none⟩⟩)) ++ turnHead ++
    (List.range 65).map (fun n => .intake 0 (newestFirst n)) ++ lastTurn ++
    List.replicate 65 (.post 0 1 [7]) ++ List.replicate 65 (.send 1 (.cancel 100))

/-- The end of a turn that leaves one completion. -/
def turnTail : List Event := [.submit false (.ok 0) [64], .endTurn 0 0 0]

/-- A turn that stops at both budgets. -/
def loadedTurn : List Event :=
  turnHead ++ List.replicate 65 (.intake 0 (newestFirst 65)) ++
    .submit false (.ok 0) (newestFirst 65) :: List.replicate 65 (.reap (.ok 0) false) ++ turnTail

/-- What the turn finds and leaves behind, and whether the next one waits. -/
theorem loadedTurn_outcome : ((run (step wideRing) init filled).bind fun s =>
    (run (step wideRing) s loadedTurn).map fun t =>
      (s.phase, (s.chan.length, s.cq.length), (t.chan.length, t.cq.length),
        t.continueWithoutWait)) = some (.wait, (65, 65), (1, 1), true) := by
  decide +kernel

/-- A turn under load takes 64 of 65 messages and 64 of 65 completions, and goes on without
waiting. -/
theorem turn_fairness_loaded : ∃ s t, Reach wideRing s ∧ Turn wideRing s loadedTurn t ∧
    (s.chan.length, s.cq.length) = (65, 65) ∧ (t.chan.length, t.cq.length) = (1, 1) ∧
    t.continueWithoutWait = true ∧ TurnFacts wideRing s loadedTurn t ∧
    (taken wideRing s loadedTurn).length = 64 ∧
    (reapedCqes wideRing s loadedTurn).length = 64 := by
  obtain ⟨s, hs, h⟩ := Option.bind_eq_some_iff.mp loadedTurn_outcome
  obtain ⟨t, ht, hfound⟩ := Option.map_eq_some_iff.mp h
  simp only [Prod.mk.injEq] at hfound
  obtain ⟨hphase, ⟨hchan, hcq⟩, ⟨hchan', hcq'⟩, hgo⟩ := hfound
  have hturn : Turn wideRing s loadedTurn t := by
    refine ⟨hphase, ht, loadedTurn.dropLast, 0, 0, 0, rfl, ?_⟩
    decide +kernel
  have hfacts := (turn_fairness wideRing (by unfold WideUsize wideRing; decide)).1 s loadedTurn t
    hturn
  refine ⟨s, t, reachable_of_run_any hs, hturn, by rw [hchan, hcq], by rw [hchan', hcq'], hgo,
    hfacts, ?_, ?_⟩
  · have hnone : sentMsgs loadedTurn = [] := by decide +kernel
    have hlen := congrArg List.length hfacts.fifo
    rw [hnone, List.append_nil, List.length_append, List.length_map] at hlen
    omega
  · have hsome := hfacts.reapedSome
    rw [hcq] at hsome
    exact le_antisymm hfacts.reapUnder hsome

end Shard

end Uring
