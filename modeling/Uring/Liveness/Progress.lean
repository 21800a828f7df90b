import Uring.Core.Eventually
import Uring.Driver.Exit
import Uring.Shard.Retry
import Uring.Shard.Turn

/-!
# The progress of one loop

The thread of a shard takes one label after another as long as it has its receiver: its wait
ends at the latest with its heartbeat. Every label brings it nearer to the end of its turn,
and so to the next message it takes, the next entry it submits and the next completion it
consumes, whatever producers, callers and the kernel do in the meantime.
-/

namespace Uring

open Uring.Core

/-- The labels of the thread that runs `drive`. -/
def Event.ofLoop (e : Event) : Bool :=
  match e.actor with
  | .caller | .kernel => false
  | _ => true

/-- The most labels of one turn. -/
def turnLength : Nat := turnMessages + turnCompletions + 11

namespace Shard

/-- The labels that the thread can still take in its turn, and after the exit was decided
until its receiver is dropped. -/
def stepsLeft (s : Shard) : Nat :=
  match s.phase with
  | .wait => turnLength
  | .drainCq => turnMessages + turnCompletions + 10
  | .drainWake => turnMessages + turnCompletions + 9
  | .intake => turnMessages - s.budget.messages + turnCompletions + 8
  | .submitBefore => turnCompletions + 7
  | .reap => turnCompletions - s.budget.completions + 6
  | .submitAfter => 5
  | .endTurn => 4
  | .closing _ => if s.semClosed then 1 else 2
  | .exited _ => 0
  | .aborted => 0

section Step

variable {c : Params} {s s' : Shard} {e : Event}

/-- What the environment does leaves the thread where it stands. -/
structure StandsStill (s s' : Shard) : Prop where
  phase : s'.phase = s.phase
  budget : s'.budget = s.budget
  semClosed : s'.semClosed = s.semClosed
  drainDeadline : s'.drainDeadline = s.drainDeadline

theorem standsStill_of_step (h : step c s e = some s') (he : e.ofLoop = false) :
    s.StandsStill s' := by
  cases (step_transition h).2 with
  | send ht | join _ ht =>
    obtain ⟨_, _, _, rfl⟩ := sendMsg_eq_some ht
    exact ⟨rfl, rfl, rfl, rfl⟩
  | signal | hangup | closeRx | cqSignal | post => exact ⟨rfl, rfl, rfl, rfl⟩
  | _ => cases he

theorem StandsStill.stepsLeft (h : s.StandsStill s') : s'.stepsLeft = s.stepsLeft := by
  simp only [Shard.stepsLeft, h.phase, h.budget, h.semClosed]

/-- Taking a message counts it. -/
theorem intake_messages {base : Nat} {order : List Nat} (ho : order.Perm s.pending.keys)
    (ht : (s.intake c base order).phase = .intake) :
    s.budget.canTakeMessage = true ∧
      (s.intake c base order).budget.messages = s.budget.messages + 1 := by
  unfold intake at ht ⊢
  split
  · rename_i hb
    rw [if_pos hb] at ht
    refine ⟨hb, ?_⟩
    split
    · rename_i hc
      rw [hc] at ht
      cases ht
    · rename_i m rest hc
      rw [hc] at ht
      simp only at ht ⊢
      cases hmsg : ({ s with
          chan := rest
          budget := { s.budget with messages := s.budget.messages + 1 }
        } : Shard).intakeMsg c m base order with
      | none =>
        rw [hmsg] at ht
        cases ht
      | some t => exact (intakeMsg_move (w := .any) (l := s.toLedger) hmsg hc ho rfl).2.2.2
  · rename_i hb
    rw [if_neg hb] at ht
    cases ht

theorem messages_lt {b : TurnBudget} (h : b.canTakeMessage = true) : b.messages < turnMessages := by
  simp only [TurnBudget.canTakeMessage, Bool.and_eq_true, decide_eq_true_eq] at h
  exact h.1

theorem completions_lt {b : TurnBudget} (h : b.canReap = true) :
    b.completions < turnCompletions := of_decide_eq_true h

/-- Every label of the thread brings it nearer to the end of its turn, or ends it and leads
into the next one. -/
theorem stepsLeft_lt (h : step c s e = some s') (he : e.ofLoop = true) :
    s'.stepsLeft < s.stepsLeft ∨
      e.isEndTurn = true ∧ s.phase = .endTurn ∧ s'.phase = .wait := by
  cases (step_transition h).2 with
  | send | join | signal | hangup | closeRx | cqSignal | post => cases he
  | wake hp | drainCq hp =>
    left
    simp [stepsLeft, hp, turnLength]
  | drainWake hp =>
    left
    simp [stepsLeft, hp, TurnBudget.fresh]
  | @intake base order hp ho =>
    left
    rcases (intake_cases c .any s base order ho).2 with ⟨_, heq⟩ | ⟨_, _, heq⟩ | heq |
      ⟨_, _, _, hphase⟩
    · rw [heq]
      simp only [stepsLeft, hp]
      omega
    · rw [heq]
      simp only [stepsLeft, hp]
      omega
    · rw [heq]
      simp only [stepsLeft, hp]
      omega
    · obtain ⟨hcan, hmessages⟩ := intake_messages (c := c) ho (hphase.trans hp)
      have hlt := messages_lt hcan
      simp only [stepsLeft, hphase, hp, hmessages]
      omega
  | submitBefore hp ho ht =>
    left
    simp only [stepsLeft, hp]
    omega
  | submitAfter hp ho ht =>
    left
    simp [stepsLeft, hp]
  | @reap fileLen late hp =>
    left
    obtain ⟨_, ⟨_, heq⟩ | ⟨_, _, heq⟩ | heq | ⟨hcan, q, rest, l, _, _, heq⟩⟩ :=
      reap_cases c s fileLen late
    · rw [heq]
      simp only [stepsLeft, hp]
      omega
    · rw [heq]
      simp only [stepsLeft, hp]
      omega
    · rw [heq]
      simp only [stepsLeft, hp]
      omega
    · have hlt := completions_lt hcan
      rw [heq]
      simp only [stepsLeft, hp]
      omega
  | @endTurn overflow now now' hp =>
    rcases finishTurn_cases c (s.updateCqOverflow overflow) now now' with
      ⟨_, _, _, heq⟩ | ⟨_, deadline, heq⟩ | ⟨deadline, heq⟩
    · left
      rw [heq]
      simp only [stepsLeft, hp]
      split <;> omega
    · left
      rw [heq]
      simp only [stepsLeft, hp]
      split <;> omega
    · right
      rw [heq]
      exact ⟨rfl, hp, rfl⟩
  | closeSem hp hs =>
    left
    simp [stepsLeft, hp, hs]
  | dropRx hp hs =>
    left
    simp [stepsLeft, hp, hs]

/-- Between the head of a turn and its reap no completion is counted, and the allocation
account stays in range. -/
structure Budgeted (c : Params) (s : Shard) : Prop where
  allocation : s.budget.allocationBytes ≤ c.usizeMax
  completions : s.phase = .intake ∨ s.phase = .submitBefore → s.budget.completions = 0

/-- Without a panic the intake leaves the thread inside its turn. -/
theorem intake_rank {base : Nat} {order : List Nat} (hp : s.phase = .intake)
    (ho : order.Perm s.pending.keys) (halive : (s.intake c base order).phase ≠ .aborted) :
    (s.intake c base order).phase.rank ≤ 7 := by
  rcases (intake_cases c .any s base order ho).2 with ⟨_, heq⟩ | ⟨_, _, heq⟩ | heq |
    ⟨_, _, _, hphase⟩
  · rw [heq]
    exact Nat.le_of_ble_eq_true rfl
  · rw [heq]
    exact Nat.le_of_ble_eq_true rfl
  · rw [heq] at halive
    exact absurd rfl halive
  · rw [hphase, hp]
    exact Nat.le_of_ble_eq_true rfl

/-- Without a panic the reap leaves the thread inside its turn. -/
theorem reap_rank {fileLen : Except IoError Nat} {late : Bool} (hp : s.phase = .reap)
    (halive : (s.reap c fileLen late).phase ≠ .aborted) :
    (s.reap c fileLen late).phase.rank ≤ 7 := by
  obtain ⟨_, ⟨_, heq⟩ | ⟨_, _, heq⟩ | heq | ⟨_, q, rest, l, _, _, heq⟩⟩ :=
    reap_cases c s fileLen late
  · rw [heq]
    exact Nat.le_of_ble_eq_true rfl
  · rw [heq]
    exact Nat.le_of_ble_eq_true rfl
  · rw [heq] at halive
    exact absurd rfl halive
  · rw [heq]
    change s.phase.rank ≤ 7
    rw [hp]
    exact Nat.le_of_ble_eq_true rfl

/-- A new budget in range. -/
theorem Budgeted.of_budget {b : TurnBudget} (hs : s.budget = b)
    (ha : b.allocationBytes ≤ c.usizeMax) (hc : b.completions = 0) : s.Budgeted c := by
  subst hs
  exact ⟨ha, fun _ => hc⟩

theorem Budgeted.intake {base : Nat} {order : List Nat} (hb : s.Budgeted c)
    (hp : s.phase = .intake) (ho : order.Perm s.pending.keys)
    (halive : (s.intake c base order).phase ≠ .aborted) : (s.intake c base order).Budgeted c := by
  have hzero := hb.completions (Or.inl hp)
  cases (intake_turn hp hb.allocation (intake_rank hp ho halive)).2 with
  | outside _ _ hsame => exact .of_budget hsame.budget hb.allocation hzero
  | took m n _ _ _ _ _ hbudget => exact .of_budget hbudget (Nat.min_le_left _ _) hzero
  | intakeDone _ _ _ _ hbudget => exact .of_budget hbudget hb.allocation hzero
  | head _ _ hs =>
    rw [hp] at hs
    exact absurd (show 3 ≤ 1 from hs) (by decide)
  | opened _ _ hs | submitBefore _ _ hs | reaped _ _ _ hs | reapDone _ _ hs
    | submitAfter _ _ hs =>
    rw [hp] at hs
    cases hs

/-- The end of a turn leaves its budget alone. -/
theorem endTurn_budget {overflow now now' : Nat} :
    ((s.updateCqOverflow overflow).finishTurn c now now').budget = s.budget := by
  obtain ⟨m, n, hover⟩ := s.updateCqOverflow_eq overflow
  rcases finishTurn_cases c (s.updateCqOverflow overflow) now now' with
    ⟨_, _, _, heq⟩ | ⟨_, deadline, heq⟩ | ⟨deadline, heq⟩
  · rw [heq, hover]
  · rw [heq, hover]
  · rw [heq, hover]
    rfl

/-- A budget in range stays in range. -/
theorem Budgeted.step (hb : s.Budgeted c) (h : step c s e = some s') : s'.Budgeted c := by
  -- a phase outside the intake and the first submission asks for the allocation alone
  have hpast (hs : s'.budget.allocationBytes ≤ c.usizeMax)
      (hp : s'.phase ≠ .intake ∧ s'.phase ≠ .submitBefore) : s'.Budgeted c :=
    ⟨hs, fun h => (h.elim hp.1 hp.2).elim⟩
  cases (step_transition h).2 with
  | send | join | signal | hangup | closeRx | cqSignal | post =>
    have hstill := standsStill_of_step h rfl
    constructor
    · rw [hstill.budget]
      exact hb.allocation
    · rw [hstill.budget, hstill.phase]
      exact hb.completions
  | wake | drainCq | dropRx => exact hpast hb.allocation ⟨nofun, nofun⟩
  | drainWake => exact .of_budget rfl (Nat.zero_le _) rfl
  | @intake base order hp ho =>
    by_cases halive : (s.intake c base order).phase = .aborted
    · rcases (intake_cases c .any s base order ho).2 with ⟨_, heq⟩ | ⟨_, _, heq⟩ | heq |
        ⟨_, _, _, hphase⟩
      · rw [heq] at halive
        cases halive
      · rw [heq] at halive
        cases halive
      · rw [heq]
        exact ⟨hb.allocation, by rintro (h | h) <;> cases h⟩
      · rw [hphase, hp] at halive
        cases halive
    · exact hb.intake hp ho halive
  | submitBefore _ _ ht | submitAfter _ _ ht =>
    refine hpast ?_ ⟨nofun, nofun⟩
    rw [(submitRing_turn ht).2.2.1]
    exact hb.allocation
  | @reap fileLen late hp =>
    obtain ⟨_, ⟨_, heq⟩ | ⟨_, _, heq⟩ | heq | ⟨_, q, rest, l, _, _, heq⟩⟩ :=
      reap_cases c s fileLen late
    · exact hpast (by rw [heq]; exact hb.allocation) (by rw [heq]; exact ⟨nofun, nofun⟩)
    · exact hpast (by rw [heq]; exact hb.allocation) (by rw [heq]; exact ⟨nofun, nofun⟩)
    · exact hpast (by rw [heq]; exact hb.allocation) (by rw [heq]; exact ⟨nofun, nofun⟩)
    · refine hpast (by rw [heq]; exact hb.allocation) ?_
      rw [heq]
      simp [hp]
  | @endTurn overflow now now' hp =>
    refine hpast (by rw [endTurn_budget]; exact hb.allocation) ?_
    rcases finishTurn_cases c (s.updateCqOverflow overflow) now now' with
      ⟨_, _, _, heq⟩ | ⟨_, deadline, heq⟩ | ⟨deadline, heq⟩
    · rw [heq]
      exact ⟨nofun, nofun⟩
    · rw [heq]
      exact ⟨nofun, nofun⟩
    · rw [heq]
      exact ⟨nofun, nofun⟩
  | closeSem hp => exact hpast hb.allocation (by simp [hp])

theorem Reach.budgeted {ok : Shard → Event → Prop} (h : Reachable (step c) ok init s) :
    s.Budgeted c :=
  h.invariant ⟨Nat.zero_le _, fun _ => rfl⟩ fun _ _ _ _ hi _ hs => hi.step hs

/-- Messages and completions leave in the order in which they came, or the receiver is dropped
with all the messages in it. -/
theorem flow_step (hb : s.Budgeted c) (h : step c s e = some s') (halive : s'.phase ≠ .aborted) :
    s.cq ++ s.posts e = s.reaps e ++ s'.cq ∧
      (s.chan ++ e.sends = (s.takes c e).map Prod.fst ++ s'.chan ∨ e = .dropRx) := by
  by_cases hturn : e.isEndTurn = false ∧ s'.phase.rank ≤ 7
  · obtain ⟨hflow, _⟩ := turn_step h hturn.1 hturn.2 fun _ => hb.allocation
    exact ⟨hflow.cqFifo, Or.inl hflow.fifo⟩
  cases (step_transition h).2 with
  | send ht | join _ ht =>
    obtain ⟨_, _, _, rfl⟩ := sendMsg_eq_some ht
    exact ⟨List.append_nil _, Or.inl rfl⟩
  | signal | hangup | closeRx | cqSignal | wake | drainCq | drainWake | closeSem =>
    exact ⟨List.append_nil _, Or.inl (List.append_nil _)⟩
  | post hl =>
    obtain ⟨e, _, he, rfl⟩ := Ledger.post_eq_some hl
    refine ⟨?_, Or.inl (List.append_nil _)⟩
    rw [posts, he]
    rfl
  | intake hp ho => exact absurd ⟨rfl, intake_rank hp ho halive⟩ hturn
  | submitBefore | submitAfter => exact absurd ⟨rfl, Nat.le_of_ble_eq_true rfl⟩ hturn
  | reap hp => exact absurd ⟨rfl, reap_rank hp halive⟩ hturn
  | endTurn =>
    obtain ⟨_, hchan, hcq, _⟩ := endTurn_turn h
    exact ⟨(List.append_nil _).trans hcq.symm, Or.inl ((List.append_nil _).trans hchan.symm)⟩
  | dropRx => exact ⟨List.append_nil _, Or.inr rfl⟩

/-- The next message is taken in this turn, if there is one. -/
def takeAhead (s : Shard) : Bool :=
  match s.phase with
  | .wait | .drainCq | .drainWake => true
  | .intake => s.budget.canTakeMessage
  | _ => false

/-- The next submission comes in this turn. -/
def submitAhead (s : Shard) : Bool := decide (s.phase.rank ≤ 4)

/-- The next completion is consumed in this turn, if there is one. -/
def reapAhead (s : Shard) : Bool :=
  match s.phase with
  | .wait | .drainCq | .drainWake | .intake | .submitBefore => true
  | .reap => s.budget.canReap
  | _ => false

/-- A turn takes the next message unless there is none. -/
theorem takeAhead_step (h : step c s e = some s') (hchan : s.chan ≠ [])
    (hno : s.takes c e = []) (ha : s.takeAhead = true) : s'.takeAhead = true := by
  unfold takeAhead at ha
  cases (step_transition h).2 with
  | send | join | signal | hangup | closeRx | cqSignal | post =>
    have hstill := standsStill_of_step h rfl
    unfold takeAhead
    rw [hstill.phase, hstill.budget]
    exact ha
  | wake | drainCq | drainWake => rfl
  | intake hp =>
    rw [hp] at ha
    rw [takes, if_pos ha] at hno
    rcases List.exists_cons_of_ne_nil hchan with ⟨m, rest, heq⟩
    rw [heq] at hno
    cases hno
  | submitBefore hp | submitAfter hp | reap hp | endTurn hp | closeSem hp | dropRx hp =>
    rw [hp] at ha
    cases ha

/-- A turn submits. -/
theorem submitAhead_step (h : step c s e = some s')
    (hno : ∀ kernelWork r order, e ≠ .submit kernelWork r order) (halive : s'.phase ≠ .aborted)
    (ha : s.submitAhead = true) : s'.submitAhead = true := by
  unfold submitAhead at ha
  have hrank := of_decide_eq_true ha
  cases (step_transition h).2 with
  | send | join | signal | hangup | closeRx | cqSignal | post =>
    have hstill := standsStill_of_step h rfl
    unfold submitAhead
    rw [hstill.phase]
    exact ha
  | wake | drainCq | drainWake => rfl
  | @intake base order hs ho =>
    rcases (intake_cases c .any s base order ho).2 with ⟨_, heq⟩ | ⟨_, _, heq⟩ | heq |
      ⟨_, _, _, hphase⟩
    · rw [heq]
      rfl
    · rw [heq]
      rfl
    · rw [heq] at halive
      exact absurd rfl halive
    · unfold submitAhead
      rw [hphase]
      exact ha
  | submitBefore | submitAfter => exact absurd rfl (hno _ _ _)
  | reap hs | endTurn hs =>
    rw [hs] at hrank
    exact absurd hrank (by decide)
  | closeSem hs | dropRx hs =>
    rw [hs] at hrank
    exact absurd (show 8 ≤ 4 from hrank) (by decide)

/-- A turn consumes the next completion unless there is none. -/
theorem reapAhead_step (hb : s.Budgeted c) (h : step c s e = some s') (hcq : s.cq ≠ [])
    (hno : s.reaps e = []) (halive : s'.phase ≠ .aborted) (ha : s.reapAhead = true) :
    s'.reapAhead = true := by
  unfold reapAhead at ha
  cases (step_transition h).2 with
  | send | join | signal | hangup | closeRx | cqSignal | post =>
    have hstill := standsStill_of_step h rfl
    unfold reapAhead
    rw [hstill.phase, hstill.budget]
    exact ha
  | wake | drainCq | drainWake => rfl
  | @intake base order hp ho =>
    rcases (intake_cases c .any s base order ho).2 with ⟨_, heq⟩ | ⟨_, _, heq⟩ | heq |
      ⟨_, _, _, hphase⟩
    · rw [heq]
      rfl
    · rw [heq]
      rfl
    · rw [heq] at halive
      exact absurd rfl halive
    · unfold reapAhead
      rw [hphase, hp]
  | submitBefore hp ho ht =>
    simp only [reapAhead, (submitRing_turn ht).2.2.1, TurnBudget.canReap,
      hb.completions (Or.inr hp)]
    decide
  | reap hp =>
    rw [hp] at ha
    simp only at ha
    rw [reaps, if_pos ha] at hno
    rcases List.exists_cons_of_ne_nil hcq with ⟨q, rest, heq⟩
    rw [heq] at hno
    cases hno
  | submitAfter hp | endTurn hp | closeSem hp | dropRx hp =>
    rw [hp] at ha
    cases ha

end Step

section Run

variable {c : Params} {ok : Shard → Event → Prop} {x : Execution (step c) ok init} {s : Shard}
  {n : Nat}

/-- The thread runs on as long as it has its receiver. -/
def Scheduled (x : Execution (step c) ok init) : Prop :=
  ∀ n, (x.state n).phase.receiving = true → ∃ m, n ≤ m ∧ (x.label m).ofLoop = true

/-- A process that goes on has not panicked. -/
theorem alive (x : Execution (step c) ok init) (n : Nat) : (x.state n).phase ≠ .aborted :=
  (step_transition (x.next n)).1

/-- A thread that runs on comes to what every one of its labels is nearer to. -/
theorem Scheduled.comes (hs : Scheduled x) (μ : Shard → Nat) {K : Nat → Prop}
    (hrecv : ∀ m, n ≤ m → (x.state m).phase.receiving = true)
    (hstep : ∀ m, n ≤ m → K m ∨ ((x.label m).ofLoop = true ∧ μ (x.state (m + 1)) < μ (x.state m)) ∨
      ((x.label m).ofLoop = false ∧ μ (x.state (m + 1)) = μ (x.state m))) :
    ∃ m, n ≤ m ∧ K m := by
  by_contra hnever
  have hno : ∀ m, n ≤ m → ¬ K m := fun m hm hk => hnever ⟨m, hm, hk⟩
  refine not_always_drops (fun m => μ (x.state m)) (n := n) (fun m hm => ?_) fun k hk => ?_
  · rcases hstep m hm with hk | ⟨_, hlt⟩ | ⟨_, heq⟩
    · exact absurd hk (hno m hm)
    · exact hlt.le
    · exact heq.le
  · obtain ⟨m, hm, hloop⟩ := hs k (hrecv k hk)
    refine ⟨m, hm, ?_⟩
    rcases hstep m (hk.trans hm) with hk' | ⟨_, hlt⟩ | ⟨henv, _⟩
    · exact absurd hk' (hno m (hk.trans hm))
    · exact hlt
    · rw [hloop] at henv
      cases henv

/-- The labels that the thread takes at most until what is ahead or comes in its next turn. -/
def stepsUntil (ahead : Shard → Bool) (s : Shard) : Nat :=
  if ahead s then s.stepsLeft else s.stepsLeft + turnLength

/-- What each turn holds ahead until it comes does come. -/
theorem Scheduled.comes_ahead (hs : Scheduled x) (ahead : Shard → Bool) {K : Nat → Prop}
    (hrecv : ∀ m, n ≤ m → (x.state m).phase.receiving = true)
    (hstill : ∀ s s', StandsStill s s' → ahead s' = ahead s)
    (hhead : ∀ s, (s.phase = .wait → ahead s = true) ∧ (s.phase = .endTurn → ahead s = false))
    (hahead : ∀ m, n ≤ m → K m ∨ (ahead (x.state m) = true → ahead (x.state (m + 1)) = true)) :
    ∃ m, n ≤ m ∧ K m := by
  refine hs.comes (stepsUntil ahead) hrecv fun m hm => ?_
  rcases hahead m hm with hk | hkeep
  · exact Or.inl hk
  right
  cases hloop : (x.label m).ofLoop with
  | false =>
    have hsame := standsStill_of_step (x.next m) hloop
    right
    refine ⟨rfl, ?_⟩
    rw [stepsUntil, stepsUntil, hstill _ _ hsame, hsame.stepsLeft]
  | true =>
    left
    refine ⟨rfl, ?_⟩
    unfold stepsUntil
    rcases stepsLeft_lt (x.next m) hloop with hlt | ⟨_, hend, hwait⟩
    · cases ha : ahead (x.state m) with
      | true =>
        rw [if_pos (hkeep ha), if_pos rfl]
        exact hlt
      | false =>
        rw [if_neg Bool.false_ne_true]
        split <;> omega
    · rw [if_pos ((hhead _).1 hwait), (hhead _).2 hend, if_neg Bool.false_ne_true]
      have hlength : (x.state (m + 1)).stepsLeft = turnLength := by rw [stepsLeft, hwait]
      have hleft : (x.state m).stepsLeft = 4 := by rw [stepsLeft, hend]
      omega

theorem receiving_of_chan (h : Reachable (step c) ok init s) (hchan : s.chan ≠ [])
    (halive : s.phase ≠ .aborted) : s.phase.receiving = true := by
  cases hp : s.phase with
  | exited leaked => exact absurd (Reach.exited (h.mono fun _ _ _ => trivial) hp).1 hchan
  | aborted => exact absurd hp halive
  | _ => rfl

/-- A message that waits makes the thread take one. -/
theorem Scheduled.takes (hs : Scheduled x) (hchan : ∀ m, n ≤ m → (x.state m).chan ≠ []) :
    ∃ m, n ≤ m ∧ (x.state m).takes c (x.label m) ≠ [] := by
  refine hs.comes_ahead takeAhead ?_ ?_ ?_ fun m hm => ?_
  · exact fun m hm => receiving_of_chan (x.reachable m) (hchan m hm) (alive x m)
  · intro s s' h
    unfold takeAhead
    rw [h.phase, h.budget]
  · intro s
    constructor <;> (intro h; rw [takeAhead, h])
  · by_cases htake : (x.state m).takes c (x.label m) = []
    · exact Or.inr (takeAhead_step (x.next m) (hchan m hm) htake)
    · exact Or.inl htake

/-- The thread submits again and again. -/
theorem Scheduled.submits (hs : Scheduled x)
    (hrecv : ∀ m, n ≤ m → (x.state m).phase.receiving = true) :
    ∃ m, n ≤ m ∧ ∃ kernelWork r order, x.label m = .submit kernelWork r order := by
  refine hs.comes_ahead submitAhead hrecv ?_ ?_ fun m hm => ?_
  · intro s s' h
    unfold submitAhead
    rw [h.phase]
  · intro s
    constructor <;> (intro h; rw [submitAhead, h]; rfl)
  · by_cases hsubmit : ∃ kernelWork r order, x.label m = .submit kernelWork r order
    · exact Or.inl hsubmit
    · right
      refine submitAhead_step (x.next m) (fun kernelWork r order heq => hsubmit ⟨_, _, _, heq⟩) ?_
      exact alive x (m + 1)

/-- A completion that waits makes the thread consume one. -/
theorem Scheduled.reaps (hs : Scheduled x)
    (hrecv : ∀ m, n ≤ m → (x.state m).phase.receiving = true)
    (hcq : ∀ m, n ≤ m → (x.state m).cq ≠ []) :
    ∃ m, n ≤ m ∧ (x.state m).reaps (x.label m) ≠ [] := by
  refine hs.comes_ahead reapAhead hrecv ?_ ?_ fun m hm => ?_
  · intro s s' h
    unfold reapAhead
    rw [h.phase, h.budget]
  · intro s
    constructor <;> (intro h; rw [reapAhead, h])
  · by_cases hreap : (x.state m).reaps (x.label m) = []
    · right
      exact reapAhead_step (Reach.budgeted (x.reachable m)) (x.next m) (hcq m hm) hreap
        (alive x (m + 1))
    · exact Or.inl hreap

end Run

end Shard

end Uring
