import Uring.Shard.Move

/-!
# No lost wakeup

The loop drains both eventfds before it looks at its queues, and a phase may stop
early on a budget. The continuation flag covers every early stop: when the loop is
about to sleep, whatever is left in the channel or in the completion queue has its
eventfd readable, or its producer is still to signal.
-/

namespace Uring

open Uring.Core

/-- Only senders and the intake touch the channel while the receiver exists. -/
theorem Move.chan_eq {c : Params} {w : Answers} {l l' : Ledger} {a : Actor}
    (hm : Move c w l a l') (ha : a = .kernel ∨ a = .submit ∨ a = .reap) : l'.chan = l.chan := by
  cases hm with
  | idle | postCancel | submit | reapCancel | reapStale | resubmit => rfl
  | finish late => cases late <;> rfl
  | @postRead k ud file len off ptr data res hk hd ha =>
    obtain ⟨t, ht⟩ := Ledger.writeBlock_frame { l with
      held := l.held.eraseIdx k
      cq := l.cq ++ [Cqe.mk (.read ud file ptr len off) res] } ptr data
    rw [ht]
  | submitSweep errors hd ho => exact (Ledger.queueCancels_frame _ _).chan
  | overflow | send | closeRx | reject | accept | cancelMiss | cancelHit | shutdown | leak
    | dropChan => simp at ha

/-- The phases between the intake and the end of a turn. -/
def Phase.working : Phase → Bool
  | .submitBefore | .reap | .submitAfter | .endTurn => true
  | _ => false

namespace Shard

/-- The wake eventfd is readable, or a producer has sent and not yet signalled. -/
def WakePending (s : Shard) : Prop := 0 < s.wake.wakeEfd ∨ s.wake.owing ≠ []

/-- The completion eventfd is readable, or a completion is posted and not yet signalled. -/
def CqPending (s : Shard) : Prop := 0 < s.wake.cqEfd ∨ 0 < s.wake.cqOwing

/-- What is left in the queues has a wakeup coming: whenever the loop is about to
sleep, and already since the intake for messages that its budget did not cut off. -/
structure Awake (s : Shard) : Prop where
  working : s.phase.working = true → s.budget.canTakeMessage = true → s.chan ≠ [] →
    s.WakePending
  sleeping : s.phase = .wait → s.continueWithoutWait = false →
    (s.chan ≠ [] → s.WakePending) ∧ (s.cq ≠ [] → s.CqPending)

theorem awake_init : init.Awake := by
  constructor
  · intro h
    cases h
  · intro _ _
    exact ⟨fun h => absurd rfl h, fun h => absurd rfl h⟩

/-- A turn whose end asks for sleep took everything it could. -/
theorem continueWithoutWait_false {b : TurnBudget} {ready queued : Bool} {submitted : Nat}
    (h : b.continueWithoutWait ready queued submitted = false) :
    b.canTakeMessage = true ∧ b.canReap = true ∧ ready = false := by
  simp only [TurnBudget.continueWithoutWait, Bool.or_eq_false_iff, Bool.not_eq_false'] at h
  exact ⟨h.1.1.1, h.1.1.2, h.1.2⟩

/-- A change of neither queue, in the same phase, that leaves every due wakeup due. -/
theorem Awake.frame {s s' : Shard} (h : s.Awake) (hp : s'.phase = s.phase)
    (hb : s'.budget = s.budget) (hw : s'.continueWithoutWait = s.continueWithoutWait)
    (hc : s'.chan = s.chan) (hq : s'.cq = s.cq) (hwake : s.WakePending → s'.WakePending)
    (hcq : s.CqPending → s'.CqPending) : s'.Awake where
  working := by
    rw [hp, hb, hc]
    exact fun h1 h2 h3 => hwake (h.working h1 h2 h3)
  sleeping := by
    rw [hp, hw, hc, hq]
    intro h1 h2
    obtain ⟨hm, hr⟩ := h.sleeping h1 h2
    exact ⟨fun h3 => hwake (hm h3), fun h3 => hcq (hr h3)⟩

/-- Between turns and during the intake nothing is due. -/
theorem Awake.of_phase {s : Shard} (hw : s.phase.working = false) (hs : s.phase ≠ .wait) :
    s.Awake where
  working := by
    rw [hw]
    exact nofun
  sleeping := fun h => absurd h hs

/-- Inside a turn, a part that leaves channel, budget and eventfds alone. -/
theorem Awake.advance {s s' : Shard} (h : s.Awake) (hp : s.phase.working = true)
    (hs : s'.phase ≠ .wait) (hc : s'.chan = s.chan)
    (hb : s'.budget.canTakeMessage = s.budget.canTakeMessage) (hwake : s'.wake = s.wake) :
    s'.Awake where
  working := by
    intro _ h2 h3
    rw [hc] at h3
    rw [hb] at h2
    have hdue := h.working hp h2 h3
    rwa [WakePending, hwake]
  sleeping := fun h => absurd h hs

/-- A send owes a signal afterwards. -/
theorem Awake.send {s s' : Shard} {p : Nat} {m : Msg} (h : s.Awake)
    (hs : s.sendMsg p m = some s') : s'.Awake := by
  obtain ⟨_, _, _, rfl⟩ := sendMsg_eq_some hs
  have hdue : WakePending { s with
      toLedger := s.send m
      wake := { s.wake with
        owing := if p ∈ s.wake.owing then s.wake.owing else p :: s.wake.owing } } := by
    right
    by_cases hp : p ∈ s.wake.owing
    · simp only [hp, if_true]
      exact List.ne_nil_of_mem hp
    · simp [hp]
  refine ⟨fun _ _ _ => hdue, fun h1 h2 => ⟨fun _ => hdue, ?_⟩⟩
  exact (h.sleeping h1 h2).2

/-- The end of a turn sleeps only with an empty completion queue and a channel that
the intake found empty. -/
theorem Awake.endTurn {c : Params} {s : Shard} (h : s.Awake) (hp : s.phase = .endTurn)
    (now now' : Nat) : (s.finishTurn c now now').Awake := by
  rcases finishTurn_cases c s now now' with ⟨_, _, _, heq⟩ | ⟨_, deadline, heq⟩ | ⟨deadline, heq⟩
  · rw [heq]
    exact Awake.of_phase rfl nofun
  · rw [heq]
    exact Awake.of_phase rfl nofun
  · rw [heq]
    refine ⟨nofun, fun _ hflag => ?_⟩
    obtain ⟨htake, _, hready⟩ := continueWithoutWait_false hflag
    constructor
    · intro hchan
      exact h.working (by rw [hp]; rfl) htake hchan
    · intro hcq
      have hempty : s.cq = [] := by simpa using hready
      exact absurd hempty hcq

/-- Every transition keeps every due wakeup due. -/
theorem Awake.step {c : Params} {s s' : Shard} {e : Event} (h : s.Awake)
    (hs : Shard.step c s e = some s') : s'.Awake := by
  cases (step_transition hs).2 with
  | send ht => exact h.send ht
  | join hj ht => exact (h.send ht).frame rfl rfl rfl rfl rfl id id
  | signal => exact h.frame rfl rfl rfl rfl rfl (fun _ => Or.inl (signalEfd_pos _)) id
  | hangup | closeRx | closeSem => exact h.frame rfl rfl rfl rfl rfl id id
  | post hl =>
    have hchan := (post_move (c := c) (w := .any) (fun _ _ => trivial) hl).chan_eq (Or.inl rfl)
    refine ⟨?_, fun h1 h2 => ⟨?_, fun _ => Or.inr (Nat.succ_pos _)⟩⟩
    · intro h1 h2 h3
      exact h.working h1 h2 (hchan ▸ h3)
    · intro h3
      exact (h.sleeping h1 h2).1 (hchan ▸ h3)
  | cqSignal => exact h.frame rfl rfl rfl rfl rfl id (fun _ => Or.inl (signalEfd_pos _))
  | wake | drainCq | drainWake | dropRx => exact Awake.of_phase rfl nofun
  | @intake base order hp ho =>
    rcases (intake_cases c .any s base order ho).2 with ⟨hb, heq⟩ | ⟨_, hchan, heq⟩ | heq |
      ⟨_, _, _, hphase⟩
    · -- the budget cut the intake off, and the flag will say so
      rw [heq]
      refine ⟨fun _ htake => ?_, nofun⟩
      have : s.budget.canTakeMessage = true := htake
      rw [hb] at this
      cases this
    · rw [heq]
      exact ⟨fun _ _ hne => absurd hchan hne, nofun⟩
    · rw [heq]
      exact Awake.of_phase rfl nofun
    · rw [hp] at hphase
      exact Awake.of_phase (by rw [hphase]; rfl) (by rw [hphase]; exact nofun)
  | submitBefore hp ho ht | submitAfter hp ho ht =>
    obtain ⟨hmove, hctl, _, hbudget⟩ := submitRing_cases (w := .any) ho ht
    exact h.advance (by rw [hp]; rfl) nofun (hmove.chan_eq (Or.inr (Or.inl rfl)))
      (congrArg _ hbudget) hctl.wake
  | @reap fileLen late hp =>
    have hwork : s.phase.working = true := by rw [hp]; rfl
    rcases (reap_cases c s fileLen late).2 with ⟨_, heq⟩ | ⟨_, _, heq⟩ | heq |
      ⟨_, q, rest, l, hq, hl, heq⟩
    · rw [heq]
      exact h.advance hwork nofun rfl rfl rfl
    · rw [heq]
      exact h.advance hwork nofun rfl rfl rfl
    · rw [heq]
      exact Awake.of_phase rfl nofun
    · have hmove := reapCqe_move (c := c) (w := .any) hq (fun _ _ => trivial) hl
      rw [heq]
      refine h.advance hwork ?_ (hmove.chan_eq (Or.inr (Or.inr rfl))) rfl rfl
      change s.phase ≠ .wait
      rw [hp]
      exact nofun
  | @endTurn overflow now now' hp =>
    have hover : (s.updateCqOverflow overflow).Awake ∧
        (s.updateCqOverflow overflow).phase = .endTurn := by
      obtain ⟨m, n, heq⟩ := s.updateCqOverflow_eq overflow
      rw [heq]
      exact ⟨h.frame rfl rfl rfl rfl rfl id id, hp⟩
    exact hover.1.endTurn hover.2 now now'

/-- Only a signal raises the wake eventfd; the loop drains it. -/
theorem wakeEfd_step {c : Params} {s s' : Shard} {e : Event} (h : Shard.step c s e = some s')
    (he : ∀ p, e ≠ .signal p) :
    s'.wake.wakeEfd = 0 ∨ s'.wake.wakeEfd = s.wake.wakeEfd := by
  cases (step_transition h).2 with
  | send ht | join _ ht =>
    obtain ⟨_, _, _, rfl⟩ := sendMsg_eq_some ht
    exact Or.inr rfl
  | signal => exact absurd rfl (he _)
  | drainWake => exact Or.inl rfl
  | hangup | closeRx | closeSem | cqSignal | wake | drainCq | dropRx | post => exact Or.inr rfl
  | intake hp ho =>
    rw [(intake_cases c .any s _ _ ho).1.wake]
    exact Or.inr rfl
  | submitBefore hp ho ht | submitAfter hp ho ht =>
    have hwake := (submitRing_cases (w := .any) ho ht).2.1.wake
    exact Or.inr (congrArg Wake.wakeEfd hwake)
  | reap hp =>
    rw [(reap_cases c s _ _).1.wake]
    exact Or.inr rfl
  | @endTurn overflow now now' hp =>
    obtain ⟨m, n, hover⟩ := s.updateCqOverflow_eq overflow
    right
    rcases finishTurn_cases c (s.updateCqOverflow overflow) now now' with
      ⟨_, _, _, heq⟩ | ⟨_, deadline, heq⟩ | ⟨deadline, heq⟩
    · rw [heq, hover]
    · rw [heq, hover]
    · rw [heq, hover]
      rfl

/-- Whenever the loop goes to sleep, a non-empty channel has its eventfd readable or a
producer about to signal, and a non-empty completion queue has its eventfd readable or
the kernel about to signal. -/
theorem no_lost_wakeup (c : Params) (s : Shard) (h : Reach c s) (hp : s.phase = .wait)
    (hw : s.continueWithoutWait = false) :
    (s.chan ≠ [] → 0 < s.wake.wakeEfd ∨ s.wake.owing ≠ []) ∧
      (s.cq ≠ [] → 0 < s.wake.cqEfd ∨ 0 < s.wake.cqOwing) := by
  have hawake : s.Awake := h.invariant awake_init fun _ _ _ _ hi _ hs => hi.step hs
  exact hawake.sleeping hp hw

/-- A batch of two reads is sent while the loop sleeps; its one signal is still to come. -/
def unsignalledBatch : List Event :=
  [.send 7 (.read ⟨1, 0, 0, 2, 1, ⟨1, none, none⟩⟩),
    .send 7 (.read ⟨2, 0, 0, 2, 1, ⟨1, none, none⟩⟩)]

theorem unsignalledBatch_runs :
    (run (step oneSlot) init unsignalledBatch).isSome = true := by
  decide +kernel

/-- A read is taken in and submitted in one turn. While the loop sleeps the kernel completes it
and a caller cancels it; both signals are still to come. -/
def unsignalledCompletion : List Event :=
  [.send 7 (.read ⟨1, 0, 0, 2, 1, ⟨1, none, none⟩⟩), .signal 7, .wake, .drainCq, .drainWake,
    .intake 64 [], .intake 64 [1], .submit false (.ok 1) [1], .reap (.ok 0) false,
    .submit false (.ok 0) [1], .endTurn 0 0 0, .post 0 2 [7, 8], .send 9 (.cancel 1)]

theorem unsignalledCompletion_runs :
    (run (step oneSlot) init unsignalledCompletion).isSome = true := by
  decide +kernel

/-- Before its signal the batch's producer is the one that will wake the loop; after a turn the
kernel is to signal the completion and the caller its cancel. -/
theorem no_lost_wakeup_batch :
    (∃ s, Reach oneSlot s ∧ s.phase = .wait ∧ s.chan.length = 2 ∧
      (0 < s.wake.wakeEfd ∨ s.wake.owing ≠ [])) ∧
    ∃ s, Reach oneSlot s ∧ s.phase = .wait ∧ s.continueWithoutWait = false ∧
      s.wake.wakeEfd = 0 ∧ s.wake.cqEfd = 0 ∧ s.chan.length = 1 ∧ s.cq.length = 1 ∧
      (0 < s.wake.wakeEfd ∨ s.wake.owing ≠ []) ∧ (0 < s.wake.cqEfd ∨ 0 < s.wake.cqOwing) := by
  constructor
  · have hr := reachable_get unsignalledBatch_runs
    have hlen : ((run (step oneSlot) init unsignalledBatch).get
        unsignalledBatch_runs).chan.length = 2 := by
      decide +kernel
    have hphase : ((run (step oneSlot) init unsignalledBatch).get
        unsignalledBatch_runs).phase = .wait := by
      decide +kernel
    refine ⟨_, hr, hphase, hlen, (no_lost_wakeup oneSlot _ hr hphase (by decide +kernel)).1 ?_⟩
    exact List.ne_nil_of_length_eq_add_one hlen
  · have hr := reachable_get unsignalledCompletion_runs
    have hchan : ((run (step oneSlot) init unsignalledCompletion).get
        unsignalledCompletion_runs).chan.length = 1 := by
      decide +kernel
    have hcq : ((run (step oneSlot) init unsignalledCompletion).get
        unsignalledCompletion_runs).cq.length = 1 := by
      decide +kernel
    have hawake := no_lost_wakeup oneSlot _ hr (by decide +kernel) (by decide +kernel)
    exact ⟨_, hr, by decide +kernel, by decide +kernel, by decide +kernel, by decide +kernel,
      hchan, hcq, hawake.1 (List.ne_nil_of_length_eq_add_one hchan),
      hawake.2 (List.ne_nil_of_length_eq_add_one hcq)⟩

end Shard

end Uring
