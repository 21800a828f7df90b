import Uring.Shard.Contract

/-!
# No panic of the loop

A panic aborts the process. It can only come from the intake of a message or from the
handling of a completion, and there the geometry, the arithmetic, the allocation and the
result sender are all as the loop expects them.
-/

namespace Uring

open Uring.Core

namespace Ledger

/-- Every entry still has its own result sender. -/
def OwnSenders (l : Ledger) : Prop := l.pending.All fun id p => p.done = some id

/-- Only the leak takes a sender out of the table. -/
theorem OwnSenders.move {c : Params} {w : Answers} {l l' : Ledger} {a : Actor} (h : l.OwnSenders)
    (hm : Move c w l a l') (ha : a ≠ .turn) : l'.OwnSenders := by
  cases hm with
  | idle | send | closeRx | postCancel | reject | cancelMiss | submit | reapCancel | reapStale =>
    exact h
  | overflow | leak | dropChan => exact absurd rfl ha
  | postRead res hk hd hw =>
    unfold writeBlock
    split
    · exact h
    · rename_i p hp
      exact AList.All.insert h (h _ p hp)
  | @accept m rest p sqe hc hd hp hs =>
    obtain ⟨base, k, head, r, cap, rfl, _⟩ := hp.built
    exact AList.All.insert h rfl
  | @cancelHit id rest p hc hp =>
    unfold OwnSenders
    rw [queueCancel_pending]
    exact AList.All.insert h (h id p hp)
  | shutdown hc ho =>
    unfold OwnSenders
    rw [shutdown_pending]
    exact h
  | submitSweep errors hd ho =>
    unfold OwnSenders
    rw [shutdown_pending]
    exact h
  | resubmit hq hb hp hf hr =>
    exact AList.All.insert h ((reapRead_resubmit hr).2.1.done.trans (h _ _ hp))
  | finish late hq hb hp hf hr ht => exact AList.All.erase h _

/-- The result at the head of the completion queue fits what its entry still misses. -/
theorem Contracted.answer_fits {c : Params} {l : Ledger} (h : l.Contracted c)
    (hu : WideUsize c.usizeMax) {q : Cqe} {rest : List Cqe} {p : Pending} (hq : l.cq = q :: rest)
    (hb : q.userData &&& cancelBit = 0) (hp : l.pending.lookup q.userData = some p)
    (hres : 0 ≤ q.res) : p.nread + q.res.toNat ≤ p.regionLen := by
  have hout := Ownership.reap_mem hq
  have hread := (h.accounted.ownership.isRead_iff hout).mpr hb
  obtain ⟨_, m, _, _, _, hsound, hbounds⟩ := h.entry hp
  have hsqe := h.ranged.sqe _ hout hread p hp
  rw [hsound.readSqe_eq hbounds hu] at hsqe
  have hans := h.ranged.answer q (by rw [hq]; exact List.mem_cons_self)
  rw [← Option.some.inj hsqe] at hans
  have hn := hsound.nread_le
  rcases hans with ⟨hneg, _⟩ | ⟨_, hle⟩
  · omega
  · omega

/-- A conforming completion is handled without a panic. -/
theorem Contracted.reapCqe_isSome {c : Params} {l : Ledger} (h : l.Contracted c)
    (hu : WideUsize c.usizeMax) (hown : l.OwnSenders) {q : Cqe} {rest : List Cqe}
    (hq : l.cq = q :: rest) (fileLen : Except IoError Nat) (late : Bool) :
    ∃ l', { l with cq := rest }.reapCqe c.usizeMax q fileLen late = some l' := by
  unfold reapCqe
  split
  · exact ⟨_, rfl⟩
  · rename_i hb
    rw [not_not] at hb
    cases hp : l.pending.lookup q.userData with
    | none => exact ⟨_, rfl⟩
    | some p =>
      obtain ⟨_, m, _, _, _, hsound, hbounds⟩ := h.entry hp
      obtain ⟨p', next, hr⟩ := reapRead_isSome q.userData l.shuttingDown (l.doneClosed p) fileLen
        hsound hbounds hu (h.answer_fits hu hq hb hp)
      have hr : reapRead c.usizeMax p q.userData q.res l.shuttingDown
          (doneClosed { l with cq := rest } p) fileLen = some (p', next) := hr
      simp only [hr, Option.bind_eq_bind, Option.bind_some]
      cases next with
      | resubmit sqe => exact ⟨_, rfl⟩
      | finish outcome =>
        have hdone : p'.done = some q.userData :=
          (reapRead_finish hr).1.done.trans (hown _ p hp)
        simp only [hdone, Option.bind_some]
        exact ⟨_, rfl⟩

end Ledger

namespace Shard

/-- After the exit was decided the thread stays where it is until it drops its receiver. -/
theorem exiting_phase {c : Params} {s s' : Shard} {e : Event} {leaked : Bool}
    (he : s.Exiting leaked) (h : step c s e = some s') :
    s'.phase = s.phase ∨ s'.phase = .exited leaked := by
  cases (step_transition h).2 with
  | send ht =>
    obtain ⟨_, _, _, rfl⟩ := sendMsg_eq_some ht
    exact Or.inl rfl
  | join hj ht =>
    obtain ⟨_, _, _, rfl⟩ := sendMsg_eq_some ht
    exact Or.inl rfl
  | signal | closeRx | hangup | cqSignal | post | closeSem => exact Or.inl rfl
  | wake hp | drainCq hp | drainWake hp | intake hp | submitBefore hp | submitAfter hp | reap hp
  | endTurn hp => exact (he.not_running hp fun _ => ⟨nofun, nofun⟩).elim
  | dropRx hp hs =>
    refine Or.inr ?_
    rcases he with he | he <;> rw [he] at hp <;> cases hp
    rfl

/-- An exit once decided stays decided. -/
theorem exiting_step {c : Params} {s s' : Shard} {e : Event} {leaked : Bool}
    (he : s.Exiting leaked) (h : step c s e = some s') : s'.Exiting leaked := by
  rcases exiting_phase he h with hsame | hexit
  · rwa [Exiting, hsame]
  · exact Or.inr hexit

/-- The loop's turn leaves the table alone, unless it decides the exit. -/
theorem turn_pending {c : Params} {s s' : Shard} {e : Event} (ha : e.actor = .turn)
    (h : step c s e = some s') : s'.pending = s.pending ∨ ∃ leaked, s'.Exiting leaked := by
  cases (step_transition h).2 with
  | wake | drainCq | drainWake | closeSem | dropRx => exact Or.inl rfl
  | @endTurn overflow now now' hp =>
    obtain ⟨m, n, hover⟩ := s.updateCqOverflow_eq overflow
    rcases finishTurn_cases c (s.updateCqOverflow overflow) now now' with
      ⟨_, _, _, heq⟩ | ⟨_, deadline, heq⟩ | ⟨deadline, heq⟩
    · rw [heq, hover]
      exact Or.inl rfl
    · rw [heq]
      exact Or.inr ⟨true, Or.inl rfl⟩
    · rw [heq, hover]
      exact Or.inl rfl
  | _ => cases ha

/-- Until the exit is decided every entry has its own sender. -/
theorem Reach.ownSenders {c : Params} {ok : Shard → Event → Prop} {s : Shard}
    (h : Reachable (step c) ok init s) :
    (∃ leaked, s.Exiting leaked) ∨ s.toLedger.OwnSenders := by
  refine h.invariant (I := fun s => (∃ leaked, s.Exiting leaked) ∨ s.toLedger.OwnSenders)
    (Or.inr AList.all_empty) fun s e s' hr hi _ hs => ?_
  rcases hi with ⟨leaked, he⟩ | hown
  · exact Or.inl ⟨leaked, exiting_step he hs⟩
  · by_cases ha : e.actor = .turn
    · rcases turn_pending ha hs with heq | hexit
      · refine Or.inr ?_
        unfold Ledger.OwnSenders
        rw [heq]
        exact hown
      · exact Or.inl hexit
    · exact Or.inr (hown.move (step_move (Reach.control hr) (any_allows s e) hs).1 ha)

/-- A panic comes from taking a message or from handling a completion. -/
theorem aborted_cases {c : Params} {s s' : Shard} {e : Event} (h : step c s e = some s')
    (ha : s'.phase = .aborted) :
    (∃ base order m rest, s.phase = .intake ∧ s.budget.canTakeMessage = true ∧
      s.chan = m :: rest ∧ s' = s.intake c base order) ∨
    (∃ fileLen late q rest, s.phase = .reap ∧ s.cq = q :: rest ∧
      { s.toLedger with cq := rest }.reapCqe c.usizeMax q fileLen late = none) := by
  obtain ⟨hrun, ht⟩ := step_transition h
  cases ht with
  | send ht =>
    obtain ⟨_, _, _, rfl⟩ := sendMsg_eq_some ht
    exact absurd ha hrun
  | join hj ht =>
    obtain ⟨_, _, _, rfl⟩ := sendMsg_eq_some ht
    exact absurd ha hrun
  | signal | closeRx | hangup | cqSignal | post | closeSem => exact absurd ha hrun
  | wake | drainCq | drainWake | submitBefore | submitAfter | dropRx => cases ha
  | @intake base order hp ho =>
    rcases (intake_cases c .any s base order ho).2 with ⟨_, heq⟩ | ⟨_, _, heq⟩ | heq |
      ⟨_, _, _, hphase⟩
    · rw [heq] at ha
      cases ha
    · rw [heq] at ha
      cases ha
    · left
      by_cases hb : s.budget.canTakeMessage = true
      · cases hc : s.chan with
        | nil =>
          simp only [intake, hb, if_true, hc] at ha
          cases ha
        | cons m rest => exact ⟨base, order, m, rest, hp, hb, rfl, rfl⟩
      · simp only [intake, hb] at ha
        cases ha
    · rw [hphase] at ha
      exact absurd ha hrun
  | @reap fileLen late hp =>
    right
    unfold reap at ha
    split at ha
    · split at ha
      · cases ha
      · rename_i q rest hq
        split at ha
        · rename_i hnone
          exact ⟨fileLen, late, q, rest, hp, hq, hnone⟩
        · exact absurd ha hrun
    · cases ha
  | @endTurn overflow now now' hp =>
    rcases finishTurn_cases c (s.updateCqOverflow overflow) now now' with
      ⟨_, _, _, heq⟩ | ⟨_, deadline, heq⟩ | ⟨deadline, heq⟩ <;> rw [heq] at ha <;> cases ha

/-- Behind `submit` and in front of a conforming kernel the loop never panics, and no
allocation exceeds `2 ^ 31 - 1` bytes, which is at most `isize::MAX`. -/
theorem driver_never_panics (c : Params) (hu : WideUsize c.usizeMax) (s : Shard)
    (h : Reachable (step c) (Contract c) init s) : s.phase ≠ .aborted ∧
      (∀ id p, s.pending.lookup id = some p → p.buf.bytes.length ≤ 2 ^ 31 - 1) ∧
      2 ^ 31 - 1 ≤ c.usizeMax / 2 := by
  refine ⟨?_, fun id p hp => ?_, ?_⟩
  · cases h with
    | start => exact nofun
    | @next s _ e hr _ hs =>
      intro ha
      have hl := Reach.contracted hr
      rcases aborted_cases hs ha with ⟨base, order, m, rest, hphase, hb, hc, rfl⟩ |
        ⟨fileLen, late, q, rest, hphase, hq, hnone⟩
      · have hkeep : (s.intake c base order).phase = s.phase := by
          cases m with
          | read m =>
            cases hd : s.shuttingDown with
            | false => exact (intake_accepts hl hu hc hd hb base order).2.2
            | true => simp [intake, hb, hc, intakeMsg, intakeRead, hd]
          | cancel id => simp [intake, hb, hc, intakeMsg]
          | shutdown => simp [intake, hb, hc, intakeMsg]
        rw [hkeep, hphase] at ha
        cases ha
      · rcases Reach.ownSenders hr with ⟨leaked, he⟩ | hown
        · rcases he with he | he <;> rw [he] at hphase <;> cases hphase
        · obtain ⟨l', hl'⟩ := hl.reapCqe_isSome hu hown hq fileLen late
          rw [hnone] at hl'
          cases hl'
  · obtain ⟨_, m, _, _, _, hsound, hbounds⟩ := (Reach.contracted h).entry hp
    have hlen := hsound.length_lt hbounds
    omega
  · unfold WideUsize at hu
    omega

/-- A block read that was continued is pending, with an allocation of eleven bytes. -/
theorem driver_never_panics_resubmitted : ∃ s, Reachable (step oneSlot) (Contract oneSlot) init s ∧
    (∃ p, s.pending.lookup 1 = some p ∧ p.nread = 4 ∧ p.buf.bytes.length = 11 ∧
      p.buf.bytes.length ≤ 2 ^ 31 - 1) ∧ s.phase ≠ .aborted := by
  have hp : (((run (step oneSlot) init blockRead).get blockRead_runs).pending.lookup 1).map
      (fun p => (p.nread, p.buf.bytes.length)) = some (4, 11) := by
    decide +kernel
  obtain ⟨p, hlook, hfields⟩ := Option.map_eq_some_iff.mp hp
  obtain ⟨hn, hlen⟩ := Prod.mk.inj hfields
  have hsafe := driver_never_panics oneSlot (by unfold WideUsize oneSlot; decide) _
      blockRead_reachable
  exact ⟨_, blockRead_reachable, ⟨p, hlook, hn, hlen, hsafe.2.1 1 p hlook⟩, hsafe.1⟩

end Shard

end Uring
