import Uring.Shard.Attempts

/-!
# Why a read fails

Every error that a loop sends has its reason in the run: the read came after shutdown began
and never was in flight, or its last attempt ended it, or the bounded drain gave it up and
still owns its buffer. The two defensive errors of the intake are never sent, and a read is
dropped without an answer only when the loop exits with the read still in its channel.
-/

namespace Uring

open Uring.Core

/-- The error of a read that comes after shutdown began. -/
def shuttingDownError : IoError := .other "uring driver shutting down"

/-- The error of a read whose drain timed out. -/
def leakedError : IoError := .other "uring driver leaked op on bounded-drain timeout"

/-- A conforming kernel under a file system whose metadata fails with an errno at worst. -/
def plainAnswers : Answers where
  read := kernelAnswers.read
  fileLen file answer :=
    kernelAnswers.fileLen file answer ∧ ∀ err, answer = .error err → ∃ n, err = .os n

namespace Shard

/-- Why a loop in state `s` has answered the read `id`, of which it has made the attempts `as`,
with an error. -/
inductive Failure (c : Params) (s : Shard) (id : Nat) (as : List Attempt) : IoError → Prop
  /-- It reached the loop after shutdown began and was never in flight. -/
  | refused (hd : s.shuttingDown = true) (ha : id ∉ s.hist.accepted) :
      Failure c s id as shuttingDownError
  /-- The drain timed out: the exit is decided and the table still owns the entry. -/
  | leaked (he : s.Exiting true) (hp : id ∈ s.pending) : Failure c s id as leakedError
  /-- It was in flight and its last attempt ended it. -/
  | ended {m : ReadMsg} {k hd region : Nat} {before : List Attempt} {last : Attempt}
      {err : IoError} (hm : m ∈ s.hist.requests) (hid : m.id = id) (ha : id ∈ s.hist.accepted)
      (hp : id ∉ s.pending)
      (hg : alignedGeometry c.usizeMax m.offset m.len m.align = some (k, hd, region))
      (has : as = before ++ [last])
      (hends : Ends m k hd (cancelSqe id ∈ s.hist.queued) before last err) : Failure c s id as err

/-- Labels behind `submit`, of a conforming kernel whose metadata fails with an errno. -/
def Plain (c : Params) (s : Shard) (e : Event) : Prop :=
  plainAnswers.Allows s e ∧ ∀ p m, e = .send p (.read m) → Sendable c m

theorem Plain.contract {c : Params} {s : Shard} {e : Event} (h : Plain c s e) : Contract c s e := by
  refine ⟨?_, h.2⟩
  have ha := h.1
  cases e with
  | reap fileLen late => exact fun q rest p hq hp => (ha q rest p hq hp).1
  | _ => exact ha

variable {c : Params} {s s' : Shard} {e : Event}

/-- Intake answers a read only when shutdown has begun. -/
theorem intake_sends (hl : s.toLedger.Contracted c) (hu : WideUsize c.usizeMax) (base : Nat)
    (order : List Nat) :
    (s.intake c base order).mail.sends = s.mail.sends ∨
      (s.shuttingDown = true ∧ (s.intake c base order).shuttingDown = true ∧
        (s.intake c base order).hist.accepted = s.hist.accepted ∧
        ∃ m rest, s.chan = .read m :: rest ∧ (s.intake c base order).mail =
          s.mail.send m.id (.error shuttingDownError)) := by
  cases hb : s.budget.canTakeMessage with
  | false =>
    left
    simp [intake, hb]
  | true =>
    cases hc : s.chan with
    | nil =>
      left
      simp [intake, hb, hc]
    | cons m rest =>
      cases m with
      | read m =>
        cases hd : s.shuttingDown with
        | false => exact Or.inl (congrArg _ (intake_accepts hl hu hc hd hb base order).2.1)
        | true =>
          right
          refine ⟨rfl, ?_, ?_, m, rest, rfl, ?_⟩ <;>
            simp [intake, hb, hc, intakeMsg, intakeRead, hd, Ledger.reject, shuttingDownError]
      | cancel id =>
        left
        have hf := Ledger.queueCancel_frame
        simp only [intake, hb, if_true, hc, intakeMsg, Option.getD_some, Ledger.cancel]
        split
        · rfl
        · rw [(hf _ id).mail]
      | shutdown =>
        left
        simp only [intake, hb, if_true, hc, intakeMsg, Option.getD_some, Ledger.shutdown]
        rw [(Ledger.queueCancels_frame _ order).mail]

/-- A used sender is in no channel. -/
theorem sent_notMem_chan (ha : s.toLedger.Accounted) {id : Nat}
    (hid : id ∈ s.mail.sends.map Sent.id) : id ∉ readIds s.chan := by
  have hnodup := ha.senders.places.nodup_iff.mp ha.senders.distinct
  simp only [Ledger.senderPlaces, List.append_assoc] at hnodup
  intro hchan
  refine (List.nodup_append.mp hnodup).2.2 id hid id ?_ rfl
  exact List.mem_append_right _ (List.mem_append_left _ hchan)

/-- A read that is not in the table makes no attempt. -/
theorem tries_of_notMem (hown : s.toLedger.Ownership) {id : Nat} (hid : id ∉ s.pending)
    (e : Event) : s.tries id e = [] := by
  cases e with
  | reap fileLen late =>
    refine List.flatMap_eq_nil_iff.mpr fun q hq => Cqe.attempt_eq_nil (fun hread heq => ?_) _
    subst heq
    have hcq : q ∈ s.cq := by
      simp only [reaps] at hq
      split at hq
      · exact List.mem_of_mem_take hq
      · cases hq
    refine hid (hown.mem_pending ?_ hread)
    exact List.mem_append_right _ (List.mem_map_of_mem hcq)
  | _ => rfl

/-- A reason stays a reason. -/
theorem Failure.step {id : Nat} {as : List Attempt} {err : IoError} (h : s.Failure c id as err)
    (ha : s.toLedger.Accounted) (hc : s.Control) (hid : id ∈ s.mail.sends.map Sent.id)
    (hs : step c s e = some s') : s'.Failure c id (as ++ s.tries id e) err := by
  have hm := (step_move hc (any_allows s e) hs).1
  have hdown := hm.shutdown_mono.1
  have hkeep {t : Ledger} (hk : s.toLedger.KeepsReads t) : id ∈ t.pending ↔ id ∈ s.pending := by
    simp only [AList.mem_keys]
    exact hk.keys.mem_iff
  -- the accepted reads only grow, by ids that are still queued
  have hgrow : (id ∈ s'.hist.accepted ↔ id ∈ s.hist.accepted) ∧
      (id ∈ s'.pending → id ∈ s.pending) := by
    rcases hm.reads_cases with hk | ⟨_, m, rest, p, sqe, hchan, _, _, heq⟩ |
      ⟨_, q, rest, p, p', outcome, tx, late, _, _, _, _, _, _, heq⟩
    · exact ⟨by rw [hk.accepted], (hkeep hk).mp⟩
    · have hne : id ≠ m.id := by
        rintro rfl
        refine sent_notMem_chan ha hid ?_
        rw [hchan, readIds_read]
        exact List.mem_cons_self
      rw [heq]
      constructor
      · change id ∈ s.hist.accepted ++ [m.id] ↔ _
        rw [List.mem_append, List.mem_singleton]
        exact or_iff_left hne
      · intro hp
        exact ((AList.mem_insert _).mp hp).resolve_left hne
    · rw [heq]
      refine ⟨Iff.rfl, fun hp => ?_⟩
      exact (AList.mem_erase.mp hp).2
  cases h with
  | refused hd hacc => exact .refused (hdown hd) fun hin => hacc (hgrow.1.mp hin)
  | leaked he hp =>
    obtain ⟨hintake, _, hreap⟩ := exiting_actor he hs
    rcases hm.reads_cases with hk | ⟨hintake', _⟩ | ⟨hreap', _⟩
    · exact .leaked (exiting_step he hs) ((hkeep hk).mpr hp)
    · exact absurd hintake' hintake
    · exact absurd hreap' hreap
  | @ended m k hd region before last _ hreq hmid hacc hp hg has hends =>
    have hreq' : m ∈ s'.hist.requests := by
      rcases step_requests hc hs with heq | ⟨_, _, _, heq⟩
      · rw [heq]
        exact hreq
      · rw [heq]
        exact List.mem_append_left _ hreq
    have hqueued := (Ledger.grows_of_move hm).1.subset (a := cancelSqe id)
    rw [tries_of_notMem ha.ownership hp e, List.append_nil]
    exact .ended hreq' hmid (hgrow.1.mpr hacc) (fun hin => hp (hgrow.2 hin)) hg has
      (hends.mono hqueued)

/-- Callers, the kernel and the submissions answer no read. -/
theorem sends_of_move {w : Answers} {l l' : Ledger} {a : Actor} (h : Move c w l a l')
    (ha : a = .caller ∨ a = .kernel ∨ a = .submit) : l'.mail.sends = l.mail.sends := by
  cases h with
  | idle | send | closeRx | postCancel | submit => rfl
  | @postRead k ud file len off ptr data res hk hd hw =>
    obtain ⟨t, ht⟩ := l.postRead_frame k ⟨.read ud file ptr len off, res⟩ ptr data
    rw [ht]
  | @submitSweep order errors hd ho =>
    rw [Ledger.shutdown, (Ledger.queueCancels_frame _ order).mail]
    rfl
  | _ => rcases ha with ha | ha | ha <;> cases ha

/-- A completion answers at most the read it finishes. -/
theorem failure_of_reap (hl : s.toLedger.Contracted c) (hbook : s.toLedger.CancelBook)
    {as : Nat → List Attempt} (hk : s.toLedger.Tracked as) {fileLen : Except IoError Nat}
    {late : Bool} {x : Sent} (hx : x ∈ (s.reap c fileLen late).mail.sends) {err : IoError}
    (herr : x.outcome = .error err) : x ∈ s.mail.sends ∨
      (s.reap c fileLen late).Failure c x.id
        (as x.id ++ s.tries x.id (.reap fileLen late)) err := by
  obtain ⟨_, ⟨_, ht⟩ | ⟨_, _, ht⟩ | ht | ⟨hb, q, rest, l, hq, hreap, ht⟩⟩ :=
    reap_cases c s fileLen late
  · rw [ht] at hx
    exact Or.inl hx
  · rw [ht] at hx
    exact Or.inl hx
  · rw [ht] at hx
    exact Or.inl hx
  rw [ht] at hx ⊢
  rcases Ledger.reapCqe_cases hreap with ⟨_, rfl⟩ | ⟨_, _, rfl⟩ | ⟨_, p, p', sqe, _, _, rfl⟩ |
    ⟨hbit, p, p', outcome, tx, hp, hr, hdone, rfl⟩
  · exact Or.inl hx
  · exact Or.inl hx
  · exact Or.inl hx
  have htx : tx = q.userData := by
    rw [(reapRead_finish hr).1.done] at hdone
    rcases hl.accounted.senders.own _ p hp with hown | hown <;> rw [hown] at hdone
    · exact (Option.some.inj hdone).symm
    · cases hdone
  have hcases : x ∈ s.mail.sends ∨ (x.id = tx ∧ x.outcome = outcome) := by
    cases late with
    | true =>
      rcases List.mem_append.mp hx with hold | hnew
      · exact Or.inl hold
      · rw [List.mem_singleton.mp hnew]
        exact Or.inr ⟨rfl, rfl⟩
    | false =>
      rcases List.mem_append.mp hx with hold | hnew
      · exact Or.inl hold
      · rw [List.mem_singleton.mp hnew]
        exact Or.inr ⟨rfl, rfl⟩
  rcases hcases with hold | ⟨hid, hout⟩
  · exact Or.inl hold
  · right
    have hread := (hl.accounted.ownership.isRead_iff (Ledger.Ownership.reap_mem hq)).mpr hbit
    have htries : s.tries q.userData (.reap fileLen late) = [⟨q.res, fileLen⟩] := by
      rw [tries_reap, Cqe.attempt_self hread]
      rw [reaps, if_pos hb, hq]
      rfl
    obtain ⟨_, m, hm, hmid, _, hsound, hbounds⟩ := hl.entry hp
    rw [hid, htx, htries]
    rw [← hout, herr] at hr
    have hends := (hk.entries _ p hp).ends hsound hbounds hr
    refine .ended hm hmid ?_ ?_ hsound.geometry rfl (hends.mono (hk.cancelled hbook hp))
    · exact hl.accounted.ownership.table _ (AList.mem_of_lookup hp)
    · exact fun hin => (AList.mem_erase.mp hin).1 rfl

/-- Ending a turn answers reads only by the leak, which keeps their entries. -/
theorem failure_of_endTurn (hl : s.toLedger.Contracted c) {overflow now now' : Nat} {x : Sent}
    (hx : x ∈ ((s.updateCqOverflow overflow).finishTurn c now now').mail.sends) {err : IoError}
    (herr : x.outcome = .error err) (as : List Attempt) : x ∈ s.mail.sends ∨
      ((s.updateCqOverflow overflow).finishTurn c now now').Failure c x.id as err := by
  obtain ⟨m, n, hover⟩ := s.updateCqOverflow_eq overflow
  rcases finishTurn_cases c (s.updateCqOverflow overflow) now now' with
    ⟨_, _, _, heq⟩ | ⟨_, deadline, heq⟩ | ⟨deadline, heq⟩
  · rw [heq, hover] at hx
    exact Or.inl hx
  · rw [heq, hover] at hx ⊢
    rcases List.mem_append.mp hx with hold | hnew
    · exact Or.inl hold
    · obtain ⟨tx, htx, rfl⟩ := List.mem_map.mp hnew
      cases herr
      refine Or.inr (.leaked (Or.inl rfl) ?_)
      obtain ⟨⟨id, p⟩, hmem, hdone⟩ := List.mem_filterMap.mp htx
      have hp : s.pending.lookup id = some p := AList.mem_lookup_iff.mpr hmem
      have hid : tx = id := by
        rcases hl.accounted.senders.own id p hp with hown | hown <;>
          rw [show p.done = some tx from hdone] at hown
        · exact Option.some.inj hown
        · cases hown
      rw [hid]
      exact (AList.mem_mapVal _ _ _).mpr (AList.mem_of_lookup hp)
  · rw [heq, hover] at hx
    exact Or.inl hx

/-- A new error comes with its reason. -/
theorem failure_of_step (hl : s.toLedger.Contracted c) (hu : WideUsize c.usizeMax)
    (hbook : s.toLedger.CancelBook) (hc : s.Control) {as : Nat → List Attempt}
    (hk : s.toLedger.Tracked as) (hs : step c s e = some s') {x : Sent}
    (hx : x ∈ s'.mail.sends) {err : IoError} (herr : x.outcome = .error err) :
    x ∈ s.mail.sends ∨ s'.Failure c x.id (as x.id ++ s.tries x.id e) err := by
  have hm := (step_move hc (any_allows s e) hs).1
  cases (step_transition hs).2 with
  | @intake base order hp ho =>
    rcases intake_sends hl hu base order with heq | ⟨_, hd, hacc, m, rest, hchan, hmail⟩
    · exact Or.inl (heq ▸ hx)
    · rw [hmail] at hx
      rcases List.mem_append.mp hx with hold | hnew
      · exact Or.inl hold
      · obtain rfl := List.mem_singleton.mp hnew
        cases herr
        refine Or.inr (.refused hd ?_)
        rw [hacc]
        have hfresh := hl.accounted.ownership.fresh
        rw [hchan, readIds_read, List.cons_append] at hfresh
        exact fun hin => (List.nodup_cons.mp hfresh).1 (List.mem_append_right _ hin)
  | reap hp => exact failure_of_reap hl hbook hk hx herr
  | endTurn hp => exact failure_of_endTurn hl hx herr _
  | wake | drainCq | drainWake | closeSem | dropRx => exact Or.inl hx
  | send | join | signal | hangup | closeRx =>
    exact Or.inl (sends_of_move hm (Or.inl rfl) ▸ hx)
  | post | cqSignal => exact Or.inl (sends_of_move hm (Or.inr (Or.inl rfl)) ▸ hx)
  | submitBefore | submitAfter => exact Or.inl (sends_of_move hm (Or.inr (Or.inr rfl)) ▸ hx)

/-- Taking a message of a contracted loop leaves its thread where it stands. -/
theorem intake_phase (hl : s.toLedger.Contracted c) (hu : WideUsize c.usizeMax)
    (hb : s.budget.canTakeMessage = true) {m : Msg} {rest : List Msg} (hc : s.chan = m :: rest)
    (base : Nat) (order : List Nat) : (s.intake c base order).phase = s.phase := by
  cases m with
  | read m =>
    cases hd : s.shuttingDown with
    | false => exact (intake_accepts hl hu hc hd hb base order).2.2
    | true => simp [intake, hb, hc, intakeMsg, intakeRead, hd]
  | cancel id => simp [intake, hb, hc, intakeMsg]
  | shutdown => simp [intake, hb, hc, intakeMsg]

/-- A loop behind `submit` and in front of a conforming kernel keeps running. -/
theorem Reach.alive (hu : WideUsize c.usizeMax) (h : Reachable (step c) (Contract c) init s) :
    s.phase ≠ .aborted := by
  cases h with
  | start => exact nofun
  | @next s₀ _ e hr _ hs =>
    intro ha
    have hl := Reach.contracted hr
    rcases aborted_cases hs ha with ⟨base, order, m, rest, hphase, hb, hc, rfl⟩ |
      ⟨fileLen, late, q, rest, hphase, hq, hnone⟩
    · rw [intake_phase hl hu hb hc, hphase] at ha
      cases ha
    · rcases Reach.ownSenders hr with ⟨leaked, he⟩ | hown
      · exact he.not_running hphase fun _ => ⟨nofun, nofun⟩
      · obtain ⟨l', hl'⟩ := hl.reapCqe_isSome hu hown hq fileLen late
        rw [hnone] at hl'
        cases hl'

/-- Only a dropped receiver loses senders: those of the reads in its channel. -/
theorem lost_of_move {w : Answers} {l l' : Ledger} {a : Actor} (h : Move c w l a l')
    (ha : a ≠ .turn) : l'.mail.lost = l.mail.lost := by
  cases h with
  | idle | send | closeRx | postCancel | reject | accept | cancelMiss | submit | reapCancel
    | reapStale | resubmit => rfl
  | @postRead k ud file len off ptr data res hk hd hw =>
    obtain ⟨t, ht⟩ := l.postRead_frame k ⟨_, res⟩ ptr data
    rw [ht]
  | cancelHit => exact congrArg Mail.lost (Ledger.queueCancel_frame _ _).mail
  | shutdown | submitSweep => exact congrArg Mail.lost (Ledger.queueCancels_frame _ _).mail
  | finish late => cases late <;> rfl
  | overflow | leak | dropChan => exact absurd rfl ha

/-- The only label that loses senders. -/
theorem lost_of_step (hc : s.Control) (hs : step c s e = some s') (he : e ≠ .dropRx) :
    s'.mail.lost = s.mail.lost := by
  have hm := (step_move (w := .any) hc (any_allows s e) hs).1
  by_cases ha : e.actor = .turn
  · cases (step_transition hs).2 with
    | wake | drainCq | drainWake | closeSem => rfl
    | @endTurn overflow now now' hp =>
      obtain ⟨m, n, hover⟩ := s.updateCqOverflow_eq overflow
      rcases finishTurn_cases c (s.updateCqOverflow overflow) now now' with
        ⟨_, _, _, heq⟩ | ⟨_, deadline, heq⟩ | ⟨deadline, heq⟩
      · rw [heq, hover]
      · rw [heq, hover]
        rfl
      · rw [heq, hover]
        rfl
    | dropRx => exact absurd rfl he
    | _ => cases ha
  · exact lost_of_move hm ha

/-- What the attempts `as` explain of a loop: its table, the errors it has sent, and the reads
that it leaves without an answer. -/
structure Explained (c : Params) (s : Shard) (as : Nat → List Attempt) : Prop where
  tracked : s.toLedger.Tracked as
  sends : ∀ x ∈ s.mail.sends, ∀ err, x.outcome = .error err → s.Failure c x.id (as x.id) err
  lost : ∀ id ∈ s.mail.lost, id ∉ s.hist.accepted ∧ ∃ leaked, s.phase = .exited leaked

namespace Explained

theorem init : init.Explained c fun _ => [] :=
  ⟨.init, by simp [Shard.init, Ledger.init], by simp [Shard.init, Ledger.init]⟩

/-- A lost read stays out of flight. -/
theorem lost_step {as : Nat → List Attempt} (h : s.Explained c as) (hown : s.toLedger.Ownership)
    (hc : s.Control) (hs : step c s e = some s') :
    ∀ id ∈ s'.mail.lost, id ∉ s'.hist.accepted ∧ ∃ leaked, s'.phase = .exited leaked := by
  intro id hid
  have hm := (step_move (w := .any) hc (any_allows s e) hs).1
  by_cases hold : id ∈ s.mail.lost
  · obtain ⟨hacc, leaked, hphase⟩ := h.lost id hold
    refine ⟨?_, leaked, ?_⟩
    · obtain ⟨hintake, _, hreap⟩ := exiting_actor (Or.inr hphase) hs
      rcases hm.reads_cases with hk | ⟨hintake', _⟩ | ⟨hreap', _⟩
      · rwa [hk.accepted]
      · exact absurd hintake' hintake
      · exact absurd hreap' hreap
    · rcases exiting_phase (Or.inr hphase) hs with hsame | hexit
      · rw [hsame, hphase]
      · exact hexit
  · -- the receiver is dropped in this step
    have hdrop : e = .dropRx := by
      by_contra hne
      exact hold (lost_of_step hc hs hne ▸ hid)
    subst hdrop
    cases (step_transition hs).2 with
    | @dropRx leaked hp hsem =>
      have hchan : id ∈ readIds s.chan := (List.mem_append.mp hid).resolve_left hold
      refine ⟨fun hin => ?_, leaked, rfl⟩
      exact (List.nodup_append.mp hown.fresh).2.2 id hchan id hin rfl

/-- One step adds its attempts to the explanation. -/
theorem next {as : Nat → List Attempt} (h : s.Explained c as) (hu : WideUsize c.usizeMax)
    (hr : Reachable (step c) (Contract c) Shard.init s) (he : Contract c s e)
    (hs : step c s e = some s') : s'.Explained c fun id => as id ++ s.tries id e := by
  have hl := Reach.contracted hr
  have hc := Reach.control hr
  have hbook := Reach.cancelBook hr
  have hown := hl.accounted.ownership
  refine ⟨tracked_step h.tracked hown hbook hc hs (Reach.alive hu (hr.next he hs)), ?_,
    h.lost_step hown hc hs⟩
  intro x hx err herr
  rcases failure_of_step hl hu hbook hc h.tracked hs hx herr with hold | hnew
  · exact (h.sends x hold err herr).step hl.accounted hc (List.mem_map_of_mem hold) hs
  · exact hnew

end Explained

/-- Every run is explained by its attempts. -/
theorem explained_of_run (hu : WideUsize c.usizeMax) {es : List Event}
    (hrun : run (step c) init es = some s) (ha : Admitted (step c) (Contract c) init es) :
    s.Explained c (attempts c es) := by
  refine admitted_history (P := fun es s => s.Explained c (attempts c es)) .init ?_ hrun ha
  intro es t e t' hrun ha hi he hs
  have hconcat (id : Nat) : attempts c (es ++ [e]) id = attempts c es id ++ t.tries id e :=
    outputs_concat hrun e
  have hnext := hi.next hu (reachable_of_run hrun ha) he hs
  rwa [← funext hconcat] at hnext

/-- What a run of a loop says about the answers it gave and those it left out. -/
structure ErrorsExplained (c : Params) (es : List Event) (s : Shard) : Prop where
  /-- Every read is answered at most once. -/
  once : (s.mail.sends.map Sent.id).Nodup
  /-- An error has its reason at every later time. -/
  errors : ∀ x ∈ s.mail.sends, ∀ err, x.outcome = .error err →
    s.Failure c x.id (attempts c es x.id) err
  /-- A read loses its sender only when the loop exits with the read still in its channel. -/
  lost : ∀ id ∈ s.mail.lost, s.shuttingDown = true ∧ (∃ leaked, s.phase = .exited leaked) ∧
    id ∉ s.hist.accepted ∧ id ∉ s.mail.sends.map Sent.id
  /-- The attempts of a read are completions that the kernel posted for its entries. -/
  posted : ∀ id, (attempts c es id).map Attempt.res <+:
    ((postedCqes c init es).filter (Cqe.answers id)).map Cqe.res

/-- The loop reaps what the kernel posted, in order. -/
theorem reaped_prefix (hu : WideUsize c.usizeMax) {es : List Event}
    (hrun : run (step c) init es = some s) (ha : Admitted (step c) (Contract c) init es) :
    postedCqes c init es = reapedCqes c init es ++ s.cq := by
  refine admitted_history
    (P := fun es s => postedCqes c init es = reapedCqes c init es ++ s.cq) rfl ?_ hrun ha
  intro es t e t' hrun ha hi he hs
  have hr := reachable_of_run hrun ha
  have hfifo := cqFifo_step (Reach.control hr) hs (Reach.alive hu (hr.next he hs))
  have hposted : postedCqes c init (es ++ [e]) = postedCqes c init es ++ t.posts e :=
    outputs_concat hrun e
  have hreaped : reapedCqes c init (es ++ [e]) = reapedCqes c init es ++ t.reaps e :=
    outputs_concat hrun e
  rw [hposted, hreaped, hi, List.append_assoc, hfifo, List.append_assoc]

/-- In every run of a loop behind `submit` and in front of a conforming kernel, every read is
answered at most once and an error has its reason: the read was refused during shutdown and
never in flight, was given up by the drain, which still owns its entry, or was ended by its
last attempt, with the errno that the kernel posted once retries were spent, with the error of
the metadata, inside a block before the end of the file, or because it was cancelled. A read is
left without an answer only by the exit. -/
theorem errors_explained (c : Params) (hu : WideUsize c.usizeMax) {es : List Event} {s : Shard}
    (hrun : run (step c) init es = some s) (ha : Admitted (step c) (Contract c) init es) :
    ErrorsExplained c es s := by
  have hr := reachable_of_run hrun ha
  have hl := Reach.contracted hr
  have hx := explained_of_run hu hrun ha
  refine ⟨hl.accounted.senders.sends_nodup, hx.sends, fun id hid => ?_, fun id => ?_⟩
  · obtain ⟨hacc, leaked, hphase⟩ := hx.lost id hid
    refine ⟨(Reach.control hr).exited leaked hphase, ⟨leaked, hphase⟩, hacc, ?_⟩
    have hnodup := hl.accounted.senders.places.nodup_iff.mp hl.accounted.senders.distinct
    simp only [Ledger.senderPlaces, List.append_assoc] at hnodup
    exact fun hin => (List.nodup_append.mp hnodup).2.2 id hin id (List.mem_append_left _ hid) rfl
  · rw [attempts_res, reaped_prefix hu hrun ha, List.filter_append, List.map_append]
    exact List.prefix_append _ _

/-- A read is taken in and completes short. -/
def firstTry : List Event :=
  [.send 0 (.read ⟨1, 0, 1, 3, 1, ⟨0, none, none⟩⟩), .signal 0, .wake, .drainCq, .drainWake,
    .intake 64 [], .intake 64 [1], .submit false (.ok 1) [1], .reap (.ok 5) false,
    .submit false (.ok 0) [1], .endTurn 0 0 0, .post 0 1 [20]]

/-- A turn asks for the rest, and the kernel fails with `EAGAIN`. -/
def failedTurn : List Event :=
  [.wake, .drainCq, .drainWake, .intake 64 [1], .submit false (.ok 0) [1], .reap (.ok 5) false,
    .reap (.ok 5) false, .submit false (.ok 1) [1], .endTurn 0 0 0, .post 0 (-eAgain) []]

/-- The kernel fails with `EAGAIN` until no retry is left. -/
def retriedRead : List Event :=
  firstTry ++ (List.replicate 17 failedTurn).flatten ++ failedTurn.take 6

theorem retriedRead_runs : (run (step oneSlot) init retriedRead).isSome = true := by
  decide +kernel

/-- The errno of the last of 17 failures in a row is the answer. -/
theorem errors_explained_retried : ∃ s, run (step oneSlot) init retriedRead = some s ∧
    s.mail.sends = [⟨1, .error (.os eAgain), true⟩] ∧
    (attempts oneSlot retriedRead 1).map Attempt.res = 1 :: List.replicate 17 (-(eAgain : Int)) ∧
    s.Failure oneSlot 1 (attempts oneSlot retriedRead 1) (.os eAgain) := by
  have hrun := (Option.some_get retriedRead_runs).symm
  have ha : admittedBool (step oneSlot) (keepsContract oneSlot) init retriedRead = true := by
    decide +kernel
  have hsends : ((run (step oneSlot) init retriedRead).get retriedRead_runs).mail.sends =
      [⟨1, .error (.os eAgain), true⟩] := by
    decide +kernel
  have hres : (attempts oneSlot retriedRead 1).map Attempt.res =
      1 :: List.replicate 17 (-(eAgain : Int)) := by
    decide +kernel
  have hwide : WideUsize oneSlot.usizeMax := by
    unfold WideUsize oneSlot
    decide
  have hexplained := errors_explained oneSlot hwide hrun
    (admitted_of_admittedBool (fun _ _ he => contract_of_keepsContract he) ha)
  refine ⟨_, hrun, hsends, hres, ?_⟩
  refine hexplained.errors ⟨1, .error (.os eAgain), true⟩ ?_ _ rfl
  rw [hsends]
  exact List.mem_singleton_self _

/-- The attempts of a kernel whose metadata fails with an errno at worst. -/
theorem attempts_plain {es : List Event} (hrun : run (step c) init es = some s)
    (ha : Admitted (step c) (Plain c) init es) (id : Nat) :
    ∀ a ∈ attempts c es id, ∀ err, a.fileLen = .error err → ∃ n, err = .os n := by
  refine admitted_history (P := fun es _ => ∀ a ∈ attempts c es id, ∀ err,
    a.fileLen = .error err → ∃ n, err = .os n) (by simp [attempts, outputs]) ?_ hrun ha
  intro es t e t' hrun ha hi he hs a hmem err herr
  have hconcat : attempts c (es ++ [e]) id = attempts c es id ++ t.tries id e :=
    outputs_concat hrun e
  rw [hconcat] at hmem
  rcases List.mem_append.mp hmem with hold | hnew
  · exact hi a hold err herr
  · have hown := Reach.ownership (reachable_of_run hrun ha)
    cases e with
    | reap fileLen late =>
      obtain ⟨q, hq, hin⟩ := List.mem_flatMap.mp hnew
      simp only [reaps] at hq
      split at hq
      · cases hcq : t.cq with
        | nil =>
          rw [hcq] at hq
          cases hq
        | cons q' rest =>
          rw [hcq] at hq
          obtain rfl := List.mem_singleton.mp hq
          unfold Cqe.attempt at hin
          split at hin
          · rename_i hanswers
            obtain rfl := List.mem_singleton.mp hin
            have hread := (Cqe.answers_iff.mp hanswers).1
            have hpend := hown.mem_pending (Ledger.Ownership.reap_mem hcq) hread
            obtain ⟨p, hp⟩ := Option.isSome_iff_exists.mp (AList.lookup_isSome.mpr hpend)
            exact (he.1 q rest p hcq hp).2 err herr
          · cases hin
      · cases hq
    | _ => cases hnew

/-- Check the metadata's error of one label. -/
def plainMetadata : Event → Bool
  | .reap (.ok _) _ | .reap (.error (.os _)) _ => true
  | .reap .. => false
  | _ => true

theorem plain_of_keepsContract {s : Shard} {e : Event} (h : keepsContract c s e = true)
    (hm : plainMetadata e = true) : Plain c s e := by
  have hcontract := contract_of_keepsContract h
  refine ⟨?_, hcontract.2⟩
  have ha := hcontract.1
  cases e with
  | reap fileLen late =>
    refine fun q rest p hq hp => ⟨ha q rest p hq hp, ?_⟩
    rintro err rfl
    cases err with
    | os n => exact ⟨n, rfl⟩
    | _ => cases hm
  | _ => exact ha

end Shard

end Uring
