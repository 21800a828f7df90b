import Mathlib.Data.List.DropRight
import Uring.Shard.Move

/-!
# Escalation of submit errors

The streak of submit errors is a function of the whole history of submit results: a result
that is not a counted error ends it, and a shutdown requested elsewhere leaves it alone. The
shutdown callback runs when the streak first reaches its threshold, unless the loop was
already shutting down, and it only queues the cancels still missing.
-/

namespace Uring

open Uring.Core

/-- What moves the submit-error state: a submit result, or a shutdown requested elsewhere. -/
inductive SubmitEvent
  | result (r : Except IoError Nat)
  | shutdown
  deriving DecidableEq

/-- An error other than `EBUSY` and `EINTR`. -/
def countedError : Except IoError Nat → Bool
  | .ok _ => false
  | .error e => !transientSubmit e

/-- The accepted count that a result reports. -/
def acceptedCount : Except IoError Nat → Nat
  | .ok n => n
  | .error _ => 0

/-- The submit results of a history. -/
def submitResults (es : List SubmitEvent) : List (Except IoError Nat) :=
  es.filterMap fun
    | .result r => some r
    | .shutdown => none

/-- The length of the longest suffix of counted errors. -/
def errorStreak (es : List SubmitEvent) : Nat := ((submitResults es).rtakeWhile countedError).length

/-- The streak has reached the threshold at some point of the history. -/
def Escalated (es : List SubmitEvent) : Prop :=
  ∃ past, past <+: es ∧ maxConsecutiveSubmitErrors ≤ errorStreak past

namespace SubmitState

/-- The state in which `drive` starts. -/
def init : SubmitState := ⟨0, 0, false, false⟩

/-- One event on the state. -/
def next (st : SubmitState) : SubmitEvent → SubmitState
  | .result r => (handleSubmitResult r st).1
  | .shutdown => { st with shuttingDown := true }

/-- The state after a history. -/
def after (es : List SubmitEvent) : SubmitState := es.foldl next init

theorem after_concat (es : List SubmitEvent) (e : SubmitEvent) :
    after (es ++ [e]) = (after es).next e := by
  rw [after, List.foldl_concat, after]

/-- One event in a build with overflow checks: `none` is the panic of the `u32` addition. -/
def nextChecked (st : SubmitState) (e : SubmitEvent) : Option SubmitState :=
  match e with
  | .result r => if countedError r && decide (2 ^ 32 ≤ st.consecutive + 1) then none
      else some (st.next e)
  | .shutdown => some (st.next e)

/-- The state after a history in a build with overflow checks. -/
def afterChecked (es : List SubmitEvent) : Option SubmitState := es.foldlM nextChecked init

theorem afterChecked_concat (es : List SubmitEvent) (e : SubmitEvent) :
    afterChecked (es ++ [e]) = (afterChecked es).bind fun st => st.nextChecked e := by
  rw [afterChecked, List.foldlM_append, ← afterChecked]
  simp

/-- A build with overflow checks that does not panic goes through the same states. -/
theorem afterChecked_eq_some {es : List SubmitEvent} {st : SubmitState}
    (h : afterChecked es = some st) : st = after es := by
  induction es using List.reverseRecOn generalizing st with
  | nil => exact (Option.some.inj h).symm
  | append_singleton es e ih =>
    rw [afterChecked_concat, Option.bind_eq_some_iff] at h
    obtain ⟨before, hbefore, hnext⟩ := h
    rw [after_concat, ← ih hbefore]
    cases e with
    | shutdown => exact (Option.some.inj hnext).symm
    | result r =>
      simp only [nextChecked] at hnext
      split at hnext
      · cases hnext
      · exact (Option.some.inj hnext).symm

end SubmitState

/-- The callback runs at the result `r` that follows a history. -/
def callbackAt (es : List SubmitEvent) (r : Except IoError Nat) : Bool :=
  (handleSubmitResult r (.after es)).2.2

section History

variable {es : List SubmitEvent} {r : Except IoError Nat}

theorem submitResults_result :
    submitResults (es ++ [SubmitEvent.result r]) = submitResults es ++ [r] := by
  simp [submitResults]

theorem submitResults_shutdown : submitResults (es ++ [.shutdown]) = submitResults es := by
  simp [submitResults]

theorem errorStreak_shutdown : errorStreak (es ++ [.shutdown]) = errorStreak es := by
  rw [errorStreak, submitResults_shutdown, errorStreak]

/-- A counted error extends the streak and any other result ends it. -/
theorem errorStreak_result :
    errorStreak (es ++ [SubmitEvent.result r]) =
      if countedError r then errorStreak es + 1 else 0 := by
  rw [errorStreak, submitResults_result]
  by_cases h : countedError r = true
  · rw [List.rtakeWhile_concat_pos _ _ _ h, if_pos h, List.length_append, errorStreak]
    rfl
  · rw [List.rtakeWhile_concat_neg _ _ _ h, if_neg h]
    rfl

theorem escalated_concat {e : SubmitEvent} :
    Escalated (es ++ [e]) ↔
      Escalated es ∨ maxConsecutiveSubmitErrors ≤ errorStreak (es ++ [e]) := by
  constructor
  · rintro ⟨past, hpast, hle⟩
    rcases List.prefix_concat_iff.mp hpast with rfl | hpast
    · exact Or.inr hle
    · exact Or.inl ⟨past, hpast, hle⟩
  · rintro (⟨past, hpast, hle⟩ | hle)
    · exact ⟨past, hpast.trans (List.prefix_append _ _), hle⟩
    · exact ⟨_, List.prefix_refl _, hle⟩

/-- `handle_submit_result` on a result that is not counted. -/
theorem handleSubmitResult_other (h : countedError r = false) (st : SubmitState) :
    handleSubmitResult r st = ({ st with consecutive := 0 }, acceptedCount r, false) := by
  cases r with
  | ok n => rfl
  | error e =>
    have htransient : transientSubmit e = true := by simpa [countedError] using h
    simp only [handleSubmitResult, htransient, if_true, acceptedCount]

/-- `handle_submit_result` on a counted error: the streak and the count go up, and at the
threshold a loop that was not shutting down starts to. -/
theorem handleSubmitResult_counted (h : countedError r = true) (st : SubmitState) :
    (handleSubmitResult r st).1.submitErrors = fetchAdd st.submitErrors ∧
      (handleSubmitResult r st).1.consecutive = (st.consecutive + 1) % 2 ^ 32 ∧
      (handleSubmitResult r st).2.1 = 0 ∧
      (handleSubmitResult r st).2.2 = (!st.shuttingDown &&
        decide (maxConsecutiveSubmitErrors ≤ (st.consecutive + 1) % 2 ^ 32)) ∧
      (handleSubmitResult r st).1.shuttingDown =
        (st.shuttingDown || (handleSubmitResult r st).2.2) := by
  cases r with
  | ok n => cases h
  | error e =>
    have htransient : transientSubmit e = false := by simpa [countedError] using h
    simp only [handleSubmitResult, htransient, Bool.false_eq_true, if_false]
    split
    · rename_i hcond
      exact ⟨rfl, rfl, rfl, hcond.symm, by simp⟩
    · rename_i hcond
      exact ⟨rfl, rfl, rfl, (Bool.eq_false_iff.mpr hcond).symm, by simp⟩

/-- The returned count. -/
theorem handleSubmitResult_count (r : Except IoError Nat) (st : SubmitState) :
    (handleSubmitResult r st).2.1 = acceptedCount r := by
  by_cases hr : countedError r = true
  · rw [(handleSubmitResult_counted hr st).2.2.1]
    cases r with
    | ok n => cases hr
    | error e => rfl
  · rw [handleSubmitResult_other (Bool.eq_false_iff.mpr hr)]

end History

/-- What a history leaves behind: the counters, as far as their words hold them, and why the
loop is shutting down. -/
structure SubmitState.Tells (es : List SubmitEvent) (st : SubmitState) : Prop where
  errors : st.submitErrors = (submitResults es).countP countedError % 2 ^ 64
  streak : st.consecutive = errorStreak es % 2 ^ 32
  down : st.shuttingDown = true ↔ SubmitEvent.shutdown ∈ es ∨ Escalated es

namespace SubmitState

/-- A streak of a history that has not escalated is held exactly. -/
theorem Tells.streak_eq {es : List SubmitEvent} {st : SubmitState} (h : st.Tells es)
    (hd : st.shuttingDown = false) :
    st.consecutive = errorStreak es ∧ errorStreak es < maxConsecutiveSubmitErrors := by
  have hlow : errorStreak es < maxConsecutiveSubmitErrors := by
    by_contra hle
    have hdown := h.down.mpr (Or.inr ⟨es, List.prefix_refl _, not_lt.mp hle⟩)
    rw [hd] at hdown
    cases hdown
  refine ⟨?_, hlow⟩
  rw [h.streak, Nat.mod_eq_of_lt]
  unfold maxConsecutiveSubmitErrors at hlow
  omega

/-- A loop shuts down for the reasons of its longer history. -/
theorem Tells.down_next {es : List SubmitEvent} {st : SubmitState} (h : st.Tells es)
    {r : Except IoError Nat} {down : Bool}
    (hdown : down = true ↔ st.shuttingDown = true ∨
      (st.shuttingDown = false ∧
        maxConsecutiveSubmitErrors ≤ errorStreak (es ++ [SubmitEvent.result r]))) :
    down = true ↔ SubmitEvent.shutdown ∈ es ++ [SubmitEvent.result r] ∨
      Escalated (es ++ [SubmitEvent.result r]) := by
  have hmem : SubmitEvent.shutdown ∈ es ++ [SubmitEvent.result r] ↔
      SubmitEvent.shutdown ∈ es := by simp
  rw [hdown, hmem, escalated_concat, ← or_assoc, ← h.down]
  by_cases hd : st.shuttingDown = true
  · simp only [hd, true_or]
  · rw [Bool.not_eq_true] at hd
    simp only [hd, true_and]

/-- One more event leaves the state telling the longer history. -/
theorem Tells.next {es : List SubmitEvent} {st : SubmitState} (h : st.Tells es) (e : SubmitEvent) :
    (st.next e).Tells (es ++ [e]) := by
  cases e with
  | shutdown =>
    refine ⟨?_, ?_, ?_⟩
    · rw [submitResults_shutdown]
      exact h.errors
    · rw [errorStreak_shutdown]
      exact h.streak
    · exact ⟨fun _ => Or.inl (List.mem_append_right _ (List.mem_singleton_self _)), fun _ => rfl⟩
  | result r =>
    by_cases hr : countedError r = true
    · obtain ⟨herrors, hstreak, _, hcallback, hdown⟩ := handleSubmitResult_counted hr st
      refine ⟨?_, ?_, ?_⟩
      · rw [SubmitState.next, herrors, h.errors, submitResults_result, List.countP_append]
        simp only [List.countP_singleton, hr, if_true]
        unfold fetchAdd
        omega
      · rw [SubmitState.next, hstreak, h.streak, errorStreak_result, if_pos hr]
        omega
      · apply h.down_next
        rw [SubmitState.next, hdown, hcallback, errorStreak_result, if_pos hr]
        by_cases hd : st.shuttingDown = true
        · simp only [hd, Bool.true_or, true_or]
        · rw [Bool.not_eq_true] at hd
          obtain ⟨hword, hlow⟩ := h.streak_eq hd
          -- before the threshold the word holds the whole streak
          have hsucc : (st.consecutive + 1) % 2 ^ 32 = errorStreak es + 1 := by
            unfold maxConsecutiveSubmitErrors at hlow
            omega
          rw [hsucc]
          simp [hd]
    · rw [Bool.not_eq_true] at hr
      refine ⟨?_, ?_, ?_⟩
      · rw [SubmitState.next, handleSubmitResult_other hr, submitResults_result,
          List.countP_append]
        simpa [hr] using h.errors
      · rw [SubmitState.next, handleSubmitResult_other hr, errorStreak_result, hr]
        rfl
      · apply h.down_next
        rw [SubmitState.next, handleSubmitResult_other hr, errorStreak_result, hr]
        simp [maxConsecutiveSubmitErrors]

/-- The state after a history tells it. -/
theorem tells_after (es : List SubmitEvent) : (after es).Tells es := by
  induction es using List.reverseRecOn with
  | nil =>
    refine ⟨rfl, rfl, ?_⟩
    constructor
    · nofun
    · rintro (hmem | ⟨past, hpast, hle⟩)
      · cases hmem
      · rw [List.prefix_nil.mp hpast] at hle
        cases hle
  | append_singleton es e ih =>
    rw [after_concat]
    exact ih.next e

/-- The checked addition panics exactly when a streak reaches the width of its word. -/
theorem afterChecked_isSome (es : List SubmitEvent) :
    (afterChecked es).isSome = true ↔ ∀ past, past <+: es → errorStreak past < 2 ^ 32 := by
  induction es using List.reverseRecOn with
  | nil =>
    refine ⟨fun _ past hpast => ?_, fun _ => rfl⟩
    rw [List.prefix_nil.mp hpast]
    decide
  | append_singleton es e ih =>
    have hsplit : (∀ past, past <+: es ++ [e] → errorStreak past < 2 ^ 32) ↔
        (∀ past, past <+: es → errorStreak past < 2 ^ 32) ∧ errorStreak (es ++ [e]) < 2 ^ 32 := by
      simp only [List.prefix_concat_iff, or_imp, forall_and, forall_eq, and_comm]
    rw [hsplit, ← ih, afterChecked_concat]
    cases hbefore : afterChecked es with
    | none => simp
    | some st =>
      have htells : st.Tells es := afterChecked_eq_some hbefore ▸ tells_after es
      -- up to here the word holds the streak exactly
      have hword : st.consecutive = errorStreak es := by
        rw [htells.streak]
        exact Nat.mod_eq_of_lt (ih.mp (by rw [hbefore]; rfl) es (List.prefix_refl _))
      have hlow : errorStreak es < 2 ^ 32 := ih.mp (by rw [hbefore]; rfl) es (List.prefix_refl _)
      rw [Option.bind_some]
      cases e with
      | shutdown => simpa [nextChecked, errorStreak_shutdown] using hlow
      | result r =>
        simp only [nextChecked, hword, errorStreak_result]
        cases hr : countedError r with
        | false => simp
        | true =>
          simp
          omega

end SubmitState

/-- The callback runs exactly when the streak first reaches the threshold in a loop that was
not asked to shut down. -/
theorem callbackAt_iff (es : List SubmitEvent) (r : Except IoError Nat) :
    callbackAt es r = true ↔
      maxConsecutiveSubmitErrors ≤ errorStreak (es ++ [SubmitEvent.result r]) ∧
      ¬ Escalated es ∧ SubmitEvent.shutdown ∉ es := by
  have h := SubmitState.tells_after es
  have hdown : (SubmitState.after es).shuttingDown = false ↔
      ¬ Escalated es ∧ SubmitEvent.shutdown ∉ es := by
    rw [← Bool.not_eq_true, h.down, not_or]
    exact And.comm
  by_cases hr : countedError r = true
  · obtain ⟨_, _, _, hcallback, _⟩ := handleSubmitResult_counted hr (.after es)
    rw [callbackAt, hcallback, Bool.and_eq_true, Bool.not_eq_true', ← hdown, and_comm]
    refine and_congr_left fun hd => ?_
    obtain ⟨hword, hlow⟩ := h.streak_eq hd
    unfold maxConsecutiveSubmitErrors at hlow ⊢
    rw [hword, errorStreak_result, if_pos hr, Nat.mod_eq_of_lt (by omega), decide_eq_true_eq]
  · rw [Bool.not_eq_true] at hr
    rw [callbackAt, handleSubmitResult_other hr, errorStreak_result, hr]
    simp [maxConsecutiveSubmitErrors]

/-- After a callback no later result of the same loop runs it again. -/
theorem callbackAt_once {es es' : List SubmitEvent} {r r' : Except IoError Nat}
    (h : callbackAt es r = true) (hlater : es ++ [SubmitEvent.result r] <+: es') :
    callbackAt es' r' = false := by
  rw [Bool.eq_false_iff]
  intro h'
  obtain ⟨hreached, _⟩ := (callbackAt_iff es r).mp h
  exact ((callbackAt_iff es' r').mp h').2.1 ⟨_, hlater, hreached⟩

namespace Ledger

/-- A sweep queues one cancel for each id without one, in order. -/
theorem queueCancels_backlog (l : Ledger) {order : List Nat} (h : order.Nodup) :
    (l.queueCancels order).backlog =
        l.backlog ++ (order.filter fun id => decide (id ∉ l.queuedCancels)).map cancelSqe ∧
      ∀ id, id ∈ (l.queueCancels order).queuedCancels ↔ id ∈ l.queuedCancels ∨ id ∈ order := by
  induction order generalizing l with
  | nil => simp
  | cons id order ih =>
    obtain ⟨hid, hrest⟩ := List.nodup_cons.mp h
    obtain ⟨hback, hmem⟩ := ih (l.queueCancel id) hrest
    rw [queueCancels_cons, hback]
    by_cases hq : id ∈ l.queuedCancels
    · have hsame : l.queueCancel id = l := if_pos hq
      refine ⟨by simp [hsame, hq], ?_⟩
      intro k
      rw [hmem, hsame, List.mem_cons]
      constructor
      · rintro (hk | hk)
        · exact Or.inl hk
        · exact Or.inr (Or.inr hk)
      · rintro (hk | rfl | hk)
        · exact Or.inl hk
        · exact Or.inl hq
        · exact Or.inr hk
    · have hqueued : (l.queueCancel id).queuedCancels = insert id l.queuedCancels := by
        rw [queueCancel, if_neg hq]
      have hone : (l.queueCancel id).backlog = l.backlog ++ [cancelSqe id] := by
        rw [queueCancel, if_neg hq]
        rfl
      have hfilter : (order.filter fun k => decide (k ∉ insert id l.queuedCancels)) =
          order.filter fun k => decide (k ∉ l.queuedCancels) := by
        apply List.filter_congr
        intro k hk
        have hne : k ≠ id := fun heq => hid (heq ▸ hk)
        simp [hne]
      refine ⟨by simp only [hone, hqueued, hfilter, List.filter_cons, hq, not_false_eq_true,
        decide_true, if_true, List.map_cons, List.append_assoc, List.singleton_append], ?_⟩
      intro k
      rw [hmem, hqueued, List.mem_cons, Finset.mem_insert]
      tauto

end Ledger

namespace Shard

/-- `handle_submit_result` with its callback on the loop's own state. -/
def applyResult (s : Shard) (r : Except IoError Nat) (order : List Nat) : Shard × Nat :=
  let (st, n, callback) := handleSubmitResult r s.submitState
  let s := s.withSubmitState st
  if callback then ({ s with toLedger := s.queueCancels order }, n) else (s, n)

@[simp] theorem submitState_withSubmitState (s : Shard) (st : SubmitState) :
    (s.withSubmitState st).submitState = st := rfl

/-- `submit_ring` enters the ring when needed and applies the result. -/
theorem submitRing_eq (c : Params) (s : Shard) (kernelWork : Bool) (r : Except IoError Nat)
    (order : List Nat) : s.submitRing c kernelWork r order =
      let t : Shard := { s with toLedger := s.flush c.sqCapacity }
      if t.sq.isEmpty && !kernelWork then some (t, 0)
      else (t.enter r).map fun t => t.applyResult r order := by
  unfold submitRing
  simp only
  split
  · rfl
  · simp only [Option.bind_eq_bind, applyResult]
    rw [Option.map_eq_bind]
    congr 1
    funext t
    simp only [Function.comp_apply]
    split <;> rfl

/-- What a submit result does to the loop beside its counters: nothing, except for the
cancels that the callback queues. -/
theorem applyResult_frame (s : Shard) (r : Except IoError Nat) {order : List Nat}
    (ho : order.Perm s.pending.keys) :
    (s.applyResult r order).1.submitState = s.submitState.next (.result r) ∧
      (s.applyResult r order).2 = acceptedCount r ∧
      (s.applyResult r order).1.pending = s.pending ∧
      (s.applyResult r order).1.backlog = s.backlog ++
        if (handleSubmitResult r s.submitState).2.2 then
          (order.filter fun id => decide (id ∉ s.queuedCancels)).map cancelSqe else [] := by
  have hn := handleSubmitResult_count r s.submitState
  have hnodup : order.Nodup := ho.nodup_iff.mpr s.pending.keys_nodup
  rcases hcase : handleSubmitResult r s.submitState with ⟨st, n, callback⟩
  have hnext : s.submitState.next (.result r) = st := congrArg Prod.fst hcase
  rw [hcase] at hn
  unfold applyResult
  rw [hcase, hnext]
  cases callback with
  | false =>
    simp only [Bool.false_eq_true, if_false, List.append_nil]
    exact ⟨rfl, hn, rfl, rfl⟩
  | true =>
    have hframe := (s.withSubmitState st).queueCancels_frame order
    simp only [if_true]
    refine ⟨?_, hn, hframe.pending, ((s.withSubmitState st).queueCancels_backlog hnodup).1⟩
    simp only [submitState, hframe.stats, hframe.shuttingDown]
    rfl

/-- A transition leaves the submit-error state alone or is one event on it. -/
def Tallied (s s' : Shard) : Prop :=
  s'.submitState = s.submitState ∨ ∃ e, s'.submitState = s.submitState.next e

/-- Raising the shutdown flag is an event. -/
theorem tallied_of_down {s s' : Shard} (herrors : s'.stats.submitErrors = s.stats.submitErrors)
    (hstreak : s'.consecutiveSubmitErrors = s.consecutiveSubmitErrors)
    (hlogged : s'.submitErrorLogged = s.submitErrorLogged)
    (hdown : s'.shuttingDown = s.shuttingDown ∨ s'.shuttingDown = true) : s.Tallied s' := by
  unfold Tallied submitState
  rw [herrors, hstreak, hlogged]
  rcases hdown with hsame | hdown
  · left
    rw [hsame]
  · right
    exact ⟨.shutdown, by rw [hdown]; rfl⟩

theorem intakeRead_tallied {c : Params} {s s' : Shard} {m : ReadMsg} {base : Nat}
    (h : s.intakeRead c m base = some s') : s.Tallied s' := by
  left
  unfold intakeRead at h
  split at h
  · cases h
    rfl
  · simp only [Option.bind_eq_bind, Option.bind_eq_some_iff] at h
    obtain ⟨⟨k, head, region⟩, _, h⟩ := h
    simp only at h
    split at h
    · cases h
      rfl
    · split at h
      · cases h
      · split at h
        · cases h
          rfl
        · simp only [Option.bind_eq_some_iff, Option.pure_def, Option.some.injEq] at h
          obtain ⟨sqe, _, rfl⟩ := h
          rfl

theorem intakeMsg_tallied {c : Params} {s s' : Shard} {m : Msg} {base : Nat} {order : List Nat}
    (h : s.intakeMsg c m base order = some s') : s.Tallied s' := by
  cases m with
  | read m => exact intakeRead_tallied h
  | cancel id =>
    cases h
    rcases hp : s.pending.lookup id with - | p
    · have hmiss : s.cancel id = s.toLedger := by simp only [Ledger.cancel, hp]
      simp only [hmiss]
      exact Or.inl rfl
    · have hhit : s.cancel id = { s.toLedger with
          pending := s.pending.insert id { p with cancelRequested := true } }.queueCancel id := by
        simp only [Ledger.cancel, hp]
      have hframe := Ledger.queueCancel_frame { s.toLedger with
        pending := s.pending.insert id { p with cancelRequested := true } } id
      simp only [hhit]
      apply tallied_of_down
      · exact congrArg DriverStats.submitErrors hframe.stats
      · rfl
      · rfl
      · exact Or.inl hframe.shuttingDown
  | shutdown =>
    cases h
    have hframe := Ledger.queueCancels_frame { s.toLedger with shuttingDown := true } order
    apply tallied_of_down
    · exact congrArg DriverStats.submitErrors hframe.stats
    · rfl
    · rfl
    · exact Or.inr hframe.shuttingDown

theorem intake_tallied (c : Params) (s : Shard) (base : Nat) (order : List Nat) :
    s.Tallied (s.intake c base order) := by
  unfold intake
  split
  · split
    · apply tallied_of_down
      · rfl
      · rfl
      · rfl
      · cases hd : s.shuttingDown
        · cases s.disconnected
          · exact Or.inl rfl
          · exact Or.inr rfl
        · exact Or.inl rfl
    · rename_i m rest hchan
      simp only
      cases ht : ({ s with chan := rest, budget := { s.budget with
          messages := s.budget.messages + 1 } } : Shard).intakeMsg c m base order with
      | none => exact Or.inl rfl
      | some t =>
        have htally := intakeMsg_tallied ht
        exact htally
  · exact Or.inl rfl

theorem applyResult_tallied (s : Shard) (r : Except IoError Nat) {order : List Nat}
    (ho : order.Perm s.pending.keys) : s.Tallied (s.applyResult r order).1 :=
  Or.inr ⟨.result r, (s.applyResult_frame r ho).1⟩

theorem submitRing_tallied {c : Params} {s s' : Shard} {kernelWork : Bool}
    {r : Except IoError Nat} {order : List Nat} {n : Nat} (ho : order.Perm s.pending.keys)
    (h : s.submitRing c kernelWork r order = some (s', n)) : s.Tallied s' := by
  rw [submitRing_eq] at h
  simp only at h
  split at h
  · cases h
    exact Or.inl rfl
  · obtain ⟨t, ht, happly⟩ := Option.map_eq_some_iff.mp h
    have hsame : t.submitState = s.submitState ∧ t.pending = s.pending := by
      cases r with
      | ok k =>
        simp only [enter] at ht
        split at ht
        · cases ht
        · cases ht
          exact ⟨rfl, rfl⟩
      | error e =>
        cases ht
        exact ⟨rfl, rfl⟩
    have htally := t.applyResult_tallied r (hsame.2 ▸ ho)
    rw [happly] at htally
    unfold Tallied at htally ⊢
    rwa [hsame.1] at htally

theorem step_tallied {c : Params} {s s' : Shard} {e : Event} (h : step c s e = some s') :
    s.Tallied s' := by
  cases (step_transition h).2 with
  | send ht =>
    obtain ⟨_, _, _, rfl⟩ := sendMsg_eq_some ht
    exact Or.inl rfl
  | join hj ht =>
    obtain ⟨_, _, _, rfl⟩ := sendMsg_eq_some ht
    exact Or.inl rfl
  | signal | closeRx | hangup | cqSignal | wake | drainCq | drainWake | closeSem | dropRx =>
    exact Or.inl rfl
  | post hl =>
    obtain ⟨_, _, _, hpost⟩ := Ledger.post_eq_some hl
    exact hpost ▸ Or.inl rfl
  | @intake base order hp ho => exact s.intake_tallied c base order
  | submitBefore hp ho ht | submitAfter hp ho ht =>
    have htally := submitRing_tallied ho ht
    exact htally
  | @reap fileLen late hp =>
    obtain ⟨_, ⟨_, ht⟩ | ⟨_, _, ht⟩ | ht | ⟨_, q, rest, l, _, hl, ht⟩⟩ :=
      reap_cases c s fileLen late
    · exact ht ▸ Or.inl rfl
    · exact ht ▸ Or.inl rfl
    · exact ht ▸ Or.inl rfl
    · have hframe := Ledger.reapCqe_frame hl
      rw [ht]
      apply tallied_of_down
      · exact hframe.submitErrors
      · rfl
      · rfl
      · exact Or.inl hframe.shuttingDown
  | @endTurn overflow now now' hp =>
    left
    obtain ⟨m, n, hover⟩ := s.updateCqOverflow_eq overflow
    rcases finishTurn_cases c (s.updateCqOverflow overflow) now now' with
      ⟨_, _, _, ht⟩ | ⟨_, deadline, ht⟩ | ⟨deadline, ht⟩
    · rw [ht, hover]
      rfl
    · rw [ht, hover]
      rfl
    · rw [ht, hover]
      rfl

/-- The submit-error state of a running loop is that of some history. -/
theorem Reach.submitState {c : Params} {s : Shard} (h : Reach c s) :
    ∃ es, s.submitState = .after es := by
  apply Reachable.invariant ⟨[], rfl⟩ _ h
  rintro s e s' _ ⟨es, hes⟩ _ hstep
  rcases step_tallied hstep with hsame | ⟨ev, hnext⟩
  · exact ⟨es, hsame.trans hes⟩
  · exact ⟨es ++ [ev], by rw [hnext, hes, SubmitState.after_concat]⟩

end Shard

/-- Submit-error escalation over all histories: what the counters hold before a result, when
the callback runs on it, what is returned, and what happens to the loop's queues. A build with
overflow checks goes through the same states as long as every streak fits its word. -/
theorem submit_escalation_exact (es : List SubmitEvent) (r : Except IoError Nat) (s : Shard)
    (order : List Nat) (hs : s.submitState = .after es) (ho : order.Perm s.pending.keys) :
    let s' := (s.applyResult r order).1
    s.stats.submitErrors = (submitResults es).countP countedError % 2 ^ 64 ∧
    s.consecutiveSubmitErrors = errorStreak es % 2 ^ 32 ∧
    ((∀ past, past <+: es → errorStreak past < 2 ^ 32) →
      SubmitState.afterChecked es = some s.submitState ∧
        s.consecutiveSubmitErrors = errorStreak es) ∧
    ((∃ past, past <+: es ∧ 2 ^ 32 ≤ errorStreak past) → SubmitState.afterChecked es = none) ∧
    s'.submitState = .after (es ++ [SubmitEvent.result r]) ∧
    (callbackAt es r = true ↔
      maxConsecutiveSubmitErrors ≤ errorStreak (es ++ [SubmitEvent.result r]) ∧
      ¬ Escalated es ∧ SubmitEvent.shutdown ∉ es) ∧
    (∀ past r', past ++ [SubmitEvent.result r'] <+: es → callbackAt past r' = true →
      callbackAt es r = false) ∧
    (s.applyResult r order).2 = acceptedCount r ∧
    s'.pending = s.pending ∧
    s'.backlog = s.backlog ++ if callbackAt es r then
      (order.filter fun id => decide (id ∉ s.queuedCancels)).map cancelSqe else [] := by
  obtain ⟨hstate, hn, hpending, hbacklog⟩ := s.applyResult_frame r ho
  have htells := SubmitState.tells_after es
  rw [← hs] at htells
  refine ⟨htells.errors, htells.streak, ?_, ?_, ?_, callbackAt_iff es r, ?_, hn, hpending, ?_⟩
  · intro hfits
    obtain ⟨st, hst⟩ := Option.isSome_iff_exists.mp ((SubmitState.afterChecked_isSome es).mpr hfits)
    refine ⟨by rw [hst, hs, SubmitState.afterChecked_eq_some hst], ?_⟩
    have hword := htells.streak
    rwa [Nat.mod_eq_of_lt (hfits es (List.prefix_refl _))] at hword
  · rintro ⟨past, hpast, hwide⟩
    rw [← Option.not_isSome_iff_eq_none, SubmitState.afterChecked_isSome]
    exact fun hfits => absurd (hfits past hpast) (not_lt.mpr hwide)
  · rw [hstate, hs, SubmitState.after_concat]
  · intro past r' hlater hcallback
    exact callbackAt_once hcallback hlater
  · rw [hbacklog, hs, callbackAt]

/-- Two reads were taken in and the first of them was cancelled. -/
def cancelledPair : List Event :=
  [.send 0 (.read ⟨1, 0, 0, 2, 1, ⟨0, none, none⟩⟩),
    .send 0 (.read ⟨2, 0, 8, 2, 1, ⟨0, none, none⟩⟩), .send 0 (.cancel 1), .signal 0, .wake,
    .drainCq, .drainWake, .intake 0 [], .intake 0 [1], .intake 0 [2, 1], .intake 0 [1, 2]]

/-- The loop after `cancelledPair`, at the 127th error in a row. -/
def beforeEscalation : Shard :=
  ((run (Shard.step ⟨2, 2, 2 ^ 64 - 1, 5⟩) .init cancelledPair).getD .init).withSubmitState
    (.after (List.replicate 127 (.result (.error (.os 1)))))

/-- At the 128th error in a row the callback runs: it cancels the read that has no cancel yet,
keeps both reads, and does not run again. -/
theorem submit_escalation_exact_escalates :
    let es := List.replicate 127 (SubmitEvent.result (.error (.os 1)))
    let s := beforeEscalation
    let s' := (s.applyResult (.error (.os 1)) [1, 2]).1
    s.stats.submitErrors = 127 ∧ s.consecutiveSubmitErrors = 127 ∧ s.shuttingDown = false ∧
      callbackAt es (.error (.os 1)) = true ∧ s'.shuttingDown = true ∧
      s.pending.keys = [1, 2] ∧ s'.pending = s.pending ∧
      s.queuedCancels = {1} ∧ s'.backlog = s.backlog ++ [cancelSqe 2] ∧
      callbackAt (es ++ [.result (.error (.os 1))]) (.error (.os 1)) = false := by
  have h := submit_escalation_exact (List.replicate 127 (.result (.error (.os 1))))
    (.error (.os 1)) beforeEscalation [1, 2] (Shard.submitState_withSubmitState _ _)
    (by decide +kernel)
  obtain ⟨herrors, hstreak, _, _, _, _, _, _, hpending, hbacklog⟩ := h
  have hruns : callbackAt (List.replicate 127 (.result (.error (.os 1)))) (.error (.os 1)) =
      true := by
    decide +kernel
  rw [if_pos hruns] at hbacklog
  refine ⟨herrors.trans (by decide +kernel), hstreak.trans (by decide +kernel), by decide +kernel,
    hruns, by decide +kernel, by decide +kernel, hpending, by decide +kernel,
    hbacklog.trans ?_, by decide +kernel⟩
  exact congrArg (beforeEscalation.backlog ++ ·) (by decide +kernel)

/-- The streak of a run of errors is its length, and its `u32` wraps. -/
theorem streak_replicate (n : Nat) :
    errorStreak (List.replicate n (.result (.error (.os 1)))) = n := by
  have hresults : submitResults (List.replicate n (.result (.error (.os 1)))) =
      List.replicate n (.error (.os 1)) := by
    induction n with
    | zero => rfl
    | succ n ih => rw [List.replicate_succ, List.replicate_succ, ← ih]; rfl
  have hall : (List.replicate n (Except.error (.os 1) : Except IoError Nat)).rtakeWhile
      countedError = List.replicate n (.error (.os 1)) := by
    rw [List.rtakeWhile_eq_self_iff]
    intro r hr
    rw [List.eq_of_mem_replicate hr]
    rfl
  rw [errorStreak, hresults, hall, List.length_replicate]

/-- The counter of a streak of `2 ^ 32` errors stands at zero. -/
theorem streak_not_held :
    (SubmitState.after (List.replicate (2 ^ 32) (.result (.error (.os 1))))).consecutive = 0 ∧
      errorStreak (List.replicate (2 ^ 32) (.result (.error (.os 1)))) = 2 ^ 32 := by
  refine ⟨?_, streak_replicate _⟩
  rw [(SubmitState.tells_after _).streak, streak_replicate, Nat.mod_self]

end Uring
