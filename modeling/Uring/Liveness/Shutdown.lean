import Uring.Liveness.Answer

/-!
# Shutdown ends

A thread that was asked to shut down exits, whatever the kernel does: it drains or its
deadline passes, since the clock goes on. Then every read ever sent to it has been answered
or its sender was dropped, so no caller waits on a thread that is gone, and a join returns
although a device hangs.
-/

namespace Uring

open Uring.Core

namespace Shard

section Step

variable {c : Params} {s s' : Shard} {e : Event}

/-- Taking a shutdown request enters shutdown. -/
theorem takes_shutdown (h : step c s e = some s') (halive : s'.phase ≠ .aborted)
    (hm : Msg.shutdown ∈ (s.takes c e).map Prod.fst) : s'.shuttingDown = true := by
  cases (step_transition h).2 with
  | @intake base order hp ho =>
    unfold takes at hm
    by_cases hcan : s.budget.canTakeMessage = true
    · rcases hchan : s.chan with - | ⟨m, rest⟩
      · simp [hchan] at hm
      · simp only [hcan, if_true, hchan, List.take_succ_cons, List.take_zero, List.map_cons,
          List.map_nil, List.mem_singleton] at hm
        subst hm
        unfold intake
        rw [if_pos hcan, hchan]
        exact (Ledger.queueCancels_frame _ _).shuttingDown
    · simp [hcan] at hm
  | _ => cases hm

/-- Taking a message is no matter of the deadline. -/
theorem intakeMsg_deadline {m : Msg} {base : Nat} {order : List Nat}
    (h : s.intakeMsg c m base order = some s') : s'.drainDeadline = s.drainDeadline := by
  cases m with
  | cancel | shutdown =>
    cases h
    rfl
  | read r =>
    simp only [intakeMsg, intakeRead] at h
    split at h
    · cases h
      rfl
    · simp only [Option.bind_eq_bind, Option.bind_eq_some_iff] at h
      obtain ⟨_, _, h⟩ := h
      split at h
      · cases h
        rfl
      · split at h
        · cases h
        · split at h
          · cases h
            rfl
          · simp only [Option.bind_eq_some_iff, Option.pure_def, Option.some.injEq] at h
            obtain ⟨_, _, rfl⟩ := h
            rfl

theorem intake_deadline (base : Nat) (order : List Nat) :
    (s.intake c base order).drainDeadline = s.drainDeadline := by
  unfold intake
  split
  · split
    · rfl
    · rename_i m rest _
      simp only
      cases hmsg : ({ s with
          chan := rest
          budget := { s.budget with messages := s.budget.messages + 1 }
        } : Shard).intakeMsg c m base order with
      | none => rfl
      | some t =>
        have hkeep := intakeMsg_deadline hmsg
        exact hkeep
  · rfl

theorem submitRing_deadline {kernelWork : Bool} {r : Except IoError Nat} {order : List Nat}
    {n : Nat} (h : s.submitRing c kernelWork r order = some (s', n)) :
    s'.drainDeadline = s.drainDeadline := by
  rw [submitRing_eq] at h
  simp only at h
  split at h
  · cases h
    rfl
  · obtain ⟨t, ht, happly⟩ := Option.map_eq_some_iff.mp h
    have hentered : t.drainDeadline = s.drainDeadline := by
      unfold enter at ht
      split at ht
      · split at ht <;> cases ht
        rfl
      · cases ht
        rfl
    have happlied : (t.applyResult r order).1.drainDeadline = t.drainDeadline := by
      unfold applyResult
      simp only
      split <;> rfl
    rw [happly] at happlied
    exact happlied.trans hentered

/-- The end of a turn in shutdown exits, or its clock has not reached the deadline, which is
the one set before. -/
theorem endTurn_down {overflow now now' : Nat} (h : step c s (.endTurn overflow now now') = some s')
    (hd : s.shuttingDown = true) : (∃ leaked, s'.phase = .closing leaked) ∨
      ∃ d, s'.drainDeadline = some d ∧ now' < d ∧ ∀ d', s.drainDeadline = some d' → d' = d := by
  cases (step_transition h).2 with
  | endTurn hp =>
    obtain ⟨m, n, hover⟩ := s.updateCqOverflow_eq overflow
    rw [hover]
    unfold finishTurn
    rw [if_pos hd]
    split
    · exact Or.inl ⟨false, rfl⟩
    · simp only
      split
      · exact Or.inl ⟨true, rfl⟩
      · rename_i hlate
        refine Or.inr ⟨_, rfl, not_le.mp hlate, fun d' hd' => ?_⟩
        rw [hd', Option.getD_some]

/-- The drain deadline is set once. -/
theorem drainDeadline_step (h : step c s e = some s') {d : Nat} (hd : s.drainDeadline = some d) :
    s'.drainDeadline = some d := by
  cases (step_transition h).2 with
  | send | join | signal | hangup | closeRx | cqSignal | post =>
    rw [(standsStill_of_step h rfl).drainDeadline]
    exact hd
  | wake | drainCq | drainWake | closeSem | dropRx => exact hd
  | intake => exact (intake_deadline _ _).trans hd
  | submitBefore _ _ ht | submitAfter _ _ ht => exact (submitRing_deadline ht).trans hd
  | @reap fileLen late hp =>
    obtain ⟨_, ⟨_, heq⟩ | ⟨_, _, heq⟩ | heq | ⟨_, q, rest, l, _, _, heq⟩⟩ :=
      reap_cases c s fileLen late
    · exact (congrArg drainDeadline heq).trans hd
    · exact (congrArg drainDeadline heq).trans hd
    · exact (congrArg drainDeadline heq).trans hd
    · exact (congrArg drainDeadline heq).trans hd
  | @endTurn overflow now now' hp =>
    obtain ⟨m, n, hover⟩ := s.updateCqOverflow_eq overflow
    rw [hover]
    unfold finishTurn
    simp only [hd, Option.getD_some]
    split
    · split
      · rfl
      · split <;> rfl
    · rfl

/-- A receiver is dropped in shutdown. -/
theorem down_of_dropRx (hc : s.Control) (h : step c s .dropRx = some s') :
    s'.shuttingDown = true := by
  cases (step_transition h).2 with
  | dropRx hp => exact hc.closing _ hp

/-- Behind the decision to exit the thread closes its semaphore and drops its receiver. -/
theorem closing_step {leaked : Bool} (h : step c s e = some s') (hp : s.phase = .closing leaked) :
    s'.phase = .closing leaked ∨ s'.phase = .exited leaked :=
  (exiting_phase (Or.inl hp) h).imp_left fun heq => heq.trans hp

end Step

section Run

variable {c : Params} {ok : Shard → Event → Prop} {x : Execution (step c) ok init} {n : Nat}

/-- The clock that the thread reads at the end of its turns passes every time. -/
def ClockRuns (x : Execution (step c) ok init) : Prop :=
  ∀ t, ∃ n, ∀ m, n ≤ m → ∀ overflow now now', x.label m = .endTurn overflow now now' → t ≤ now'

theorem down_mono (x : Execution (step c) ok init) {k l : Nat} (hkl : k ≤ l)
    (hd : (x.state k).shuttingDown = true) : (x.state l).shuttingDown = true := by
  induction l, hkl using Nat.le_induction with
  | base => exact hd
  | succ l hl ih =>
    have hctl := Reach.control (x.reachable l)
    exact (step_move hctl (any_allows _ _) (x.next l)).1.shutdown_mono.1 ih

theorem deadline_mono (x : Execution (step c) ok init) {k l d : Nat} (hkl : k ≤ l)
    (hd : (x.state k).drainDeadline = some d) : (x.state l).drainDeadline = some d := by
  induction l, hkl using Nat.le_induction with
  | base => exact hd
  | succ l hl ih => exact drainDeadline_step (x.next l) ih

/-- A shutdown request is taken. -/
theorem Scheduled.shutdown (hs : Scheduled x) (hreq : Msg.shutdown ∈ (x.state n).chan) :
    ∃ k, n ≤ k ∧ (x.state k).shuttingDown = true := by
  obtain ⟨i, hi⟩ := List.mem_iff_getElem?.mp hreq
  refine hs.taken (Q := fun s => s.shuttingDown = true) (fun k htake => ?_) (fun k _ hlabel => ?_)
    i n hi
  · exact takes_shutdown (x.next k) (alive x (k + 1)) htake
  · exact down_of_dropRx (Reach.control (x.reachable k)) (hlabel ▸ x.next k)

/-- A thread that has not decided to exit ends its turns. -/
theorem Scheduled.endTurn (hs : Scheduled x) (hrun : ∀ m, n ≤ m → (x.state m).phase.rank ≤ 7) :
    ∃ m, n ≤ m ∧ ∃ overflow now now', x.label m = .endTurn overflow now now' := by
  refine hs.comes stepsLeft (fun m hm => ?_) fun m hm => ?_
  · have hrank := hrun m hm
    cases hp : (x.state m).phase with
    | exited leaked =>
      rw [hp] at hrank
      exact absurd (show 9 ≤ 7 from hrank) (by decide)
    | aborted =>
      rw [hp] at hrank
      exact absurd hrank (by decide)
    | _ => rfl
  · cases hloop : (x.label m).ofLoop with
    | false => exact Or.inr (Or.inr ⟨rfl, (standsStill_of_step (x.next m) hloop).stepsLeft⟩)
    | true =>
      rcases stepsLeft_lt (x.next m) hloop with hlt | ⟨hend, _⟩
      · exact Or.inr (Or.inl ⟨rfl, hlt⟩)
      · left
        cases hlabel : x.label m with
        | endTurn overflow now now' => exact ⟨overflow, now, now', rfl⟩
        | _ =>
          rw [hlabel] at hend
          cases hend

/-- A thread in shutdown decides to exit: it drains, or the clock passes its deadline. -/
theorem Scheduled.closing (hs : Scheduled x) (hclock : ClockRuns x)
    (hd : (x.state n).shuttingDown = true) :
    ∃ k, n ≤ k ∧ ∃ leaked, (x.state k).Exiting leaked := by
  by_contra hnever
  have hrun : ∀ m, n ≤ m → (x.state m).phase.rank ≤ 7 := by
    intro m hm
    cases hp : (x.state m).phase with
    | closing leaked => exact absurd ⟨m, hm, leaked, Or.inl hp⟩ hnever
    | exited leaked => exact absurd ⟨m, hm, leaked, Or.inr hp⟩ hnever
    | aborted => exact absurd hp (alive x m)
    | _ => decide
  have hend (m : Nat) (hm : n ≤ m) {overflow now now' : Nat}
      (hlabel : x.label m = .endTurn overflow now now') :
      ∃ d, (x.state (m + 1)).drainDeadline = some d ∧ now' < d ∧
        ∀ d', (x.state m).drainDeadline = some d' → d' = d := by
    rcases endTurn_down (hlabel ▸ x.next m) (down_mono x hm hd) with ⟨leaked, hp⟩ | hset
    · exact absurd ⟨m + 1, by omega, leaked, Or.inl hp⟩ hnever
    · exact hset
  -- the first turn's end sets the deadline, a later one finds it passed
  obtain ⟨m, hm, _, _, _, hlabel⟩ := hs.endTurn hrun
  obtain ⟨d, hset, _⟩ := hend m hm hlabel
  obtain ⟨t, ht⟩ := hclock d
  obtain ⟨k, hk, overflow, now, now', hlabel'⟩ := hs.endTurn (n := max (m + 1) t)
    fun l hl => hrun l (by omega)
  obtain ⟨d', _, hlt, hsame⟩ := hend k (by omega) hlabel'
  have hle := ht k (by omega) overflow now now' hlabel'
  have heq := hsame d (deadline_mono x (by omega) hset)
  omega

/-- A thread that has decided to exit does so. -/
theorem Scheduled.exited (hs : Scheduled x) {leaked : Bool} (he : (x.state n).Exiting leaked) :
    ∃ k, n ≤ k ∧ (x.state k).phase = .exited leaked := by
  rcases he with hp | hp
  · have hleads : LeadsTo x.state (fun s => s.phase = .closing leaked)
        fun s => s.phase = .exited leaked := by
      refine LeadsTo.of_unless (fun k hp => (closing_step (x.next k) hp).symm) fun k hforever => ?_
      obtain ⟨m, hm, hfalse⟩ := hs.comes (n := k) (K := fun _ => False) stepsLeft
        (fun m hm => by rw [hforever m hm]; rfl) fun m hm => by
          cases hloop : (x.label m).ofLoop with
          | false => exact Or.inr (Or.inr ⟨rfl, (standsStill_of_step (x.next m) hloop).stepsLeft⟩)
          | true =>
            rcases stepsLeft_lt (x.next m) hloop with hlt | ⟨_, hend, _⟩
            · exact Or.inr (Or.inl ⟨rfl, hlt⟩)
            · rw [hforever m hm] at hend
              cases hend
      exact hfalse.elim
    exact hleads n hp
  · exact ⟨n, le_refl n, hp⟩

/-- A thread that was asked to shut down exits. -/
theorem Scheduled.asked (hs : Scheduled x) (hclock : ClockRuns x) (hreq : (x.state n).Stopping) :
    ∃ k leaked, n ≤ k ∧ (x.state k).phase = .exited leaked := by
  have hdown : ∃ k, n ≤ k ∧ (x.state k).shuttingDown = true := by
    rcases hreq with hdown | hchan
    · exact ⟨n, le_refl n, hdown⟩
    · exact hs.shutdown hchan
  obtain ⟨k, hk, hd⟩ := hdown
  obtain ⟨l, hl, leaked, hclosing⟩ := hs.closing hclock hd
  obtain ⟨m, hm, hp⟩ := hs.exited hclosing
  exact ⟨m, leaked, by omega, hp⟩

/-- A thread that was asked to shut down exits, whatever the kernel does or leaves undone, and
then every read ever sent to it has been answered or its sender dropped. -/
theorem shutdown_terminates (c : Params) (ok : Shard → Event → Prop)
    (x : Execution (step c) ok init) (hs : Scheduled x) (hclock : ClockRuns x) (n : Nat)
    (hreq : (x.state n).joined = true ∨ (x.state n).shuttingDown = true) :
    ∃ k leaked, n ≤ k ∧ (x.state k).phase = .exited leaked ∧
      (leaked = false → ∀ id, id ∉ (x.state k).pending) ∧
      ∀ id ∈ (x.state k).hist.issued, (x.state k).mail.Settled id := by
  have hstop : (x.state n).Stopping := hreq.elim (Reach.control (x.reachable n)).joined Or.inl
  obtain ⟨m, leaked, hm, hp⟩ := hs.asked hclock hstop
  have hr : Reach c (x.state m) := (x.reachable m).mono fun _ _ _ => trivial
  refine ⟨m, leaked, hm, hp, ?_, fun id hid => Reach.settled hr hp hid⟩
  rintro rfl
  exact Reach.drained hr (Or.inr hp)

end Run

/-- A read is handed to a device that never completes it. Its driver is shut down, the first
turn sets the deadline and the second one passes it, and the caller closes its receiver. -/
def hungRead : List Event :=
  [.send 0 (.read ⟨1, 0, 5, 6, 1, ⟨0, none, none⟩⟩), .join 0, .signal 0, .wake, .drainCq,
    .drainWake, .intake 64 [], .intake 64 [1], .intake 64 [1], .submit false (.ok 1) [1],
    .reap (.ok 12) false, .submit false (.ok 1) [1], .endTurn 0 0 0, .wake, .drainCq, .drainWake,
    .intake 64 [1], .submit false (.ok 0) [1], .reap (.ok 12) false, .submit false (.ok 0) [1],
    .endTurn 0 4 5, .closeSem, .closeRx 1, .dropRx]

theorem hungRead_runs : (run (step oneSlot) init hungRead).isSome = true := by
  decide +kernel

/-- The state after the thread gave up its device. -/
def givenUp : Shard := (run (step oneSlot) init hungRead).get hungRead_runs

/-- The caller's dropped handle changes nothing any more. -/
theorem givenUp_closeRx : run (step oneSlot) givenUp [.closeRx 1] = some givenUp := by
  have hphase : givenUp.phase ≠ .aborted := by decide +kernel
  have hclosed : 1 ∈ givenUp.mail.closed := by decide +kernel
  simp only [run, step, if_neg hphase, Option.bind_some, Mail.close,
    Finset.insert_eq_of_mem hclosed]

/-- A device hangs, and the caller's handle is all that is left. -/
def hungForever : Execution (step oneSlot) anyLabel init :=
  .lasso (by decide) (Option.some_get hungRead_runs).symm givenUp_closeRx (admitted_any _)

theorem hungForever_exited {n : Nat} (hn : hungRead.length ≤ n) :
    (hungForever.state n).phase = .exited true := by
  obtain ⟨k, hk, hrun⟩ := Execution.lasso_tail (by decide) (Option.some_get hungRead_runs).symm
    givenUp_closeRx (admitted_any _) hn
  obtain rfl : k = 0 := Nat.lt_one_iff.mp hk
  have hphase : givenUp.phase = .exited true := by decide +kernel
  rw [← hphase]
  exact congrArg phase (Option.some.inj hrun).symm

/-- The thread runs until it exits. -/
theorem hungForever_scheduled : Scheduled hungForever := by
  intro n hrecv
  rcases lt_or_ge n hungRead.length with hlt | hge
  · refine ⟨hungRead.length - 1, by omega, ?_⟩
    decide +kernel
  · rw [hungForever_exited hge] at hrecv
    cases hrecv

theorem hungForever_clock : ClockRuns hungForever := by
  refine fun t => ⟨hungRead.length, fun m hm overflow now now' hlabel => ?_⟩
  have hmem := Execution.lasso_label (by decide) (Option.some_get hungRead_runs).symm
    givenUp_closeRx (admitted_any _) hm
  rw [List.mem_singleton] at hmem
  exact absurd (hmem.symm.trans hlabel) nofun

/-- The device keeps the read forever, and the thread exits all the same. -/
theorem shutdown_terminates_hung : ∃ n, (hungForever.state n).joined = true ∧
    (hungForever.state n).mail.sends = [] ∧ ∃ k leaked, n ≤ k ∧
      (hungForever.state k).phase = .exited leaked ∧
      (leaked = false → ∀ id, id ∉ (hungForever.state k).pending) ∧
      ∀ id ∈ (hungForever.state k).hist.issued, (hungForever.state k).mail.Settled id := by
  have hrun := Execution.lasso_prefix (by decide) (Option.some_get hungRead_runs).symm
    givenUp_closeRx (admitted_any _) (by decide : 2 < hungRead.length)
  have hasked : (run (step oneSlot) init (hungRead.take 2)).all (fun s =>
      s.joined && s.mail.sends == []) = true := by
    decide +kernel
  rw [hrun, Option.all_some, Bool.and_eq_true, beq_iff_eq] at hasked
  exact ⟨2, hasked.1, hasked.2, shutdown_terminates oneSlot anyLabel hungForever
    hungForever_scheduled hungForever_clock 2 (Or.inl hasked.1)⟩

end Shard

end Uring
