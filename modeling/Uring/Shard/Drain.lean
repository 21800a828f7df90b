import Uring.Shard.Panic

/-!
# Progress of the drain

Once a loop is shutting down it takes no further read in, and every completion of a
pending read finishes it, whatever the kernel answers. The table shrinks by exactly one
entry per read completion.
-/

namespace Uring

open Uring.Core

/-- Results of the type `i32` whose negation is one too; any length for a file. -/
def i32Answers : Answers where
  read _ res _ := -(2 ^ 31) < res ∧ res < 2 ^ 31
  fileLen _ _ := True

/-- The logical range lies in the region and the region in its allocation. -/
structure Pending.Fits (usizeMax : Nat) (p : Pending) : Prop where
  range : p.head + p.want ≤ p.regionLen
  room : p.pad + p.regionLen ≤ p.buf.bytes.length
  small : p.buf.bytes.length ≤ usizeMax / 2
  nread_le : p.nread ≤ p.regionLen

/-- A region covers the logical range whatever its offset. -/
theorem alignedGeometry_covers {usizeMax offset len align k hd r : Nat}
    (h : alignedGeometry usizeMax offset len align = some (k, hd, r)) : hd + len ≤ r := by
  unfold alignedGeometry at h
  split at h
  · cases h
  · split at h
    · cases h
      omega
    · simp only at h
      split at h
      · cases h
      · simp only [Option.bind_eq_bind, Option.bind_eq_some_iff, Option.pure_def,
          Option.some.injEq, Prod.mk.injEq] at h
        obtain ⟨covered, hc, region, hr, rfl, rfl, rfl⟩ := h
        obtain ⟨rfl, _⟩ := checkedAdd_eq_some.mp hc
        exact (checkedNextMultipleOf_spec hr).2.1

namespace Pending.Fits

variable {usizeMax : Nat} {p q : Pending}

/-- Other contents of the same length, flags and senders fit as well. -/
theorem congr (h : p.Fits usizeMax) (hs : p.SameRegion q)
    (hl : q.buf.bytes.length = p.buf.bytes.length) (hn : q.nread ≤ p.regionLen) :
    q.Fits usizeMax where
  range := by
    rw [hs.head, hs.want, hs.regionLen]
    exact h.range
  room := by
    rw [hs.pad, hs.regionLen, hl]
    exact h.room
  small := hl ▸ h.small
  nread_le := hs.regionLen ▸ hn

/-- Whatever was read, the result can be cut out of the buffer. -/
theorem finishOk_isSome (h : p.Fits usizeMax) (n retries : Nat) (closed : Bool) :
    ∃ q outcome, finishOk usizeMax { p with nread := n, transientRetries := retries } closed =
      some (q, .finish outcome) := by
  have hsmall := h.small
  obtain ⟨q, bytes, hd⟩ := deliver_isSome
    (p := { p with nread := n, transientRetries := retries }) closed h.range h.room
    (show p.buf.bytes.length ≤ usizeMax by omega)
  simp only [finishOk, hd, Option.bind_eq_bind, Option.bind_some, Option.pure_def]
  exact ⟨_, _, rfl⟩

/-- During shutdown every result finishes the read. -/
theorem reapRead_stopped (h : p.Fits usizeMax) (hu : WideUsize usizeMax) (id : Nat) {res : Int}
    (hres : res < 2 ^ 31) (closed : Bool) (fileLen : Except IoError Nat) :
    ∃ q outcome, reapRead usizeMax p id res true closed fileLen = some (q, .finish outcome) := by
  have hsmall := h.small
  have hroom := h.room
  have hrange := h.range
  have hn := h.nread_le
  unfold reapRead
  simp only [Bool.or_true]
  split
  · unfold reapError
    split
    · exact ⟨_, _, rfl⟩
    · exact ⟨_, _, rfl⟩
  · split
    · exact h.finishOk_isSome p.nread p.transientRetries closed
    · have hsum : checkedAdd usizeMax p.nread res.toNat = some (p.nread + res.toNat) := by
        refine checkedAdd_eq_some.mpr ⟨rfl, ?_⟩
        unfold WideUsize at hu
        omega
      have hlast : checkedAdd usizeMax p.head p.want = some (p.head + p.want) :=
        checkedAdd_eq_some.mpr ⟨rfl, by omega⟩
      simp only [hsum, reapProgress, hlast, Option.bind_eq_bind, Option.bind_some, if_true]
      split
      · exact h.finishOk_isSome (p.nread + res.toNat) 0 closed
      · exact ⟨_, _, rfl⟩

end Pending.Fits

namespace Ledger

/-- Every entry fits its allocation. -/
def Fitting (c : Params) (l : Ledger) : Prop := l.pending.All fun _ p => p.Fits c.usizeMax

/-- Every read result waiting in the completion queue is an `i32`. -/
def I32Results (l : Ledger) : Prop := ∀ q ∈ l.cq, q.sqe.isRead = true → q.res < 2 ^ 31

variable {c : Params}

/-- Every move keeps the entries inside their allocations, whatever the kernel answers. -/
theorem Fitting.move {w : Answers} {l l' : Ledger} {a : Actor} (h : l.Fitting c)
    (hm : Move c w l a l') : l'.Fitting c := by
  cases hm with
  | idle | overflow | send | closeRx | postCancel | reject | cancelMiss | submit | reapCancel
    | reapStale | dropChan => exact h
  | postRead res hk hd hw =>
    unfold writeBlock
    split
    · exact h
    · rename_i p hp
      have hfit := h _ p hp
      exact AList.All.insert h (hfit.congr (Pending.SameRead.of_bytes p _).toSameRegion
        (length_overwrite _ _ _) hfit.nread_le)
  | @accept m rest p sqe hc hd hp hs =>
    obtain ⟨base, k, head, r, cap, rfl, hg, _, hsmall, hroom⟩ := hp.built
    have hlen : (newPending m base k head r cap).buf.bytes.length = cap := List.length_replicate
    refine AList.All.insert h ⟨alignedGeometry_covers hg, ?_, ?_, Nat.zero_le _⟩
    · rw [hlen]
      exact hroom
    · rw [hlen]
      exact hsmall
  | @cancelHit id rest p hc hp =>
    have hfit := h id p hp
    unfold Fitting
    rw [queueCancel_pending]
    exact AList.All.insert h ⟨hfit.range, hfit.room, hfit.small, hfit.nread_le⟩
  | shutdown hc ho =>
    unfold Fitting
    rw [shutdown_pending]
    exact h
  | submitSweep errors hd ho =>
    unfold Fitting
    rw [shutdown_pending]
    exact h
  | resubmit hq hb hp hf hr =>
    obtain ⟨_, hsame, hbuf, _, _, _, _, hlt, _⟩ := reapRead_resubmit hr
    exact AList.All.insert h ((h _ _ hp).congr hsame.toSameRegion (by rw [hbuf]) hlt.le)
  | finish late hq hb hp hf hr ht => exact AList.All.erase h _
  | leak n hd =>
    refine AList.All.mapVal fun id p hp => ?_
    have hfit := h id p hp
    exact ⟨hfit.range, hfit.room, hfit.small, hfit.nread_le⟩

/-- The kernel posts only `i32` results. -/
theorem I32Results.move {l l' : Ledger} {a : Actor} (h : l.I32Results)
    (hm : Move c i32Answers l a l') : l'.I32Results := by
  have hrest {q : Cqe} {rest : List Cqe} (hq : l.cq = q :: rest) :
      ∀ x ∈ rest, x.sqe.isRead = true → x.res < 2 ^ 31 := fun x hx =>
    h x (by rw [hq]; exact List.mem_cons_of_mem _ hx)
  cases hm with
  | idle | overflow | send | closeRx | reject | accept | cancelMiss | submit | leak | dropChan =>
    exact h
  | postCancel res hk =>
    intro q hq hr
    rcases List.mem_append.mp hq with hq | hq
    · exact h q hq hr
    · rw [List.mem_singleton.mp hq] at hr
      cases hr
  | @postRead k ud file len off ptr data res hk hd hw =>
    obtain ⟨t, ht⟩ := l.postRead_frame k ⟨_, res⟩ ptr data
    rw [ht]
    intro q hq hr
    rcases List.mem_append.mp hq with hq | hq
    · exact h q hq hr
    · rw [List.mem_singleton.mp hq]
      exact hw.2
  | @cancelHit id rest p hc hp =>
    intro q hq
    rw [(queueCancel_frame _ id).cq] at hq
    exact h q hq
  | @shutdown rest order hc ho =>
    have hf := queueCancels_frame { l with chan := rest, shuttingDown := true } order
    exact fun q hq => h q (hf.cq ▸ hq)
  | @submitSweep order errors hd ho =>
    have hf := queueCancels_frame { ({ l with stats := { l.stats with
      submitErrors := errors } }.flush c.sqCapacity) with shuttingDown := true } order
    exact fun q hq => h q (hf.cq ▸ hq)
  | reapCancel hq hb => exact hrest hq
  | reapStale hq hb hp => exact hrest hq
  | resubmit hq hb hp hf hr => exact hrest hq
  | finish late hq hb hp hf hr ht => exact hrest hq

/-- During shutdown the completion of a read removes exactly its entry. -/
theorem Fitting.reapCqe_stopped {l : Ledger} (h : l.Fitting c) (hu : WideUsize c.usizeMax)
    (hi : l.I32Results) (hown : l.Ownership) (hsend : l.OwnSenders) (hd : l.shuttingDown = true)
    {q : Cqe}
    {rest : List Cqe} (hq : l.cq = q :: rest) (hb : q.userData &&& cancelBit = 0)
    (fileLen : Except IoError Nat) (late : Bool) : ∃ p p' outcome,
      l.pending.lookup q.userData = some p ∧
      { l with cq := rest }.reapCqe c.usizeMax q fileLen late =
        some ({ l with cq := rest }.finish q.userData q.userData p' outcome late) := by
  obtain ⟨p, hp⟩ := Option.isSome_iff_exists.mp (AList.lookup_isSome.mpr (hown.not_stale hq hb))
  have hread := (hown.isRead_iff (Ownership.reap_mem hq)).mpr hb
  have hres := hi q (by rw [hq]; exact List.mem_cons_self) hread
  obtain ⟨p', outcome, hr⟩ := (h _ p hp).reapRead_stopped hu q.userData hres (l.doneClosed p)
    fileLen
  have hdone : p'.done = some q.userData := (reapRead_finish hr).1.done.trans (hsend _ p hp)
  refine ⟨p, p', outcome, hp, ?_⟩
  have hr : reapRead c.usizeMax p q.userData q.res l.shuttingDown
      (doneClosed { l with cq := rest } p) fileLen = some (p', .finish outcome) := by
    rw [hd]
    exact hr
  simp only [reapCqe, hb, ne_eq, not_true_eq_false, if_false, hp, hr, Option.bind_eq_bind,
    Option.bind_some, hdone, Option.pure_def]

end Ledger

namespace Shard

/-- A read completion is consumed. -/
def takesRead (s : Shard) : Event → Bool
  | .reap _ _ => s.budget.canReap && (match s.cq with
    | [] => false
    | q :: _ => decide (q.userData &&& cancelBit = 0))
  | _ => false

/-- What one step may do during shutdown. -/
structure DrainStep (s : Shard) (e : Event) (s' : Shard) : Prop where
  down : s'.shuttingDown = true
  alive : s'.phase ≠ .aborted
  /-- No step inserts into the table. -/
  noInsert : ∀ id ∈ s'.pending, id ∈ s.pending
  /-- A read taken from the channel is answered with an error and its permits are released. -/
  rejected : ∀ base order m rest, e = .intake base order → s.budget.canTakeMessage = true →
    s.chan = .read m :: rest → s'.pending = s.pending ∧ s'.hist.queued = s.hist.queued ∧
      s'.mail = s.mail.send m.id (.error (.other "uring driver shutting down")) ∧
      s'.hist.released = s.hist.released ++ [m.permit]
  /-- A read's completion removes its entry and queues nothing. -/
  read : ∀ fileLen late q rest, e = .reap fileLen late → s.budget.canReap = true →
    s.cq = q :: rest → q.userData &&& cancelBit = 0 → q.userData ∈ s.pending ∧
      s'.pending = s.pending.erase q.userData ∧ s'.hist.queued = s.hist.queued
  /-- A cancel's completion removes and queues nothing. -/
  cancel : ∀ fileLen late q rest, e = .reap fileLen late → s.budget.canReap = true →
    s.cq = q :: rest → q.userData &&& cancelBit ≠ 0 →
      s'.pending = s.pending ∧ s'.hist.queued = s.hist.queued

variable {c : Params} {s s' : Shard} {e : Event}

theorem Reach.fitting {ok : Shard → Event → Prop} (h : Reachable (step c) ok init s) :
    s.toLedger.Fitting c :=
  ledger_invariant AList.all_empty (fun _ _ _ hi hm => hi.move hm) h

theorem Reach.i32Results (h : Reachable (step c) i32Answers.Allows init s) :
    s.toLedger.I32Results :=
  ledger_invariant_of (I := Ledger.I32Results) (fun _ _ ha => ha)
    (by simp [Ledger.I32Results, Ledger.init])
    (fun _ _ _ hi hm => hi.move hm) h

/-- The label of an intake step determines its result. -/
theorem step_intake {base : Nat} {order : List Nat}
    (h : step c s (.intake base order) = some s') :
    s.phase = .intake ∧ s' = s.intake c base order := by
  cases (step_transition h).2 with
  | intake hp ho => exact ⟨hp, rfl⟩

/-- The label of a reap step determines its result. -/
theorem step_reap {fileLen : Except IoError Nat} {late : Bool}
    (h : step c s (.reap fileLen late) = some s') :
    s.phase = .reap ∧ s' = s.reap c fileLen late := by
  cases (step_transition h).2 with
  | reap hp => exact ⟨hp, rfl⟩

/-- While completions are reaped every entry has its sender. -/
theorem Reach.ownSenders_reap {ok : Shard → Event → Prop} (h : Reachable (step c) ok init s)
    (hp : s.phase = .reap) : s.toLedger.OwnSenders := by
  rcases Reach.ownSenders h with ⟨leaked, he | he⟩ | hown
  · rw [he] at hp
    cases hp
  · rw [he] at hp
    cases hp
  · exact hown

/-- Taking a message during shutdown does not panic. -/
theorem intake_draining (hd : s.shuttingDown = true) (base : Nat) (order : List Nat) {m : Msg}
    {rest : List Msg} (hc : s.chan = m :: rest) (hb : s.budget.canTakeMessage = true) :
    (s.intake c base order).phase = s.phase := by
  cases m with
  | read m => simp [intake, hb, hc, intakeMsg, intakeRead, hd]
  | cancel id => simp [intake, hb, hc, intakeMsg]
  | shutdown => simp [intake, hb, hc, intakeMsg]

/-- Every step from a state that is shutting down drains. -/
theorem drain_step (hu : WideUsize c.usizeMax) (h : Reachable (step c) i32Answers.Allows init s)
    (hd : s.shuttingDown = true) (hs : step c s e = some s') : DrainStep s e s' := by
  have hm := (step_move (Reach.control h) (any_allows s e) hs).1
  have hown := Reach.ownership h
  have hfit := Reach.fitting h
  have hi := Reach.i32Results h
  refine ⟨hm.shutdown_mono.1 hd, fun ha => ?_, fun id hid => ?_, ?_, ?_, ?_⟩
  · rcases aborted_cases hs ha with ⟨base, order, m, rest, hphase, hb, hc, rfl⟩ |
      ⟨fileLen, late, q, rest, hphase, hq, hnone⟩
    · rw [intake_draining hd base order hc hb, hphase] at ha
      cases ha
    · by_cases hb : q.userData &&& cancelBit = 0
      · obtain ⟨p, p', outcome, _, hsome⟩ := hfit.reapCqe_stopped hu hi hown
          (Reach.ownSenders_reap h hphase) hd hq hb fileLen late
        rw [hnone] at hsome
        cases hsome
      · simp [Ledger.reapCqe, hb] at hnone
  · rcases hm.reads_cases with hk | ⟨_, m, rest, p, sqe, _, hopen, _⟩ |
      ⟨_, q, rest, p, p', outcome, tx, late, _, _, _, _, _, _, heq⟩
    · rw [AList.mem_keys] at hid ⊢
      exact hk.keys.mem_iff.mp hid
    · rw [hd] at hopen
      cases hopen
    · rw [heq] at hid
      exact (AList.mem_erase.mp hid).2
  · rintro base order m rest rfl hb hc
    obtain ⟨_, rfl⟩ := step_intake hs
    simp only [intake, hb, if_true, hc, intakeMsg, intakeRead, hd, Option.getD_some]
    exact ⟨rfl, rfl, rfl, rfl⟩
  · rintro fileLen late q rest rfl hb hq hread
    obtain ⟨hphase, rfl⟩ := step_reap hs
    obtain ⟨p, p', outcome, hp, hsome⟩ := hfit.reapCqe_stopped hu hi hown
      (Reach.ownSenders_reap h hphase) hd hq hread fileLen late
    simp only [reap, hb, if_true, hq, hsome]
    exact ⟨AList.mem_of_lookup hp, rfl, rfl⟩
  · rintro fileLen late q rest rfl hb hq hcancel
    obtain ⟨_, rfl⟩ := step_reap hs
    have hsome : { s.toLedger with cq := rest }.reapCqe c.usizeMax q fileLen late =
        some ({ s.toLedger with cq := rest }.cancelDone q) := by
      simp [Ledger.reapCqe, hcancel]
    simp only [reap, hb, if_true, hq, hsome]
    exact ⟨rfl, rfl⟩

/-- During shutdown the table loses one entry per consumed read completion. -/
theorem drain_size (hu : WideUsize c.usizeMax) (h : Reachable (step c) i32Answers.Allows init s)
    (hd : s.shuttingDown = true) (hs : step c s e = some s') :
    s'.pending.size + (if s.takesRead e then 1 else 0) = s.pending.size := by
  have hdrain := drain_step hu h hd hs
  have hm := (step_move (Reach.control h) (any_allows s e) hs).1
  by_cases ha : e.actor = .reap
  · obtain ⟨fileLen, late, rfl⟩ : ∃ fileLen late, e = .reap fileLen late := by
      cases e <;> first | exact ⟨_, _, rfl⟩ | cases ha
    obtain ⟨_, rfl⟩ := step_reap hs
    by_cases hb : s.budget.canReap = true
    · cases hq : s.cq with
      | nil => simp [takesRead, hq, reap, hb]
      | cons q rest =>
        by_cases hread : q.userData &&& cancelBit = 0
        · obtain ⟨hmem, herase, _⟩ := hdrain.read fileLen late q rest rfl hb hq hread
          obtain ⟨p, hp⟩ := AList.mem_iff_lookup.mp hmem
          have hsize := AList.size_erase hp
          simp only [takesRead, hb, hq, hread, decide_true, Bool.and_true, if_true, herase]
          omega
        · obtain ⟨hsame, _⟩ := hdrain.cancel fileLen late q rest rfl hb hq hread
          simp [takesRead, hq, hread, hsame]
    · simp [takesRead, hb, reap]
  · have hno : s.takesRead e = false := by
      cases e <;> first | rfl | exact absurd rfl ha
    rw [hno]
    rcases hm.reads_cases with hk | ⟨_, m, rest, p, sqe, _, hopen, _⟩ | ⟨hreap, _⟩
    · exact hk.keys.length_eq
    · rw [hd] at hopen
      cases hopen
    · exact absurd hreap ha

/-- From every reachable state that is shutting down, along every continuation: shutdown
stays, no read is taken in, and every read completion removes exactly its own entry, so
that the table is empty after exactly as many of them as it had entries. -/
theorem drain_progress (c : Params) (hu : WideUsize c.usizeMax) (s t : Shard) (es : List Event)
    (h : Reachable (step c) i32Answers.Allows init s) (hd : s.shuttingDown = true)
    (ha : Admitted (step c) i32Answers.Allows s es) (hr : run (step c) s es = some t) :
    t.shuttingDown = true ∧ (s.phase ≠ .aborted → t.phase ≠ .aborted) ∧
      (∀ e t', step c t e = some t' → DrainStep t e t') ∧
      t.pending.size + countRun (step c) takesRead s es = s.pending.size ∧
      (countRun (step c) takesRead s es = s.pending.size ↔ ∀ id, id ∉ t.pending) := by
  obtain ⟨⟨ht, hdown, halive⟩, hcount⟩ := add_countRun_of_run
    (I := fun t => Reachable (step c) i32Answers.Allows init t ∧ t.shuttingDown = true ∧
      (s.phase ≠ .aborted → t.phase ≠ .aborted))
    (p := takesRead) (u := fun s => s.pending.size)
    (fun t e t' hi hok hs => ⟨⟨hi.1.next hok hs, (drain_step hu hi.1 hi.2.1 hs).down,
      fun _ => (drain_step hu hi.1 hi.2.1 hs).alive⟩, drain_size hu hi.1 hi.2.1 hs⟩)
    ⟨h, hd, id⟩ ha hr
  change t.pending.size + countRun (step c) takesRead s es = s.pending.size at hcount
  refine ⟨hdown, halive, fun e t' hs => drain_step hu ht hdown hs, hcount, ?_⟩
  rw [← AList.size_eq_zero_iff]
  omega

/-- Check that a label's result is an `i32`. -/
def fitsI32 (_ : Shard) : Event → Bool
  | .post _ res _ => decide (-(2 ^ 31) < res) && decide (res < 2 ^ 31)
  | _ => true

theorem allows_of_fitsI32 (h : fitsI32 s e = true) : i32Answers.Allows s e := by
  cases e with
  | post k res data =>
    intro _ _
    simp only [fitsI32, Bool.and_eq_true, decide_eq_true_eq] at h
    exact h
  | reap => exact fun _ _ _ _ _ => trivial
  | _ => trivial

/-- A read is taken in and the shutdown request after it. -/
def stopping : List Event :=
  [.send 0 (.read ⟨1, 0, 1, 3, 1, ⟨0, none, none⟩⟩), .join 0, .signal 0, .wake, .drainCq,
    .drainWake, .intake 64 [], .intake 64 [1]]

/-- The read completes short. -/
def stoppedShort : List Event :=
  [.intake 64 [1], .submit false (.ok 1) [1], .post 0 1 [20], .reap (.ok 5) false]

theorem stopping_runs : (run (step oneSlot) init stopping).isSome = true := by
  decide +kernel

theorem stoppedShort_runs :
    (run (step oneSlot) ((run (step oneSlot) init stopping).get stopping_runs)
      stoppedShort).isSome = true := by
  decide +kernel

/-- A short read completed during shutdown empties the table. -/
theorem drain_progress_short : ∃ s t, Reachable (step oneSlot) i32Answers.Allows init s ∧
    s.shuttingDown = true ∧ s.pending.size = 1 ∧ run (step oneSlot) s stoppedShort = some t ∧
    countRun (step oneSlot) takesRead s stoppedShort = 1 ∧ ∀ id, id ∉ t.pending := by
  have hs : Reachable (step oneSlot) i32Answers.Allows init
      ((run (step oneSlot) init stopping).get stopping_runs) := by
    have ha : admittedBool (step oneSlot) fitsI32 init stopping = true := by
      decide +kernel
    exact reachable_of_run (Option.some_get stopping_runs).symm
      (admitted_of_admittedBool (fun _ _ he => allows_of_fitsI32 he) ha)
  have ha : admittedBool (step oneSlot) fitsI32
      ((run (step oneSlot) init stopping).get stopping_runs) stoppedShort = true := by
    decide +kernel
  have hd : ((run (step oneSlot) init stopping).get stopping_runs).shuttingDown = true := by
    decide +kernel
  have hsize : ((run (step oneSlot) init stopping).get stopping_runs).pending.size = 1 := by
    decide +kernel
  have hcount : countRun (step oneSlot) takesRead
      ((run (step oneSlot) init stopping).get stopping_runs) stoppedShort = 1 := by
    decide +kernel
  have hdrain := drain_progress oneSlot (by unfold WideUsize oneSlot; decide) _ _ stoppedShort hs hd
    (admitted_of_admittedBool (fun _ _ he => allows_of_fitsI32 he) ha)
    (Option.some_get stoppedShort_runs).symm
  exact ⟨_, _, hs, hd, hsize, (Option.some_get stoppedShort_runs).symm, hcount,
    hdrain.2.2.2.2.mp (hcount.trans hsize.symm)⟩

end Shard

end Uring
