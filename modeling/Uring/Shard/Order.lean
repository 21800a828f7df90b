import Uring.Shard.Cancel

/-!
# The order of submission

Entries reach the kernel in the order in which they were queued, through the backlog
and the submission queue. A read is never queued after the `AsyncCancel` of its id:
whoever queues the cancel has first recorded the caller's intent or entered shutdown,
and both stop every continuation.
-/

namespace Uring

open Uring.Core

/-- `y` may be queued after `x`: it is not a read of the id that `x` cancels. -/
def Sqe.MayPrecede (x y : Sqe) : Prop :=
  ∀ id, x.target = some id → y.isRead = true → y.userData ≠ id

/-- Anything may precede a cancel. -/
theorem Sqe.mayPrecede_cancel (x : Sqe) (id : Nat) : x.MayPrecede (cancelSqe id) :=
  fun _ _ hr => nomatch hr

namespace Ledger

/-- What lies between queueing and the kernel, in order. -/
def inFlow (l : Ledger) : List Sqe := l.hist.consumed ++ l.sq ++ l.backlog

/-- A read whose cancel is queued is not continued. -/
def Stopped (l : Ledger) : Prop :=
  l.pending.All fun id p => id ∈ l.queuedCancels →
    p.cancelRequested = true ∨ l.shuttingDown = true

/-- The queues hold what was queued, in order, and no cancel is overtaken. -/
structure OrderBook (l : Ledger) : Prop where
  flow : l.inFlow = l.hist.queued
  stopped : l.Stopped
  ordered : l.hist.queued.Pairwise Sqe.MayPrecede

theorem inFlow_queueSqe (l : Ledger) (e : Sqe) : (l.queueSqe e).inFlow = l.inFlow ++ [e] := by
  simp only [inFlow, queueSqe, List.append_assoc]

theorem inFlow_flush (l : Ledger) (capacity : Nat) : (l.flush capacity).inFlow = l.inFlow := by
  simp only [inFlow, flush, List.append_assoc, flushBacklog_append]

theorem inFlow_consume (l : Ledger) (n : Nat) : (l.consume n).inFlow = l.inFlow := by
  simp only [inFlow, consume, List.append_assoc]
  rw [← List.append_assoc (l.sq.take n), List.take_append_drop]

namespace OrderBook

theorem init : Ledger.init.OrderBook := ⟨rfl, AList.all_empty, List.Pairwise.nil⟩

/-- A change outside the queues that keeps stopped reads stopped. -/
theorem frame {l l' : Ledger} (h : l.OrderBook) (hf : l'.inFlow = l.inFlow)
    (hq : l'.hist.queued = l.hist.queued) (hs : l'.Stopped) : l'.OrderBook :=
  ⟨hf.trans (h.flow.trans hq.symm), hs, hq ▸ h.ordered⟩

/-- Queueing an entry behind everything it may follow. -/
theorem queueSqe {l : Ledger} (h : l.OrderBook) {e : Sqe}
    (he : ∀ x ∈ l.hist.queued, x.MayPrecede e) : (l.queueSqe e).OrderBook := by
  refine ⟨?_, h.stopped, ?_⟩
  · rw [inFlow_queueSqe, h.flow]
    rfl
  · refine List.pairwise_append.mpr ⟨h.ordered, List.pairwise_singleton _ _, ?_⟩
    intro x hx y hy
    rw [List.mem_singleton.mp hy]
    exact he x hx

/-- Queueing a cancel for a read that is already stopped. -/
theorem queueCancel {l : Ledger} (h : l.OrderBook) {id : Nat}
    (hs : ∀ p, l.pending.lookup id = some p → p.cancelRequested = true ∨ l.shuttingDown = true) :
    (l.queueCancel id).OrderBook := by
  unfold Ledger.queueCancel
  split
  · exact h
  · have hq := h.queueSqe fun x _ => x.mayPrecede_cancel id
    refine ⟨hq.flow, fun k p hp hk => ?_, hq.ordered⟩
    rcases Finset.mem_insert.mp hk with rfl | hk
    · exact hs p hp
    · exact h.stopped k p hp hk

/-- A cancel sweep in shutdown. -/
theorem queueCancels {l : Ledger} (h : l.OrderBook) (hd : l.shuttingDown = true)
    (order : List Nat) : (l.queueCancels order).OrderBook := by
  induction order generalizing l with
  | nil => exact h
  | cons id order ih =>
    refine ih (h.queueCancel fun _ _ => Or.inr hd) ?_
    unfold Ledger.queueCancel
    split <;> exact hd

theorem shutdown {l : Ledger} (h : l.OrderBook) (order : List Nat) :
    (l.shutdown order).OrderBook := by
  have hdown : ({ l with shuttingDown := true } : Ledger).OrderBook :=
    ⟨h.flow, fun _ _ _ _ => Or.inr rfl, h.ordered⟩
  exact hdown.queueCancels rfl order

/-- A read may follow everything queued if its cancel is not among it. -/
theorem mayPrecede_read {l : Ledger} (hb : l.CancelBook) {e : Sqe}
    (hn : cancelSqe e.userData ∉ l.hist.queued) : ∀ x ∈ l.hist.queued, x.MayPrecede e := by
  intro x hx id ht _ hid
  have hr : x.isRead = false := by
    cases x
    · cases ht
    · rfl
  obtain ⟨k, _, rfl⟩ := hb.known x (mem_cancels.mpr ⟨hx, hr⟩)
  obtain rfl : k = id := Option.some.inj ht
  exact hn (hid ▸ hx)

/-- Every move keeps the order. -/
theorem move {c : Params} {w : Answers} {l l' : Ledger} {a : Actor} (h : l.OrderBook)
    (hown : l.Ownership) (hb : l.CancelBook) (hm : Move c w l a l') : l'.OrderBook := by
  cases hm with
  | idle => exact h
  | overflow | send | closeRx | postCancel | reject | cancelMiss | reapCancel | reapStale |
    dropChan =>
    exact ⟨h.flow, h.stopped, h.ordered⟩
  | @postRead k ud file len off ptr data res hk hd ha =>
    unfold writeBlock
    split
    · exact ⟨h.flow, h.stopped, h.ordered⟩
    · rename_i p hp
      exact ⟨h.flow, h.stopped.insert (h.stopped _ p hp), h.ordered⟩
  | @accept m rest p sqe hc hd hp hs =>
    obtain ⟨rfl, _⟩ := Pending.readSqe_eq_some hs
    have hnot := hown.queued_notMem hc
    have hbase : ({ l with
        chan := rest
        pending := l.pending.insert m.id p
        stats := { l.stats with
          submitted := fetchAdd l.stats.submitted
          inFlight := fetchAdd l.stats.inFlight }
        hist := { l.hist with accepted := l.hist.accepted ++ [m.id] } } : Ledger).OrderBook :=
      ⟨h.flow, h.stopped.insert fun hin => absurd (hb.subset m.id hin) hnot, h.ordered⟩
    refine hbase.queueSqe (mayPrecede_read hb fun hq => ?_)
    have hfresh := hown.fresh
    rw [hc, readIds_read, List.cons_append] at hfresh
    obtain ⟨k, hk, he⟩ := hb.known _ (mem_cancels.mpr ⟨hq, rfl⟩)
    rw [← cancelSqe_injective he] at hk
    exact (List.nodup_cons.mp hfresh).1 (List.mem_append_right _ hk)
  | @cancelHit id rest p hc hp =>
    have hbase : ({ l with
        chan := rest
        pending := l.pending.insert id { p with cancelRequested := true } } : Ledger).OrderBook :=
      ⟨h.flow, h.stopped.insert fun _ => Or.inl rfl, h.ordered⟩
    refine hbase.queueCancel fun q hq => Or.inl ?_
    rw [AList.lookup_insert] at hq
    cases hq
    rfl
  | @shutdown rest order hc ho =>
    have hbase : ({ l with chan := rest } : Ledger).OrderBook := ⟨h.flow, h.stopped, h.ordered⟩
    exact hbase.shutdown order
  | submit n errors =>
    exact h.frame ((inFlow_consume _ n).trans (inFlow_flush _ c.sqCapacity)) rfl h.stopped
  | @submitSweep order errors hd ho =>
    have hbase : ({ l with stats := { l.stats with submitErrors := errors } }.flush
        c.sqCapacity).OrderBook := h.frame (inFlow_flush _ c.sqCapacity) rfl h.stopped
    exact hbase.shutdown order
  | @resubmit q rest p p' sqe fileLen hq hbit hp hf hr =>
    obtain ⟨hs, hsame, _, hcancel, hdown, _⟩ := reapRead_resubmit hr
    obtain ⟨rfl, _⟩ := Pending.readSqe_eq_some hs
    have hnot : q.userData ∉ l.queuedCancels := by
      intro hin
      rcases h.stopped _ p hp hin with hstop | hstop
      · rw [hcancel] at hstop
        cases hstop
      · rw [hdown] at hstop
        cases hstop
    have hbase : ({ l with
        cq := rest
        pending := l.pending.insert q.userData p' } : Ledger).OrderBook :=
      ⟨h.flow, h.stopped.insert fun hin => absurd hin hnot, h.ordered⟩
    refine hbase.queueSqe (mayPrecede_read hb fun hmem => hnot ?_)
    exact (hb.dedup _ (AList.mem_of_lookup hp)).mp (mem_cancels.mpr ⟨hmem, rfl⟩)
  | @finish q rest p p' outcome tx fileLen late hq hbit hp hf hr ht =>
    refine ⟨h.flow, fun k q' hk hin => ?_, h.ordered⟩
    obtain ⟨_, hin⟩ := Finset.mem_erase.mp hin
    exact (h.stopped.erase _) k q' hk hin
  | leak n hd => exact ⟨h.flow, fun _ _ _ _ => Or.inr hd, h.ordered⟩

end OrderBook

theorem queued_queueCancel (l : Ledger) (id : Nat) :
    l.hist.queued <+: (l.queueCancel id).hist.queued ∧
      (l.queueCancel id).hist.consumed = l.hist.consumed := by
  unfold queueCancel
  split
  · exact ⟨List.prefix_refl _, rfl⟩
  · exact ⟨List.prefix_append _ _, rfl⟩

theorem queued_queueCancels (l : Ledger) (order : List Nat) :
    l.hist.queued <+: (l.queueCancels order).hist.queued ∧
      (l.queueCancels order).hist.consumed = l.hist.consumed := by
  induction order generalizing l with
  | nil => exact ⟨List.prefix_refl _, rfl⟩
  | cons id order ih =>
    obtain ⟨hq, hc⟩ := l.queued_queueCancel id
    obtain ⟨hq', hc'⟩ := ih (l.queueCancel id)
    exact ⟨hq.trans hq', hc'.trans hc⟩

/-- What was queued or consumed is never taken back. -/
theorem grows_of_move {c : Params} {w : Answers} {l l' : Ledger} {a : Actor}
    (hm : Move c w l a l') :
    l.hist.queued <+: l'.hist.queued ∧ l.hist.consumed <+: l'.hist.consumed := by
  cases hm with
  | idle | overflow | send | closeRx | postCancel | reject | cancelMiss | reapCancel | reapStale
    | finish | leak | dropChan => exact ⟨List.prefix_refl _, List.prefix_refl _⟩
  | @postRead k ud file len off ptr data res hk hd ha =>
    obtain ⟨t, ht⟩ := l.postRead_frame k ⟨_, res⟩ ptr data
    rw [ht]
    exact ⟨List.prefix_refl _, List.prefix_refl _⟩
  | accept | resubmit => exact ⟨List.prefix_append _ _, List.prefix_refl _⟩
  | @cancelHit id rest p hc hp =>
    obtain ⟨hq, hcons⟩ := queued_queueCancel { l with
      chan := rest
      pending := l.pending.insert id { p with cancelRequested := true } } id
    exact ⟨hq, hcons ▸ List.prefix_refl _⟩
  | @shutdown rest order hc ho =>
    obtain ⟨hq, hcons⟩ := queued_queueCancels { l with chan := rest, shuttingDown := true } order
    exact ⟨hq, hcons ▸ List.prefix_refl _⟩
  | submit n errors => exact ⟨List.prefix_refl _, List.prefix_append _ _⟩
  | @submitSweep order errors hd ho =>
    obtain ⟨hq, hcons⟩ := queued_queueCancels { { l with
      stats := { l.stats with submitErrors := errors } }.flush c.sqCapacity with
        shuttingDown := true } order
    exact ⟨hq, hcons ▸ List.prefix_refl _⟩

end Ledger

namespace Shard

theorem Reach.orderBook {c : Params} {ok : Shard → Event → Prop} {s : Shard}
    (h : Reachable (step c) ok init s) : s.OrderBook := by
  have hall : s.toLedger.Ownership ∧ s.toLedger.CancelBook ∧ s.toLedger.OrderBook :=
    ledger_invariant (I := fun l => l.Ownership ∧ l.CancelBook ∧ l.OrderBook)
      ⟨.init, .init, .init⟩
      (fun _ _ _ hi hm => ⟨hi.1.move hm, hi.2.1.move hi.1 hm, hi.2.2.move hi.1 hi.2.1 hm⟩) h
  exact hall.2.2

/-- The order of a shard's submissions. -/
structure SubmissionOrder (c : Params) (s : Shard) : Prop where
  /-- Consumed by the kernel, then in the submission queue, then in the backlog. -/
  flow : s.hist.consumed ++ s.sq ++ s.backlog = s.hist.queued
  /-- Both histories only grow. -/
  grows : ∀ e s', step c s e = some s' →
    s.hist.queued <+: s'.hist.queued ∧ s.hist.consumed <+: s'.hist.consumed
  /-- No read of an id is ever queued after the cancel of that id. -/
  queued : ∀ id before after, s.hist.queued = before ++ cancelSqe id :: after →
    ∀ e ∈ after, e.isRead = true → e.userData ≠ id
  /-- Once the kernel has a read's cancel it has every read entry of that id. -/
  kernel : ∀ id before after, s.hist.consumed = before ++ cancelSqe id :: after →
    ∀ e ∈ after ++ s.sq ++ s.backlog, e.isRead = true → e.userData ≠ id

/-- For every ring size, every acceptance count and every submit error, entries reach the
kernel in the order they were queued, and no read after its own cancel. -/
theorem submission_order (c : Params) (s : Shard) (h : Reach c s) : SubmissionOrder c s := by
  have hbook := Reach.orderBook h
  have hqueued (id : Nat) (before after : List Sqe)
      (heq : s.hist.queued = before ++ cancelSqe id :: after) :
      ∀ e ∈ after, e.isRead = true → e.userData ≠ id := by
    intro e he hr
    have hordered := hbook.ordered
    rw [heq] at hordered
    exact (List.pairwise_cons.mp (List.pairwise_append.mp hordered).2.1).1 e he id rfl hr
  refine ⟨hbook.flow, fun e s' hs => ?_, hqueued, fun id before after heq => ?_⟩
  · exact Ledger.grows_of_move (step_move (Reach.control h) (any_allows s e) hs).1
  · refine hqueued id before (after ++ s.sq ++ s.backlog) ?_
    rw [← hbook.flow, Ledger.inFlow, heq]
    simp only [List.append_assoc, List.cons_append]

/-- A cancelled read and its cancel leave the one-slot ring one after the other. -/
def submittedCancel : List Event :=
  cancelledRead ++ [.intake 4096 [1], .submit false (.ok 1) [1], .reap (.ok 0) false,
    .submit false (.ok 1) [1]]

theorem submittedCancel_runs : (run (step oneSlot) init submittedCancel).isSome = true := by
  decide +kernel

/-- The kernel has seen the read and then its cancel. -/
theorem submission_order_cancelled : ∃ s, Reach oneSlot s ∧
    s.hist.consumed.map Sqe.target = [none, some 1] ∧ SubmissionOrder oneSlot s := by
  have hr := reachable_get submittedCancel_runs
  refine ⟨_, hr, ?_, submission_order oneSlot _ hr⟩
  decide +kernel

end Shard

end Uring
