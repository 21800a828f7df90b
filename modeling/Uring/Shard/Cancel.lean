import Uring.Shard.Conservation

/-!
# Cancel bookkeeping

Drops, the shutdown sweep and the submit-error sweep share one dedup set. The set
stays inside the pending table, each accepted read gets at most one `AsyncCancel`
over the whole run, and shutdown leaves no pending read without one. A completion
with the cancel bit never touches the table.
-/

namespace Uring

open Uring.Core

theorem cancelSqe_injective {a b : Nat} (h : cancelSqe a = cancelSqe b) : a = b :=
  (Sqe.asyncCancel.inj h).1

/-- The `AsyncCancel` entries of a queue. -/
def cancels (es : List Sqe) : List Sqe := es.filter fun e => !e.isRead

@[simp] theorem cancels_append (a b : List Sqe) : cancels (a ++ b) = cancels a ++ cancels b :=
  List.filter_append _ _

@[simp] theorem cancels_nil : cancels [] = [] := rfl

theorem cancels_singleton_of_isRead {e : Sqe} (h : e.isRead = true) : cancels [e] = [] := by
  simp [cancels, h]

theorem cancels_cons_of_isRead {e : Sqe} (h : e.isRead = true) (es : List Sqe) :
    cancels (e :: es) = cancels es := by
  simp [cancels, h]

theorem cancels_cons_of_not_isRead {e : Sqe} (h : e.isRead = false) (es : List Sqe) :
    cancels (e :: es) = e :: cancels es := by
  simp [cancels, h]

theorem mem_cancels {e : Sqe} {es : List Sqe} : e ∈ cancels es ↔ e ∈ es ∧ e.isRead = false := by
  simp [cancels]

namespace Ledger

/-- The sweep does not read the flag, so it may be raised after it. -/
theorem shutdown_eq (l : Ledger) (order : List Nat) :
    l.shutdown order = { l.queueCancels order with shuttingDown := true } := by
  unfold Ledger.shutdown
  induction order generalizing l with
  | nil => rfl
  | cons id order ih =>
    simp only [queueCancels_cons]
    rw [← ih]
    congr 1
    unfold Ledger.queueCancel
    split <;> rfl

/-- Queueing a read adds no cancel. -/
theorem cancels_queueSqe_read (l : Ledger) {e : Sqe} (hr : e.isRead = true) :
    (cancels (l.queueSqe e).outstanding).Perm (cancels l.outstanding) := by
  have hout : (cancels (l.queueSqe e).outstanding).Perm (cancels (e :: l.outstanding)) :=
    (outstanding_queueSqe l e).filter _
  rwa [cancels_cons_of_isRead hr] at hout

/-- Bookkeeping of the cancels of one shard. -/
structure CancelBook (l : Ledger) : Prop where
  /-- The dedup set stays inside the table. -/
  subset : ∀ id ∈ l.queuedCancels, id ∈ l.pending
  /-- No cancel entry is queued twice. -/
  once : (cancels l.hist.queued).Nodup
  known : ∀ e ∈ cancels l.hist.queued, ∃ id ∈ l.hist.accepted, e = cancelSqe id
  /-- For a pending read the dedup set says exactly whether its cancel was queued. -/
  dedup : ∀ id ∈ l.pending, cancelSqe id ∈ cancels l.hist.queued ↔ id ∈ l.queuedCancels
  down : l.shuttingDown = true → ∀ id ∈ l.pending, id ∈ l.queuedCancels
  /-- Every queued cancel is outstanding or reaped. -/
  reaped : ((cancels l.hist.queued).map Sqe.userData).Perm
    ((cancels l.outstanding).map Sqe.userData ++ l.hist.cancelsReaped)
  counters : l.stats.cancelSucceeded + l.stats.cancelNotFound + l.stats.cancelAlready ≤
    l.hist.cancelsReaped.length

namespace CancelBook

theorem init : Ledger.init.CancelBook where
  subset := by simp [Ledger.init]
  once := List.nodup_nil
  known := by simp [Ledger.init]
  dedup := by simp [Ledger.init]
  down := by simp [Ledger.init]
  reaped := List.Perm.refl _
  counters := by simp [Ledger.init, DriverStats.zero]

/-- A change that queues no cancel, keeps the table's keys and only rearranges the
outstanding entries keeps the book. -/
theorem frame {l l' : Ledger} (h : l.CancelBook) (hc : l'.queuedCancels = l.queuedCancels)
    (hq : cancels l'.hist.queued = cancels l.hist.queued)
    (ha : l'.hist.accepted = l.hist.accepted) (hp : ∀ id, id ∈ l'.pending ↔ id ∈ l.pending)
    (hd : l'.shuttingDown = l.shuttingDown)
    (ho : (cancels l'.outstanding).Perm (cancels l.outstanding))
    (hr : l'.hist.cancelsReaped = l.hist.cancelsReaped)
    (hs : l'.stats.cancelSucceeded = l.stats.cancelSucceeded ∧
      l'.stats.cancelNotFound = l.stats.cancelNotFound ∧
      l'.stats.cancelAlready = l.stats.cancelAlready) : l'.CancelBook where
  subset := fun id hid => (hp id).mpr (h.subset id (hc ▸ hid))
  once := hq ▸ h.once
  known := by
    rw [hq, ha]
    exact h.known
  dedup := by
    intro id hid
    rw [hq, hc]
    exact h.dedup id ((hp id).mp hid)
  down := by
    intro hdown id hid
    rw [hc]
    exact h.down (hd ▸ hdown) id ((hp id).mp hid)
  reaped := by
    rw [hq, hr]
    exact h.reaped.trans ((ho.map _).symm.append_right _)
  counters := by
    rw [hs.1, hs.2.1, hs.2.2, hr]
    exact h.counters

/-- The same, for a change outside all fields of the book. -/
theorem frame_perm {l l' : Ledger} (h : l.CancelBook) (hc : l'.queuedCancels = l.queuedCancels)
    (hh : l'.hist.queued = l.hist.queued) (ha : l'.hist.accepted = l.hist.accepted)
    (hp : ∀ id, id ∈ l'.pending ↔ id ∈ l.pending) (hd : l'.shuttingDown = l.shuttingDown)
    (ho : l'.outstanding.Perm l.outstanding)
    (hr : l'.hist.cancelsReaped = l.hist.cancelsReaped)
    (hs : l'.stats.cancelSucceeded = l.stats.cancelSucceeded ∧
      l'.stats.cancelNotFound = l.stats.cancelNotFound ∧
      l'.stats.cancelAlready = l.stats.cancelAlready) : l'.CancelBook :=
  h.frame hc (by rw [hh]) ha hp hd (ho.filter _) hr hs

/-- What `queue_cancel` keeps for a pending id; the shutdown clause is restated for
the ids still to be swept. -/
theorem queueCancel {l : Ledger} (h : l.CancelBook) (hown : l.Ownership) {id : Nat}
    (hid : id ∈ l.pending) : (l.queueCancel id).CancelBook ∧
      id ∈ (l.queueCancel id).queuedCancels ∧
      l.queuedCancels ⊆ (l.queueCancel id).queuedCancels := by
  unfold Ledger.queueCancel
  split
  · rename_i hin
    exact ⟨h, hin, Finset.Subset.refl _⟩
  · rename_i hin
    have ho : (l.queueSqe (cancelSqe id)).outstanding.Perm (cancelSqe id :: l.outstanding) :=
      outstanding_queueSqe l _
    have hnew : cancelSqe id ∉ cancels l.hist.queued := fun hm => hin ((h.dedup id hid).mp hm)
    have hqueued : cancels (l.hist.queued ++ [cancelSqe id]) =
        cancels l.hist.queued ++ [cancelSqe id] := by
      rw [cancels_append, cancels_cons_of_not_isRead rfl, cancels_nil]
    refine ⟨⟨?_, ?_, ?_, ?_, ?_, ?_, h.counters⟩, Finset.mem_insert_self _ _,
      Finset.subset_insert _ _⟩
    · intro k hk
      rcases Finset.mem_insert.mp hk with rfl | hk
      · exact hid
      · exact h.subset k hk
    · change (cancels (l.hist.queued ++ [cancelSqe id])).Nodup
      rw [hqueued]
      exact List.Nodup.append h.once (List.nodup_singleton _)
        (List.disjoint_singleton.mpr hnew)
    · intro e he
      change e ∈ cancels (l.hist.queued ++ [cancelSqe id]) at he
      rw [hqueued] at he
      rcases List.mem_append.mp he with he | he
      · exact h.known e he
      · exact ⟨id, hown.table id hid, List.mem_singleton.mp he⟩
    · intro k hk
      change cancelSqe k ∈ cancels (l.hist.queued ++ [cancelSqe id]) ↔
        k ∈ insert id l.queuedCancels
      rw [hqueued, List.mem_append, List.mem_singleton, Finset.mem_insert, h.dedup k hk]
      constructor
      · rintro (hk | hk)
        · exact Or.inr hk
        · exact Or.inl (cancelSqe_injective hk)
      · rintro (rfl | hk)
        · exact Or.inr rfl
        · exact Or.inl hk
    · intro hd k hk
      exact Finset.mem_insert_of_mem (h.down hd k hk)
    · change ((cancels (l.hist.queued ++ [cancelSqe id])).map Sqe.userData).Perm
        ((cancels (l.queueSqe (cancelSqe id)).outstanding).map Sqe.userData ++ l.hist.cancelsReaped)
      have hout : (cancels (l.queueSqe (cancelSqe id)).outstanding).Perm
          (cancelSqe id :: cancels l.outstanding) := ho.filter _
      rw [hqueued, List.map_append]
      refine (List.perm_append_singleton _ _).trans ((h.reaped.cons _).trans ?_)
      exact (hout.map Sqe.userData).symm.append_right _

/-- A sweep keeps the book and ends with every swept id in the dedup set. -/
theorem queueCancels {l : Ledger} (h : l.CancelBook) (hown : l.Ownership) {order : List Nat}
    (ho : ∀ id ∈ order, id ∈ l.pending) : (l.queueCancels order).CancelBook ∧
      l.queuedCancels ⊆ (l.queueCancels order).queuedCancels ∧
      ∀ id ∈ order, id ∈ (l.queueCancels order).queuedCancels := by
  induction order generalizing l with
  | nil => exact ⟨h, Finset.Subset.refl _, nofun⟩
  | cons id order ih =>
    have hid := ho id List.mem_cons_self
    obtain ⟨hbook, hmem, hsub⟩ := h.queueCancel hown hid
    obtain ⟨hbook', hsub', hall⟩ := ih hbook (hown.queueCancel hid) (pending_of_sweep ho)
    refine ⟨hbook', hsub.trans hsub', ?_⟩
    intro k hk
    rcases List.mem_cons.mp hk with rfl | hk
    · exact hsub' hmem
    · exact hall k hk

/-- Entering shutdown with a sweep over the whole table keeps the book. -/
theorem shutdown {l : Ledger} (h : l.CancelBook) (hown : l.Ownership) {order : List Nat}
    (ho : order.Perm l.pending.keys) : (l.shutdown order).CancelBook := by
  obtain ⟨hbook, _, hall⟩ := h.queueCancels hown (pending_of_perm ho)
  rw [shutdown_eq]
  refine ⟨hbook.subset, hbook.once, hbook.known, hbook.dedup, ?_, hbook.reaped, hbook.counters⟩
  intro _ id hid
  have hmem : id ∈ (l.queueCancels order).pending := hid
  rw [(queueCancels_frame l order).pending] at hmem
  exact hall id (ho.mem_iff.mpr (AList.mem_keys.mp hmem))

/-- A newly accepted read has no cancel yet. -/
theorem accept {l : Ledger} (h : l.CancelBook) {id : Nat} {p : Pending} {sqe : Sqe}
    (hfresh : id ∉ l.hist.accepted) (hnew : id ∉ l.pending) (hd : l.shuttingDown = false)
    (hr : sqe.isRead = true) : (l.accept id p sqe).CancelBook := by
  have hnone : cancelSqe id ∉ cancels l.hist.queued := by
    intro hm
    obtain ⟨k, hk, he⟩ := h.known _ hm
    exact hfresh (cancelSqe_injective he ▸ hk)
  have hqueued : cancels (l.hist.queued ++ [sqe]) = cancels l.hist.queued := by
    rw [cancels_append, cancels_singleton_of_isRead hr, List.append_nil]
  refine ⟨?_, ?_, ?_, ?_, ?_, ?_, h.counters⟩
  · intro k hk
    exact (AList.mem_insert _).mpr (Or.inr (h.subset k hk))
  · change (cancels (l.hist.queued ++ [sqe])).Nodup
    rw [hqueued]
    exact h.once
  · intro e he
    change e ∈ cancels (l.hist.queued ++ [sqe]) at he
    rw [hqueued] at he
    obtain ⟨k, hk, heq⟩ := h.known e he
    exact ⟨k, List.mem_append_left _ hk, heq⟩
  · intro k hk
    change cancelSqe k ∈ cancels (l.hist.queued ++ [sqe]) ↔ k ∈ l.queuedCancels
    rw [hqueued]
    rcases (AList.mem_insert _).mp hk with rfl | hk
    · exact ⟨fun hm => absurd hm hnone, fun hm => absurd (h.subset k hm) hnew⟩
    · exact h.dedup k hk
  · intro hdown
    have : l.shuttingDown = true := hdown
    rw [hd] at this
    cases this
  · change ((cancels (l.hist.queued ++ [sqe])).map Sqe.userData).Perm
      ((cancels (l.accept id p sqe).outstanding).map Sqe.userData ++ l.hist.cancelsReaped)
    have hout : (cancels (l.accept id p sqe).outstanding).Perm (cancels l.outstanding) :=
      cancels_queueSqe_read _ hr
    rw [hqueued]
    exact h.reaped.trans ((hout.map _).symm.append_right _)

/-- A finished read leaves the table and the dedup set together. -/
theorem finish {l : Ledger} (h : l.CancelBook) {id tx : Nat} {p : Pending} {outcome : IoResult}
    {late : Bool} : (l.finish id tx p outcome late).CancelBook := by
  have hkeys (k : Nat) : k ∈ (l.finish id tx p outcome late).pending ↔
      k ≠ id ∧ k ∈ l.pending := AList.mem_erase
  refine ⟨?_, h.once, h.known, ?_, ?_, h.reaped, h.counters⟩
  · intro k hk
    obtain ⟨hne, hk⟩ := Finset.mem_erase.mp hk
    exact (hkeys k).mpr ⟨hne, h.subset k hk⟩
  · intro k hk
    obtain ⟨hne, hk⟩ := (hkeys k).mp hk
    refine (h.dedup k hk).trans ?_
    change k ∈ l.queuedCancels ↔ k ∈ l.queuedCancels.erase id
    rw [Finset.mem_erase]
    exact ⟨fun hm => ⟨hne, hm⟩, fun hm => hm.2⟩
  · intro hd k hk
    obtain ⟨hne, hk⟩ := (hkeys k).mp hk
    exact Finset.mem_erase.mpr ⟨hne, h.down hd k hk⟩

end CancelBook

/-- Recording one cancel outcome adds at most one to the three counters. -/
theorem cancelResult_sum (st : DriverStats) (res : Int) :
    (st.cancelResult res).cancelSucceeded + (st.cancelResult res).cancelNotFound +
      (st.cancelResult res).cancelAlready ≤
        st.cancelSucceeded + st.cancelNotFound + st.cancelAlready + 1 := by
  have hle (n : Nat) : fetchAdd n ≤ n + 1 := Nat.mod_le _ _
  have h1 := hle st.cancelSucceeded
  have h2 := hle st.cancelNotFound
  have h3 := hle st.cancelAlready
  unfold DriverStats.cancelResult
  split
  · simp only
    omega
  · split
    · simp only
      omega
    · split
      · simp only
        omega
      · omega

/-- The head completion of a read takes no cancel out. -/
theorem cancels_reap_read {l : Ledger} {q : Cqe} {rest : List Cqe} (hq : l.cq = q :: rest)
    (hr : q.sqe.isRead = true) :
    (cancels ({ l with cq := rest } : Ledger).outstanding).Perm (cancels l.outstanding) := by
  have hout : (cancels l.outstanding).Perm
      (cancels (q.sqe :: ({ l with cq := rest } : Ledger).outstanding)) :=
    (outstanding_reap l hq).filter _
  rw [cancels_cons_of_isRead hr] at hout
  exact hout.symm

/-- The head completion of a cancel takes exactly that one out. -/
theorem cancels_reap_cancel {l : Ledger} {q : Cqe} {rest : List Cqe} (hq : l.cq = q :: rest)
    (hr : q.sqe.isRead = false) :
    (cancels l.outstanding).Perm
      (q.sqe :: cancels ({ l with cq := rest } : Ledger).outstanding) := by
  have hout : (cancels l.outstanding).Perm
      (cancels (q.sqe :: ({ l with cq := rest } : Ledger).outstanding)) :=
    (outstanding_reap l hq).filter _
  rwa [cancels_cons_of_not_isRead hr] at hout

/-- Every move keeps the cancel book. -/
theorem CancelBook.move {c : Params} {w : Answers} {l l' : Ledger} {a : Actor}
    (h : l.CancelBook) (hown : l.Ownership) (hm : Move c w l a l') : l'.CancelBook := by
  cases hm with
  | idle => exact h
  | overflow | send | closeRx | reject | cancelMiss | dropChan =>
    exact h.frame_perm rfl rfl rfl (fun _ => Iff.rfl) rfl (List.Perm.refl _) rfl ⟨rfl, rfl, rfl⟩
  | @postRead k ud file len off ptr data res hk hd ha =>
    have hmem := mem_writeBlock { l with
      held := l.held.eraseIdx k
      cq := l.cq ++ [Cqe.mk (.read ud file ptr len off) res] } ptr data
    obtain ⟨t, ht⟩ := l.postRead_frame k ⟨_, res⟩ ptr data
    rw [ht] at hmem ⊢
    exact h.frame_perm rfl rfl rfl hmem rfl (outstanding_post l res hk) rfl ⟨rfl, rfl, rfl⟩
  | postCancel res hk =>
    exact h.frame_perm rfl rfl rfl (fun _ => Iff.rfl) rfl (outstanding_post l res hk) rfl
      ⟨rfl, rfl, rfl⟩
  | @accept m rest p sqe hc hd hp hs =>
    obtain ⟨rfl, _⟩ := Pending.readSqe_eq_some hs
    have hfresh := hown.fresh
    rw [hc, readIds_read, List.cons_append] at hfresh
    have hbase : ({ l with chan := rest } : Ledger).CancelBook :=
      h.frame_perm rfl rfl rfl (fun _ => Iff.rfl) rfl (List.Perm.refl _) rfl ⟨rfl, rfl, rfl⟩
    exact hbase.accept
      (fun hm => (List.nodup_cons.mp hfresh).1 (List.mem_append_right _ hm))
      (hown.queued_notMem hc) hd rfl
  | @cancelHit id rest p hc hp =>
    have hkeys (k : Nat) : k ∈ l.pending.insert id { p with cancelRequested := true } ↔
        k ∈ l.pending := AList.mem_overwrite _ (AList.mem_of_lookup hp) k
    have hbase : ({ l with
        chan := rest
        pending := l.pending.insert id { p with cancelRequested := true } } : Ledger).CancelBook :=
      h.frame_perm rfl rfl rfl hkeys rfl (List.Perm.refl _) rfl ⟨rfl, rfl, rfl⟩
    refine (hbase.queueCancel ?_ ((AList.mem_insert _).mpr (Or.inl rfl))).1
    refine hown.frame rfl rfl ?_ hkeys (List.Perm.refl _)
    rw [hc]
    exact List.Sublist.refl _
  | @shutdown rest order hc ho =>
    have hbase : ({ l with chan := rest } : Ledger).CancelBook :=
      h.frame_perm rfl rfl rfl (fun _ => Iff.rfl) rfl (List.Perm.refl _) rfl ⟨rfl, rfl, rfl⟩
    refine hbase.shutdown (hown.frame rfl rfl ?_ (fun _ => Iff.rfl) (List.Perm.refl _)) ho
    rw [hc]
    exact List.Sublist.refl _
  | submit n errors =>
    exact h.frame_perm rfl rfl rfl (fun _ => Iff.rfl) rfl
      ((outstanding_consume _ n).trans (outstanding_flush c.sqCapacity _)) rfl ⟨rfl, rfl, rfl⟩
  | @submitSweep order errors hd ho =>
    have hflush := outstanding_flush c.sqCapacity
      { l with stats := { l.stats with submitErrors := errors } }
    have hbase : ({ l with stats := { l.stats with submitErrors := errors } }.flush
        c.sqCapacity).CancelBook :=
      h.frame_perm rfl rfl rfl (fun _ => Iff.rfl) rfl hflush rfl ⟨rfl, rfl, rfl⟩
    exact hbase.shutdown
      (hown.frame rfl rfl (List.Sublist.refl _) (fun _ => Iff.rfl) hflush) ho
  | @reapCancel q rest hq hb =>
    have hr : q.sqe.isRead = false := by
      by_contra hr
      exact hb ((hown.isRead_iff (Ownership.reap_mem hq)).mp (by simpa using hr))
    have hsum := cancelResult_sum l.stats q.res
    refine ⟨h.subset, h.once, h.known, h.dedup, h.down, ?_, ?_⟩
    · refine h.reaped.trans
        (((cancels_reap_cancel hq hr).map Sqe.userData).append_right _ |>.trans ?_)
      change (q.userData :: _ ++ l.hist.cancelsReaped).Perm
        (_ ++ (l.hist.cancelsReaped ++ [q.userData]))
      rw [← List.append_assoc]
      exact (List.perm_append_singleton _ _).symm
    · have hcount := h.counters
      simp only [Ledger.cancelDone, List.length_append, List.length_singleton]
      omega
  | reapStale hq hb hp => exact absurd (hown.not_stale hq hb) (AList.lookup_eq_none.mp hp)
  | @resubmit q rest p p' sqe fileLen hq hb hp hf hr =>
    obtain ⟨hs, _⟩ := reapRead_resubmit hr
    obtain ⟨rfl, _⟩ := Pending.readSqe_eq_some hs
    have hread := (hown.isRead_iff (Ownership.reap_mem hq)).mpr hb
    have hreap := cancels_reap_read hq hread
    refine h.frame rfl ?_ rfl (AList.mem_overwrite _ (AList.mem_of_lookup hp)) rfl ?_ rfl
      ⟨rfl, rfl, rfl⟩
    · change cancels (l.hist.queued ++ [_]) = _
      rw [cancels_append, cancels_singleton_of_isRead rfl, List.append_nil]
    · exact (cancels_queueSqe_read { l with
        cq := rest
        pending := l.pending.insert q.userData p' } rfl).trans hreap
  | @finish q rest p p' outcome tx fileLen late hq hb hp hf hr ht =>
    have hread := (hown.isRead_iff (Ownership.reap_mem hq)).mpr hb
    have hreap := cancels_reap_read hq hread
    have hbase : ({ l with cq := rest } : Ledger).CancelBook :=
      h.frame rfl rfl rfl (fun _ => Iff.rfl) rfl hreap rfl ⟨rfl, rfl, rfl⟩
    exact hbase.finish
  | leak n hd =>
    exact h.frame_perm rfl rfl rfl (fun id => AList.mem_mapVal _ _ id) rfl (List.Perm.refl _) rfl
      ⟨rfl, rfl, rfl⟩

/-- A sweep queues cancels of the swept ids alone. -/
theorem mem_queueCancels {l : Ledger} {order : List Nat} {e : Sqe}
    (he : e ∈ (l.queueCancels order).hist.queued) :
    e ∈ l.hist.queued ∨ ∃ id ∈ order, e = cancelSqe id := by
  induction order generalizing l with
  | nil => exact Or.inl he
  | cons id order ih =>
    rcases ih he with he | ⟨k, hk, he⟩
    · unfold queueCancel at he
      split at he
      · exact Or.inl he
      · rcases List.mem_append.mp he with he | he
        · exact Or.inl he
        · exact Or.inr ⟨id, List.mem_cons_self, List.mem_singleton.mp he⟩
    · exact Or.inr ⟨k, List.mem_cons_of_mem _ hk, he⟩

/-- A move queues an `AsyncCancel` only for an id that is pending before and after it. -/
theorem queued_of_move {c : Params} {w : Answers} {l l' : Ledger} {a : Actor}
    (hm : Move c w l a l') {e : Sqe} (hr : e.isRead = false) (he : e ∈ l'.hist.queued) :
    e ∈ l.hist.queued ∨ ∃ id, id ∈ l.pending ∧ id ∈ l'.pending ∧ e = cancelSqe id := by
  cases hm with
  | idle | overflow | send | closeRx | postCancel | reject | cancelMiss | submit | reapCancel
    | reapStale | finish | leak | dropChan => exact Or.inl he
  | @postRead k ud file len off ptr data res hk hd ha =>
    obtain ⟨t, ht⟩ := l.postRead_frame k ⟨_, res⟩ ptr data
    rw [ht] at he
    exact Or.inl he
  | accept hc hd hp hs =>
    obtain ⟨rfl, _⟩ := Pending.readSqe_eq_some hs
    rcases List.mem_append.mp he with he | he
    · exact Or.inl he
    · rw [List.mem_singleton.mp he] at hr
      cases hr
  | @cancelHit id rest p hc hp =>
    have hmem := AList.mem_of_lookup hp
    unfold queueCancel at he
    split at he
    · exact Or.inl he
    · rcases List.mem_append.mp he with he | he
      · exact Or.inl he
      · refine Or.inr ⟨id, hmem, ?_, List.mem_singleton.mp he⟩
        rw [queueCancel_pending]
        exact (AList.mem_overwrite _ hmem id).mpr hmem
  | @shutdown rest order hc ho =>
    rcases mem_queueCancels he with he | ⟨k, hk, he⟩
    · exact Or.inl he
    · have hmem := pending_of_perm ho k hk
      exact Or.inr ⟨k, hmem, by rwa [shutdown_pending], he⟩
  | @submitSweep order errors hd ho =>
    rcases mem_queueCancels he with he | ⟨k, hk, he⟩
    · exact Or.inl he
    · have hmem := pending_of_perm ho k hk
      exact Or.inr ⟨k, hmem, by rwa [shutdown_pending], he⟩
  | resubmit hq hb hp hf hrd =>
    obtain ⟨hs, _⟩ := reapRead_resubmit hrd
    obtain ⟨rfl, _⟩ := Pending.readSqe_eq_some hs
    rcases List.mem_append.mp he with he | he
    · exact Or.inl he
    · rw [List.mem_singleton.mp he] at hr
      cases hr

/-- Reaping a completion with the cancel bit leaves the table alone. -/
theorem pending_of_cancel_reap {c : Params} {w : Answers} {l l' : Ledger} {q : Cqe}
    {rest : List Cqe} (hq : l.cq = q :: rest) (hb : q.userData &&& cancelBit ≠ 0)
    (hm : Move c w l .reap l') : l'.pending = l.pending := by
  cases hm with
  | idle => rfl
  | reapCancel => rfl
  | reapStale => rfl
  | resubmit hq' hb' =>
    rw [hq] at hq'
    cases hq'
    exact absurd hb' hb
  | finish late hq' hb' =>
    rw [hq] at hq'
    cases hq'
    exact absurd hb' hb

/-- Cancels are queued for distinct accepted reads, so their recorded outcomes are
bounded by the accepted reads. -/
theorem CancelBook.counters_le {l : Ledger} (h : l.CancelBook) :
    l.stats.cancelSucceeded + l.stats.cancelNotFound + l.stats.cancelAlready ≤
      l.hist.accepted.length := by
  have hsub : cancels l.hist.queued ⊆ l.hist.accepted.map cancelSqe := by
    intro e he
    obtain ⟨id, hid, rfl⟩ := h.known e he
    exact List.mem_map_of_mem hid
  have hlen := (List.subperm_of_subset h.once hsub).length_le
  rw [List.length_map] at hlen
  have hreaped := h.reaped.length_eq
  rw [List.length_append, List.length_map, List.length_map] at hreaped
  have hcount := h.counters
  omega

end Ledger

/-- The id an entry asks to cancel. -/
def Sqe.target : Sqe → Option Nat
  | .read .. => none
  | .asyncCancel id _ => some id

namespace Shard

/-- The cancel book holds in every reachable state. -/
theorem Reach.cancelBook {c : Params} {ok : Shard → Event → Prop} {s : Shard}
    (h : Reachable (step c) ok init s) : s.CancelBook := by
  have hboth : s.toLedger.Ownership ∧ s.toLedger.CancelBook :=
    ledger_invariant (I := fun l => l.Ownership ∧ l.CancelBook) ⟨.init, .init⟩
      (fun _ _ _ hi hm => ⟨hi.1.move hm, hi.2.move hi.1 hm⟩) h
  exact hboth.2

/-- The cancels of one shard, in one state and over the next step. -/
structure CancelsBooked (c : Params) (s : Shard) : Prop where
  subset : ∀ id ∈ s.queuedCancels, id ∈ s.pending
  /-- Over the whole run at most one `AsyncCancel` is queued per id, for accepted ids. -/
  once : ∀ id, (s.hist.queued.filter fun e => e.target == some id).length ≤ 1
  accepted : ∀ e ∈ s.hist.queued, ∀ id, e.target = some id → id ∈ s.hist.accepted
  /-- An `AsyncCancel` is queued only while its id is pending. -/
  pending : ∀ e s', step c s e = some s' → ∀ q ∈ s'.hist.queued, ∀ id, q.target = some id →
    q ∈ s.hist.queued ∨ id ∈ s.pending ∧ id ∈ s'.pending
  /-- A cancel request for an id that is not pending is only taken from the channel. -/
  unknown : ∀ base order s' id rest, step c s (.intake base order) = some s' →
    s.budget.canTakeMessage = true → s.chan = .cancel id :: rest → id ∉ s.pending →
    s' = { s with
      chan := rest
      budget := { s.budget with messages := s.budget.messages + 1 } }
  shutdown : s.shuttingDown = true → ∀ id ∈ s.pending,
    id ∈ s.queuedCancels ∧ cancelSqe id ∈ s.hist.queued
  /-- The cancel bit separates the completions of cancels from those of reads. -/
  bit : ∀ q ∈ s.cq, q.userData &&& cancelBit ≠ 0 ↔ q.sqe.isRead = false
  untouched : ∀ q rest fileLen late s', s.cq = q :: rest → q.userData &&& cancelBit ≠ 0 →
    step c s (.reap fileLen late) = some s' → s'.pending = s.pending
  counters : s.stats.cancelSucceeded + s.stats.cancelNotFound + s.stats.cancelAlready ≤
    s.stats.submitted

/-- In every reachable state the dedup set is inside the table, every read gets at
most one `AsyncCancel` and only while pending, shutdown has cancelled every pending
read, and cancel completions neither touch the table nor outnumber the reads. -/
theorem cancels_booked (c : Params) (s : Shard) (h : Reach c s) : CancelsBooked c s := by
  have hown := Reach.ownership h
  have hbook := Reach.cancelBook h
  have htarget : ∀ e ∈ s.hist.queued, ∀ id, e.target = some id →
      id ∈ s.hist.accepted ∧ e = cancelSqe id := by
    intro e he id ht
    have hr : e.isRead = false := by
      cases e
      · cases ht
      · rfl
    obtain ⟨k, hk, rfl⟩ := hbook.known e (mem_cancels.mpr ⟨he, hr⟩)
    obtain rfl := Option.some.inj ht
    exact ⟨hk, rfl⟩
  refine ⟨hbook.subset, ?_, fun e he id ht => (htarget e he id ht).1, ?_, ?_, ?_, ?_, ?_, ?_⟩
  · intro id
    have hcount : (cancels s.hist.queued).count (cancelSqe id) ≤ 1 :=
      List.nodup_iff_count_le_one.mp hbook.once _
    rw [cancels, List.count_filter (by rfl)] at hcount
    rw [← List.countP_eq_length_filter]
    refine le_trans (List.countP_mono_left fun e he ht => ?_) hcount
    exact beq_iff_eq.mpr (htarget e he id (beq_iff_eq.mp ht)).2
  · intro e s' hs q hq id ht
    have hm := (step_move (Reach.control h) (any_allows s e) hs).1
    have hr : q.isRead = false := by
      cases q
      · cases ht
      · rfl
    refine (Ledger.queued_of_move hm hr hq).imp_right ?_
    rintro ⟨k, hk, hk', rfl⟩
    obtain rfl := Option.some.inj ht
    exact ⟨hk, hk'⟩
  · intro base order s' id rest hs hb hc hid
    have hnone : s.pending.lookup id = none := AList.lookup_eq_none.mpr hid
    cases (step_transition hs).2
    simp [intake, hb, hc, intakeMsg, Ledger.cancel, hnone]
  · intro hd id hid
    have hin := hbook.down hd id hid
    exact ⟨hin, (mem_cancels.mp ((hbook.dedup id hid).mpr hin)).1⟩
  · intro q hq
    have hmem : q.sqe ∈ s.outstanding :=
      List.mem_append_right _ (List.mem_map_of_mem hq)
    have hiff := hown.isRead_iff hmem
    rw [← Bool.not_eq_true, hiff]
    rfl
  · intro q rest fileLen late s' hq hb hs
    exact Ledger.pending_of_cancel_reap hq hb
      (step_move (Reach.control h) (any_allows s _) hs).1
  · rw [(Reach.accounted h).conservation.submitted]
    exact hbook.counters_le

/-- A read is accepted, its caller drops it, and the cancel request is taken in. -/
def cancelledRead : List Event :=
  acceptedRead ++ [.send 0 (.cancel 1), .signal 0, .intake 4096 [1]]

theorem cancelledRead_runs : (run (step oneSlot) init cancelledRead).isSome = true := by
  decide +kernel

/-- A cancelled read has exactly one `AsyncCancel` queued. -/
theorem cancels_booked_cancelled :
    ∃ s, Reach oneSlot s ∧ 1 ∈ s.queuedCancels ∧ 1 ∈ s.pending ∧ cancelSqe 1 ∈ s.hist.queued ∧
      (s.hist.queued.filter fun e => e.target == some 1).length ≤ 1 := by
  have hr := reachable_get cancelledRead_runs
  have hbook := cancels_booked oneSlot _ hr
  have hmem :
      1 ∈ ((run (step oneSlot) init cancelledRead).get cancelledRead_runs).queuedCancels := by
    decide +kernel
  have hqueued : cancelSqe 1 ∈
      ((run (step oneSlot) init cancelledRead).get cancelledRead_runs).hist.queued := by
    decide +kernel
  exact ⟨_, hr, hmem, hbook.subset 1 hmem, hqueued, hbook.once 1⟩

end Shard

end Uring
