import Uring.Shard.Cancel

/-!
# Outstanding completions against the completion queue

A read's permit and its dedup entry are both released at the read's completion,
while its `AsyncCancel` may still be outstanding. Such leftover cancels are what a
newly admitted read does not leave room for: they can push the completions still
owed past twice the ring's entries. As long as every accepted read leaves room for
the leftover cancels, the bound holds.
-/

namespace Uring

open Uring.Core

namespace Ledger

/-- The entry cancels a read that has already left the table. -/
def orphaned (l : Ledger) (e : Sqe) : Bool := e.target.any fun id => decide (id ∉ l.pending)

/-- The number of outstanding cancels of reads that have already left the table. -/
def orphanCancels (l : Ledger) : Nat := l.outstanding.countP l.orphaned

/-- Reads that hold a count permit in the channel or in the table. -/
def admitted (l : Ledger) : Nat := (readIds l.chan).length + l.pending.size

/-- Twice the pending reads, and the leftover cancels beside them. -/
def slots (l : Ledger) : Nat := 2 * l.pending.size + l.orphanCancels

theorem orphaned_cancelSqe (l : Ledger) (id : Nat) :
    l.orphaned (cancelSqe id) = decide (id ∉ l.pending) := rfl

theorem orphaned_of_isRead (l : Ledger) {e : Sqe} (h : e.isRead = true) : l.orphaned e = false := by
  cases e
  · rfl
  · cases h

/-- A larger table has fewer leftover cancels. -/
theorem orphaned_mono {l l' : Ledger} (hp : ∀ id, id ∈ l.pending → id ∈ l'.pending) (e : Sqe)
    (h : l'.orphaned e = true) : l.orphaned e = true := by
  cases e with
  | read => cases h
  | asyncCancel id ud =>
    simp only [orphaned, Sqe.target, Option.any_some, decide_eq_true_eq] at h ⊢
    exact fun hid => h (hp id hid)

theorem orphanCancels_le {l l' : Ledger} (hp : ∀ id, id ∈ l.pending → id ∈ l'.pending)
    (ho : l'.outstanding.Perm l.outstanding) : l'.orphanCancels ≤ l.orphanCancels := by
  unfold orphanCancels
  rw [ho.countP_eq]
  exact List.countP_mono_left fun e _ he => orphaned_mono hp e he

/-- Queueing an entry that is no leftover cancel adds none. -/
theorem orphanCancels_queueSqe {l : Ledger} {e : Sqe} (he : l.orphaned e = false) :
    (l.queueSqe e).orphanCancels = l.orphanCancels := by
  unfold orphanCancels
  rw [(outstanding_queueSqe l e).countP_eq]
  have hsame : (l.queueSqe e).orphaned = l.orphaned := rfl
  rw [hsame, List.countP_cons_of_neg (by simp [he])]

theorem orphanCancels_queueCancel {l : Ledger} {id : Nat} (hid : id ∈ l.pending) :
    (l.queueCancel id).orphanCancels = l.orphanCancels := by
  unfold queueCancel
  split
  · rfl
  · have he : l.orphaned (cancelSqe id) = false := by
      rw [orphaned_cancelSqe]
      simp [hid]
    exact orphanCancels_queueSqe he

theorem orphanCancels_queueCancels {l : Ledger} {order : List Nat}
    (ho : ∀ id ∈ order, id ∈ l.pending) :
    (l.queueCancels order).orphanCancels = l.orphanCancels := by
  induction order generalizing l with
  | nil => rfl
  | cons id order ih =>
    rw [queueCancels_cons, ih (pending_of_sweep ho),
      orphanCancels_queueCancel (ho id List.mem_cons_self)]

/-- Reaping a completion leaves at most the leftover cancels there were. -/
theorem orphanCancels_reap {l : Ledger} {q : Cqe} {rest : List Cqe} (hq : l.cq = q :: rest) :
    ({ l with cq := rest } : Ledger).orphanCancels ≤ l.orphanCancels := by
  unfold orphanCancels
  rw [(outstanding_reap l hq).countP_eq]
  exact (List.sublist_cons_self _ _).countP_le

/-- Every outstanding cancel is outstanding once. -/
theorem CancelBook.outstanding_nodup {l : Ledger} (h : l.CancelBook) (hown : l.Ownership) :
    (cancels l.outstanding).Nodup := by
  have hinj : ∀ e ∈ cancels l.hist.queued, ∀ f ∈ cancels l.hist.queued,
      e.userData = f.userData → e = f := by
    intro e he f hf heq
    obtain ⟨a, ha, rfl⟩ := h.known e he
    obtain ⟨b, hb, rfl⟩ := h.known f hf
    have hlt (id : Nat) (hid : id ∈ l.hist.accepted) : id < cancelBit :=
      hown.issued_lt id (hown.known id (List.mem_append_right _ hid))
    rw [or_cancelBit_injective (hlt a ha) (hlt b hb) heq]
  have hnodup : ((cancels l.hist.queued).map Sqe.userData).Nodup :=
    List.Nodup.map_on hinj h.once
  have hsplit := h.reaped.nodup_iff.mp hnodup
  exact List.Nodup.of_map _ (List.nodup_append.mp hsplit).1

/-- At most one outstanding cancel per id. -/
theorem CancelBook.countP_target {l : Ledger} (h : l.CancelBook) (hown : l.Ownership) (id : Nat) :
    l.outstanding.countP (fun e => e.target == some id) ≤ 1 := by
  have hcount : (cancels l.outstanding).count (cancelSqe id) ≤ 1 :=
    List.nodup_iff_count_le_one.mp (h.outstanding_nodup hown) _
  rw [cancels, List.count_filter (by rfl)] at hcount
  refine le_trans (List.countP_mono_left fun e he ht => ?_) hcount
  have hr : e.isRead = false := by
    cases e
    · cases ht
    · rfl
  obtain ⟨k, _, rfl⟩ := hown.shape e he hr
  obtain rfl := Option.some.inj (beq_iff_eq.mp ht)
  exact beq_iff_eq.mpr rfl

/-- Finishing a read leaves behind at most its own cancel. -/
theorem orphanCancels_erase {l : Ledger} (h : l.CancelBook) (hown : l.Ownership) (id : Nat) :
    ({ l with pending := l.pending.erase id } : Ledger).orphanCancels ≤ l.orphanCancels + 1 := by
  have hle : l.outstanding.countP ({ l with pending := l.pending.erase id } : Ledger).orphaned ≤
      l.outstanding.countP (fun e => l.orphaned e || e.target == some id) := by
    refine List.countP_mono_left fun e _ he => ?_
    cases e with
    | read => cases he
    | asyncCancel k ud =>
      simp only [orphaned, Sqe.target, Option.any_some, decide_eq_true_eq, AList.mem_erase,
        not_and, ne_eq, Bool.or_eq_true, beq_iff_eq, Option.some.injEq] at he ⊢
      by_cases hk : k = id
      · exact Or.inr hk
      · exact Or.inl (he hk)
  have hor : l.outstanding.countP (fun e => l.orphaned e || e.target == some id) ≤
      l.outstanding.countP l.orphaned + l.outstanding.countP (fun e => e.target == some id) := by
    induction l.outstanding with
    | nil => simp
    | cons e es ih =>
      simp only [List.countP_cons, Bool.or_eq_true]
      split <;> split <;> split <;> simp_all <;> omega
  have hone := h.countP_target hown id
  unfold orphanCancels
  exact le_trans hle (le_trans hor (by omega))

/-- One outstanding read entry per pending id, at most. -/
theorem Ownership.reads_le {l : Ledger} (h : l.Ownership) :
    (l.outstanding.filter Sqe.isRead).length ≤ l.pending.size := by
  have hnodup : ((l.outstanding.filter Sqe.isRead).map Sqe.userData).Nodup := by
    rw [List.nodup_iff_count_le_one]
    intro id
    have hcount : ((l.outstanding.filter Sqe.isRead).map Sqe.userData).count id =
        l.readCount id := by
      rw [List.count, List.countP_map, List.countP_filter]
      apply List.countP_congr
      intro e _
      simp [and_comm]
    rw [hcount, h.one]
    split <;> omega
  have hsub : (l.outstanding.filter Sqe.isRead).map Sqe.userData ⊆ l.pending.keys := by
    intro id hid
    obtain ⟨e, he, rfl⟩ := List.mem_map.mp hid
    obtain ⟨he, hr⟩ := List.mem_filter.mp he
    exact AList.mem_keys.mp (h.mem_pending he hr)
  have hlen := (List.subperm_of_subset hnodup hsub).length_le
  rwa [List.length_map] at hlen

/-- An outstanding cancel belongs to a pending read, or it is a leftover. -/
theorem CancelBook.cancels_le {l : Ledger} (h : l.CancelBook) (hown : l.Ownership) :
    (cancels l.outstanding).length ≤ l.pending.size + l.orphanCancels := by
  have hsplit := List.length_eq_length_filter_add (l := cancels l.outstanding) l.orphaned
  have horphan : ((cancels l.outstanding).filter l.orphaned).length ≤ l.orphanCancels := by
    rw [← List.countP_eq_length_filter]
    exact List.filter_sublist.countP_le
  have hlive : ((cancels l.outstanding).filter fun e => !l.orphaned e).length ≤
      l.pending.size := by
    have hsub : ((cancels l.outstanding).filter fun e => !l.orphaned e) ⊆
        l.pending.keys.map cancelSqe := by
      intro e he
      obtain ⟨he, hlive⟩ := List.mem_filter.mp he
      obtain ⟨he, hr⟩ := mem_cancels.mp he
      obtain ⟨id, _, rfl⟩ := hown.shape e he hr
      rw [orphaned_cancelSqe] at hlive
      exact List.mem_map_of_mem (AList.mem_keys.mp (by simpa using hlive))
    have hlen := (List.subperm_of_subset ((h.outstanding_nodup hown).filter _) hsub).length_le
    rwa [List.length_map] at hlen
  omega

/-- The completions still owed by the kernel are at most the occupied slots. -/
theorem held_cq_le_slots {l : Ledger} (h : l.CancelBook) (hown : l.Ownership) :
    l.held.length + l.cq.length ≤ l.slots := by
  have hall : l.held.length + l.cq.length ≤ l.outstanding.length := by
    simp only [outstanding, List.length_append, List.length_map]
    omega
  have hsplit := List.length_eq_length_filter_add (l := l.outstanding) Sqe.isRead
  have hreads := hown.reads_le
  have hcancels := h.cancels_le hown
  unfold cancels at hcancels
  unfold slots
  omega

/-- The change admits no read and occupies no slot. -/
def TakesNoRoom (l l' : Ledger) : Prop := l'.admitted ≤ l.admitted ∧ l'.slots ≤ l.slots

theorem TakesNoRoom.trans {l l' l'' : Ledger} (h : l.TakesNoRoom l') (h' : l'.TakesNoRoom l'') :
    l.TakesNoRoom l'' :=
  ⟨h'.1.trans h.1, h'.2.trans h.2⟩

/-- A change that queues no read, keeps the table's keys and leaves no more cancels
behind takes no room. -/
theorem room_of_keys {l l' : Ledger} (hc : (readIds l'.chan).length ≤ (readIds l.chan).length)
    (hp : l'.pending.keys.Perm l.pending.keys) (ho : l'.orphanCancels ≤ l.orphanCancels) :
    l.TakesNoRoom l' := by
  have hsize : l'.pending.size = l.pending.size := hp.length_eq
  unfold TakesNoRoom admitted slots
  omega

/-- A sweep over pending ids takes no room. -/
theorem room_of_queueCancels {l : Ledger} (order : List Nat) (ho : ∀ id ∈ order, id ∈ l.pending) :
    l.TakesNoRoom (l.queueCancels order) := by
  have hf := queueCancels_frame l order
  refine room_of_keys ?_ ?_ (orphanCancels_queueCancels ho).le
  · rw [hf.chan]
  · rw [hf.pending]

/-- Room taken by a move: only a sent read is newly admitted, and only an accepted
read occupies new slots. -/
theorem CancelBook.room {c : Params} {w : Answers} {l l' : Ledger} {a : Actor}
    (h : l.CancelBook) (hown : l.Ownership) (hm : Move c w l a l') :
    l.TakesNoRoom l' ∨ (a = .caller ∧ ∃ m, l' = l.send (.read m)) ∨
      (a = .intake ∧ ∃ m rest, l.chan = .read m :: rest ∧ l'.admitted ≤ l.admitted ∧
        l'.pending.size = l.pending.size + 1 ∧ l'.orphanCancels ≤ l.orphanCancels) := by
  cases hm with
  | idle => exact Or.inl ⟨le_rfl, le_rfl⟩
  | overflow n => exact Or.inl ⟨le_rfl, le_rfl⟩
  | closeRx id => exact Or.inl ⟨le_rfl, le_rfl⟩
  | send m hm =>
    cases m with
    | read m => exact Or.inr (Or.inl ⟨rfl, m, rfl⟩)
    | cancel id | shutdown =>
      refine Or.inl ⟨?_, le_rfl⟩
      simp [admitted, Ledger.send]
  | @postRead k ud file len off ptr data res hk hd ha =>
    left
    have hposted : l.TakesNoRoom { l with
        held := l.held.eraseIdx k
        cq := l.cq ++ [Cqe.mk (.read ud file ptr len off) res] } := by
      refine room_of_keys le_rfl (List.Perm.refl _) ?_
      exact orphanCancels_le (fun _ hid => hid) (outstanding_post l res hk)
    refine hposted.trans (room_of_keys ?_ (writeBlock_keepsReads _ ptr data).keys ?_)
    · obtain ⟨t, ht⟩ := writeBlock_frame { l with
        held := l.held.eraseIdx k
        cq := l.cq ++ [Cqe.mk (.read ud file ptr len off) res] } ptr data
      rw [ht]
    · refine orphanCancels_le (fun id hid => (mem_writeBlock _ ptr data id).mpr hid) ?_
      obtain ⟨t, ht⟩ := writeBlock_frame { l with
        held := l.held.eraseIdx k
        cq := l.cq ++ [Cqe.mk (.read ud file ptr len off) res] } ptr data
      rw [ht]
      exact List.Perm.refl _
  | postCancel res hk =>
    refine Or.inl (room_of_keys le_rfl (List.Perm.refl _) ?_)
    exact orphanCancels_le (fun _ hid => hid) (outstanding_post l res hk)
  | @reject m rest e hc =>
    refine Or.inl ⟨?_, le_rfl⟩
    simp only [admitted, Ledger.reject, hc, readIds_read, List.length_cons]
    omega
  | @accept m rest p sqe hc hd hp hs =>
    obtain ⟨rfl, _⟩ := Pending.readSqe_eq_some hs
    have hsize : (l.pending.insert m.id p).size = l.pending.size + 1 :=
      AList.size_insert_of_notMem p (hown.queued_notMem hc)
    refine Or.inr (Or.inr ⟨rfl, m, rest, hc, ?_, hsize, ?_⟩)
    · simp only [admitted, Ledger.accept, queueSqe, hsize, hc, readIds_read, List.length_cons]
      omega
    · refine le_trans (orphanCancels_queueSqe (orphaned_of_isRead _ rfl)).le ?_
      exact orphanCancels_le (fun id hid => (AList.mem_insert _).mpr (Or.inr hid))
        (List.Perm.refl _)
  | @cancelMiss id rest hc hp =>
    refine Or.inl ⟨?_, le_rfl⟩
    simp [admitted, hc]
  | @cancelHit id rest p hc hp =>
    left
    have hmem := AList.mem_of_lookup hp
    have htaken : l.TakesNoRoom { l with
        chan := rest
        pending := l.pending.insert id { p with cancelRequested := true } } := by
      refine room_of_keys ?_ (AList.keys_overwrite _ hmem) ?_
      · rw [hc, readIds_cancel]
      · exact orphanCancels_le (fun k hk => (AList.mem_overwrite _ hmem k).mpr hk)
          (List.Perm.refl _)
    refine htaken.trans (room_of_queueCancels [id] ?_)
    intro k hk
    exact (AList.mem_insert _).mpr (Or.inl (List.mem_singleton.mp hk))
  | @shutdown rest order hc ho =>
    left
    have htaken : l.TakesNoRoom { l with chan := rest, shuttingDown := true } := by
      refine ⟨?_, le_rfl⟩
      simp [admitted, hc]
    exact htaken.trans (room_of_queueCancels order (pending_of_perm ho))
  | submit n errors =>
    refine Or.inl (room_of_keys le_rfl (List.Perm.refl _) (orphanCancels_le (fun _ hid => hid) ?_))
    exact (outstanding_consume _ n).trans (outstanding_flush c.sqCapacity _)
  | @submitSweep order errors hd ho =>
    left
    have hflushed : l.TakesNoRoom
        { ({ l with stats := { l.stats with submitErrors := errors } }.flush c.sqCapacity) with
          shuttingDown := true } :=
      room_of_keys le_rfl (List.Perm.refl _)
        (orphanCancels_le (fun _ hid => hid) (outstanding_flush c.sqCapacity _))
    exact hflushed.trans (room_of_queueCancels order (pending_of_perm ho))
  | reapCancel hq hb =>
    exact Or.inl (room_of_keys le_rfl (List.Perm.refl _) (orphanCancels_reap hq))
  | reapStale hq hb hp => exact absurd (hown.not_stale hq hb) (AList.lookup_eq_none.mp hp)
  | @resubmit q rest p p' sqe fileLen hq hb hp hf hr =>
    obtain ⟨hs, _⟩ := reapRead_resubmit hr
    obtain ⟨rfl, _⟩ := Pending.readSqe_eq_some hs
    have hmem := AList.mem_of_lookup hp
    refine Or.inl (room_of_keys le_rfl (AList.keys_overwrite _ hmem) ?_)
    refine le_trans (orphanCancels_queueSqe (orphaned_of_isRead _ rfl)).le ?_
    refine le_trans ?_ (orphanCancels_reap hq)
    exact orphanCancels_le (fun k hk => (AList.mem_overwrite _ hmem k).mpr hk) (List.Perm.refl _)
  | @finish q rest p p' outcome tx fileLen late hq hb hp hf hr ht =>
    left
    have hsize := AList.size_erase hp
    have horphan : ({ l with cq := rest }.finish q.userData tx p' outcome late).orphanCancels ≤
        l.orphanCancels + 1 := by
      refine le_trans ?_ (orphanCancels_erase h hown q.userData)
      exact orphanCancels_reap (l := { l with pending := l.pending.erase q.userData }) hq
    constructor
    · change (readIds l.chan).length + (l.pending.erase q.userData).size ≤ l.admitted
      unfold admitted
      omega
    · change 2 * (l.pending.erase q.userData).size + _ ≤ l.slots
      unfold slots
      omega
  | leak n hd =>
    refine Or.inl (room_of_keys le_rfl (List.Perm.of_eq (AList.keys_mapVal _ _)) ?_)
    exact orphanCancels_le (fun id hid => (AList.mem_mapVal _ _ id).mpr hid) (List.Perm.refl _)
  | dropChan hd =>
    refine Or.inl ⟨?_, le_rfl⟩
    simp [admitted, Ledger.dropChan]

end Ledger

namespace Shard

/-- A read is sent only while a count permit is free. -/
def permitFree (c : Params) (s : Shard) : Event → Bool
  | .send _ (.read _) => decide (s.admitted < c.entries)
  | _ => true

/-- A read is taken in only while the leftover cancels of finished reads fit into
what the free permits leave of the completion queue. An intake past the turn's budget
takes nothing. -/
def leavesRoom (c : Params) (s : Shard) : Event → Bool
  | .intake _ _ => match s.chan with
    | .read _ :: _ => !s.budget.canTakeMessage ||
        decide (s.orphanCancels ≤ 2 * (c.entries - (s.pending.size + 1)))
    | _ => true
  | _ => true

/-- An intake past the turn's budget leaves the ledger as it is. -/
theorem intake_spent {c : Params} {s : Shard} (hb : s.budget.canTakeMessage = false)
    (base : Nat) (order : List Nat) : (s.intake c base order).toLedger = s.toLedger := by
  simp [intake, hb]

/-- A read enters the channel only by its own send. -/
theorem send_of_step {c : Params} {s s' : Shard} {e : Event} {m : ReadMsg}
    (h : step c s e = some s') (ha : e.actor = .caller)
    (hl : s'.toLedger = s.send (.read m)) : ∃ p, e = .send p (.read m) := by
  have hchan : s'.chan = s.chan ++ [.read m] := by rw [hl]; rfl
  cases (step_transition h).2 with
  | @send p m' _ ht =>
    obtain ⟨_, _, _, rfl⟩ := sendMsg_eq_some ht
    have heq : m' = .read m := by simpa [Ledger.send] using hchan
    exact ⟨p, heq ▸ rfl⟩
  | join hj ht =>
    obtain ⟨_, _, _, rfl⟩ := sendMsg_eq_some ht
    simp [Ledger.send] at hchan
  | signal | hangup | closeRx => simp at hchan
  | _ => cases ha

/-- As long as every accepted read leaves room for the cancels of finished reads, the
completions owed for accepted entries never exceed the completion queue. -/
theorem completions_within_queue (c : Params) (s : Shard)
    (h : Reachable (step c) (fun s e => permitFree c s e = true ∧ leavesRoom c s e = true) init s) :
    s.held.length + s.cq.length ≤ 2 * c.entries := by
  have hroom : s.admitted ≤ c.entries ∧ s.slots ≤ 2 * c.entries := by
    refine h.invariant (I := fun s => s.admitted ≤ c.entries ∧ s.slots ≤ 2 * c.entries) ?_ ?_
    · exact ⟨Nat.zero_le _, Nat.zero_le _⟩
    · intro s e s' hr hi hok hs
      have hm := (step_move (Reach.control hr) (any_allows s e) hs).1
      rcases (Reach.cancelBook hr).room (Reach.ownership hr) hm with
        hnone | ⟨ha, m, hl⟩ | ⟨ha, m, rest, hchan, hadm, hsize, horphan⟩
      · exact ⟨hnone.1.trans hi.1, hnone.2.trans hi.2⟩
      · obtain ⟨p, rfl⟩ := send_of_step hs ha hl
        have hfree : s.admitted < c.entries := of_decide_eq_true hok.1
        rw [hl]
        refine ⟨?_, hi.2⟩
        simp only [Ledger.admitted, Ledger.send, readIds_append, readIds_read, readIds_nil,
          List.length_append, List.length_cons, List.length_nil] at hfree ⊢
        omega
      · refine ⟨hadm.trans hi.1, ?_⟩
        obtain ⟨base, order, rfl⟩ : ∃ base order, e = .intake base order := by
          cases e <;> first | exact ⟨_, _, rfl⟩ | cases ha
        have hleft : s.orphanCancels ≤ 2 * (c.entries - (s.pending.size + 1)) := by
          have hok := hok.2
          simp only [leavesRoom, hchan, Bool.or_eq_true, Bool.not_eq_true'] at hok
          rcases hok with hspent | hroom
          · have hstay : s'.toLedger = s.toLedger := by
              cases (step_transition hs).2
              exact intake_spent hspent base order
            rw [hstay] at hsize
            exact absurd hsize (Nat.succ_ne_self _).symm
          · exact of_decide_eq_true hroom
        have hpermit : s.pending.size + 1 ≤ c.entries := by
          have hadm := hi.1
          simp only [Ledger.admitted, hchan, readIds_read, List.length_cons] at hadm
          omega
        unfold Ledger.slots
        omega
  exact (Ledger.held_cq_le_slots (Reach.cancelBook h) (Reach.ownership h)).trans hroom.2

/-- A read and its cancel are both accepted by the kernel. -/
def cancelInKernel : List Event :=
  [.send 0 (.read ⟨1, 0, 0, 2, 1, ⟨0, none, none⟩⟩), .send 0 (.cancel 1), .signal 0, .wake,
    .drainCq, .drainWake, .intake 0 [], .intake 0 [1], .intake 0 [1], .submit false (.ok 1) [1],
    .reap (.ok 0) false, .submit false (.ok 1) [1], .endTurn 0 0 0]

/-- Then the read completes and is reaped, a second read takes the freed permit, and
the kernel accepts it and its cancel while it still holds the first cancel. -/
def leftoverCancel : List Event :=
  cancelInKernel ++ [.post 0 2 [7, 8], .wake, .drainCq, .drainWake, .intake 0 [1],
    .submit false (.ok 0) [1], .reap (.ok 0) false, .reap (.ok 0) false, .submit false (.ok 0) [],
    .endTurn 0 0 0, .send 0 (.read ⟨2, 0, 0, 2, 1, ⟨0, none, none⟩⟩), .send 0 (.cancel 2),
    .signal 0, .wake, .drainCq, .drainWake, .intake 0 [], .intake 0 [2], .intake 0 [2],
    .submit false (.ok 1) [2], .reap (.ok 0) false, .submit false (.ok 1) [2]]

theorem cancelInKernel_runs : (run (step oneSlot) init cancelInKernel).isSome = true := by
  decide +kernel

theorem leftoverCancel_runs : (run (step oneSlot) init leftoverCancel).isSome = true := by
  decide +kernel

/-- A ring with two slots. -/
def twoSlots : Params := ⟨2, 2, 2 ^ 64 - 1, 5⟩

theorem leftoverCancel_runs_wide : (run (step twoSlots) init leftoverCancel).isSome = true := by
  decide +kernel

/-- One read and its cancel fill a completion queue of two, and no more. A queue of four also
takes a read and its cancel beside the cancel of a finished read. -/
theorem completions_within_queue_full :
    (∃ s, Reachable (step oneSlot)
        (fun s e => permitFree oneSlot s e = true ∧ leavesRoom oneSlot s e = true) init s ∧
      s.held.length = 2 ∧ s.held.length + s.cq.length ≤ 2 * oneSlot.entries) ∧
    ∃ s, Reachable (step twoSlots)
        (fun s e => permitFree twoSlots s e = true ∧ leavesRoom twoSlots s e = true) init s ∧
      s.orphanCancels = 1 ∧ s.pending.keys = [2] ∧ s.held.length = 3 ∧
      s.held.length + s.cq.length ≤ 2 * twoSlots.entries := by
  have hallowed {c : Params} (s : Shard) (e : Event)
      (he : (permitFree c s e && leavesRoom c s e) = true) :
      permitFree c s e = true ∧ leavesRoom c s e = true := Bool.and_eq_true_iff.mp he
  have hone : admittedBool (step oneSlot)
      (fun s e => permitFree oneSlot s e && leavesRoom oneSlot s e)
      init cancelInKernel = true := by
    decide +kernel
  have htwo : admittedBool (step twoSlots)
      (fun s e => permitFree twoSlots s e && leavesRoom twoSlots s e)
      init leftoverCancel = true := by
    decide +kernel
  have hr := reachable_of_run (Option.some_get cancelInKernel_runs).symm
    (admitted_of_admittedBool hallowed hone)
  have hw := reachable_of_run (Option.some_get leftoverCancel_runs_wide).symm
    (admitted_of_admittedBool hallowed htwo)
  exact ⟨⟨_, hr, by decide +kernel, completions_within_queue oneSlot _ hr⟩,
    _, hw, by decide +kernel, by decide +kernel, by decide +kernel,
    completions_within_queue twoSlots _ hw⟩

/-- With one entry and one permit the kernel can owe three completions. -/
theorem completions_exceed_queue :
    ∃ s, Reachable (step oneSlot) (fun s e => permitFree oneSlot s e = true) init s ∧
      2 * oneSlot.entries < s.held.length + s.cq.length := by
  have ha : admittedBool (step oneSlot) (permitFree oneSlot) init leftoverCancel = true := by
    decide +kernel
  have hr := reachable_of_run (Option.some_get leftoverCancel_runs).symm
    (admitted_of_admittedBool (fun s e he => he) ha)
  exact ⟨_, hr, by decide +kernel⟩

end Shard

end Uring
