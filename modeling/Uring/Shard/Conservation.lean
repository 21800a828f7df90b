import Uring.Shard.Ownership

/-!
# Conservation of logical reads

Every accepted read is pending, delivered or reclaimed as an orphan, and it is
counted there exactly once. Result senders are conserved as well: each issued
read's sender is in the channel, in the table, used or dropped. The counters are
64-bit and never wrap, because ids are distinct and stay below the cancel bit.
-/

namespace Uring

open Uring.Core

/-- The result senders still held by a table. -/
def senders (t : Table Pending) : List Nat := t.entries.filterMap fun e => e.2.done

theorem senders_insert {t : Table Pending} {id : Nat} (p : Pending) (h : id ∉ t) :
    senders (t.insert id p) = p.done.toList ++ senders t :=
  AList.collect_insert p h

/-- Removing an entry takes out its own sender. -/
theorem senders_erase {t : Table Pending} {id : Nat} {p : Pending} (h : t.lookup id = some p) :
    (senders t).Perm (p.done.toList ++ senders (t.erase id)) :=
  AList.collect_erase h

/-- Overwriting an entry without touching its sender keeps the senders. -/
theorem senders_overwrite {t : Table Pending} {id : Nat} {p : Pending} (q : Pending)
    (h : t.lookup id = some p) (hd : q.done = p.done) :
    (senders (t.insert id q)).Perm (senders t) :=
  AList.collect_overwrite q h hd

namespace Ledger

/-- The change leaves the counted reads and the table's keys as they were. -/
structure KeepsReads (l l' : Ledger) : Prop where
  accepted : l'.hist.accepted = l.hist.accepted
  delivered : l'.hist.delivered = l.hist.delivered
  orphaned : l'.hist.orphaned = l.hist.orphaned
  counters : l'.stats.submitted = l.stats.submitted ∧ l'.stats.delivered = l.stats.delivered ∧
    l'.stats.orphanReclaimed = l.stats.orphanReclaimed ∧ l'.stats.inFlight = l.stats.inFlight
  keys : l'.pending.keys.Perm l.pending.keys

/-- A cancel sweep counts nothing. -/
theorem SameButCancels.keepsReads {l l' : Ledger} (h : l.SameButCancels l') : l.KeepsReads l' where
  accepted := h.accepted
  delivered := h.delivered
  orphaned := h.orphaned
  counters := by simp [h.stats]
  keys := List.Perm.of_eq (by rw [h.pending])

/-- Keeping the reads survives a change that keeps them before and after. -/
theorem KeepsReads.trans {l l' l'' : Ledger} (h : l.KeepsReads l') (h' : l'.KeepsReads l'') :
    l.KeepsReads l'' where
  accepted := h'.accepted.trans h.accepted
  delivered := h'.delivered.trans h.delivered
  orphaned := h'.orphaned.trans h.orphaned
  counters := by
    obtain ⟨h1, h2, h3, h4⟩ := h.counters
    obtain ⟨h1', h2', h3', h4'⟩ := h'.counters
    exact ⟨h1'.trans h1, h2'.trans h2, h3'.trans h3, h4'.trans h4⟩
  keys := h'.keys.trans h.keys

/-- A cancel's completion counts its own outcome only. -/
theorem cancelDone_keepsReads (l : Ledger) (q : Cqe) : l.KeepsReads (l.cancelDone q) := by
  refine ⟨rfl, rfl, rfl, ?_, List.Perm.refl _⟩
  simp only [cancelDone, DriverStats.cancelResult]
  split
  · exact ⟨rfl, rfl, rfl, rfl⟩
  · split
    · exact ⟨rfl, rfl, rfl, rfl⟩
    · split <;> exact ⟨rfl, rfl, rfl, rfl⟩

/-- A store into a buffer counts nothing. -/
theorem writeBlock_keepsReads (l : Ledger) (ptr : Ptr) (data : List UInt8) :
    l.KeepsReads (l.writeBlock ptr data) := by
  unfold writeBlock
  split
  · exact ⟨rfl, rfl, rfl, ⟨rfl, rfl, rfl, rfl⟩, List.Perm.refl _⟩
  · rename_i p hp
    exact ⟨rfl, rfl, rfl, ⟨rfl, rfl, rfl, rfl⟩, AList.keys_overwrite _ (AList.mem_of_lookup hp)⟩

end Ledger

/-- Reads are counted at two moves only: an accepting intake and a final completion. -/
theorem Move.reads_cases {c : Params} {w : Answers} {l l' : Ledger} {a : Actor}
    (hm : Move c w l a l') :
    l.KeepsReads l' ∨
      (a = .intake ∧ ∃ m rest p sqe, l.chan = .read m :: rest ∧ l.shuttingDown = false ∧
        NewEntry c m p ∧ l' = { l with chan := rest }.accept m.id p sqe) ∨
      (a = .reap ∧ ∃ q rest p p' outcome tx late, l.cq = q :: rest ∧
        q.userData &&& cancelBit = 0 ∧ l.pending.lookup q.userData = some p ∧
        p'.done = some tx ∧ p.done = some tx ∧ p'.permit = p.permit ∧
        l' = { l with cq := rest }.finish q.userData tx p' outcome late) := by
  cases hm with
  | idle => exact Or.inl ⟨rfl, rfl, rfl, ⟨rfl, rfl, rfl, rfl⟩, List.Perm.refl _⟩
  | overflow | send | closeRx | postCancel | reject | cancelMiss | submit | reapStale | dropChan =>
    exact Or.inl ⟨rfl, rfl, rfl, ⟨rfl, rfl, rfl, rfl⟩, List.Perm.refl _⟩
  | postRead res hk hd ha =>
    left
    refine Ledger.KeepsReads.trans ?_ (Ledger.writeBlock_keepsReads _ _ _)
    exact ⟨rfl, rfl, rfl, ⟨rfl, rfl, rfl, rfl⟩, List.Perm.refl _⟩
  | accept hc hd hp hs => exact Or.inr (Or.inl ⟨rfl, _, _, _, _, hc, hd, hp, rfl⟩)
  | cancelHit hc hp =>
    left
    refine Ledger.KeepsReads.trans ?_ (Ledger.queueCancel_frame _ _).keepsReads
    exact ⟨rfl, rfl, rfl, ⟨rfl, rfl, rfl, rfl⟩,
      AList.keys_overwrite _ (AList.mem_of_lookup hp)⟩
  | shutdown hc ho =>
    left
    refine Ledger.KeepsReads.trans ?_ (Ledger.queueCancels_frame _ _).keepsReads
    exact ⟨rfl, rfl, rfl, ⟨rfl, rfl, rfl, rfl⟩, List.Perm.refl _⟩
  | submitSweep errors hd ho =>
    left
    refine Ledger.KeepsReads.trans ?_ (Ledger.queueCancels_frame _ _).keepsReads
    exact ⟨rfl, rfl, rfl, ⟨rfl, rfl, rfl, rfl⟩, List.Perm.refl _⟩
  | reapCancel hq hb =>
    left
    refine Ledger.KeepsReads.trans ?_ (Ledger.cancelDone_keepsReads _ _)
    exact ⟨rfl, rfl, rfl, ⟨rfl, rfl, rfl, rfl⟩, List.Perm.refl _⟩
  | resubmit hq hb hp hf hr =>
    exact Or.inl ⟨rfl, rfl, rfl, ⟨rfl, rfl, rfl, rfl⟩,
      AList.keys_overwrite _ (AList.mem_of_lookup hp)⟩
  | finish late hq hb hp hf hr ht =>
    have hsame := (reapRead_finish hr).1
    exact Or.inr (Or.inr ⟨rfl, _, _, _, _, _, _, _, hq, hb, hp, ht, hsame.done ▸ ht,
      hsame.permit, rfl⟩)
  | leak n hd =>
    exact Or.inl ⟨rfl, rfl, rfl, ⟨rfl, rfl, rfl, rfl⟩,
      List.Perm.of_eq (AList.keys_mapVal _ _)⟩

/-- Adding one is exact below the word's end. -/
theorem fetchAdd_of_lt {n : Nat} (h : n + 1 < 2 ^ 64) : fetchAdd n = n + 1 :=
  Nat.mod_eq_of_lt h

/-- Subtracting one is exact from a positive word. -/
theorem fetchSub_of_pos {n : Nat} (h : 0 < n) (hn : n < 2 ^ 64) : fetchSub n = n - 1 := by
  unfold fetchSub
  rw [show n + (2 ^ 64 - 1) = n - 1 + 2 ^ 64 by omega, Nat.add_mod_right]
  exact Nat.mod_eq_of_lt (by omega)

namespace Ledger

/-- Distinct ids below the cancel bit bound how many reads are ever accepted. -/
theorem Ownership.accepted_length {l : Ledger} (h : l.Ownership) :
    l.hist.accepted.length ≤ cancelBit := by
  have hnodup : l.hist.accepted.Nodup := (List.nodup_append.mp h.fresh).2.1
  have hsub : l.hist.accepted ⊆ List.range cancelBit := by
    intro id hid
    exact List.mem_range.mpr (h.issued_lt id (h.known id (List.mem_append_right _ hid)))
  have hlen := (List.subperm_of_subset hnodup hsub).length_le
  rwa [List.length_range] at hlen

/-- Every accepted read is delivered, orphaned or pending, and each counter is the
length of its list. -/
structure Conservation (l : Ledger) : Prop where
  split : l.hist.accepted.Perm (l.hist.delivered ++ l.hist.orphaned ++ l.pending.keys)
  submitted : l.stats.submitted = l.hist.accepted.length
  delivered : l.stats.delivered = l.hist.delivered.length
  orphaned : l.stats.orphanReclaimed = l.hist.orphaned.length
  inFlight : l.stats.inFlight = l.pending.size

namespace Conservation

theorem init : Ledger.init.Conservation where
  split := List.Perm.refl _
  submitted := rfl
  delivered := rfl
  orphaned := rfl
  inFlight := rfl

/-- The counted reads are at most the accepted ones. -/
theorem lengths {l : Ledger} (h : l.Conservation) :
    l.hist.accepted.length = l.hist.delivered.length + l.hist.orphaned.length + l.pending.size := by
  have hlen := h.split.length_eq
  simpa only [List.length_append, AList.size] using hlen

theorem frame {l l' : Ledger} (h : l.Conservation) (hk : l.KeepsReads l') : l'.Conservation := by
  obtain ⟨hs, hd, ho, hi⟩ := hk.counters
  refine ⟨?_, ?_, ?_, ?_, ?_⟩
  · rw [hk.accepted, hk.delivered, hk.orphaned]
    exact h.split.trans (hk.keys.symm.append_left _)
  · rw [hs, hk.accepted, h.submitted]
  · rw [hd, hk.delivered, h.delivered]
  · rw [ho, hk.orphaned, h.orphaned]
  · rw [hi, h.inFlight]
    exact hk.keys.length_eq.symm

/-- An acceptance counts the new id as submitted and in flight. -/
theorem accept {l : Ledger} (h : l.Conservation) {id : Nat} {p : Pending} {sqe : Sqe}
    (hnew : id ∉ l.pending) (hlen : l.hist.accepted.length + 1 < 2 ^ 64) :
    (l.accept id p sqe).Conservation := by
  have hsize := h.lengths
  refine ⟨?_, ?_, h.delivered, h.orphaned, ?_⟩
  · have hkeys : (l.pending.insert id p).keys = id :: l.pending.keys := by
      rw [AList.keys_insert, List.erase_of_not_mem]
      exact fun hm => hnew (AList.mem_keys.mpr hm)
    change (l.hist.accepted ++ [id]).Perm
      (l.hist.delivered ++ l.hist.orphaned ++ (l.pending.insert id p).keys)
    rw [hkeys]
    exact (List.perm_append_singleton _ _).trans ((h.split.cons id).trans List.perm_middle.symm)
  · change fetchAdd l.stats.submitted = (l.hist.accepted ++ [id]).length
    rw [h.submitted, fetchAdd_of_lt hlen, List.length_append, List.length_singleton]
  · change fetchAdd l.stats.inFlight = (l.pending.insert id p).size
    rw [h.inFlight, AList.size_insert_of_notMem p hnew]
    exact fetchAdd_of_lt (by omega)

/-- A final completion moves its id from in flight to exactly one of the two counts. -/
theorem finish {l : Ledger} (h : l.Conservation) {id tx : Nat} {p q : Pending}
    {outcome : IoResult} {late : Bool} (hp : l.pending.lookup id = some p)
    (hlen : l.hist.accepted.length ≤ cancelBit) :
    (l.finish id tx q outcome late).Conservation := by
  have hsize := h.lengths
  have herase := AList.size_erase hp
  have hkeys : l.pending.keys.Perm (id :: (l.pending.erase id).keys) := by
    rw [AList.keys_erase]
    exact List.perm_cons_erase (AList.mem_keys.mp (AList.mem_of_lookup hp))
  have hsplit := h.split.trans (hkeys.append_left _)
  have hflight : fetchSub l.stats.inFlight = (l.pending.erase id).size := by
    rw [h.inFlight, fetchSub_of_pos (by omega) (by unfold cancelBit at hlen; omega), herase,
      Nat.add_sub_cancel]
  have hbound : l.hist.delivered.length + 1 < 2 ^ 64 ∧ l.hist.orphaned.length + 1 < 2 ^ 64 := by
    unfold cancelBit at hlen
    omega
  unfold Ledger.finish
  split
  all_goals
    simp only
    split
    · refine ⟨hsplit.trans ?_, h.submitted, ?_, h.orphaned, hflight⟩
      · simp only [List.append_assoc, List.cons_append, List.nil_append]
        exact List.Perm.append_left _ List.perm_middle
      · rw [h.delivered, fetchAdd_of_lt hbound.1, List.length_append, List.length_singleton]
    · refine ⟨hsplit.trans ?_, h.submitted, h.delivered, ?_, hflight⟩
      · simp only [List.append_assoc, List.cons_append, List.nil_append]
        exact List.Perm.refl _
      · rw [h.orphaned, fetchAdd_of_lt hbound.2, List.length_append, List.length_singleton]

end Conservation

/-- Where the result senders of the issued reads are. -/
def senderPlaces (l : Ledger) : List Nat :=
  l.mail.sends.map Sent.id ++ l.mail.lost ++ readIds l.chan ++ senders l.pending

/-- Every issued read's sender is used, dropped, queued or in the table, in exactly
one of these places; a table entry holds its own sender or none. -/
structure Senders (l : Ledger) : Prop where
  distinct : l.hist.issued.Nodup
  places : l.hist.issued.Perm l.senderPlaces
  own : l.pending.All fun id p => p.done = some id ∨ p.done = none

namespace Senders

theorem init : Ledger.init.Senders where
  distinct := List.nodup_nil
  places := List.Perm.refl _
  own := AList.all_empty

/-- No sender is used twice. -/
theorem sends_nodup {l : Ledger} (h : l.Senders) : (l.mail.sends.map Sent.id).Nodup := by
  have hnodup := h.places.nodup_iff.mp h.distinct
  simp only [senderPlaces, List.append_assoc] at hnodup
  exact (List.nodup_append.mp hnodup).1

/-- A change that uses, drops, queues and stores the same senders keeps them. -/
theorem frame {l l' : Ledger} (h : l.Senders) (hi : l'.hist.issued = l.hist.issued)
    (hp : l'.senderPlaces.Perm l.senderPlaces)
    (ho : l'.pending.All fun id p => p.done = some id ∨ p.done = none) : l'.Senders where
  distinct := hi ▸ h.distinct
  places := hi ▸ h.places.trans hp.symm
  own := ho

/-- A cancel sweep moves no sender. -/
theorem sameButCancels {l l' : Ledger} (h : l.Senders) (hf : l.SameButCancels l') :
    l'.Senders := by
  refine h.frame hf.issued ?_ ?_
  · simp only [senderPlaces, hf.mail, hf.chan, hf.pending]
    exact List.Perm.refl _
  · rw [hf.pending]
    exact h.own

/-- Taking a message that carries no sender, and rewriting entries without touching
their senders, moves no sender. -/
theorem touch {l : Ledger} (h : l.Senders) {rest : List Msg} {t : Table Pending}
    (hc : readIds rest = readIds l.chan) (hs : (senders t).Perm (senders l.pending))
    (ho : t.All fun id p => p.done = some id ∨ p.done = none) :
    ({ l with chan := rest, pending := t } : Ledger).Senders := by
  refine h.frame rfl ?_ ho
  simp only [senderPlaces, hc]
  exact hs.append_left _

/-- Rewriting one entry without touching its sender. -/
theorem store {l : Ledger} (h : l.Senders) {id : Nat} {p q : Pending}
    (hp : l.pending.lookup id = some p) (hd : q.done = p.done) :
    (senders (l.pending.insert id q)).Perm (senders l.pending) ∧
      (l.pending.insert id q).All fun id p => p.done = some id ∨ p.done = none :=
  ⟨senders_overwrite q hp hd, h.own.insert (hd ▸ h.own id p hp)⟩

end Senders

/-- A leaked table holds no result sender. -/
theorem senders_leak (l : Ledger) : senders l.leak.pending = [] := by
  simp only [senders, leak, AList.mapVal, List.filterMap_map]
  exact List.filterMap_eq_nil_iff.mpr fun _ _ => rfl

/-- The senders a leak uses are all the table still held. -/
theorem leak_senderPlaces (l : Ledger) : l.leak.senderPlaces.Perm l.senderPlaces := by
  have hsends : l.leak.mail.sends.map Sent.id = l.mail.sends.map Sent.id ++ senders l.pending := by
    simp only [leak, senders, List.map_append, List.map_map]
    congr 1
    exact List.map_id _
  have hlost : l.leak.mail.lost = l.mail.lost := rfl
  have hchan : l.leak.chan = l.chan := rfl
  simp only [senderPlaces, senders_leak, hsends, hlost, hchan, List.append_nil, List.append_assoc]
  apply List.Perm.append_left
  rw [← List.append_assoc (l.mail.lost)]
  exact List.perm_append_comm

/-- Every move conserves the result senders. -/
theorem Senders.move {c : Params} {w : Answers} {l l' : Ledger} {a : Actor} (h : l.Senders)
    (hown : l.Ownership) (hm : Move c w l a l') : l'.Senders := by
  cases hm with
  | idle => exact h
  | overflow | closeRx | postCancel | submit | reapCancel | reapStale =>
    exact h.frame rfl (List.Perm.refl _) h.own
  | send m hm =>
    have hplaces : (l.send m).senderPlaces.Perm (l.senderPlaces ++ readIds [m]) := by
      simp only [senderPlaces, Ledger.send, readIds_append, List.append_assoc]
      exact List.Perm.append_left _ (List.Perm.append_left _
        (List.Perm.append_left _ List.perm_append_comm))
    refine ⟨?_, (h.places.append_right _).trans hplaces.symm, h.own⟩
    refine List.Nodup.append h.distinct ?_ ?_
    · cases m <;> simp
    · intro id hid hnew
      exact (hm id hnew).1 hid
  | @postRead k ud file len off ptr data res hk hd ha =>
    unfold writeBlock
    split
    · exact h.frame rfl (List.Perm.refl _) h.own
    · rename_i p hp
      obtain ⟨hs, ho⟩ := h.store
        (q := { p with buf := { p.buf with bytes := overwrite p.buf.bytes ptr.off data } }) hp rfl
      exact h.frame rfl (hs.append_left _) ho
  | @reject m rest e hc =>
    refine h.frame rfl ?_ h.own
    simp only [senderPlaces, Ledger.reject, Mail.send, hc, readIds_read, List.map_append,
      List.map_cons, List.map_nil, List.append_assoc, List.cons_append, List.nil_append]
    apply List.Perm.append_left
    exact List.perm_middle.symm
  | @accept m rest p sqe hc hd hp hs =>
    obtain ⟨base, k, head, region, cap, rfl, _⟩ := hp.built
    have hnew := hown.queued_notMem hc
    refine h.frame rfl ?_ (h.own.insert (Or.inl rfl))
    simp only [senderPlaces, Ledger.accept, queueSqe, senders_insert _ hnew, hc, readIds_read,
      newPending, Option.toList_some, List.append_assoc, List.cons_append, List.nil_append]
    exact List.Perm.append_left _ (List.Perm.append_left _ List.perm_middle)
  | @cancelMiss id rest hc hp =>
    exact h.touch (by rw [hc, readIds_cancel]) (List.Perm.refl _) h.own
  | @cancelHit id rest p hc hp =>
    obtain ⟨hs, ho⟩ := h.store (q := { p with cancelRequested := true }) hp rfl
    exact (h.touch (by rw [hc, readIds_cancel]) hs ho).sameButCancels (queueCancel_frame _ _)
  | @shutdown rest order hc ho =>
    have htaken : ({ l with chan := rest, shuttingDown := true } : Ledger).Senders := by
      refine h.frame rfl ?_ h.own
      simp only [senderPlaces, hc, readIds_shutdown]
      exact List.Perm.refl _
    exact htaken.sameButCancels (queueCancels_frame _ order)
  | @submitSweep order errors hd ho =>
    have hflushed : ({ ({ l with stats := { l.stats with submitErrors := errors } }.flush
        c.sqCapacity) with shuttingDown := true } : Ledger).Senders :=
      h.frame rfl (List.Perm.refl _) h.own
    exact hflushed.sameButCancels (queueCancels_frame _ order)
  | @resubmit q rest p p' sqe fileLen hq hb hp hf hr =>
    obtain ⟨_, hsame, _⟩ := reapRead_resubmit hr
    obtain ⟨hs, ho⟩ := h.store hp hsame.done
    exact h.frame rfl (hs.append_left _) ho
  | @finish q rest p p' outcome tx fileLen late hq hb hp hf hr ht =>
    have hdone : p.done = some tx := (reapRead_finish hr).1.done ▸ ht
    have hs := senders_erase hp
    rw [hdone, Option.toList_some] at hs
    refine h.frame rfl ?_ (h.own.erase _)
    have hsends : ({ l with cq := rest }.finish q.userData tx p' outcome late).mail.sends.map
        Sent.id = l.mail.sends.map Sent.id ++ [tx] := by
      cases late <;> simp [Ledger.finish, Mail.send, Mail.close]
    have hlost : ({ l with cq := rest }.finish q.userData tx p' outcome late).mail.lost =
        l.mail.lost := by
      cases late <;> rfl
    simp only [senderPlaces, hsends, hlost]
    simp only [Ledger.finish, List.append_assoc, List.cons_append, List.nil_append]
    apply List.Perm.append_left
    refine List.Perm.trans ?_ (List.Perm.append_left _ (List.Perm.append_left _ hs.symm))
    rw [← List.append_assoc, ← List.append_assoc]
    exact List.perm_middle.symm
  | leak n hd =>
    refine h.frame rfl (leak_senderPlaces _) ?_
    exact AList.All.mapVal fun _ _ _ => Or.inr rfl
  | dropChan hd =>
    refine h.frame rfl ?_ h.own
    simp only [senderPlaces, Ledger.dropChan, readIds_nil, List.append_nil, List.append_assoc]
    exact List.Perm.refl _

/-- The reads of a ledger are owned, counted and have their senders accounted for. -/
structure Accounted (l : Ledger) : Prop where
  ownership : l.Ownership
  conservation : l.Conservation
  senders : l.Senders

theorem Accounted.init : Ledger.init.Accounted := ⟨.init, .init, .init⟩

/-- Every move keeps the accounts. -/
theorem Accounted.move {c : Params} {w : Answers} {l l' : Ledger} {a : Actor} (h : l.Accounted)
    (hm : Move c w l a l') : l'.Accounted := by
  have hown := h.ownership.move hm
  refine ⟨hown, ?_, h.senders.move h.ownership hm⟩
  rcases hm.reads_cases with hk | ⟨_, m, rest, p, sqe, hc, _, _, rfl⟩ |
    ⟨_, q, rest, p, p', outcome, tx, late, hq, hb, hp, _, _, _, rfl⟩
  · exact h.conservation.frame hk
  · have hlen : (l.hist.accepted ++ [m.id]).length ≤ cancelBit := hown.accepted_length
    rw [List.length_append, List.length_singleton] at hlen
    have hbase : ({ l with chan := rest } : Ledger).Conservation :=
      h.conservation.frame ⟨rfl, rfl, rfl, ⟨rfl, rfl, rfl, rfl⟩, List.Perm.refl _⟩
    refine hbase.accept (h.ownership.queued_notMem hc) ?_
    unfold cancelBit at hlen
    change l.hist.accepted.length + 1 < 2 ^ 64
    omega
  · have hbase : ({ l with cq := rest } : Ledger).Conservation :=
      h.conservation.frame ⟨rfl, rfl, rfl, ⟨rfl, rfl, rfl, rfl⟩, List.Perm.refl _⟩
    exact hbase.finish hp h.ownership.accepted_length

/-- The counters of the reads and the table's keys are as before. -/
def CountsKept (l l' : Ledger) : Prop :=
  l'.stats.submitted = l.stats.submitted ∧ l'.stats.delivered = l.stats.delivered ∧
    l'.stats.orphanReclaimed = l.stats.orphanReclaimed ∧ l'.stats.inFlight = l.stats.inFlight ∧
    ∀ id, id ∈ l'.pending ↔ id ∈ l.pending

/-- The head message is a read that enters the table and is counted as submitted. -/
def CountsAccept (l l' : Ledger) : Prop :=
  ∃ m, l.chan = .read m :: l'.chan ∧ m.id ∉ l.pending ∧ m.id ∈ l'.pending ∧
    l'.stats.submitted = l.stats.submitted + 1 ∧ l'.stats.inFlight = l.stats.inFlight + 1 ∧
    l'.stats.delivered = l.stats.delivered ∧
    l'.stats.orphanReclaimed = l.stats.orphanReclaimed

/-- The head completion is a read's, its id leaves the table, its own sender is used,
and the result of that send decides which one of the two counters goes up. -/
def CountsFinish (l l' : Ledger) : Prop :=
  ∃ q outcome arrived, l.cq = q :: l'.cq ∧ q.sqe.isRead = true ∧ q.userData ∈ l.pending ∧
    q.userData ∉ l'.pending ∧ l'.mail.sends = l.mail.sends ++ [⟨q.userData, outcome, arrived⟩] ∧
    l'.stats.submitted = l.stats.submitted ∧ l'.stats.inFlight + 1 = l.stats.inFlight ∧
    l'.stats.delivered = l.stats.delivered + arrived.toNat ∧
    l'.stats.orphanReclaimed = l.stats.orphanReclaimed + (!arrived).toNat

/-- Every move counts nothing, one acceptance or one final completion. -/
theorem Accounted.counts {c : Params} {w : Answers} {l l' : Ledger} {a : Actor}
    (h : l.Accounted) (hm : Move c w l a l') :
    l.CountsKept l' ∨ (a = .intake ∧ l.CountsAccept l') ∨ (a = .reap ∧ l.CountsFinish l') := by
  have hafter := (h.move hm).conservation
  have hbound := h.ownership.accepted_length
  have hlengths := h.conservation.lengths
  rcases hm.reads_cases with hk | ⟨ha, m, rest, p, sqe, hc, _, _, rfl⟩ |
    ⟨ha, q, rest, p, p', outcome, tx, late, hq, hb, hp, _, hdone, _, rfl⟩
  · obtain ⟨h1, h2, h3, h4⟩ := hk.counters
    refine Or.inl ⟨h1, h2, h3, h4, fun id => ?_⟩
    rw [AList.mem_keys, AList.mem_keys]
    exact hk.keys.mem_iff
  · refine Or.inr (Or.inl ⟨ha, m, hc, h.ownership.queued_notMem hc, ?_, ?_, ?_, rfl, rfl⟩)
    · exact (AList.mem_insert _).mpr (Or.inl rfl)
    · rw [hafter.submitted, h.conservation.submitted]
      exact List.length_append
    · rw [hafter.inFlight, h.conservation.inFlight]
      exact AList.size_insert_of_notMem p (h.ownership.queued_notMem hc)
  · have hmem : q.userData ∈ l.pending := AList.mem_of_lookup hp
    have htx : tx = q.userData := by
      rcases h.senders.own _ p hp with hown | hown <;> rw [hown] at hdone
      · exact (Option.some.inj hdone).symm
      · cases hdone
    subst htx
    have hread := (h.ownership.isRead_iff (Ownership.reap_mem hq)).mpr hb
    have hsize : l.pending.size =
        ({ l with cq := rest }.finish q.userData q.userData p' outcome late).pending.size + 1 :=
      AList.size_erase hp
    refine Or.inr (Or.inr ⟨ha, q, outcome,
      decide (q.userData ∉ (if late then l.mail.close q.userData else l.mail).closed), hq, hread,
      hmem, ?_, ?_, rfl, ?_, ?_, ?_⟩)
    · exact fun hin => (AList.mem_erase.mp hin).1 rfl
    · cases late <;> rfl
    · rw [hafter.inFlight, h.conservation.inFlight]
      omega
    · rw [hafter.delivered, h.conservation.delivered]
      simp only [Ledger.finish]
      by_cases hin : q.userData ∈ (if late then l.mail.close q.userData else l.mail).closed
      · simp [hin]
      · simp [hin]
    · rw [hafter.orphaned, h.conservation.orphaned]
      simp only [Ledger.finish]
      by_cases hin : q.userData ∈ (if late then l.mail.close q.userData else l.mail).closed
      · simp [hin]
      · simp [hin]

end Ledger

/-- `UringDriver::stats` adds one shard's counters to the running snapshot. -/
def DriverStats.add (a b : DriverStats) : DriverStats where
  submitted := (a.submitted + b.submitted) % 2 ^ 64
  delivered := (a.delivered + b.delivered) % 2 ^ 64
  orphanReclaimed := (a.orphanReclaimed + b.orphanReclaimed) % 2 ^ 64
  inFlight := (a.inFlight + b.inFlight) % 2 ^ 64
  cancelSucceeded := (a.cancelSucceeded + b.cancelSucceeded) % 2 ^ 64
  cancelNotFound := (a.cancelNotFound + b.cancelNotFound) % 2 ^ 64
  cancelAlready := (a.cancelAlready + b.cancelAlready) % 2 ^ 64
  cqOverflow := (a.cqOverflow + b.cqOverflow) % 2 ^ 64
  submitErrors := (a.submitErrors + b.submitErrors) % 2 ^ 64

/-- `UringDriver::stats`: the counters summed across every shard. -/
def statsSnapshot (shards : List Shard) : DriverStats :=
  (shards.map fun s => s.stats).foldl .add .zero

/-- A counter of the snapshot is the exact sum while that sum fits the word. -/
theorem foldl_add_field (f : DriverStats → Nat)
    (hf : ∀ a b, f (a.add b) = (f a + f b) % 2 ^ 64) (stats : List DriverStats)
    (st : DriverStats) (h : f st + (stats.map f).sum < 2 ^ 64) :
    f (stats.foldl .add st) = f st + (stats.map f).sum := by
  induction stats generalizing st with
  | nil => simp
  | cons a stats ih =>
    rw [List.map_cons, List.sum_cons] at h ⊢
    have hadd : f (st.add a) = f st + f a := by
      rw [hf]
      exact Nat.mod_eq_of_lt (by omega)
    rw [List.foldl_cons, ih (st.add a) (by omega), hadd]
    omega

namespace Shard

/-- The accounts hold in every reachable state. -/
theorem Reach.accounted {c : Params} {ok : Shard → Event → Prop} {s : Shard}
    (h : Reachable (step c) ok init s) : s.toLedger.Accounted :=
  ledger_invariant Ledger.Accounted.init (fun _ _ _ hi hm => hi.move hm) h

/-- Conservation of the reads of one shard, in one state and over the next step. -/
structure ReadsConserved (c : Params) (s : Shard) : Prop where
  identity : s.stats.submitted = s.stats.delivered + s.stats.orphanReclaimed + s.stats.inFlight
  inFlight : s.stats.inFlight = s.pending.size
  /-- No read is accepted twice. -/
  accepted_once : s.hist.accepted.Nodup
  /-- Each accepted read is counted once, or not yet and still in the table. -/
  counted_once : s.hist.accepted.Perm (s.hist.delivered ++ s.hist.orphaned ++ s.pending.keys)
  counters : s.stats.submitted = s.hist.accepted.length ∧
    s.stats.delivered = s.hist.delivered.length ∧
    s.stats.orphanReclaimed = s.hist.orphaned.length
  /-- No result sender is used for two sends. -/
  sent_once : (s.mail.sends.map Sent.id).Nodup
  /-- Counting happens at an accepting intake and at a final read completion alone. -/
  steps : ∀ e s', step c s e = some s' → s.CountsKept s'.toLedger ∨
    (e.actor = .intake ∧ s.CountsAccept s'.toLedger) ∨
    (e.actor = .reap ∧ s.CountsFinish s'.toLedger)

/-- Reads issued to different shards under distinct ids keep every sum of read
counters below the word's end. -/
theorem sum_submitted_lt {c : Params} {shards : List Shard} (h : ∀ s ∈ shards, Reach c s)
    (hd : (shards.flatMap fun s => s.hist.issued).Nodup) :
    (shards.map fun s => s.stats.submitted).sum < 2 ^ 64 := by
  have hle : (shards.map fun s => s.stats.submitted).sum ≤
      (shards.flatMap fun s => s.hist.issued).length := by
    rw [List.length_flatMap]
    apply List.sum_le_sum
    intro s hs
    have hacc := Reach.accounted (h s hs)
    rw [hacc.conservation.submitted]
    have hnodup : s.hist.accepted.Nodup := (List.nodup_append.mp hacc.ownership.fresh).2.1
    exact (List.subperm_of_subset hnodup fun id hid =>
      hacc.ownership.known id (List.mem_append_right _ hid)).length_le
  have hsub : (shards.flatMap fun s => s.hist.issued) ⊆ List.range cancelBit := by
    intro id hid
    obtain ⟨s, hs, hid⟩ := List.mem_flatMap.mp hid
    exact List.mem_range.mpr ((Reach.ownership (h s hs)).issued_lt id hid)
  have hlen := (List.subperm_of_subset hd hsub).length_le
  rw [List.length_range] at hlen
  unfold cancelBit at hlen
  omega

/-- Every accepted read is counted exactly once at its final completion and its
sender used at most once; summed over all shards, the delivered and reclaimed reads
are all the submitted ones exactly when none is in flight. -/
theorem reads_conserved (c : Params) :
    (∀ s, Reach c s → ReadsConserved c s) ∧
      ∀ shards : List Shard, (∀ s ∈ shards, Reach c s) →
        (shards.flatMap fun s => s.hist.issued).Nodup →
        ((statsSnapshot shards).submitted =
            (statsSnapshot shards).delivered + (statsSnapshot shards).orphanReclaimed ↔
          (statsSnapshot shards).inFlight = 0) := by
  constructor
  · intro s h
    have hacc := Reach.accounted h
    have hcons := hacc.conservation
    have hlen := hcons.lengths
    refine ⟨?_, hcons.inFlight, (List.nodup_append.mp hacc.ownership.fresh).2.1, hcons.split,
      ⟨hcons.submitted, hcons.delivered, hcons.orphaned⟩, hacc.senders.sends_nodup, ?_⟩
    · rw [hcons.submitted, hcons.delivered, hcons.orphaned, hcons.inFlight, hlen]
    · intro e s' hs
      exact hacc.counts (step_move (Reach.control h) (any_allows s e) hs).1
  · intro shards h hd
    have hlt := sum_submitted_lt h hd
    have hsum : (shards.map fun s => s.stats.submitted).sum =
        (shards.map fun s => s.stats.delivered).sum +
          (shards.map fun s => s.stats.orphanReclaimed).sum +
          (shards.map fun s => s.stats.inFlight).sum := by
      rw [← List.sum_map_add, ← List.sum_map_add]
      congr 1
      apply List.map_congr_left
      intro s hs
      have hcons := (Reach.accounted (h s hs)).conservation
      rw [hcons.submitted, hcons.delivered, hcons.orphaned, hcons.inFlight, hcons.lengths]
    have hfield (f : DriverStats → Nat) (hz : f .zero = 0)
        (hf : ∀ a b, f (a.add b) = (f a + f b) % 2 ^ 64)
        (hb : (shards.map fun s => f s.stats).sum < 2 ^ 64) :
        f (statsSnapshot shards) = (shards.map fun s => f s.stats).sum := by
      have hfold := foldl_add_field f hf (shards.map fun s => s.stats) .zero
        (by rw [hz, List.map_map, Nat.zero_add]; exact hb)
      rw [hz, List.map_map, Nat.zero_add] at hfold
      exact hfold
    rw [hfield (·.submitted) rfl (fun _ _ => rfl) hlt,
      hfield (·.delivered) rfl (fun _ _ => rfl) (by omega),
      hfield (·.orphanReclaimed) rfl (fun _ _ => rfl) (by omega),
      hfield (·.inFlight) rfl (fun _ _ => rfl) (by omega)]
    omega

/-- With one accepted read in flight the identity holds and the snapshot shows it. -/
theorem reads_conserved_accepted :
    ∃ s, Reach oneSlot s ∧ s.stats.submitted = 1 ∧
      s.stats.submitted = s.stats.delivered + s.stats.orphanReclaimed + s.stats.inFlight ∧
      ¬ (statsSnapshot [s]).submitted =
        (statsSnapshot [s]).delivered + (statsSnapshot [s]).orphanReclaimed := by
  have hr := reachable_get acceptedRead_runs
  have hsub :
      ((run (step oneSlot) init acceptedRead).get acceptedRead_runs).stats.submitted = 1 := by
    decide +kernel
  have hflight : ¬ (statsSnapshot
      [(run (step oneSlot) init acceptedRead).get acceptedRead_runs]).inFlight = 0 := by
    decide +kernel
  obtain ⟨hone, hall⟩ := reads_conserved oneSlot
  refine ⟨_, hr, hsub, (hone _ hr).identity, fun heq => hflight ?_⟩
  refine (hall [_] (by simpa using hr) ?_).mp heq
  simpa using (Reach.accounted hr).senders.distinct

end Shard

end Uring
