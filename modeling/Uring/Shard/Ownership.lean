import Uring.Shard.Move

/-!
# Buffer ownership

The read entries outstanding for an id — queued, submitted, held by the kernel or
completed and not yet reaped — number exactly one while the id is in the pending
table and none otherwise. Cancellation, receiver closure, submit errors and
shutdown leave that count alone; only the read's own final completion removes it.
-/

namespace Uring

open Uring.Core

/-- An id below the cancel bit has that bit clear. -/
theorem and_cancelBit_of_lt {id : Nat} (h : id < cancelBit) : id &&& cancelBit = 0 := by
  unfold cancelBit at *
  rw [Nat.and_two_pow, Nat.testBit_lt_two_pow h]
  rfl

/-- A cancel's `user_data` always has the cancel bit set. -/
theorem or_and_cancelBit (id : Nat) : (id ||| cancelBit) &&& cancelBit ≠ 0 := by
  rw [Nat.and_or_distrib_right, Nat.and_self]
  simp [cancelBit]

/-- Marking with the cancel bit loses no id. -/
theorem or_cancelBit_injective {a b : Nat} (ha : a < cancelBit) (hb : b < cancelBit)
    (h : a ||| cancelBit = b ||| cancelBit) : a = b := by
  have hor (x : Nat) (hx : x < cancelBit) : x ||| cancelBit = cancelBit + x := by
    unfold cancelBit at *
    rw [Nat.lor_comm]
    simpa only [Nat.mul_one] using (Nat.two_pow_add_eq_or_of_lt hx 1).symm
  rw [hor a ha, hor b hb] at h
  omega

/-- Flushing only moves the boundary between the submission queue and the backlog. -/
theorem flushBacklog_append (capacity : Nat) (backlog sq : List Sqe) :
    (flushBacklog capacity backlog sq).2 ++ (flushBacklog capacity backlog sq).1 =
      sq ++ backlog := by
  induction backlog generalizing sq with
  | nil => simp [flushBacklog]
  | cons e rest ih =>
    unfold flushBacklog
    split
    · rw [ih]
      simp
    · rfl

namespace Ledger

/-- Every entry queued and not yet reaped, from the backlog to the completion queue. -/
def outstanding (l : Ledger) : List Sqe :=
  l.backlog ++ l.sq ++ l.held ++ l.cq.map Cqe.sqe

/-- The number of outstanding read entries with this `user_data`. -/
def readCount (l : Ledger) (id : Nat) : Nat :=
  l.outstanding.countP fun e => e.isRead && e.userData == id

theorem outstanding_queueSqe (l : Ledger) (e : Sqe) :
    (l.queueSqe e).outstanding.Perm (e :: l.outstanding) := by
  simp only [outstanding, queueSqe, List.append_assoc]
  exact List.perm_middle

/-- Entries ask for the remainders of their reads also after one read is stored anew with
its entry. -/
theorem readSqe_insert {t : Table Pending} {usizeMax id : Nat} {p : Pending} {sqe : Sqe}
    {old : List Sqe} (hold : ∀ e ∈ old, e.isRead = true → e.userData ≠ id ∧
      ∀ q, t.lookup e.userData = some q → q.readSqe usizeMax e.userData = some e)
    (hs : p.readSqe usizeMax id = some sqe) {e : Sqe} (he : e ∈ sqe :: old)
    (her : e.isRead = true) {q : Pending}
    (hlook : (t.insert id p).lookup e.userData = some q) :
    q.readSqe usizeMax e.userData = some e := by
  rcases List.mem_cons.mp he with rfl | he
  · rw [(Pending.readSqe_read hs).1] at hlook ⊢
    rw [AList.lookup_insert] at hlook
    obtain rfl := Option.some.inj hlook
    exact hs
  · obtain ⟨hne, hasks⟩ := hold e he her
    rw [AList.lookup_insert_ne hne] at hlook
    exact hasks q hlook

theorem outstanding_flush (capacity : Nat) (l : Ledger) :
    (l.flush capacity).outstanding.Perm l.outstanding := by
  have h := flushBacklog_append capacity l.backlog l.sq
  simp only [outstanding, flush]
  apply List.Perm.append_right
  apply List.Perm.append_right
  exact (List.perm_append_comm.trans (List.Perm.of_eq h)).trans List.perm_append_comm

theorem outstanding_consume (l : Ledger) (n : Nat) :
    (l.consume n).outstanding.Perm l.outstanding := by
  rw [List.perm_iff_count]
  intro e
  have h := congrArg (List.count e) (List.take_append_drop n l.sq)
  simp only [outstanding, consume, List.count_append] at h ⊢
  omega

/-- Posting moves one held entry to the completion queue. -/
theorem outstanding_post (l : Ledger) {k : Nat} {e : Sqe} (res : Int) (hk : l.held[k]? = some e) :
    ({ l with held := l.held.eraseIdx k, cq := l.cq ++ [Cqe.mk e res] } : Ledger).outstanding.Perm
      l.outstanding := by
  obtain ⟨hlt, rfl⟩ := List.getElem?_eq_some_iff.mp hk
  have h := (List.getElem_cons_eraseIdx_perm hlt)
  rw [List.perm_iff_count] at h ⊢
  intro a
  have ha := h a
  simp only [outstanding, List.map_append, List.map_cons, List.map_nil, List.count_append,
    List.count_cons, List.count_nil] at ha ⊢
  omega

/-- Reaping takes exactly the head completion's entry out. -/
theorem outstanding_reap (l : Ledger) {q : Cqe} {rest : List Cqe} (hq : l.cq = q :: rest) :
    l.outstanding.Perm (q.sqe :: ({ l with cq := rest } : Ledger).outstanding) := by
  simp only [outstanding, hq, List.map_cons]
  exact List.perm_middle

theorem readCount_congr {l l' : Ledger} (h : l'.outstanding.Perm l.outstanding) (id : Nat) :
    l'.readCount id = l.readCount id :=
  h.countP_eq _

end Ledger

@[simp] theorem readIds_nil : readIds [] = [] := rfl

@[simp] theorem readIds_read (m : ReadMsg) (rest : List Msg) :
    readIds (.read m :: rest) = m.id :: readIds rest := rfl

@[simp] theorem readIds_cancel (id : Nat) (rest : List Msg) :
    readIds (.cancel id :: rest) = readIds rest := rfl

@[simp] theorem readIds_shutdown (rest : List Msg) :
    readIds (.shutdown :: rest) = readIds rest := rfl

@[simp] theorem readIds_append (a b : List Msg) : readIds (a ++ b) = readIds a ++ readIds b :=
  List.filterMap_append

namespace Ledger

/-- Ownership of one shard's buffers: fresh ids, well-formed entries, and one
outstanding read entry per pending id. -/
structure Ownership (l : Ledger) : Prop where
  /-- Ids never reach the cancel bit. -/
  issued_lt : ∀ id ∈ l.hist.issued, id < cancelBit
  /-- A queued id is not queued twice and was never accepted. -/
  fresh : (readIds l.chan ++ l.hist.accepted).Nodup
  known : ∀ id ∈ readIds l.chan ++ l.hist.accepted, id ∈ l.hist.issued
  /-- Only accepted reads are pending. -/
  table : ∀ id ∈ l.pending, id ∈ l.hist.accepted
  /-- Every other outstanding entry is a cancel marked with the cancel bit. -/
  shape : ∀ e ∈ l.outstanding, e.isRead = false → ∃ id, id < cancelBit ∧ e = cancelSqe id
  /-- Exactly one outstanding read entry per pending id, and none for any other. -/
  one : ∀ id, l.readCount id = if id ∈ l.pending then 1 else 0

namespace Ownership

theorem pending_lt {l : Ledger} (h : l.Ownership) {id : Nat} (hid : id ∈ l.pending) :
    id < cancelBit :=
  h.issued_lt id (h.known id (List.mem_append_right _ (h.table id hid)))

/-- A queued read is not in the table. -/
theorem queued_notMem {l : Ledger} (h : l.Ownership) {m : ReadMsg} {rest : List Msg}
    (hc : l.chan = .read m :: rest) : m.id ∉ l.pending := by
  intro hmem
  have hfresh := h.fresh
  rw [hc, readIds_read, List.cons_append] at hfresh
  exact (List.nodup_cons.mp hfresh).1 (List.mem_append_right _ (h.table m.id hmem))

/-- An outstanding read entry belongs to a pending id. -/
theorem mem_pending {l : Ledger} (h : l.Ownership) {e : Sqe} (he : e ∈ l.outstanding)
    (hr : e.isRead = true) : e.userData ∈ l.pending := by
  have hpos : 0 < l.readCount e.userData := by
    apply List.countP_pos_iff.mpr
    exact ⟨e, he, by simp [hr]⟩
  rw [h.one] at hpos
  by_contra hne
  simp [hne] at hpos

/-- The cancel bit tells the two kinds of completion apart. -/
theorem isRead_iff {l : Ledger} (h : l.Ownership) {e : Sqe} (he : e ∈ l.outstanding) :
    e.isRead = true ↔ e.userData &&& cancelBit = 0 := by
  constructor
  · intro hr
    exact and_cancelBit_of_lt (h.pending_lt (h.mem_pending he hr))
  · intro hb
    by_contra hr
    obtain ⟨id, _, rfl⟩ := h.shape e he (Bool.eq_false_iff.mpr hr)
    exact or_and_cancelBit id hb

theorem init : Ledger.init.Ownership where
  issued_lt := by simp [Ledger.init]
  fresh := by simp [Ledger.init]
  known := by simp [Ledger.init]
  table := by simp [Ledger.init]
  shape := by simp [Ledger.init, outstanding]
  one := by simp [Ledger.init, readCount, outstanding]

/-- A change that neither issues nor accepts an id, keeps the table's keys and only
rearranges the outstanding entries keeps ownership. -/
theorem frame {l l' : Ledger} (h : l.Ownership) (hi : l'.hist.issued = l.hist.issued)
    (ha : l'.hist.accepted = l.hist.accepted)
    (hc : (readIds l'.chan).Sublist (readIds l.chan))
    (hp : ∀ id, id ∈ l'.pending ↔ id ∈ l.pending)
    (ho : l'.outstanding.Perm l.outstanding) : l'.Ownership where
  issued_lt := hi ▸ h.issued_lt
  fresh := by
    rw [ha]
    exact h.fresh.sublist (hc.append_right _)
  known := by
    intro id hid
    rw [ha] at hid
    rw [hi]
    exact h.known id ((hc.append_right _).subset hid)
  table := by
    intro id hid
    rw [ha]
    exact h.table id ((hp id).mp hid)
  shape := fun e he => h.shape e (ho.mem_iff.mp he)
  one := by
    intro id
    rw [readCount_congr ho, h.one]
    simp only [hp]

/-- Queueing a cancel for a pending read adds no read entry. -/
theorem queueCancel {l : Ledger} (h : l.Ownership) {id : Nat} (hid : id ∈ l.pending) :
    (l.queueCancel id).Ownership := by
  unfold Ledger.queueCancel
  split
  · exact h
  · have ho : (l.queueSqe (cancelSqe id)).outstanding.Perm (cancelSqe id :: l.outstanding) :=
      outstanding_queueSqe l _
    refine ⟨h.issued_lt, h.fresh, h.known, h.table, ?_, ?_⟩
    · intro e he hr
      rcases List.mem_cons.mp (ho.mem_iff.mp he) with rfl | he
      · exact ⟨id, h.pending_lt hid, rfl⟩
      · exact h.shape e he hr
    · intro k
      have hcount := ho.countP_eq fun e => e.isRead && e.userData == k
      exact hcount.trans (h.one k)

/-- A sweep over pending ids keeps ownership. -/
theorem queueCancels {l : Ledger} (h : l.Ownership) {order : List Nat}
    (ho : ∀ id ∈ order, id ∈ l.pending) : (l.queueCancels order).Ownership := by
  induction order generalizing l with
  | nil => exact h
  | cons id order ih =>
    refine ih (h.queueCancel (ho id List.mem_cons_self)) ?_
    intro k hk
    rw [(l.queueCancel_frame id).pending]
    exact ho k (List.mem_cons_of_mem _ hk)

/-- A sent read brings an id that was never issued before. -/
theorem send {l : Ledger} (h : l.Ownership) {m : Msg}
    (hm : ∀ id ∈ readIds [m], id ∉ l.hist.issued ∧ id < cancelBit) : (l.send m).Ownership := by
  have hperm : (readIds (l.chan ++ [m]) ++ l.hist.accepted).Perm
      (readIds [m] ++ (readIds l.chan ++ l.hist.accepted)) := by
    rw [readIds_append, List.append_assoc]
    exact List.perm_append_comm_assoc _ _ _
  have hnew : (readIds [m]).Nodup := by
    cases m <;> simp
  refine ⟨?_, hperm.nodup_iff.mpr ?_, ?_, h.table, h.shape, h.one⟩
  · intro id hid
    rcases List.mem_append.mp hid with hid | hid
    · exact h.issued_lt id hid
    · exact (hm id hid).2
  · refine List.Nodup.append hnew h.fresh ?_
    intro id hid hold
    exact (hm id hid).1 (h.known id hold)
  · intro id hid
    rcases List.mem_append.mp (hperm.mem_iff.mp hid) with hid | hid
    · exact List.mem_append_right _ hid
    · exact List.mem_append_left _ (h.known id hid)

/-- Accepting a queued read makes its id pending with its first read entry. -/
theorem accept {l : Ledger} (h : l.Ownership) {m : ReadMsg} {rest : List Msg} {p : Pending}
    {sqe : Sqe} (hc : l.chan = .read m :: rest) (hr : sqe.isRead = true)
    (hu : sqe.userData = m.id) : ({ l with chan := rest }.accept m.id p sqe).Ownership := by
  have hnodup := h.fresh
  have hknown := h.known
  rw [hc, readIds_read, List.cons_append] at hnodup hknown
  have hnew := h.queued_notMem hc
  have hperm : (readIds rest ++ (l.hist.accepted ++ [m.id])).Perm
      (m.id :: (readIds rest ++ l.hist.accepted)) := by
    rw [← List.append_assoc]
    exact List.perm_append_singleton _ _
  have ho : ({ l with chan := rest }.accept m.id p sqe).outstanding.Perm
      (sqe :: l.outstanding) := outstanding_queueSqe _ sqe
  refine ⟨h.issued_lt, hperm.nodup_iff.mpr hnodup, ?_, ?_, ?_, ?_⟩
  · intro id hid
    exact hknown id (hperm.mem_iff.mp hid)
  · intro id hid
    rcases (AList.mem_insert _).mp hid with rfl | hid
    · exact List.mem_append_right _ (List.mem_singleton_self _)
    · exact List.mem_append_left _ (h.table id hid)
  · intro e he hne
    rcases List.mem_cons.mp (ho.mem_iff.mp he) with rfl | he
    · rw [hr] at hne
      cases hne
    · exact h.shape e he hne
  · intro id
    have hcount := ho.countP_eq fun e => e.isRead && e.userData == id
    have hmem : id ∈ ({ l with chan := rest }.accept m.id p sqe).pending ↔
        id = m.id ∨ id ∈ l.pending := AList.mem_insert _
    have hone := h.one id
    simp only [readCount] at hone ⊢
    rw [hcount, List.countP_cons, hone]
    simp only [hr, hu, Bool.true_and, beq_iff_eq, hmem]
    by_cases hid : id = m.id
    · subst hid
      simp [hnew]
    · simp [hid, Ne.symm hid]

/-- The ids whose count changes when the head completion is a read's. -/
theorem readCount_reap {l : Ledger} {q : Cqe} {rest : List Cqe} (hq : l.cq = q :: rest)
    (id : Nat) : l.readCount id =
      ({ l with cq := rest } : Ledger).readCount id +
        if q.sqe.isRead = true ∧ q.userData = id then 1 else 0 := by
  have hcount := (outstanding_reap l hq).countP_eq fun e => e.isRead && e.userData == id
  simp only [readCount, Cqe.userData]
  rw [hcount, List.countP_cons]
  congr 1
  simp only [Bool.and_eq_true, beq_iff_eq]
  congr

/-- The head completion is an outstanding entry. -/
theorem reap_mem {l : Ledger} {q : Cqe} {rest : List Cqe} (hq : l.cq = q :: rest) :
    q.sqe ∈ l.outstanding :=
  (outstanding_reap l hq).mem_iff.mpr List.mem_cons_self

/-- Reaping a cancel's completion changes no read count. -/
theorem reapCancel {l : Ledger} (h : l.Ownership) {q : Cqe} {rest : List Cqe}
    (hq : l.cq = q :: rest) (hb : q.userData &&& cancelBit ≠ 0) :
    ({ l with cq := rest }.cancelDone q).Ownership := by
  have hr : q.sqe.isRead = false := by
    by_contra hr
    exact hb ((h.isRead_iff (reap_mem hq)).mp (by simpa using hr))
  refine ⟨h.issued_lt, h.fresh, h.known, h.table, ?_, ?_⟩
  · intro e he
    exact h.shape e ((outstanding_reap l hq).mem_iff.mpr (List.mem_cons_of_mem _ he))
  · intro id
    have hcount := readCount_reap hq id
    simp only [hr, Bool.false_eq_true, false_and, if_false, Nat.add_zero] at hcount
    exact hcount.symm.trans (h.one id)

/-- No completion without the cancel bit is ever stale. -/
theorem not_stale {l : Ledger} (h : l.Ownership) {q : Cqe} {rest : List Cqe}
    (hq : l.cq = q :: rest) (hb : q.userData &&& cancelBit = 0) : q.userData ∈ l.pending :=
  h.mem_pending (reap_mem hq) ((h.isRead_iff (reap_mem hq)).mpr hb)

/-- After a read's completion is taken, no other entry of that read is outstanding. -/
theorem reap_last {l : Ledger} (h : l.Ownership) {q : Cqe} {rest : List Cqe}
    (hq : l.cq = q :: rest) (hr : q.sqe.isRead = true) {e : Sqe}
    (he : e ∈ ({ l with cq := rest } : Ledger).outstanding) (her : e.isRead = true) :
    e.userData ≠ q.userData := by
  intro heq
  have hcount := readCount_reap hq q.userData
  have hpos : 0 < ({ l with cq := rest } : Ledger).readCount q.userData :=
    List.countP_pos_iff.mpr ⟨e, he, by simp [her, heq]⟩
  rw [h.one] at hcount
  simp only [hr, true_and, if_true] at hcount
  split at hcount <;> omega

/-- A read held by the kernel has no completion waiting. -/
theorem held_no_cqe {l : Ledger} (h : l.Ownership) {e : Sqe} (he : e ∈ l.held)
    (hr : e.isRead = true) {q : Cqe} (hq : q ∈ l.cq) (hqr : q.sqe.isRead = true) :
    q.userData ≠ e.userData := by
  intro heq
  have hone := h.one e.userData
  have hheld : 0 < l.held.countP fun x => x.isRead && x.userData == e.userData :=
    List.countP_pos_iff.mpr ⟨e, he, by simp [hr]⟩
  have hcq : 0 < (l.cq.map Cqe.sqe).countP fun x => x.isRead && x.userData == e.userData :=
    List.countP_pos_iff.mpr ⟨q.sqe, List.mem_map_of_mem hq, by simp [hqr, ← heq, Cqe.userData]⟩
  simp only [readCount, outstanding, List.countP_append] at hone
  split at hone <;> omega

/-- A resubmission replaces the reaped read entry by the one for the remainder. -/
theorem resubmit {l : Ledger} (h : l.Ownership) {q : Cqe} {rest : List Cqe} {p p' : Pending}
    {sqe : Sqe} (hq : l.cq = q :: rest) (hb : q.userData &&& cancelBit = 0)
    (hp : l.pending.lookup q.userData = some p) (hr : sqe.isRead = true)
    (hu : sqe.userData = q.userData) :
    ({ l with cq := rest }.resubmit q.userData p' sqe).Ownership := by
  have hread := (h.isRead_iff (reap_mem hq)).mpr hb
  have hmem : q.userData ∈ l.pending := AList.mem_of_lookup hp
  have ho : ({ l with cq := rest }.resubmit q.userData p' sqe).outstanding.Perm
      (sqe :: ({ l with cq := rest } : Ledger).outstanding) := outstanding_queueSqe _ sqe
  have hkeys (id : Nat) : id ∈ ({ l with cq := rest }.resubmit q.userData p' sqe).pending ↔
      id ∈ l.pending := AList.mem_overwrite _ hmem id
  refine ⟨h.issued_lt, h.fresh, h.known, fun id hid => h.table id ((hkeys id).mp hid), ?_, ?_⟩
  · intro e he hne
    rcases List.mem_cons.mp (ho.mem_iff.mp he) with rfl | he
    · rw [hr] at hne
      cases hne
    · exact h.shape e ((outstanding_reap l hq).mem_iff.mpr (List.mem_cons_of_mem _ he)) hne
  · intro id
    have hcount := ho.countP_eq fun e => e.isRead && e.userData == id
    have hreap := readCount_reap hq id
    have hone := h.one id
    simp only [readCount] at hreap hone ⊢
    rw [hcount, List.countP_cons]
    simp only [hkeys]
    rw [← hone, hreap]
    simp [hr, hu, hread]

/-- Finishing removes the id together with its only read entry. -/
theorem finish {l : Ledger} (h : l.Ownership) {q : Cqe} {rest : List Cqe} {p p' : Pending}
    {tx : Nat} {outcome : IoResult} {late : Bool} (hq : l.cq = q :: rest)
    (hb : q.userData &&& cancelBit = 0) (hp : l.pending.lookup q.userData = some p) :
    ({ l with cq := rest }.finish q.userData tx p' outcome late).Ownership := by
  have hread := (h.isRead_iff (reap_mem hq)).mpr hb
  have hmem : q.userData ∈ l.pending := AList.mem_of_lookup hp
  have hkeys (id : Nat) :
      id ∈ ({ l with cq := rest }.finish q.userData tx p' outcome late).pending ↔
        id ≠ q.userData ∧ id ∈ l.pending := AList.mem_erase
  refine ⟨h.issued_lt, h.fresh, h.known, fun id hid => h.table id ((hkeys id).mp hid).2, ?_, ?_⟩
  · intro e he
    exact h.shape e ((outstanding_reap l hq).mem_iff.mpr (List.mem_cons_of_mem _ he))
  · intro id
    have hreap := readCount_reap hq id
    have hone := h.one id
    rw [hreap] at hone
    simp only [hread, true_and] at hone
    have hsame : ({ l with cq := rest }.finish q.userData tx p' outcome late).readCount id =
        ({ l with cq := rest } : Ledger).readCount id := rfl
    rw [hsame]
    simp only [hkeys]
    by_cases hid : id = q.userData
    · subst hid
      simp only [hmem, if_true] at hone
      simp only [ne_eq, not_true_eq_false, false_and, if_false]
      omega
    · simp only [Ne.symm hid, if_false, Nat.add_zero] at hone
      simpa [hid] using hone

end Ownership

/-- A store into a buffer keeps the table's keys. -/
theorem mem_writeBlock (l : Ledger) (ptr : Ptr) (data : List UInt8) (id : Nat) :
    id ∈ (l.writeBlock ptr data).pending ↔ id ∈ l.pending := by
  unfold writeBlock
  split
  · exact Iff.rfl
  · rename_i p hp
    exact AList.mem_overwrite _ (AList.mem_of_lookup hp) id

/-- Every move keeps ownership. -/
theorem Ownership.move {c : Params} {w : Answers} {l l' : Ledger} {a : Actor} (h : l.Ownership)
    (hm : Move c w l a l') : l'.Ownership := by
  cases hm with
  | idle => exact h
  | overflow n => exact h.frame rfl rfl (List.Sublist.refl _) (fun _ => Iff.rfl) (List.Perm.refl _)
  | send m hm => exact h.send hm
  | closeRx id => exact h.frame rfl rfl (List.Sublist.refl _) (fun _ => Iff.rfl) (List.Perm.refl _)
  | @postRead k ud file len off ptr data res hk hd ha =>
    obtain ⟨t, ht⟩ := l.postRead_frame k ⟨_, res⟩ ptr data
    refine h.frame ?_ ?_ ?_ (fun id => mem_writeBlock _ ptr data id) ?_
    · rw [ht]
    · rw [ht]
    · rw [ht]
    · rw [ht]
      exact outstanding_post l res hk
  | postCancel res hk =>
    exact h.frame rfl rfl (List.Sublist.refl _) (fun _ => Iff.rfl) (outstanding_post l res hk)
  | reject e hc =>
    refine h.frame rfl rfl ?_ (fun _ => Iff.rfl) (List.Perm.refl _)
    rw [hc]
    exact List.sublist_cons_self _ _
  | accept hc hd hp hs =>
    obtain ⟨rfl, _⟩ := Pending.readSqe_eq_some hs
    exact h.accept hc rfl rfl
  | cancelMiss hc hp =>
    refine h.frame rfl rfl ?_ (fun _ => Iff.rfl) (List.Perm.refl _)
    rw [hc]
    exact List.Sublist.refl _
  | @cancelHit id rest p hc hp =>
    have hmem : id ∈ l.pending := AList.mem_of_lookup hp
    have hframe : ({ l with
        chan := rest
        pending := l.pending.insert id { p with cancelRequested := true } }
          : Ledger).Ownership := by
      refine h.frame rfl rfl ?_ (AList.mem_overwrite _ hmem) (List.Perm.refl _)
      rw [hc]
      exact List.Sublist.refl _
    exact hframe.queueCancel ((AList.mem_insert _).mpr (Or.inl rfl))
  | @shutdown rest order hc ho =>
    have hframe : ({ l with chan := rest, shuttingDown := true } : Ledger).Ownership := by
      refine h.frame rfl rfl ?_ (fun _ => Iff.rfl) (List.Perm.refl _)
      rw [hc]
      exact List.Sublist.refl _
    exact hframe.queueCancels (pending_of_perm ho)
  | submit n errors =>
    exact h.frame rfl rfl (List.Sublist.refl _) (fun _ => Iff.rfl)
      ((outstanding_consume _ n).trans (outstanding_flush c.sqCapacity _))
  | @submitSweep order errors hd ho =>
    have hframe : ({ ({ l with stats := { l.stats with submitErrors := errors } }.flush
        c.sqCapacity) with shuttingDown := true } : Ledger).Ownership :=
      h.frame rfl rfl (List.Sublist.refl _) (fun _ => Iff.rfl) (outstanding_flush c.sqCapacity _)
    exact hframe.queueCancels (pending_of_perm ho)
  | reapCancel hq hb => exact h.reapCancel hq hb
  | reapStale hq hb hp => exact absurd (h.not_stale hq hb) (AList.lookup_eq_none.mp hp)
  | resubmit hq hb hp hf hr =>
    obtain ⟨hs, _⟩ := reapRead_resubmit hr
    obtain ⟨rfl, _⟩ := Pending.readSqe_eq_some hs
    exact h.resubmit hq hb hp rfl rfl
  | finish late hq hb hp hf hr ht => exact h.finish hq hb hp
  | leak n hd =>
    exact h.frame rfl rfl (List.Sublist.refl _) (fun id => AList.mem_mapVal _ _ id)
      (List.Perm.refl _)
  | dropChan hd => exact h.frame rfl rfl (List.nil_sublist _) (fun _ => Iff.rfl) (List.Perm.refl _)

/-- Entries enter the table at intake alone. -/
theorem mem_of_move {c : Params} {w : Answers} {l l' : Ledger} {a : Actor} (hm : Move c w l a l')
    (ha : a ≠ .intake) {id : Nat} (hid : id ∈ l'.pending) : id ∈ l.pending := by
  cases hm with
  | idle | overflow | send | closeRx | postCancel | submit | reapCancel | reapStale | dropChan =>
    exact hid
  | postRead res hk hd ha =>
    have hmem := (mem_writeBlock _ _ _ id).mp hid
    exact hmem
  | reject | accept | cancelMiss | cancelHit | shutdown => exact absurd rfl ha
  | submitSweep errors hd ho =>
    rw [shutdown_pending] at hid
    exact hid
  | resubmit hq hb hp hf hr =>
    rcases (AList.mem_insert _).mp hid with rfl | hid
    · exact AList.mem_of_lookup hp
    · exact hid
  | finish late hq hb hp hf hr ht => exact (AList.mem_erase.mp hid).2
  | leak n hd => exact (AList.mem_mapVal _ _ id).mp hid

/-- Entries leave the table only at the completion of their read entry. -/
theorem removed_of_move {c : Params} {w : Answers} {l l' : Ledger} {a : Actor}
    (h : l.Ownership) (hm : Move c w l a l') {id : Nat} (hid : id ∈ l.pending)
    (hgone : id ∉ l'.pending) :
    a = .reap ∧ ∃ q, l.cq = q :: l'.cq ∧ q.sqe.isRead = true ∧ q.userData = id := by
  cases hm with
  | idle | overflow | send | closeRx | postCancel | reject | cancelMiss | submit | reapCancel
    | reapStale | dropChan => exact absurd hid hgone
  | postRead res hk hd ha =>
    rw [mem_writeBlock] at hgone
    exact absurd hid hgone
  | accept hc hd hp hs => exact absurd ((AList.mem_insert _).mpr (Or.inr hid)) hgone
  | cancelHit hc hp =>
    rw [queueCancel_pending] at hgone
    exact absurd ((AList.mem_insert _).mpr (Or.inr hid)) hgone
  | shutdown hc ho =>
    rw [shutdown_pending] at hgone
    exact absurd hid hgone
  | submitSweep errors hd ho =>
    rw [shutdown_pending] at hgone
    exact absurd hid hgone
  | resubmit hq hb hp hf hr => exact absurd ((AList.mem_insert _).mpr (Or.inr hid)) hgone
  | @finish q rest p p' outcome tx fileLen late hq hb hp hf hr ht =>
    have hmem := (h.isRead_iff (Ownership.reap_mem hq)).mpr hb
    by_cases heq : id = q.userData
    · exact ⟨rfl, q, hq, hmem, heq.symm⟩
    · exact absurd (AList.mem_erase.mpr ⟨heq, hid⟩) hgone
  | leak n hd => exact absurd ((AList.mem_mapVal _ _ id).mpr hid) hgone

end Ledger

namespace Shard

/-- Ownership holds in every reachable state. -/
theorem Reach.ownership {c : Params} {ok : Shard → Event → Prop} {s : Shard}
    (h : Reachable (step c) ok init s) : s.toLedger.Ownership :=
  ledger_invariant Ledger.Ownership.init (fun _ _ _ hi hm => hi.move hm) h

/-- After a clean drain the table stays empty. -/
theorem Reach.drained {c : Params} {ok : Shard → Event → Prop} {s : Shard}
    (h : Reachable (step c) ok init s) : s.Exiting false → ∀ id, id ∉ s.pending := by
  refine h.invariant (I := fun s => s.Exiting false → ∀ id, id ∉ s.pending) ?_ ?_
  · rintro (he | he) <;> cases he
  · intro s e s' hr hi _ hs he id hid
    rcases exiting_cases he hs with hold | ⟨_, _, hempty, _⟩
    · have hm := (step_move (Reach.control hr) (any_allows s e) hs).1
      exact hi hold id (Ledger.mem_of_move hm (exiting_actor hold hs).1 hid)
    · rw [AList.mem_keys, AList.keys, (hempty rfl).1] at hid
      simp at hid

/-- Exactly one read entry is outstanding per pending id and none for any other;
an entry leaves the table only in the step that reaps its read completion, and
after a clean drain no read entry or completion is left anywhere. -/
theorem outstanding_reads_exact (c : Params) (s : Shard) (h : Reach c s) :
    (∀ id, s.readCount id = if id ∈ s.pending then 1 else 0) ∧
      (∀ e s', step c s e = some s' → ∀ id, id ∈ s.pending → id ∉ s'.pending →
        (∃ fileLen late, e = .reap fileLen late) ∧
        ∃ q, s.cq = q :: s'.cq ∧ q.sqe.isRead = true ∧ q.userData = id) ∧
      (s.phase = .closing false ∨ s.phase = .exited false →
        ∀ e ∈ s.outstanding, e.isRead = false) := by
  have hown := Reach.ownership h
  refine ⟨hown.one, ?_, ?_⟩
  · intro e s' hs id hid hgone
    have hm := (step_move (Reach.control h) (any_allows s e) hs).1
    obtain ⟨ha, hq⟩ := Ledger.removed_of_move hown hm hid hgone
    refine ⟨?_, hq⟩
    cases e <;> first | exact ⟨_, _, rfl⟩ | cases ha
  · intro hexit e he
    by_contra hr
    exact Reach.drained h hexit e.userData (hown.mem_pending he (by simpa using hr))

/-- A two-byte buffered read is sent and taken in. -/
def acceptedRead : List Event :=
  [.send 0 (.read ⟨1, 0, 0, 2, 1, ⟨1, none, none⟩⟩), .signal 0, .wake, .drainCq, .drainWake,
    .intake 4096 []]

theorem acceptedRead_runs : (run (step oneSlot) init acceptedRead).isSome = true := by
  decide +kernel

/-- A freshly accepted read has its one entry outstanding. -/
theorem outstanding_reads_accepted :
    ∃ s, Reach oneSlot s ∧ 1 ∈ s.pending ∧ s.readCount 1 = 1 := by
  have hr := reachable_get acceptedRead_runs
  have hp : 1 ∈ ((run (step oneSlot) init acceptedRead).get acceptedRead_runs).pending := by
    decide +kernel
  refine ⟨_, hr, hp, ?_⟩
  rw [(outstanding_reads_exact oneSlot _ hr).1 1, if_pos hp]

end Shard

end Uring
