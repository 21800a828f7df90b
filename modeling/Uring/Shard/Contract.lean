import Uring.Shard.Order
import Uring.Shard.Range

/-!
# Runs behind `submit` and in front of a conforming kernel

Every pending entry is sound and its outstanding read entry asks for its remainder, so a
conforming answer stays inside the region. Every read entry ever queued was built from
a sound entry, a stream's exactly once. From this no operation of the loop panics.
-/

namespace Uring

open Uring.Core

/-- The read entries of a queue. -/
def reads (es : List Sqe) : List Sqe := es.filter Sqe.isRead

@[simp] theorem reads_append (a b : List Sqe) : reads (a ++ b) = reads a ++ reads b :=
  List.filter_append _ _

theorem reads_singleton {e : Sqe} (h : e.isRead = true) : reads [e] = [e] := by
  simp [reads, h]

/-- A read entry built from a sound entry of one of the requests. -/
def BuiltFrom (c : Params) (ms : List ReadMsg) (e : Sqe) : Prop :=
  ∃ m ∈ ms, ∃ p : Pending, p.buf.block = m.id ∧ p.file = m.file ∧
    p.Sound c.usizeMax m.offset m.len m.align ∧ p.readSqe c.usizeMax m.id = some e

namespace Ledger

theorem reads_queueCancel (l : Ledger) (id : Nat) :
    reads (l.queueCancel id).hist.queued = reads l.hist.queued := by
  unfold queueCancel
  split
  · rfl
  · change reads (l.hist.queued ++ [cancelSqe id]) = _
    rw [reads_append]
    exact List.append_nil _

/-- A cancel sweep queues no read. -/
theorem reads_queueCancels (l : Ledger) (order : List Nat) :
    reads (l.queueCancels order).hist.queued = reads l.hist.queued := by
  induction order generalizing l with
  | nil => rfl
  | cons id order ih => exact (ih (l.queueCancel id)).trans (l.reads_queueCancel id)

/-- Entries, entries' outstanding reads, waiting answers and the reads queued so far. -/
structure Ranged (c : Params) (l : Ledger) : Prop where
  entry : l.pending.All fun id p => p.buf.block = id ∧ ∃ m ∈ l.hist.requests, m.id = id ∧
    p.file = m.file ∧ p.Sound c.usizeMax m.offset m.len m.align
  /-- The outstanding entry of a read asks for its remainder. -/
  sqe : ∀ e ∈ l.outstanding, e.isRead = true → ∀ p, l.pending.lookup e.userData = some p →
    p.readSqe c.usizeMax e.userData = some e
  answer : ∀ q ∈ l.cq, kernelAnswers.read q.sqe q.res []
  built : ∀ e ∈ reads l.hist.queued, BuiltFrom c l.hist.requests e
  /-- A stream read is queued once it is accepted, and never again. -/
  streams : ∀ m ∈ l.hist.requests, m.offset = currentPosition →
    (reads l.hist.queued).countP (fun e => e.userData == m.id) =
      if m.id ∈ l.hist.accepted then 1 else 0

namespace Ranged

variable {c : Params}

theorem init : Ledger.init.Ranged c where
  entry := AList.all_empty
  sqe := by simp [Ledger.init, outstanding]
  answer := by simp [Ledger.init]
  built := by simp [Ledger.init, reads]
  streams := by simp [Ledger.init]

/-- A change that sends, accepts and queues no read, keeps every entry's region and progress
and brings only conforming answers. -/
theorem frame {l l' : Ledger} (h : l.Ranged c) (hr : l'.hist.requests = l.hist.requests)
    (hq : reads l'.hist.queued = reads l.hist.queued)
    (ha : l'.hist.accepted = l.hist.accepted)
    (hp : l'.pending.All fun id q => ∃ p, l.pending.lookup id = some p ∧ p.SameRegion q ∧
      q.buf.bytes.length = p.buf.bytes.length ∧ q.nread = p.nread)
    (ho : ∀ e ∈ l'.outstanding, e.isRead = true → e ∈ l.outstanding)
    (hc : ∀ q ∈ l'.cq, q ∈ l.cq ∨ kernelAnswers.read q.sqe q.res []) : l'.Ranged c where
  entry := by
    rw [hr]
    intro id q hlook
    obtain ⟨p, hlook, hsame, hlen, hn⟩ := hp id q hlook
    obtain ⟨hblock, m, hm, hid, hfile, hsound⟩ := h.entry id p hlook
    exact ⟨hsame.block.trans hblock, m, hm, hid, hsame.file.trans hfile,
      hsound.congr hsame hlen hn⟩
  sqe := by
    intro e he her q hlook
    obtain ⟨p, hlook, hsame, _, hn⟩ := hp _ q hlook
    rw [hsame.readSqe hn]
    exact h.sqe e (ho e he her) her p hlook
  answer := fun q hq => (hc q hq).elim (h.answer q) id
  built := by
    rw [hq, hr]
    exact h.built
  streams := by
    rw [hq, hr, ha]
    exact h.streams

/-- Entries kept as they are satisfy the frame's condition. -/
theorem keep (l : Ledger) : l.pending.All fun id q => ∃ p, l.pending.lookup id = some p ∧
    p.SameRegion q ∧ q.buf.bytes.length = p.buf.bytes.length ∧ q.nread = p.nread :=
  fun _ q hq => ⟨q, hq, .refl q, rfl, rfl⟩

/-- A cancel sweep changes no read. -/
theorem sweep {l : Ledger} (h : l.Ranged c) (order : List Nat) :
    (l.queueCancels order).Ranged c := by
  have hf := queueCancels_frame l order
  refine h.frame hf.requests (l.reads_queueCancels order) hf.accepted ?_
    (fun e he her => mem_outstanding_queueCancels order he her) fun q hq => Or.inl ?_
  · rw [hf.pending]
    exact keep l
  · rw [← hf.cq]
    exact hq

/-- A sent read brings a fresh id: nothing of it is queued yet. -/
theorem send {l : Ledger} (h : l.Ranged c) (ha : l.Accounted) (hids : l.PermitBook c) {m : Msg}
    (hm : ∀ id ∈ readIds [m], id ∉ l.hist.issued ∧ id < cancelBit) : (l.send m).Ranged c := by
  have hnew (r : ReadMsg) (hr : r ∈ readMsgs [m]) : r.id ∉ l.hist.issued := by
    refine (hm r.id ?_).1
    rw [readIds_eq_map]
    exact List.mem_map_of_mem hr
  refine ⟨fun id p hlook => ?_, h.sqe, h.answer, fun e he => ?_, fun r hr hs => ?_⟩
  · obtain ⟨hblock, r, hr, hrest⟩ := h.entry id p hlook
    exact ⟨hblock, r, List.mem_append_left _ hr, hrest⟩
  · obtain ⟨r, hr, hrest⟩ := h.built e he
    exact ⟨r, List.mem_append_left _ hr, hrest⟩
  · rcases List.mem_append.mp hr with hr | hr
    · exact h.streams r hr hs
    · have hfresh := hnew r hr
      have hacc : r.id ∉ l.hist.accepted := fun hin =>
        hfresh (ha.ownership.known _ (List.mem_append_right _ hin))
      change (reads l.hist.queued).countP _ = if r.id ∈ l.hist.accepted then 1 else 0
      rw [if_neg hacc]
      refine List.countP_eq_zero.mpr fun e he heq => hfresh ?_
      obtain ⟨x, hx, p, _, _, _, hsqe⟩ := h.built e he
      rw [← beq_iff_eq.mp heq, (Pending.readSqe_read hsqe).1, ← hids.ids]
      exact List.mem_map_of_mem hx

/-- The kernel's store changes one buffer's contents and posts a conforming answer. -/
theorem postRead {l : Ledger} (h : l.Ranged c) {k ud file len off : Nat} {ptr : Ptr}
    {data : List UInt8} {res : Int} (hk : l.held[k]? = some (.read ud file ptr len off))
    (hw : kernelAnswers.read (.read ud file ptr len off) res data) :
    ({ l with
      held := l.held.eraseIdx k
      cq := l.cq ++ [Cqe.mk (.read ud file ptr len off) res] }.writeBlock ptr data).Ranged c := by
  have hposted : ({ l with
      held := l.held.eraseIdx k
      cq := l.cq ++ [Cqe.mk (.read ud file ptr len off) res] } : Ledger).Ranged c := by
    refine h.frame rfl rfl rfl (keep l) ?_ fun q hq => ?_
    · exact fun e he _ => (outstanding_post l res hk).mem_iff.mp he
    · rcases List.mem_append.mp hq with hq | hq
      · exact Or.inl hq
      · rw [List.mem_singleton.mp hq]
        exact Or.inr hw
  unfold writeBlock
  split
  · exact hposted
  · rename_i p hp
    refine hposted.frame rfl rfl rfl ?_ (fun _ he _ => he) fun _ hq => Or.inl hq
    exact AList.All.insert (keep l)
      ⟨p, hp, (Pending.SameRead.of_bytes p _).toSameRegion, length_overwrite _ _ _, rfl⟩

/-- An accepted read queues its first entry. -/
theorem accept {l : Ledger} (h : l.Ranged c) (ha : l.Accounted) (hids : l.PermitBook c)
    {m : ReadMsg} {rest : List Msg} {p : Pending} {sqe : Sqe} (hc : l.chan = .read m :: rest)
    (hp : NewEntry c m p) (hs : p.readSqe c.usizeMax m.id = some sqe) :
    ({ l with chan := rest }.accept m.id p sqe).Ranged c := by
  obtain ⟨base, k, hd, r, cap, rfl, hg, rfl, _, _⟩ := hp.built
  have hsound := newPending_sound hg base
  have hnew := ha.ownership.queued_notMem hc
  have hmem : m ∈ l.hist.requests := hids.queued m (by rw [hc]; exact List.mem_cons_self)
  obtain ⟨huser, hread⟩ := Pending.readSqe_read hs
  have hreads : reads (l.hist.queued ++ [sqe]) = reads l.hist.queued ++ [sqe] := by
    rw [reads_append, reads_singleton hread]
  have hfresh : m.id ∉ l.hist.accepted := by
    have hnodup := ha.ownership.fresh
    rw [hc, readIds_read, List.cons_append] at hnodup
    exact fun hin => (List.nodup_cons.mp hnodup).1 (List.mem_append_right _ hin)
  refine ⟨?_, fun e he her q hlook => ?_, h.answer, fun e he => ?_, fun x hx hstream => ?_⟩
  · exact AList.All.insert h.entry ⟨rfl, m, hmem, rfl, rfl, hsound⟩
  · refine readSqe_insert ?_ hs ((outstanding_queueSqe _ sqe).mem_iff.mp he) her hlook
    intro e he her
    exact ⟨fun heq => hnew (heq ▸ ha.ownership.mem_pending he her), h.sqe e he her⟩
  · change e ∈ reads (l.hist.queued ++ [sqe]) at he
    rw [hreads] at he
    rcases List.mem_append.mp he with he | he
    · exact h.built e he
    · rw [List.mem_singleton.mp he]
      exact ⟨m, hmem, _, rfl, rfl, hsound, hs⟩
  · change (reads (l.hist.queued ++ [sqe])).countP _ =
      if x.id ∈ l.hist.accepted ++ [m.id] then 1 else 0
    rw [hreads, List.countP_append, h.streams x hx hstream, List.countP_singleton, huser]
    by_cases hid : m.id = x.id
    · rw [← hid, if_neg hfresh]
      simp
    · have hne : x.id ≠ m.id := fun heq => hid heq.symm
      simp [hid, hne]

/-- A resubmission asks for the remainder of a sound entry; a stream is never resubmitted. -/
theorem resubmit {l : Ledger} (h : l.Ranged c) (ha : l.Accounted) (hids : l.PermitBook c)
    (hreq : ∀ m ∈ l.hist.requests, Sendable c m) {q : Cqe} {rest : List Cqe} {p p' : Pending}
    {sqe : Sqe} {fileLen : Except IoError Nat} (hq : l.cq = q :: rest)
    (hb : q.userData &&& cancelBit = 0) (hp : l.pending.lookup q.userData = some p)
    (hr : reapRead c.usizeMax p q.userData q.res l.shuttingDown (l.doneClosed p) fileLen =
      some (p', .resubmit sqe)) :
    ({ l with cq := rest }.resubmit q.userData p' sqe).Ranged c := by
  have hread := (ha.ownership.isRead_iff (Ownership.reap_mem hq)).mpr hb
  obtain ⟨hs, hsame, _, _, _, hpos, _⟩ := reapRead_resubmit hr
  obtain ⟨hblock, m, hm, hid, hfile, hsound⟩ := h.entry _ p hp
  obtain ⟨k, hd, r, hg, hbounds⟩ := (hreq m hm).bounds
  have hnext := hsound.resubmit (hsound.bounds hg hbounds) hr
  obtain ⟨huser, hsread⟩ := Pending.readSqe_read hs
  have hreads : reads (l.hist.queued ++ [sqe]) = reads l.hist.queued ++ [sqe] := by
    rw [reads_append, reads_singleton hsread]
  refine ⟨?_, fun e he her x hlook => ?_, fun x hx => ?_, fun e he => ?_, fun x hx hstream => ?_⟩
  · exact AList.All.insert h.entry
      ⟨hsame.block.trans hblock, m, hm, hid, hsame.file.trans hfile, hnext⟩
  · refine readSqe_insert ?_ hs ((outstanding_queueSqe _ sqe).mem_iff.mp he) her hlook
    intro e he her
    have hout : e ∈ l.outstanding :=
      (outstanding_reap l hq).mem_iff.mpr (List.mem_cons_of_mem _ he)
    exact ⟨ha.ownership.reap_last hq hread he her, h.sqe e hout her⟩
  · refine h.answer x ?_
    rw [hq]
    exact List.mem_cons_of_mem _ hx
  · change e ∈ reads (l.hist.queued ++ [sqe]) at he
    rw [hreads] at he
    rcases List.mem_append.mp he with he | he
    · exact h.built e he
    · rw [List.mem_singleton.mp he]
      exact ⟨m, hm, p', hsame.block.trans (hblock.trans hid.symm), hsame.file.trans hfile, hnext,
        hid ▸ hs⟩
  · change (reads (l.hist.queued ++ [sqe])).countP _ = if x.id ∈ l.hist.accepted then 1 else 0
    rw [hreads, List.countP_append, h.streams x hx hstream, List.countP_singleton, huser]
    have hne : q.userData ≠ x.id := by
      -- a stream's entry is never continued
      intro heq
      have hnodup : (l.hist.requests.map ReadMsg.id).Nodup := by
        rw [hids.ids]
        exact ha.senders.distinct
      obtain rfl : m = x := List.inj_on_of_nodup_map hnodup hm hx (hid.trans heq)
      rcases (hsound.bounds hg hbounds).place with ⟨hoff, _⟩ | ⟨_, _, hk⟩
      · exact hoff hstream
      · exact hpos hk
    simp [hne]

/-- A finished read leaves the table with its last entry. -/
theorem finish {l : Ledger} (h : l.Ranged c) {q : Cqe} {rest : List Cqe} {p : Pending}
    {outcome : IoResult} {tx : Nat} {late : Bool} (hq : l.cq = q :: rest) :
    ({ l with cq := rest }.finish q.userData tx p outcome late).Ranged c := by
  refine h.frame rfl rfl rfl (AList.All.erase (keep l) _) ?_ fun x hx => Or.inl ?_
  · exact fun e he _ => (outstanding_reap l hq).mem_iff.mpr (List.mem_cons_of_mem _ he)
  · rw [hq]
    exact List.mem_cons_of_mem _ hx

/-- Every move keeps to the ranges. -/
theorem move {l l' : Ledger} {a : Actor} (h : l.Ranged c) (ha : l.Accounted)
    (hids : l.PermitBook c) (hreq : ∀ m ∈ l.hist.requests, Sendable c m)
    (hm : Move c kernelAnswers l a l') : l'.Ranged c := by
  have hsame (l : Ledger) : ∀ e ∈ l.outstanding, e.isRead = true → e ∈ l.outstanding :=
    fun _ he _ => he
  cases hm with
  | idle => exact h
  | overflow | closeRx | reject | cancelMiss | dropChan =>
    exact h.frame rfl rfl rfl (keep l) (hsame l) fun _ hq => Or.inl hq
  | send m hm => exact h.send ha hids hm
  | postRead res hk hd hw => exact h.postRead hk hw
  | postCancel res hk =>
    refine h.frame rfl rfl rfl (keep l) ?_ fun q hq => ?_
    · exact fun e he _ => (outstanding_post l res hk).mem_iff.mp he
    · rcases List.mem_append.mp hq with hq | hq
      · exact Or.inl hq
      · rw [List.mem_singleton.mp hq]
        exact Or.inr trivial
  | accept hc hd hp hs => exact h.accept ha hids hc hp hs
  | @cancelHit id rest p hc hp =>
    have htaken : ({ l with
        chan := rest
        pending := l.pending.insert id { p with cancelRequested := true } } : Ledger).Ranged c := by
      refine h.frame rfl rfl rfl ?_ (hsame l) fun _ hq => Or.inl hq
      exact AList.All.insert (keep l)
        ⟨p, hp, ⟨rfl, rfl, rfl, rfl, rfl, rfl, rfl, rfl, rfl⟩, rfl, rfl⟩
    exact htaken.sweep [id]
  | @shutdown rest order hc ho =>
    have htaken : ({ l with chan := rest, shuttingDown := true } : Ledger).Ranged c :=
      h.frame rfl rfl rfl (keep l) (hsame l) fun _ hq => Or.inl hq
    exact htaken.sweep order
  | submit n errors =>
    refine h.frame rfl rfl rfl (keep l) ?_ fun _ hq => Or.inl hq
    intro e he _
    exact ((outstanding_consume _ n).trans (outstanding_flush c.sqCapacity _)).mem_iff.mp he
  | @submitSweep order errors hd ho =>
    have hflushed : ({ ({ l with stats := { l.stats with submitErrors := errors } }.flush
        c.sqCapacity) with shuttingDown := true } : Ledger).Ranged c := by
      refine h.frame rfl rfl rfl (keep l) ?_ fun _ hq => Or.inl hq
      intro e he _
      exact (outstanding_flush c.sqCapacity
        { l with stats := { l.stats with submitErrors := errors } }).mem_iff.mp he
    exact hflushed.sweep order
  | @reapCancel q rest hq hb =>
    refine h.frame rfl rfl rfl (keep l) ?_ fun x hx => Or.inl ?_
    · exact fun e he _ => (outstanding_reap l hq).mem_iff.mpr (List.mem_cons_of_mem _ he)
    · rw [hq]
      exact List.mem_cons_of_mem _ hx
  | reapStale hq hb hp => exact absurd (ha.ownership.not_stale hq hb) (AList.lookup_eq_none.mp hp)
  | resubmit hq hb hp hf hr => exact h.resubmit ha hids hreq hq hb hp hr
  | finish late hq hb hp hf hr ht => exact h.finish hq
  | leak n hd =>
    refine h.frame rfl rfl rfl ?_ (hsame l) fun _ hq => Or.inl hq
    exact AList.All.mapVal fun _ p hp =>
      ⟨p, hp, ⟨rfl, rfl, rfl, rfl, rfl, rfl, rfl, rfl, rfl⟩, rfl, rfl⟩

end Ranged

/-- What holds along every run whose labels keep the contract. -/
structure Contracted (c : Params) (l : Ledger) : Prop where
  accounted : l.Accounted
  book : l.PermitBook c
  requests : ∀ m ∈ l.hist.requests, Sendable c m
  ranged : l.Ranged c

namespace Contracted

variable {c : Params} {l : Ledger}

/-- The entry of a pending id belongs to a request with checked bounds. -/
theorem entry (h : l.Contracted c) {id : Nat} {p : Pending} (hp : l.pending.lookup id = some p) :
    p.buf.block = id ∧ ∃ m ∈ l.hist.requests, m.id = id ∧ p.file = m.file ∧
      p.Sound c.usizeMax m.offset m.len m.align ∧
      Bounds m.offset m.len m.align p.offset p.head p.regionLen := by
  obtain ⟨hblock, m, hm, hid, hfile, hsound⟩ := h.ranged.entry id p hp
  obtain ⟨k, hd, r, hg, hb⟩ := (h.requests m hm).bounds
  exact ⟨hblock, m, hm, hid, hfile, hsound, hsound.bounds hg hb⟩

/-- Requests are told apart by their ids. -/
theorem request_inj (h : l.Contracted c) {m m' : ReadMsg} (hm : m ∈ l.hist.requests)
    (hm' : m' ∈ l.hist.requests) (hid : m.id = m'.id) : m = m' := by
  have hnodup : (l.hist.requests.map ReadMsg.id).Nodup := by
    rw [h.book.ids]
    exact h.accounted.senders.distinct
  exact List.inj_on_of_nodup_map hnodup hm hm' hid

end Contracted

end Ledger

namespace Shard

/-- Only a send adds a request. -/
theorem step_requests {c : Params} {s s' : Shard} {e : Event} (hc : s.Control)
    (h : step c s e = some s') : s'.hist.requests = s.hist.requests ∨
      ∃ p m, e = .send p (.read m) ∧ s'.hist.requests = s.hist.requests ++ [m] := by
  by_cases ha : e.actor = .caller
  · cases (step_transition h).2 with
    | @send p m _ ht =>
      obtain ⟨_, _, _, rfl⟩ := sendMsg_eq_some ht
      cases m with
      | read m => exact Or.inr ⟨p, m, rfl, rfl⟩
      | cancel | shutdown => exact Or.inl (List.append_nil _)
    | join hj ht =>
      obtain ⟨_, _, _, rfl⟩ := sendMsg_eq_some ht
      exact Or.inl (List.append_nil _)
    | signal | hangup | closeRx => exact Or.inl rfl
    | _ => cases ha
  · exact Or.inl ((step_move hc (any_allows s e) h).1.history.2 ha)

/-- The contract's facts hold in every state its runs reach. -/
theorem Reach.contracted {c : Params} {s : Shard} (h : Reachable (step c) (Contract c) init s) :
    s.toLedger.Contracted c := by
  refine h.invariant (I := fun s => s.toLedger.Contracted c) ?_ fun s e s' hr hi ha hs => ?_
  · exact ⟨.init, .init, by simp [init, Ledger.init], .init⟩
  · have hm := (step_move (Reach.control hr) ha.1 hs).1
    refine ⟨hi.accounted.move hm, hi.book.move hi.accounted.ownership hm, ?_,
      hi.ranged.move hi.accounted hi.book hi.requests hm⟩
    intro m hmem
    rcases step_requests (Reach.control hr) hs with heq | ⟨p, r, rfl, heq⟩
    · exact hi.requests m (heq ▸ hmem)
    · rw [heq] at hmem
      rcases List.mem_append.mp hmem with hmem | hmem
      · exact hi.requests m hmem
      · rw [List.mem_singleton.mp hmem]
        exact ha.2 p r rfl

end Shard

/-- A read entry for the remainder of the region `[k, k + r)` of request `m` after `n` bytes,
in an allocation at address `base` whose region starts at `alignOffset base m.align`. -/
structure InRange (m : ReadMsg) (base k r n : Nat) (e : Sqe) : Prop where
  entry : e = .read m.id m.file ⟨m.id, base, alignOffset base m.align + n⟩ (r - n) (k + n)
  inside : n ≤ r
  /-- The region lies in the allocation of `r + align - 1` bytes. -/
  room : alignOffset base m.align + r ≤ r + (m.align - 1)
  no_wrap : k + n ≤ u64Max
  /-- The length survives the cast to `u32`. -/
  untruncated : r - n < 2 ^ 32
  len_le : r - n ≤ maxReadLen
  end_le : m.offset ≠ currentPosition → k + r ≤ i64Max
  address : m.align ∣ base + (alignOffset base m.align + n)
  position : m.align ∣ k + n
  length : m.align ∣ r - n

/-- The entry built from a sound read is in range and aligned. -/
theorem Pending.Sound.inRange {c : Params} {m : ReadMsg} {p : Pending} {e : Sqe}
    (h : p.Sound c.usizeMax m.offset m.len m.align)
    (hb : Bounds m.offset m.len m.align p.offset p.head p.regionLen) (hu : WideUsize c.usizeMax)
    (hblock : p.buf.block = m.id) (hfile : p.file = m.file)
    (he : p.readSqe c.usizeMax m.id = some e) :
    InRange m p.buf.base p.offset p.regionLen p.nread e := by
  have hpos := Nat.pos_of_isPowerOfTwo hb.pow
  have hpad := alignOffset_lt hpos p.buf.base
  have hregion := hb.region_le
  rw [h.readSqe_eq hb hu, hblock, hfile, h.pad] at he
  refine ⟨(Option.some.inj he).symm, h.nread_le, ?_, h.position_le hb, ?_, ?_, ?_, ?_, ?_, ?_⟩
  · omega
  · unfold maxReadLen at hregion
    omega
  · omega
  · intro hoff
    rcases hb.place with ⟨_, hend⟩ | ⟨hstream, _⟩
    · exact hend
    · exact absurd hstream hoff
  · rw [← Nat.add_assoc]
    exact Nat.dvd_add (dvd_add_alignOffset hpos _) h.nread_dvd
  · exact Nat.dvd_add hb.dvd_offset h.nread_dvd
  · exact Nat.dvd_sub hb.dvd_region h.nread_dvd

namespace Ledger.Contracted

variable {c : Params} {l : Ledger}

/-- Every read entry ever queued is in range. -/
theorem queued_inRange (h : l.Contracted c) (hu : WideUsize c.usizeMax) {e : Sqe}
    (he : e ∈ reads l.hist.queued) : ∃ m ∈ l.hist.requests, ∃ base k hd r n,
      alignedGeometry c.usizeMax m.offset m.len m.align = some (k, hd, r) ∧
        InRange m base k r n e := by
  obtain ⟨m, hm, p, hblock, hfile, hsound, hsqe⟩ := h.ranged.built e he
  obtain ⟨k, hd, r, hg, hb⟩ := (h.requests m hm).bounds
  exact ⟨m, hm, _, _, _, _, _, hsound.geometry,
    hsound.inRange (hsound.bounds hg hb) hu hblock hfile hsqe⟩

/-- The outstanding entry of a pending read asks for what its region still misses. -/
theorem outstanding_inRange (h : l.Contracted c) (hu : WideUsize c.usizeMax) {e : Sqe}
    (he : e ∈ l.outstanding) (hr : e.isRead = true) : ∃ p m, l.pending.lookup e.userData = some p ∧
      m ∈ l.hist.requests ∧ m.id = e.userData ∧
      p.buf.bytes.length = p.regionLen + (m.align - 1) ∧ p.pad = alignOffset p.buf.base m.align ∧
      InRange m p.buf.base p.offset p.regionLen p.nread e := by
  obtain ⟨p, hp⟩ := Option.isSome_iff_exists.mp
    (AList.lookup_isSome.mpr (h.accounted.ownership.mem_pending he hr))
  obtain ⟨hblock, m, hm, hid, hfile, hsound, hb⟩ := h.entry hp
  have hsqe := h.ranged.sqe e he hr p hp
  rw [← hid] at hsqe
  exact ⟨p, m, hp, hm, hid, hsound.length, hsound.pad,
    hsound.inRange hb hu (hblock.trans hid.symm) hfile hsqe⟩

/-- Every entry of a current-position read asks for the current position. -/
theorem stream_position (h : l.Contracted c) (hu : WideUsize c.usizeMax) {m : ReadMsg}
    (hm : m ∈ l.hist.requests) (hs : m.offset = currentPosition) {e : Sqe}
    (he : e ∈ reads l.hist.queued) (hid : e.userData = m.id) :
    ∃ file ptr len, e = .read m.id file ptr len u64Max := by
  obtain ⟨x, hx, p, hblock, hfile, hsound, hsqe⟩ := h.ranged.built e he
  obtain ⟨k, hd, r, hg, hb⟩ := (h.requests x hx).bounds
  have hb := hsound.bounds hg hb
  rw [hsound.readSqe_eq hb hu] at hsqe
  obtain rfl := Option.some.inj hsqe
  obtain rfl : x = m := h.request_inj hx hm hid
  rcases hb.place with ⟨hoff, _⟩ | ⟨_, _, hk⟩
  · exact absurd hs hoff
  · rw [hk, hsound.stream hs]
    exact ⟨_, _, _, rfl⟩

end Ledger.Contracted

namespace Shard

/-- A read taken in before shutdown is accepted: neither defensive branch is reached. -/
theorem intake_accepts {c : Params} {s : Shard} (h : s.toLedger.Contracted c)
    (hu : WideUsize c.usizeMax) {m : ReadMsg} {rest : List Msg} (hc : s.chan = .read m :: rest)
    (hd : s.shuttingDown = false) (hb : s.budget.canTakeMessage = true) (base : Nat)
    (order : List Nat) : m.id ∈ (s.intake c base order).pending ∧
      (s.intake c base order).mail = s.mail ∧ (s.intake c base order).phase = s.phase := by
  have hm : Sendable c m := h.requests m (h.book.queued m (by rw [hc]; exact List.mem_cons_self))
  obtain ⟨k, hd', r, sqe, budget, _, heq⟩ := intakeRead_accepts (s := { s with
    chan := rest
    budget := { s.budget with messages := s.budget.messages + 1 } }) hm hu hd base
  simp only [intake, hb, if_true, hc, intakeMsg, heq, Option.getD_some]
  exact ⟨(AList.mem_insert _).mpr (Or.inl rfl), rfl, trivial⟩

/-- Every read entry handed to the kernel is in range and aligned, a current-position read
is submitted exactly once, and intake of a read fails only during shutdown. -/
theorem read_entries_in_range (c : Params) (hu : WideUsize c.usizeMax) (s : Shard)
    (h : Reachable (step c) (Contract c) init s) :
    (∀ e ∈ s.hist.queued, e.isRead = true → ∃ m ∈ s.hist.requests, ∃ base k hd r n,
      alignedGeometry c.usizeMax m.offset m.len m.align = some (k, hd, r) ∧
        InRange m base k r n e) ∧
    (∀ e ∈ s.outstanding, e.isRead = true → ∃ p m, s.pending.lookup e.userData = some p ∧
      m ∈ s.hist.requests ∧ m.id = e.userData ∧
      p.buf.bytes.length = p.regionLen + (m.align - 1) ∧ p.pad = alignOffset p.buf.base m.align ∧
      InRange m p.buf.base p.offset p.regionLen p.nread e) ∧
    (∀ m ∈ s.hist.requests, m.offset = currentPosition →
      (s.hist.queued.filter Sqe.isRead).countP (fun e => e.userData == m.id) =
        (if m.id ∈ s.hist.accepted then 1 else 0) ∧
      ∀ e ∈ s.hist.queued, e.isRead = true → e.userData = m.id →
        ∃ file ptr len, e = .read m.id file ptr len u64Max) ∧
    (∀ m rest base order s', s.chan = .read m :: rest → s.shuttingDown = false →
      s.budget.canTakeMessage = true → step c s (.intake base order) = some s' →
        m.id ∈ s'.pending ∧ s'.mail = s.mail) := by
  have hl := Reach.contracted h
  refine ⟨fun e he hr => ?_, fun e he hr => hl.outstanding_inRange hu he hr,
    fun m hm hs => ⟨hl.ranged.streams m hm hs, fun e he hr hid => ?_⟩, ?_⟩
  · exact hl.queued_inRange hu (List.mem_filter.mpr ⟨he, hr⟩)
  · exact hl.stream_position hu hm hs (List.mem_filter.mpr ⟨he, hr⟩) hid
  · intro m rest base order s' hc hd hb hs
    cases (step_transition hs).2
    have hacc := intake_accepts hl hu hc hd hb base order
    exact ⟨hacc.1, hacc.2.1⟩

/-- Check one label against the contract, for requests without limits. -/
def keepsContract (c : Params) (s : Shard) : Event → Bool
  | .post k res _ => match s.held[k]? with
    | some (.read _ _ _ len _) => (decide (res < 0) && decide (-4095 ≤ res)) ||
        (decide (0 ≤ res) && decide (res.toNat ≤ len))
    | _ => true
  | .reap (.ok n) _ => decide (n ≤ u64Max)
  | .send _ (.read m) =>
    (validateRead c.usizeMax ⟨none, none⟩ m.offset m.len m.align false).isOk ||
      (decide (m.offset = currentPosition) && decide (m.align = 1) &&
        (validateRead c.usizeMax ⟨none, none⟩ m.offset m.len m.align true).isOk)
  | _ => true

theorem contract_of_keepsContract {c : Params} {s : Shard} {e : Event}
    (h : keepsContract c s e = true) : Contract c s e := by
  have hok {x : Except IoError Nat} (hx : x.isOk = true) : ∃ n, x = .ok n := by
    cases x with
    | error e => cases hx
    | ok n => exact ⟨n, rfl⟩
  constructor
  · cases e with
    | post k res data =>
      intro e he
      cases e with
      | read ud file ptr len off =>
        simp only [keepsContract, he, Bool.or_eq_true, Bool.and_eq_true, decide_eq_true_eq] at h
        exact h
      | asyncCancel => trivial
    | reap fileLen late =>
      intro q rest p _ _ n hn
      subst hn
      exact of_decide_eq_true h
    | _ => trivial
  · rintro p m rfl
    simp only [keepsContract, Bool.or_eq_true, Bool.and_eq_true, decide_eq_true_eq] at h
    rcases h with h | ⟨⟨hoff, halign⟩, h⟩
    · obtain ⟨n, hn⟩ := hok h
      exact ⟨_, n, Or.inl hn⟩
    · obtain ⟨n, hn⟩ := hok h
      exact ⟨_, n, Or.inr ⟨hoff, halign, hn⟩⟩

/-- Six bytes at offset five are read in blocks of four into an allocation at address 66;
the first completion brings one block of the two. -/
def blockRead : List Event :=
  [.send 0 (.read ⟨1, 0, 5, 6, 4, ⟨0, none, none⟩⟩), .signal 0, .wake, .drainCq, .drainWake,
    .intake 66 [], .intake 66 [1], .submit false (.ok 1) [1], .post 0 4 [1, 2, 3, 4],
    .reap (.ok 12) false]

theorem blockRead_runs : (run (step oneSlot) init blockRead).isSome = true := by
  decide +kernel

theorem blockRead_reachable : Reachable (step oneSlot) (Contract oneSlot) init
    ((run (step oneSlot) init blockRead).get blockRead_runs) := by
  have ha : admittedBool (step oneSlot) (keepsContract oneSlot) init blockRead = true := by
    decide +kernel
  exact reachable_of_run (Option.some_get blockRead_runs).symm
    (admitted_of_admittedBool (fun _ _ he => contract_of_keepsContract he) ha)

/-- The remainder of a block read is resubmitted at the second block. -/
theorem read_entries_in_range_resubmitted :
    ∃ s, Reachable (step oneSlot) (Contract oneSlot) init s ∧
    .read 1 0 ⟨1, 66, 6⟩ 4 8 ∈ s.hist.queued ∧ ∃ m ∈ s.hist.requests, ∃ base k hd r n,
      alignedGeometry oneSlot.usizeMax m.offset m.len m.align = some (k, hd, r) ∧
        InRange m base k r n (.read 1 0 ⟨1, 66, 6⟩ 4 8) := by
  have hq : .read 1 0 ⟨1, 66, 6⟩ 4 8 ∈
      ((run (step oneSlot) init blockRead).get blockRead_runs).hist.queued := by
    decide +kernel
  exact ⟨_, blockRead_reachable, hq,
    (read_entries_in_range oneSlot (by unfold WideUsize oneSlot; decide) _
      blockRead_reachable).1 _ hq
      rfl⟩

end Shard

end Uring
