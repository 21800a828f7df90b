import Uring.Read.Content
import Uring.Shard.Conservation

/-!
# Whole-range delivery

Over files of fixed content, a kernel that answers reads truthfully, and any
interleaving of completions, cancels, shutdown and receiver closures: bytes that
reach a caller are exactly the requested range, clamped at the end of the file. The
invariant follows each pending read's buffer from its allocation to its last
completion.
-/

namespace Uring

open Uring.Core

/-- The kernel and the file system over files of fixed content; stream reads and
failed metadata lookups may answer anything. -/
def fileAnswers (F : Nat → List UInt8) : Answers where
  read
    | .read _ file _ len off, res, data =>
      off ≠ currentPosition → ReadAnswer (F file) off len res data
    | .asyncCancel .., _, _ => True
  fileLen file answer := ∀ n, answer = .ok n → n = (F file).length

/-- A request that `submit` accepts as a positioned read. -/
def Positioned (c : Params) (limits : ReadLimits) (m : ReadMsg) : Prop :=
  ∃ n, validateRead c.usizeMax limits m.offset m.len m.align false = .ok n

@[simp] theorem readMsgs_append (a b : List Msg) : readMsgs (a ++ b) = readMsgs a ++ readMsgs b :=
  List.filterMap_append

theorem readIds_eq_map (chan : List Msg) : readIds chan = (readMsgs chan).map ReadMsg.id := by
  simp only [readIds, readMsgs, List.map_filterMap]
  congr 1
  funext m
  cases m <;> rfl

/-- A fresh entry has fetched nothing and has room for its whole region. -/
theorem NewEntry.filled {c : Params} {limits : ReadLimits} {m : ReadMsg} {p : Pending}
    (h : NewEntry c m p) (hm : Positioned c limits m) (content : List UInt8) :
    Filled content m.offset m.len m.align p := by
  obtain ⟨n, hn⟩ := hm
  obtain ⟨hoff, _, k, hd, r, hg, hr, hlast, _⟩ := validateRead_ok hn
  obtain ⟨base, k', hd', r', cap, rfl, hg', hcap, _, hpad⟩ := h.built
  rw [hg] at hg'
  cases hg'
  have hlt : m.offset < 2 ^ 64 := by
    unfold i64Max at hoff
    omega
  refine ⟨alignedGeometry_spec hlt hg, rfl, hr, hlast, ?_, Nat.zero_le _, ?_⟩
  · simpa [newPending] using hpad
  · simp [newPending]

namespace Ledger

variable {c : Params} {limits : ReadLimits} {F : Nat → List UInt8}

/-- What the pending reads have fetched and what their callers were given. -/
structure Delivery (c : Params) (limits : ReadLimits) (F : Nat → List UInt8) (l : Ledger) :
    Prop where
  queued : ∀ m ∈ readMsgs l.chan, m ∈ l.hist.requests
  ids : l.hist.requests.map ReadMsg.id = l.hist.issued
  /-- An entry owns its buffer's block, and a positioned one is filled so far. -/
  entry : l.pending.All fun id p => p.buf.block = id ∧ ∀ m ∈ l.hist.requests, m.id = id →
    Positioned c limits m → p.file = m.file ∧ Filled (F m.file) m.offset m.len m.align p
  /-- The outstanding entry of a read asks for its remainder. -/
  sqe : ∀ e ∈ l.outstanding, e.isRead = true → ∀ p, l.pending.lookup e.userData = some p →
    p.readSqe c.usizeMax e.userData = some e
  /-- A waiting completion's bytes are already in the buffer. -/
  arrived : ∀ q ∈ l.cq, q.sqe.isRead = true → ∀ p, l.pending.lookup q.userData = some p →
    ∀ m ∈ l.hist.requests, m.id = q.userData → Positioned c limits m → 0 ≤ q.res →
      Arrived (F m.file) p q.res.toNat
  sent : ∀ m ∈ l.hist.requests, Positioned c limits m → ∀ bytes,
    ⟨m.id, .ok bytes, true⟩ ∈ l.mail.sends → bytes = window (F m.file) m.offset m.len

namespace Delivery

theorem init : Ledger.init.Delivery c limits F where
  queued := by simp [Ledger.init, readMsgs]
  ids := rfl
  entry := AList.all_empty
  sqe := by simp [Ledger.init, outstanding]
  arrived := by simp [Ledger.init]
  sent := by simp [Ledger.init]

/-- A change that issues nothing, keeps every entry's region, bytes and progress, adds
no read entry or completion and sends at most errors. -/
theorem frame {l l' : Ledger} (h : l.Delivery c limits F)
    (hr : l'.hist.requests = l.hist.requests) (hi : l'.hist.issued = l.hist.issued)
    (hq : readMsgs l'.chan ⊆ readMsgs l.chan)
    (hp : l'.pending.All fun id q => ∃ p, l.pending.lookup id = some p ∧ p.SameRegion q ∧
      q.buf = p.buf ∧ q.nread = p.nread)
    (ho : ∀ e ∈ l'.outstanding, e.isRead = true → e ∈ l.outstanding)
    (hc : ∀ q ∈ l'.cq, q.sqe.isRead = true → q ∈ l.cq)
    (hs : ∀ x ∈ l'.mail.sends, x ∈ l.mail.sends ∨ ∃ err, x.outcome = .error err) :
    l'.Delivery c limits F where
  queued := by
    rw [hr]
    exact fun m hm => h.queued m (hq hm)
  ids := by rw [hr, hi, h.ids]
  entry := by
    rw [hr]
    intro id q hlook
    obtain ⟨p, hlook, hsame, hb, hn⟩ := hp id q hlook
    obtain ⟨hblock, hfill⟩ := h.entry id p hlook
    refine ⟨hsame.block.trans hblock, fun m hm hid hpos => ?_⟩
    obtain ⟨hfile, hfilled⟩ := hfill m hm hid hpos
    exact ⟨hsame.file.trans hfile, hfilled.congr hsame hb hn⟩
  sqe := by
    intro e he her q hlook
    obtain ⟨p, hlook, hsame, _, hn⟩ := hp _ q hlook
    rw [hsame.readSqe hn]
    exact h.sqe e (ho e he her) her p hlook
  arrived := by
    rw [hr]
    intro q hmem hqr p' hlook m hm hid hpos hres
    obtain ⟨p, hlook, hsame, hb, hn⟩ := hp _ p' hlook
    exact (h.arrived q (hc q hmem hqr) hqr p hlook m hm hid hpos hres).congr hsame hb hn
  sent := by
    rw [hr]
    intro m hm hpos bytes hsent
    rcases hs _ hsent with hsent | ⟨err, herr⟩
    · exact h.sent m hm hpos bytes hsent
    · cases herr

/-- Entries kept as they are satisfy the frame's condition. -/
theorem keep (l : Ledger) : l.pending.All fun id q => ∃ p, l.pending.lookup id = some p ∧
    p.SameRegion q ∧ q.buf = p.buf ∧ q.nread = p.nread :=
  fun _ q hq => ⟨q, hq, .refl q, rfl, rfl⟩

/-- A cancel sweep neither fetches nor delivers. -/
theorem sameButCancels {l l' : Ledger} (h : l.Delivery c limits F) (hf : l.SameButCancels l')
    (ho : ∀ e ∈ l'.outstanding, e.isRead = true → e ∈ l.outstanding) :
    l'.Delivery c limits F := by
  refine h.frame hf.requests hf.issued ?_ ?_ ho ?_ ?_
  · rw [hf.chan]
    exact List.Subset.refl _
  · rw [hf.pending]
    exact keep l
  · rw [hf.cq]
    exact fun _ hq _ => hq
  · rw [hf.mail]
    exact fun _ hx => Or.inl hx

end Delivery

/-- A cancel sweep queues no read. -/
theorem mem_outstanding_queueCancels {l : Ledger} (order : List Nat) {e : Sqe}
    (he : e ∈ (l.queueCancels order).outstanding) (hr : e.isRead = true) : e ∈ l.outstanding := by
  induction order generalizing l with
  | nil => exact he
  | cons id order ih =>
    have hone := ih he
    unfold queueCancel at hone
    split at hone
    · exact hone
    · rcases List.mem_cons.mp ((outstanding_queueSqe l (cancelSqe id)).mem_iff.mp hone) with
        rfl | he
      · cases hr
      · exact he

namespace Delivery

/-- A sent read brings a fresh id, so it concerns no entry and no send so far. -/
theorem send {l : Ledger} (h : l.Delivery c limits F) (ha : l.Accounted) {m : Msg}
    (hm : ∀ id ∈ readIds [m], id ∉ l.hist.issued ∧ id < cancelBit) :
    (l.send m).Delivery c limits F := by
  have hnew : ∀ r ∈ readMsgs [m], r.id ∉ l.hist.issued := by
    intro r hr
    refine (hm r.id ?_).1
    rw [readIds_eq_map]
    exact List.mem_map_of_mem hr
  have hpend (id : Nat) (hid : id ∈ l.pending) : id ∈ l.hist.issued :=
    ha.ownership.known id (List.mem_append_right _ (ha.ownership.table id hid))
  refine ⟨?_, ?_, ?_, h.sqe, ?_, ?_⟩
  · intro r hr
    change r ∈ readMsgs (l.chan ++ [m]) at hr
    rw [readMsgs_append] at hr
    rcases List.mem_append.mp hr with hr | hr
    · exact List.mem_append_left _ (h.queued r hr)
    · exact List.mem_append_right _ hr
  · change (l.hist.requests ++ readMsgs [m]).map ReadMsg.id = l.hist.issued ++ readIds [m]
    rw [List.map_append, h.ids, readIds_eq_map]
  · intro id p hlook
    obtain ⟨hblock, hfill⟩ := h.entry id p hlook
    refine ⟨hblock, fun r hr hid hpos => ?_⟩
    rcases List.mem_append.mp hr with hr | hr
    · exact hfill r hr hid hpos
    · exact absurd (hid ▸ hpend id (AList.mem_of_lookup hlook)) (hnew r hr)
  · intro q hq hqr p hlook r hr hid hpos hres
    rcases List.mem_append.mp hr with hr | hr
    · exact h.arrived q hq hqr p hlook r hr hid hpos hres
    · exact absurd (hid ▸ hpend _ (AList.mem_of_lookup hlook)) (hnew r hr)
  · intro r hr hpos bytes hsent
    rcases List.mem_append.mp hr with hr | hr
    · exact h.sent r hr hpos bytes hsent
    · refine absurd (ha.senders.places.mem_iff.mpr ?_) (hnew r hr)
      simp only [senderPlaces, List.append_assoc]
      exact List.mem_append_left _ (List.mem_map_of_mem hsent)

/-- The kernel's store fills the buffer of the entry it answers and no other. -/
theorem postRead {l : Ledger} (h : l.Delivery c limits F) (hown : l.Ownership)
    {k ud file len off : Nat} {ptr : Ptr} {data : List UInt8} {res : Int}
    (hk : l.held[k]? = some (.read ud file ptr len off))
    (hw : (fileAnswers F).read (.read ud file ptr len off) res data) :
    ({ l with
      held := l.held.eraseIdx k
      cq := l.cq ++ [Cqe.mk (.read ud file ptr len off) res] }.writeBlock ptr data).Delivery
        c limits F := by
  have hheld : Sqe.read ud file ptr len off ∈ l.held := List.mem_of_getElem? hk
  have hout : Sqe.read ud file ptr len off ∈ l.outstanding :=
    List.mem_append_left _ (List.mem_append_right _ hheld)
  obtain ⟨p, hp⟩ := AList.mem_iff_lookup.mp (hown.mem_pending hout rfl)
  have hp : l.pending.lookup ud = some p := hp
  obtain ⟨hblock, hfill⟩ := h.entry ud p hp
  have hbuilt := (Pending.readSqe_eq_some (h.sqe _ hout rfl p hp)).1
  simp only [Sqe.userData, Sqe.read.injEq] at hbuilt
  obtain ⟨_, hfile, hptr, hlen, hoff⟩ := hbuilt
  have hptrBlock : ptr.block = ud := by rw [hptr, hblock]
  have hptrOff : ptr.off = p.pad + p.nread := by rw [hptr]
  have hperm := outstanding_post l res hk
  have hwrite : { l with
      held := l.held.eraseIdx k
      cq := l.cq ++ [Cqe.mk (.read ud file ptr len off) res] }.writeBlock ptr data = { l with
      held := l.held.eraseIdx k
      cq := l.cq ++ [Cqe.mk (.read ud file ptr len off) res]
      pending := l.pending.insert ud { p with
        buf := { p.buf with bytes := overwrite p.buf.bytes (p.pad + p.nread) data } } } := by
    have hlook : l.pending.lookup ptr.block = some p := by
      rw [hptrBlock]
      exact hp
    simp only [writeBlock, hlook, hptrBlock, hptrOff]
  rw [hwrite]
  refine ⟨h.queued, h.ids, ?_, ?_, ?_, h.sent⟩
  · refine AList.All.insert h.entry ⟨hblock, fun m hm hid hpos => ?_⟩
    obtain ⟨hmfile, hfilled⟩ := hfill m hm hid hpos
    exact ⟨hmfile, hfilled.store data⟩
  · intro e he her q hlook
    have heo : e ∈ l.outstanding := hperm.mem_iff.mp he
    change (l.pending.insert ud _).lookup e.userData = some q at hlook
    by_cases heq : e.userData = ud
    · rw [heq, AList.lookup_insert] at hlook
      obtain rfl := Option.some.inj hlook
      have hlook : l.pending.lookup e.userData = some p := by
        rw [heq]
        exact hp
      exact ((Pending.SameRead.of_bytes p _).toSameRegion.readSqe rfl _ _).trans
        (h.sqe e heo her p hlook)
    · rw [AList.lookup_insert_ne heq] at hlook
      exact h.sqe e heo her q hlook
  · intro q hq hqr p' hlook m hm hid hpos hres
    change (l.pending.insert ud _).lookup q.userData = some p' at hlook
    rcases List.mem_append.mp hq with hq | hq
    · have hne : q.userData ≠ ud := hown.held_no_cqe hheld rfl hq hqr
      rw [AList.lookup_insert_ne hne] at hlook
      exact h.arrived q hq hqr p' hlook m hm hid hpos hres
    · obtain rfl := List.mem_singleton.mp hq
      change (l.pending.insert ud _).lookup ud = some p' at hlook
      rw [AList.lookup_insert] at hlook
      obtain rfl := Option.some.inj hlook
      obtain ⟨hmfile, hfilled⟩ := hfill m hm hid hpos
      have hlast := hfilled.last
      have hle := hfilled.nread_le
      have hanswer : ReadAnswer (F m.file) (p.offset + p.nread)
          (p.regionLen - p.nread) res data := by
        have hne : off ≠ currentPosition := by
          unfold i64Max at hlast
          unfold currentPosition u64Max
          omega
        have hread := hw hne
        rwa [hfile, hmfile, hoff, hlen, hfilled.remaining] at hread
      exact hfilled.store_arrived hanswer hres

/-- An accepted read starts with nothing fetched. -/
theorem accept {l : Ledger} (h : l.Delivery c limits F) (ha : l.Accounted) {m : ReadMsg}
    {rest : List Msg} {p : Pending} {sqe : Sqe} (hc : l.chan = .read m :: rest)
    (hp : NewEntry c m p) (hs : p.readSqe c.usizeMax m.id = some sqe) :
    ({ l with chan := rest }.accept m.id p sqe).Delivery c limits F := by
  have hnew := ha.ownership.queued_notMem hc
  have hmem : m ∈ l.hist.requests := h.queued m (by rw [hc]; exact List.mem_cons_self)
  have hnodup : (l.hist.requests.map ReadMsg.id).Nodup := h.ids ▸ ha.senders.distinct
  have hother {k : Nat} {q : Pending} (hk : k ∈ l.pending)
      (hlook : (l.pending.insert m.id p).lookup k = some q) : l.pending.lookup k = some q := by
    have hne : k ≠ m.id := fun heq => hnew (heq ▸ hk)
    rwa [AList.lookup_insert_ne hne] at hlook
  refine ⟨?_, h.ids, ?_, ?_, ?_, h.sent⟩
  · intro r hr
    refine h.queued r ?_
    rw [hc]
    exact List.mem_cons_of_mem _ hr
  · refine AList.All.insert h.entry ⟨?_, fun r hr hid hpos => ?_⟩
    · obtain ⟨_, _, _, _, _, rfl, _⟩ := hp.built
      rfl
    · obtain rfl := List.inj_on_of_nodup_map hnodup hr hmem hid
      refine ⟨?_, hp.filled hpos _⟩
      obtain ⟨_, _, _, _, _, rfl, _⟩ := hp.built
      rfl
  · intro e he her q hlook
    refine readSqe_insert ?_ hs ((outstanding_queueSqe _ sqe).mem_iff.mp he) her hlook
    intro e he her
    exact ⟨fun heq => hnew (heq ▸ ha.ownership.mem_pending he her), h.sqe e he her⟩
  · intro q hq hqr p' hlook r hr hid hpos hres
    have hpend : q.userData ∈ l.pending :=
      ha.ownership.mem_pending (List.mem_append_right _ (List.mem_map_of_mem hq)) hqr
    exact h.arrived q hq hqr p' (hother hpend hlook) r hr hid hpos hres

/-- A resubmission records the arrived bytes and asks for the remainder. -/
theorem resubmit {l : Ledger} (h : l.Delivery c limits F) (hown : l.Ownership) {q : Cqe}
    {rest : List Cqe} {p p' : Pending} {sqe : Sqe} {fileLen : Except IoError Nat}
    (hq : l.cq = q :: rest) (hb : q.userData &&& cancelBit = 0)
    (hp : l.pending.lookup q.userData = some p)
    (hr : reapRead c.usizeMax p q.userData q.res l.shuttingDown (l.doneClosed p) fileLen =
      some (p', .resubmit sqe)) :
    ({ l with cq := rest }.resubmit q.userData p' sqe).Delivery c limits F := by
  have hread := (hown.isRead_iff (Ownership.reap_mem hq)).mpr hb
  obtain ⟨hs, hsame, _⟩ := reapRead_resubmit hr
  obtain ⟨hblock, hfill⟩ := h.entry _ p hp
  have hmem : q ∈ l.cq := by
    rw [hq]
    exact List.mem_cons_self
  have hrest {x : Cqe} (hx : x ∈ rest) : x ∈ l.cq := by
    rw [hq]
    exact List.mem_cons_of_mem _ hx
  refine ⟨h.queued, h.ids, ?_, ?_, ?_, h.sent⟩
  · refine AList.All.insert h.entry ⟨hsame.block.trans hblock, fun m hm hid hpos => ?_⟩
    obtain ⟨hmfile, hfilled⟩ := hfill m hm hid hpos
    exact ⟨hsame.file.trans hmfile,
      hfilled.resubmit (h.arrived q hmem hread p hp m hm hid hpos) hr⟩
  · intro e he her r hlook
    refine readSqe_insert ?_ hs ((outstanding_queueSqe _ sqe).mem_iff.mp he) her hlook
    intro e he her
    have hout : e ∈ l.outstanding :=
      (outstanding_reap l hq).mem_iff.mpr (List.mem_cons_of_mem _ he)
    exact ⟨hown.reap_last hq hread he her, h.sqe e hout her⟩
  · intro x hx hxr r hlook m hm hid hpos hres
    have hne : x.userData ≠ q.userData :=
      hown.reap_last hq hread (List.mem_append_right _ (List.mem_map_of_mem hx)) hxr
    change (l.pending.insert q.userData p').lookup x.userData = some r at hlook
    rw [AList.lookup_insert_ne hne] at hlook
    exact h.arrived x (hrest hx) hxr r hlook m hm hid hpos hres

/-- A finish that reaches its caller carries the whole logical range. -/
theorem finish {l : Ledger} (h : l.Delivery c limits F) (ha : l.Accounted) {q : Cqe}
    {rest : List Cqe} {p p' : Pending} {outcome : IoResult} {tx : Nat}
    {fileLen : Except IoError Nat} {late : Bool} (hq : l.cq = q :: rest)
    (hb : q.userData &&& cancelBit = 0) (hp : l.pending.lookup q.userData = some p)
    (hf : (fileAnswers F).fileLen p.file fileLen)
    (hr : reapRead c.usizeMax p q.userData q.res l.shuttingDown (l.doneClosed p) fileLen =
      some (p', .finish outcome)) (ht : p'.done = some tx) :
    ({ l with cq := rest }.finish q.userData tx p' outcome late).Delivery c limits F := by
  have hread := (ha.ownership.isRead_iff (Ownership.reap_mem hq)).mpr hb
  have hdone : p.done = some tx := (reapRead_finish hr).1.done ▸ ht
  have htx : tx = q.userData := by
    rcases ha.senders.own _ p hp with hown | hown <;> rw [hown] at hdone
    · exact (Option.some.inj hdone).symm
    · cases hdone
  subst htx
  have hmem : q ∈ l.cq := by
    rw [hq]
    exact List.mem_cons_self
  have hlook {k : Nat} {r : Pending} (hlook : (l.pending.erase q.userData).lookup k = some r) :
      l.pending.lookup k = some r := by
    have hne : k ≠ q.userData := fun heq => by
      rw [heq, AList.lookup_erase] at hlook
      cases hlook
    rwa [AList.lookup_erase_ne hne] at hlook
  refine ⟨h.queued, h.ids, AList.All.erase h.entry _, ?_, ?_, ?_⟩
  · intro e he her r hl
    exact h.sqe e ((outstanding_reap l hq).mem_iff.mpr (List.mem_cons_of_mem _ he)) her r (hlook hl)
  · intro x hx hxr r hl m hm hid hpos hres
    refine h.arrived x ?_ hxr r (hlook hl) m hm hid hpos hres
    rw [hq]
    exact List.mem_cons_of_mem _ hx
  · intro m hm hpos bytes hsent
    have hsplit : (⟨m.id, .ok bytes, true⟩ : Sent) ∈ l.mail.sends ∨
        (m.id = q.userData ∧ outcome = .ok bytes ∧ q.userData ∉ l.mail.closed) := by
      cases late with
      | true =>
        -- a receiver closed before the send never gets it
        simp only [Ledger.finish, Mail.send, Mail.close, if_true, List.mem_append,
          List.mem_singleton, Sent.mk.injEq] at hsent
        rcases hsent with hsent | ⟨_, _, harr⟩
        · exact Or.inl hsent
        · simp at harr
      | false =>
        simp only [Ledger.finish, Mail.send, Bool.false_eq_true, if_false, List.mem_append,
          List.mem_singleton, Sent.mk.injEq] at hsent
        rcases hsent with hsent | ⟨hid, hout, harr⟩
        · exact Or.inl hsent
        · exact Or.inr ⟨hid, hout.symm, of_decide_eq_true harr.symm⟩
    rcases hsplit with hsent | ⟨hid, rfl, hopen⟩
    · exact h.sent m hm hpos bytes hsent
    · obtain ⟨_, hfill⟩ := h.entry _ p hp
      obtain ⟨hmfile, hfilled⟩ := hfill m hm hid hpos
      have hclosed : l.doneClosed p = false := by
        simp only [doneClosed, hdone]
        simpa using hopen
      rw [hclosed] at hr
      refine hfilled.finish (h.arrived q hmem hread p hp m hm hid hpos) ?_ ?_ hr
      · intro n hn
        rw [← hmfile]
        exact hf n hn
      · rw [hdone]
        rfl

/-- Every move keeps what was fetched and delivered. -/
theorem move {l l' : Ledger} {a : Actor} (h : l.Delivery c limits F) (ha : l.Accounted)
    (hm : Move c (fileAnswers F) l a l') : l'.Delivery c limits F := by
  have hsame (l : Ledger) : ∀ e ∈ l.outstanding, e.isRead = true → e ∈ l.outstanding :=
    fun _ he _ => he
  cases hm with
  | idle => exact h
  | overflow n =>
    exact h.frame rfl rfl (List.Subset.refl _) (keep l) (hsame l) (fun _ hq _ => hq)
      (fun _ hx => Or.inl hx)
  | send m hm => exact h.send ha hm
  | closeRx id =>
    exact h.frame rfl rfl (List.Subset.refl _) (keep l) (hsame l) (fun _ hq _ => hq)
      (fun _ hx => Or.inl hx)
  | postRead res hk hd hw => exact h.postRead ha.ownership hk hw
  | postCancel res hk =>
    refine h.frame rfl rfl (List.Subset.refl _) (keep l) ?_ ?_ (fun _ hx => Or.inl hx)
    · exact fun e he _ => (outstanding_post l res hk).mem_iff.mp he
    · intro q hq hqr
      rcases List.mem_append.mp hq with hq | hq
      · exact hq
      · rw [List.mem_singleton.mp hq] at hqr
        cases hqr
  | @reject m rest err hc =>
    refine h.frame rfl rfl ?_ (keep l) (hsame l) (fun _ hq _ => hq) ?_
    · rw [hc]
      exact List.subset_cons_self _ _
    · intro x hx
      rcases List.mem_append.mp hx with hx | hx
      · exact Or.inl hx
      · exact Or.inr ⟨err, by rw [List.mem_singleton.mp hx]⟩
  | accept hc hd hp hs => exact h.accept ha hc hp hs
  | @cancelMiss id rest hc hp =>
    refine h.frame rfl rfl ?_ (keep l) (hsame l) (fun _ hq _ => hq) (fun _ hx => Or.inl hx)
    rw [hc]
    exact List.Subset.refl _
  | @cancelHit id rest p hc hp =>
    have htaken : ({ l with
        chan := rest
        pending := l.pending.insert id { p with cancelRequested := true } } : Ledger).Delivery
          c limits F := by
      refine h.frame rfl rfl ?_ ?_ (hsame l) (fun _ hq _ => hq) (fun _ hx => Or.inl hx)
      · rw [hc]
        exact List.Subset.refl _
      · exact AList.All.insert (keep l)
          ⟨p, hp, ⟨rfl, rfl, rfl, rfl, rfl, rfl, rfl, rfl, rfl⟩, rfl, rfl⟩
    exact htaken.sameButCancels (queueCancel_frame _ id)
      (fun e he her => mem_outstanding_queueCancels [id] he her)
  | @shutdown rest order hc ho =>
    have htaken : ({ l with chan := rest, shuttingDown := true } : Ledger).Delivery
        c limits F := by
      refine h.frame rfl rfl ?_ (keep l) (hsame l) (fun _ hq _ => hq) (fun _ hx => Or.inl hx)
      rw [hc]
      exact List.Subset.refl _
    exact htaken.sameButCancels (queueCancels_frame _ order)
      (fun e he her => mem_outstanding_queueCancels _ he her)
  | submit n errors =>
    refine h.frame rfl rfl (List.Subset.refl _) (keep l) ?_ (fun _ hq _ => hq)
      (fun _ hx => Or.inl hx)
    intro e he _
    exact ((outstanding_consume _ n).trans (outstanding_flush c.sqCapacity _)).mem_iff.mp he
  | @submitSweep order errors hd ho =>
    have hflushed : ({ ({ l with stats := { l.stats with submitErrors := errors } }.flush
        c.sqCapacity) with shuttingDown := true } : Ledger).Delivery c limits F := by
      refine h.frame rfl rfl (List.Subset.refl _) (keep l) ?_ (fun _ hq _ => hq)
        (fun _ hx => Or.inl hx)
      intro e he _
      exact (outstanding_flush c.sqCapacity
        { l with stats := { l.stats with submitErrors := errors } }).mem_iff.mp he
    exact hflushed.sameButCancels (queueCancels_frame _ order)
      (fun e he her => mem_outstanding_queueCancels _ he her)
  | @reapCancel q rest hq hb =>
    refine h.frame rfl rfl (List.Subset.refl _) (keep l) ?_ ?_ (fun _ hx => Or.inl hx)
    · exact fun e he _ => (outstanding_reap l hq).mem_iff.mpr (List.mem_cons_of_mem _ he)
    · intro x hx _
      rw [hq]
      exact List.mem_cons_of_mem _ hx
  | reapStale hq hb hp => exact absurd (ha.ownership.not_stale hq hb) (AList.lookup_eq_none.mp hp)
  | resubmit hq hb hp hf hr => exact h.resubmit ha.ownership hq hb hp hr
  | finish late hq hb hp hf hr ht => exact h.finish ha hq hb hp hf hr ht
  | leak n hd =>
    refine h.frame rfl rfl (List.Subset.refl _) ?_ (hsame l) (fun _ hq _ => hq) ?_
    · exact AList.All.mapVal fun _ p hp =>
        ⟨p, hp, ⟨rfl, rfl, rfl, rfl, rfl, rfl, rfl, rfl, rfl⟩, rfl, rfl⟩
    · intro x hx
      rcases List.mem_append.mp hx with hx | hx
      · exact Or.inl hx
      · obtain ⟨tx, _, rfl⟩ := List.mem_map.mp hx
        exact Or.inr ⟨_, rfl⟩
  | dropChan hd =>
    exact h.frame rfl rfl (List.nil_subset _) (keep l) (hsame l) (fun _ hq _ => hq)
      (fun _ hx => Or.inl hx)

end Delivery

end Ledger

namespace Shard

/-- Bytes that reach the caller of a positioned read are the requested range of the
file, clamped at its end. -/
theorem delivered_range_exact (c : Params) (limits : ReadLimits) (F : Nat → List UInt8) (s : Shard)
    (h : Reachable (step c) (fileAnswers F).Allows init s) (m : ReadMsg)
    (hm : m ∈ s.hist.requests) (hv : Positioned c limits m) (bytes : List UInt8)
    (hsent : ⟨m.id, .ok bytes, true⟩ ∈ s.mail.sends) :
    bytes = ((F m.file).take (min (m.offset + m.len) (F m.file).length)).drop m.offset ∧
      ((F m.file).length ≤ m.offset → bytes = []) := by
  have hboth : s.toLedger.Accounted ∧ s.toLedger.Delivery c limits F :=
    ledger_invariant_of (I := fun l => l.Accounted ∧ l.Delivery c limits F)
      (fun _ _ ha => ha) ⟨.init, .init⟩ (fun _ _ _ hi hmv => ⟨hi.1.move hmv, hi.2.move hi.1 hmv⟩) h
  have hbytes := hboth.2.sent m hm hv bytes hsent
  unfold window at hbytes
  constructor
  · rw [hbytes, List.drop_take, List.take_eq_take_iff, List.length_drop]
    omega
  · intro hend
    rw [hbytes, List.drop_eq_nil_of_le hend, List.take_nil]

/-- Check the answers of one label against files of fixed content. -/
def answersFit (F : Nat → List UInt8) (s : Shard) : Event → Bool
  | .post k res data => match s.held[k]? with
    | some (.read _ file _ len off) => decide (res < 0) ||
        (decide (data.length = res.toNat) && decide (data = window (F file) off res.toNat) &&
          decide (res.toNat ≤ len) &&
          (decide (res ≠ 0) || decide (len = 0) || decide ((F file).length ≤ off)))
    | _ => true
  | .reap (.ok n) _ => match s.cq with
    | q :: _ => (s.pending.lookup q.userData).all fun p => decide (n = (F p.file).length)
    | [] => true
  | _ => true

theorem allows_of_answersFit {F : Nat → List UInt8} {s : Shard} {e : Event}
    (h : answersFit F s e = true) : (fileAnswers F).Allows s e := by
  cases e with
  | post k res data =>
    intro e he
    cases e with
    | read ud file ptr len off =>
      intro _
      simp only [answersFit, he, Bool.or_eq_true, Bool.and_eq_true, decide_eq_true_eq] at h
      refine h.imp_right ?_
      rintro ⟨⟨⟨hlen, hdata⟩, hle⟩, hzero⟩
      refine ⟨hlen, hdata, hle, fun hres => ?_⟩
      rcases hzero with (hne | hlen) | hend
      · exact absurd hres hne
      · exact Or.inl hlen
      · exact Or.inr hend
    | asyncCancel => trivial
  | reap fileLen late =>
    intro q rest p hq hp n hn
    subst hn
    simpa [answersFit, hq, hp] using h
  | _ => trivial

/-- Three bytes are read at offset one; the kernel first returns one byte, the loop
resubmits, and the second completion brings the rest. -/
def shortRead : List Event :=
  [.send 0 (.read ⟨1, 0, 1, 3, 1, ⟨0, none, none⟩⟩), .signal 0, .wake, .drainCq, .drainWake,
    .intake 64 [], .intake 64 [1], .submit false (.ok 1) [1], .post 0 1 [20], .reap (.ok 5) false,
    .reap (.ok 5) false, .submit false (.ok 1) [1], .endTurn 0 0 0, .post 0 2 [30, 40], .wake,
    .drainCq, .drainWake, .intake 64 [1], .submit false (.ok 0) [1], .reap (.ok 5) false]

theorem shortRead_runs : (run (step oneSlot) init shortRead).isSome = true := by
  decide +kernel

/-- The two parts of a short read are delivered as the one requested range. -/
theorem delivered_range_short :
    ∃ s, Reachable (step oneSlot) (fileAnswers fun _ => [10, 20, 30, 40, 50]).Allows init s ∧
      ⟨1, .ok [20, 30, 40], true⟩ ∈ s.mail.sends ∧
      ([20, 30, 40] : List UInt8) =
        (([10, 20, 30, 40, 50] : List UInt8).take (min (1 + 3) 5)).drop 1 := by
  have ha : admittedBool (step oneSlot) (answersFit fun _ => [10, 20, 30, 40, 50]) init
      shortRead = true := by
    decide +kernel
  have hr := reachable_of_run (Option.some_get shortRead_runs).symm
    (admitted_of_admittedBool (fun _ _ he => allows_of_answersFit he) ha)
  have hsent : (⟨1, .ok [20, 30, 40], true⟩ : Sent) ∈
      ((run (step oneSlot) init shortRead).get shortRead_runs).mail.sends := by
    decide +kernel
  have hm : (⟨1, 0, 1, 3, 1, ⟨0, none, none⟩⟩ : ReadMsg) ∈
      ((run (step oneSlot) init shortRead).get shortRead_runs).hist.requests := by
    decide +kernel
  have hv : Positioned oneSlot ⟨none, none⟩ ⟨1, 0, 1, 3, 1, ⟨0, none, none⟩⟩ :=
    ⟨3, by decide +kernel⟩
  exact ⟨_, hr, hsent, (delivered_range_exact oneSlot ⟨none, none⟩ _ _ hr _ hm hv _ hsent).1⟩

end Shard

end Uring
