import Uring.Shard.Delivery
import Uring.Shard.Panic

/-!
# What a stream read returns

A read at the current position is one kernel read: whatever it transfers is consumed from
the stream and cannot be asked for again. In runs behind `submit` and in front of a
conforming kernel its caller gets exactly the bytes of that one transfer, whatever else
shares the loop.
-/

namespace Uring

open Uring.Core

/-- A kernel that transfers `G id` for the stream read `id`, or fails it. -/
def streamAnswers (G : Nat → List UInt8) : Answers where
  read
    | .read ud _ _ _ off, res, data =>
      off = currentPosition → res < 0 ∨ (data = G ud ∧ data.length = res.toNat)
    | .asyncCancel .., _, _ => True
  fileLen _ _ := True

/-- The entry of a stream read asks for all of its length at once. -/
theorem Pending.Sound.of_stream {usizeMax offset len align : Nat} {p : Pending}
    (h : p.Sound usizeMax offset len align)
    (hb : Bounds offset len align p.offset p.head p.regionLen) (hs : offset = currentPosition) :
    p.offset = currentPosition ∧ p.head = 0 ∧ p.regionLen = len ∧ p.nread = 0 := by
  rcases hb.place with ⟨hne, _⟩ | ⟨_, halign, _⟩
  · exact absurd hs hne
  · have hg := h.geometry
    rw [halign, alignedGeometry_one] at hg
    simp only [Option.some.injEq, Prod.mk.injEq] at hg
    exact ⟨hg.1 ▸ hs, hg.2.1.symm, hg.2.2.symm, h.stream hs⟩

namespace Ledger

/-- What a finish adds to the results that reach their callers. -/
theorem mem_sends_finish {l : Ledger} {q : Cqe} {rest : List Cqe} {tx id : Nat} {p : Pending}
    {outcome : IoResult} {late : Bool} {bytes : List UInt8}
    (h : (⟨id, .ok bytes, true⟩ : Sent) ∈
      ({ l with cq := rest }.finish q.userData tx p outcome late).mail.sends) :
    ⟨id, .ok bytes, true⟩ ∈ l.mail.sends ∨ (id = tx ∧ outcome = .ok bytes ∧
      tx ∉ l.mail.closed) := by
  cases late with
  | true =>
    -- a receiver closed before the send never gets it
    simp only [Ledger.finish, Mail.send, Mail.close, if_true, List.mem_append,
      List.mem_singleton, Sent.mk.injEq] at h
    rcases h with hsent | ⟨_, _, harr⟩
    · exact Or.inl hsent
    · simp at harr
  | false =>
    simp only [Ledger.finish, Mail.send, Bool.false_eq_true, if_false, List.mem_append,
      List.mem_singleton, Sent.mk.injEq] at h
    rcases h with hsent | ⟨hid, hout, harr⟩
    · exact Or.inl hsent
    · exact Or.inr ⟨hid, hout.symm, of_decide_eq_true harr.symm⟩

/-- The transfers of the pending stream reads and what their callers were given. -/
structure Streamed (G : Nat → List UInt8) (l : Ledger) : Prop where
  /-- The bytes of a waiting completion are at the start of the region. -/
  arrived : ∀ q ∈ l.cq, q.sqe.isRead = true → ∀ p, l.pending.lookup q.userData = some p →
    ∀ m ∈ l.hist.requests, m.id = q.userData → m.offset = currentPosition → 0 ≤ q.res →
      window p.buf.bytes p.pad q.res.toNat = G m.id ∧ (G m.id).length = q.res.toNat
  sent : ∀ m ∈ l.hist.requests, m.offset = currentPosition → ∀ bytes,
    ⟨m.id, .ok bytes, true⟩ ∈ l.mail.sends → bytes = G m.id ∧ bytes.length ≤ m.len

namespace Streamed

variable {c : Params} {G : Nat → List UInt8}

theorem init : Ledger.init.Streamed G :=
  ⟨by simp [Ledger.init], by simp [Ledger.init]⟩

/-- A change that issues nothing, keeps every entry's buffer, adds no read completion and
sends at most errors. -/
theorem frame {l l' : Ledger} (h : l.Streamed G) (hr : l'.hist.requests = l.hist.requests)
    (hp : l'.pending.All fun id q => ∃ p, l.pending.lookup id = some p ∧ q.buf = p.buf ∧
      q.pad = p.pad)
    (hc : ∀ q ∈ l'.cq, q.sqe.isRead = true → q ∈ l.cq)
    (hs : ∀ x ∈ l'.mail.sends, x ∈ l.mail.sends ∨ ∃ err, x.outcome = .error err) :
    l'.Streamed G where
  arrived := by
    rw [hr]
    intro q hq hqr p' hlook m hm hid hstream hres
    obtain ⟨p, hlook, hbuf, hpad⟩ := hp _ p' hlook
    rw [hbuf, hpad]
    exact h.arrived q (hc q hq hqr) hqr p hlook m hm hid hstream hres
  sent := by
    rw [hr]
    intro m hm hstream bytes hsent
    rcases hs _ hsent with hsent | ⟨err, herr⟩
    · exact h.sent m hm hstream bytes hsent
    · cases herr

/-- Entries kept as they are satisfy the frame's condition. -/
theorem keep (l : Ledger) : l.pending.All fun id q => ∃ p, l.pending.lookup id = some p ∧
    q.buf = p.buf ∧ q.pad = p.pad :=
  fun _ q hq => ⟨q, hq, rfl, rfl⟩

/-- A cancel sweep transfers nothing. -/
theorem sweep {l : Ledger} (h : l.Streamed G) (order : List Nat) :
    (l.queueCancels order).Streamed G := by
  have hf := queueCancels_frame l order
  refine h.frame hf.requests ?_ (fun q hq _ => ?_) fun x hx => Or.inl ?_
  · rw [hf.pending]
    exact keep l
  · rw [← hf.cq]
    exact hq
  · rw [← hf.mail]
    exact hx

/-- A sent read brings a fresh id, so it concerns no entry and no send so far. -/
theorem send {l : Ledger} (h : l.Streamed G) (ha : l.Accounted) {m : Msg}
    (hm : ∀ id ∈ readIds [m], id ∉ l.hist.issued ∧ id < cancelBit) : (l.send m).Streamed G := by
  have hnew : ∀ r ∈ readMsgs [m], r.id ∉ l.hist.issued := by
    intro r hr
    refine (hm r.id ?_).1
    rw [readIds_eq_map]
    exact List.mem_map_of_mem hr
  constructor
  · intro q hq hqr p hlook r hr hid hstream hres
    rcases List.mem_append.mp hr with hr | hr
    · exact h.arrived q hq hqr p hlook r hr hid hstream hres
    · refine absurd (ha.ownership.known _ (List.mem_append_right _ ?_)) (hnew r hr)
      rw [hid]
      exact ha.ownership.table _ (AList.mem_of_lookup hlook)
  · intro r hr hstream bytes hsent
    rcases List.mem_append.mp hr with hr | hr
    · exact h.sent r hr hstream bytes hsent
    · refine absurd (ha.senders.places.mem_iff.mpr ?_) (hnew r hr)
      simp only [senderPlaces, List.append_assoc]
      exact List.mem_append_left _ (List.mem_map_of_mem hsent)

/-- The kernel's transfer goes to the start of the region of the read it answers. -/
theorem postRead {l : Ledger} (h : l.Streamed G) (hl : l.Contracted c)
    (hu : WideUsize c.usizeMax) {k ud file len off : Nat} {ptr : Ptr} {data : List UInt8}
    {res : Int} (hk : l.held[k]? = some (.read ud file ptr len off)) (hd : data.length ≤ len)
    (hw : (streamAnswers G).read (.read ud file ptr len off) res data) :
    ({ l with
      held := l.held.eraseIdx k
      cq := l.cq ++ [Cqe.mk (.read ud file ptr len off) res] }.writeBlock ptr data).Streamed G := by
  have hown := hl.accounted.ownership
  have hheld : Sqe.read ud file ptr len off ∈ l.held := List.mem_of_getElem? hk
  have hout : Sqe.read ud file ptr len off ∈ l.outstanding :=
    List.mem_append_left _ (List.mem_append_right _ hheld)
  obtain ⟨p, hp⟩ := AList.mem_iff_lookup.mp (hown.mem_pending hout rfl)
  have hp : l.pending.lookup ud = some p := hp
  obtain ⟨hblock, r, hr, hrid, _, hsound, hbounds⟩ := hl.entry hp
  have hsqe := hl.ranged.sqe _ hout rfl p hp
  rw [hsound.readSqe_eq hbounds hu] at hsqe
  simp only [Sqe.userData, Option.some.injEq, Sqe.read.injEq, true_and] at hsqe
  obtain ⟨_, hptr, hlen, hoff⟩ := hsqe
  have hlook : l.pending.lookup ptr.block = some p := by
    rw [← hptr, hblock]
    exact hp
  have hpost : ({ l with
      held := l.held.eraseIdx k
      cq := l.cq ++ [Cqe.mk (.read ud file ptr len off) res] } : Ledger).writeBlock ptr data =
        { l with
          held := l.held.eraseIdx k
          cq := l.cq ++ [Cqe.mk (.read ud file ptr len off) res]
          pending := l.pending.insert ud { p with
            buf := { p.buf with bytes := overwrite p.buf.bytes ptr.off data } } } := by
    have hud : ptr.block = ud := by rw [← hptr, hblock]
    simp only [writeBlock, hlook, hud]
  rw [hpost]
  refine ⟨fun q hq hqr p' hlook' m hm hid hstream hres => ?_, h.sent⟩
  change (l.pending.insert ud _).lookup q.userData = some p' at hlook'
  rcases List.mem_append.mp hq with hq | hq
  · have hne : q.userData ≠ ud := hown.held_no_cqe hheld rfl hq hqr
    rw [AList.lookup_insert_ne hne] at hlook'
    exact h.arrived q hq hqr p' hlook' m hm hid hstream hres
  · obtain rfl := List.mem_singleton.mp hq
    change (l.pending.insert ud _).lookup ud = some p' at hlook'
    rw [AList.lookup_insert] at hlook'
    obtain rfl := Option.some.inj hlook'
    obtain rfl : r = m := hl.request_inj hr hm (hrid.trans hid.symm)
    obtain ⟨hpos, _, hregion, hnread⟩ := hsound.of_stream hbounds hstream
    rw [hnread, Nat.add_zero] at hoff hptr
    rw [hnread, Nat.sub_zero] at hlen
    have hstart : ptr.off = p.pad := by rw [← hptr]
    rcases hw (hoff.symm.trans hpos) with hneg | ⟨hdata, hcount⟩
    · exact absurd hres (not_le.mpr hneg)
    · have hroom := hsound.room (Nat.pos_of_isPowerOfTwo hbounds.pow)
      have hfit : p.pad + data.length ≤ p.buf.bytes.length := by omega
      have hback := window_overwrite p.buf.bytes data hfit
      have hid : r.id = ud := hrid
      rw [hid, ← hdata, hstart]
      rw [hcount] at hback
      exact ⟨hback, hcount⟩

/-- A new entry has no completion yet. -/
theorem accept {l : Ledger} (h : l.Streamed G) (ha : l.Accounted) {m : ReadMsg} {rest : List Msg}
    {p : Pending} {sqe : Sqe} (hc : l.chan = .read m :: rest) :
    ({ l with chan := rest }.accept m.id p sqe).Streamed G := by
  have hnew := ha.ownership.queued_notMem hc
  refine ⟨fun q hq hqr p' hlook r hr hid hstream hres => ?_, h.sent⟩
  have hpend : q.userData ∈ l.pending :=
    ha.ownership.mem_pending (List.mem_append_right _ (List.mem_map_of_mem hq)) hqr
  have hne : q.userData ≠ m.id := fun heq => hnew (heq ▸ hpend)
  have hlook : (l.pending.insert m.id p).lookup q.userData = some p' := hlook
  rw [AList.lookup_insert_ne hne] at hlook
  exact h.arrived q hq hqr p' hlook r hr hid hstream hres

/-- What reaches the caller of a stream read is its one transfer. -/
theorem finish {l : Ledger} (h : l.Streamed G) (hl : l.Contracted c) (hu : WideUsize c.usizeMax)
    {q : Cqe} {rest : List Cqe} {p p' : Pending} {outcome : IoResult} {tx : Nat}
    {fileLen : Except IoError Nat} {late : Bool} (hq : l.cq = q :: rest)
    (hb : q.userData &&& cancelBit = 0) (hp : l.pending.lookup q.userData = some p)
    (hr : reapRead c.usizeMax p q.userData q.res l.shuttingDown (l.doneClosed p) fileLen =
      some (p', .finish outcome)) (ht : p'.done = some tx) :
    ({ l with cq := rest }.finish q.userData tx p' outcome late).Streamed G := by
  have hread := (hl.accounted.ownership.isRead_iff (Ownership.reap_mem hq)).mpr hb
  have hdone : p.done = some tx := (reapRead_finish hr).1.done ▸ ht
  have htx : tx = q.userData := by
    rcases hl.accounted.senders.own _ p hp with hown | hown <;> rw [hown] at hdone
    · exact (Option.some.inj hdone).symm
    · cases hdone
  subst htx
  have hmem : q ∈ l.cq := by
    rw [hq]
    exact List.mem_cons_self
  refine ⟨fun x hx hxr r hlook m hm hid hstream hres => ?_, fun m hm hstream bytes hsent => ?_⟩
  · have hlook : (l.pending.erase q.userData).lookup x.userData = some r := hlook
    have hne : x.userData ≠ q.userData := fun heq => by
      rw [heq, AList.lookup_erase] at hlook
      cases hlook
    rw [AList.lookup_erase_ne hne] at hlook
    refine h.arrived x ?_ hxr r hlook m hm hid hstream hres
    rw [hq]
    exact List.mem_cons_of_mem _ hx
  · rcases mem_sends_finish hsent with hold | ⟨hid, rfl, hopen⟩
    · exact h.sent m hm hstream bytes hold
    · obtain ⟨_, r, hr', hrid, _, hsound, hbounds⟩ := hl.entry hp
      obtain rfl : r = m := hl.request_inj hr' hm (hrid.trans hid.symm)
      obtain ⟨_, hhead, hregion, hnread⟩ := hsound.of_stream hbounds hstream
      obtain ⟨hsame, hok⟩ := reapRead_finish hr
      obtain ⟨hres, x, hx, hbuf, hn, hdel, _⟩ := hok bytes rfl
      have hclosed : l.doneClosed p = false := by
        simp only [doneClosed, hdone]
        simpa using hopen
      have hfit := hl.answer_fits hu hq hb hp hres
      obtain ⟨harr, hlen⟩ := h.arrived q hmem hread p hp r hm hid hstream hres
      have hbytes := (deliver_spec hdel).2 (by rw [hx.done, hdone]; rfl) hclosed
      have hmin : min (x.nread - x.head) x.want = q.res.toNat := by
        rw [hn, hx.head, hx.want, hhead, hnread, hsound.want, ← hregion]
        omega
      rw [hmin, hbuf, hx.pad, hx.head, hhead, Nat.add_zero] at hbytes
      have hbytes : bytes = G r.id := hbytes.trans harr
      refine ⟨hbytes, ?_⟩
      rw [hbytes, hlen, ← hregion]
      omega

/-- Every move keeps what was transferred. -/
theorem move {l l' : Ledger} {a : Actor} (h : l.Streamed G) (hl : l.Contracted c)
    (hu : WideUsize c.usizeMax) (hm : Move c (streamAnswers G) l a l') : l'.Streamed G := by
  cases hm with
  | idle => exact h
  | overflow | closeRx | cancelMiss | dropChan =>
    exact h.frame rfl (keep l) (fun _ hq _ => hq) fun _ hx => Or.inl hx
  | send m hm => exact h.send hl.accounted hm
  | postRead res hk hd hw => exact h.postRead hl hu hk hd hw
  | postCancel res hk =>
    refine h.frame rfl (keep l) (fun q hq hqr => ?_) fun _ hx => Or.inl hx
    rcases List.mem_append.mp hq with hq | hq
    · exact hq
    · rw [List.mem_singleton.mp hq] at hqr
      cases hqr
  | @reject m rest err hc =>
    refine h.frame rfl (keep l) (fun _ hq _ => hq) fun x hx => ?_
    rcases List.mem_append.mp hx with hx | hx
    · exact Or.inl hx
    · exact Or.inr ⟨err, by rw [List.mem_singleton.mp hx]⟩
  | accept hc hd hp hs => exact h.accept hl.accounted hc
  | @cancelHit id rest p hc hp =>
    have htaken : ({ l with
        chan := rest
        pending := l.pending.insert id { p with cancelRequested := true } } : Ledger).Streamed
          G := by
      refine h.frame rfl ?_ (fun _ hq _ => hq) fun _ hx => Or.inl hx
      exact AList.All.insert (keep l) ⟨p, hp, rfl, rfl⟩
    exact htaken.sweep [id]
  | @shutdown rest order hc ho =>
    have htaken : ({ l with chan := rest, shuttingDown := true } : Ledger).Streamed G :=
      h.frame rfl (keep l) (fun _ hq _ => hq) fun _ hx => Or.inl hx
    exact htaken.sweep order
  | submit n errors => exact h.frame rfl (keep l) (fun _ hq _ => hq) fun _ hx => Or.inl hx
  | @submitSweep order errors hd ho =>
    have hflushed : ({ ({ l with stats := { l.stats with submitErrors := errors } }.flush
        c.sqCapacity) with shuttingDown := true } : Ledger).Streamed G :=
      h.frame rfl (keep l) (fun _ hq _ => hq) fun _ hx => Or.inl hx
    exact hflushed.sweep order
  | @reapCancel q rest hq hb =>
    refine h.frame rfl (keep l) (fun x hx _ => ?_) fun _ hx => Or.inl hx
    rw [hq]
    exact List.mem_cons_of_mem _ hx
  | reapStale hq hb hp =>
    exact absurd (hl.accounted.ownership.not_stale hq hb) (AList.lookup_eq_none.mp hp)
  | @resubmit q rest p p' sqe fileLen hq hb hp hf hr =>
    obtain ⟨_, hsame, hbuf, _⟩ := reapRead_resubmit hr
    refine h.frame rfl ?_ (fun x hx _ => ?_) fun _ hx => Or.inl hx
    · exact AList.All.insert (keep l) ⟨p, hp, hbuf, hsame.pad⟩
    · rw [hq]
      exact List.mem_cons_of_mem _ hx
  | finish late hq hb hp hf hr ht => exact h.finish hl hu hq hb hp hr ht
  | leak n hd =>
    refine h.frame rfl ?_ (fun _ hq _ => hq) fun x hx => ?_
    · exact AList.All.mapVal fun _ p hp => ⟨p, hp, rfl, rfl⟩
    · rcases List.mem_append.mp hx with hx | hx
      · exact Or.inl hx
      · obtain ⟨tx, _, rfl⟩ := List.mem_map.mp hx
        exact Or.inr ⟨_, rfl⟩

end Streamed

end Ledger

namespace Shard

/-- Behind `submit` and in front of a kernel that transfers `G id` for the stream read `id`. -/
def Streaming (c : Params) (G : Nat → List UInt8) (s : Shard) (e : Event) : Prop :=
  Contract c s e ∧ (streamAnswers G).Allows s e

theorem Reach.streamed {c : Params} {G : Nat → List UInt8} {s : Shard}
    (hu : WideUsize c.usizeMax) (h : Reachable (step c) (Streaming c G) init s) :
    s.toLedger.Streamed G := by
  refine h.invariant (I := fun s => s.toLedger.Streamed G) .init fun s e s' hr hi ha hs => ?_
  have hl := Reach.contracted (hr.mono fun _ _ he => he.1)
  exact hi.move hl hu (step_move (Reach.control hr) ha.2 hs).1

end Shard

end Uring
