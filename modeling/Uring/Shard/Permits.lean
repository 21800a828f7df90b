import Uring.Shard.Delivery

/-!
# The permits that travel with reads

The permits sent with a read are in its message, in its table entry, or dropped by
the loop, and in exactly one of these places. A leaked entry keeps its own. An
entry's buffer has the length that its request's geometry prescribes.
-/

namespace Uring

open Uring.Core

/-- The permits held by the entries of a table. -/
def tablePermits (t : Table Pending) : List ReadPermits := t.collect fun p => some p.permit

theorem tablePermits_length (t : Table Pending) : (tablePermits t).length = t.size := by
  simp [tablePermits, AList.collect, AList.size, AList.keys, List.keys]

@[simp] theorem readPermits_append (a b : List Msg) :
    readPermits (a ++ b) = readPermits a ++ readPermits b :=
  List.filterMap_append

theorem readPermits_eq_map (chan : List Msg) :
    readPermits chan = (readMsgs chan).map ReadMsg.permit := by
  simp only [readPermits, readMsgs, List.map_filterMap]
  congr 1
  funext m
  cases m <;> rfl

namespace Ledger

/-- Where the permits sent with the reads are. -/
def permitPlaces (l : Ledger) : List ReadPermits :=
  readPermits l.chan ++ tablePermits l.pending ++ l.hist.released

/-- Every permit sent is in one place, and every entry comes from a request whose
geometry sizes its buffer. -/
structure PermitBook (c : Params) (l : Ledger) : Prop where
  places : (l.hist.requests.map ReadMsg.permit).Perm l.permitPlaces
  ids : l.hist.requests.map ReadMsg.id = l.hist.issued
  queued : ∀ m ∈ readMsgs l.chan, m ∈ l.hist.requests
  entry : l.pending.All fun id p => ∃ m ∈ l.hist.requests, m.id = id ∧ p.permit = m.permit ∧
    ∃ k hd r, alignedGeometry c.usizeMax m.offset m.len m.align = some (k, hd, r) ∧
      p.buf.bytes.length = r + (m.align - 1)

namespace PermitBook

variable {c : Params}

theorem init : Ledger.init.PermitBook c where
  places := List.Perm.refl _
  ids := rfl
  queued := by simp [Ledger.init, readMsgs]
  entry := AList.all_empty

/-- A change that sends, takes and drops no permit and keeps every entry's request and
buffer length. -/
theorem frame {l l' : Ledger} (h : l.PermitBook c) (hr : l'.hist.requests = l.hist.requests)
    (hi : l'.hist.issued = l.hist.issued) (hp : l'.permitPlaces.Perm l.permitPlaces)
    (hq : readMsgs l'.chan ⊆ readMsgs l.chan)
    (he : l'.pending.All fun id q => ∃ p, l.pending.lookup id = some p ∧ q.permit = p.permit ∧
      q.buf.bytes.length = p.buf.bytes.length) : l'.PermitBook c where
  places := by
    rw [hr]
    exact h.places.trans hp.symm
  ids := by rw [hr, hi, h.ids]
  queued := by
    rw [hr]
    exact fun m hm => h.queued m (hq hm)
  entry := by
    rw [hr]
    intro id q hlook
    obtain ⟨p, hlook, hpermit, hlen⟩ := he id q hlook
    obtain ⟨m, hm, hid, hpm, k, hd, r, hg, hbuf⟩ := h.entry id p hlook
    exact ⟨m, hm, hid, hpermit.trans hpm, k, hd, r, hg, hlen.trans hbuf⟩

/-- Entries kept as they are satisfy the frame's condition. -/
theorem kept (l : Ledger) : l.pending.All fun id q => ∃ p, l.pending.lookup id = some p ∧
    q.permit = p.permit ∧ q.buf.bytes.length = p.buf.bytes.length :=
  fun _ q hq => ⟨q, hq, rfl, rfl⟩

/-- A change to the queues, the counters or the result channels alone. -/
theorem same {l l' : Ledger} (h : l.PermitBook c) (hr : l'.hist.requests = l.hist.requests)
    (hi : l'.hist.issued = l.hist.issued) (hd : l'.hist.released = l.hist.released)
    (hc : l'.chan = l.chan)
    (hp : l'.pending = l.pending) : l'.PermitBook c := by
  refine h.frame hr hi ?_ ?_ ?_
  · simp only [permitPlaces, hc, hd, hp]
    exact List.Perm.refl _
  · rw [hc]
    exact List.Subset.refl _
  · rw [hp]
    exact kept l

theorem sameButCancels {l l' : Ledger} (h : l.PermitBook c) (hf : l.SameButCancels l') :
    l'.PermitBook c :=
  h.same hf.requests hf.issued hf.released hf.chan hf.pending

/-- Taking a message without permits and rewriting one entry's other fields. -/
theorem touch {l : Ledger} (h : l.PermitBook c) {m : Msg} {rest : List Msg}
    (hc : l.chan = m :: rest) (hm : readMsgs [m] = []) :
    ({ l with chan := rest } : Ledger).PermitBook c := by
  have hmsgs : readMsgs l.chan = readMsgs rest := by
    rw [hc, ← List.singleton_append, readMsgs_append, hm, List.nil_append]
  have hpermits : readPermits l.chan = readPermits rest := by
    rw [readPermits_eq_map, readPermits_eq_map, hmsgs]
  refine h.frame rfl rfl ?_ ?_ (kept l)
  · simp only [permitPlaces, hpermits]
    exact List.Perm.refl _
  · rw [hmsgs]
    exact List.Subset.refl _

/-- Rewriting one entry without touching its permits or its buffer's length. -/
theorem store {l : Ledger} (h : l.PermitBook c) {id : Nat} {p q : Pending}
    (hp : l.pending.lookup id = some p) (hq : q.permit = p.permit)
    (hb : q.buf.bytes.length = p.buf.bytes.length) :
    ({ l with pending := l.pending.insert id q } : Ledger).PermitBook c := by
  refine h.frame rfl rfl ?_ (List.Subset.refl _) ?_
  · refine List.Perm.append_right _ (List.Perm.append_left _ ?_)
    exact AList.collect_overwrite q hp (congrArg some hq)
  · exact (kept l).insert ⟨p, hp, hq, hb⟩

/-- A refused read leaves its permits with the dropped ones. -/
theorem reject {l : Ledger} (h : l.PermitBook c) {m : ReadMsg} {rest : List Msg} {e : IoError}
    (hc : l.chan = .read m :: rest) : ({ l with chan := rest }.reject m e).PermitBook c := by
  refine h.frame rfl rfl ?_ ?_ (kept l)
  · have hpermits : readPermits l.chan = m.permit :: readPermits rest := by rw [hc]; rfl
    simp only [permitPlaces, Ledger.reject, hpermits, List.cons_append]
    rw [← List.append_assoc]
    exact List.perm_append_singleton _ _
  · rw [hc]
    exact List.subset_cons_self _ _

/-- An accepted read's permits move into its new entry. -/
theorem accept {l : Ledger} (h : l.PermitBook c) {m : ReadMsg} {rest : List Msg} {p : Pending}
    {sqe : Sqe} (hc : l.chan = .read m :: rest) (hnew : m.id ∉ l.pending) (hp : NewEntry c m p) :
    ({ l with chan := rest }.accept m.id p sqe).PermitBook c := by
  obtain ⟨base, k, head, region, cap, rfl, hg, hcap, _, _⟩ := hp.built
  have hpermits : readPermits l.chan = m.permit :: readPermits rest := by rw [hc]; rfl
  have hmsgs : readMsgs l.chan = m :: readMsgs rest := by rw [hc]; rfl
  refine ⟨h.places.trans ?_, h.ids, fun x hx => h.queued x ?_, ?_⟩
  · simp only [permitPlaces, Ledger.accept, queueSqe, tablePermits, AList.collect_insert _ hnew,
      hpermits, newPending, Option.toList_some, List.append_assoc, List.cons_append,
      List.nil_append]
    exact List.perm_middle.symm
  · rw [hmsgs]
    exact List.mem_cons_of_mem _ hx
  · refine AList.All.insert h.entry ⟨m, h.queued m ?_, rfl, rfl, k, head, region, hg, ?_⟩
    · rw [hmsgs]
      exact List.mem_cons_self
    · rw [← hcap]
      exact List.length_replicate

/-- A final completion drops its entry's permits. -/
theorem finish {l : Ledger} (h : l.PermitBook c) {id tx : Nat} {p q : Pending}
    {outcome : IoResult} {late : Bool} (hp : l.pending.lookup id = some p)
    (hq : q.permit = p.permit) : (l.finish id tx q outcome late).PermitBook c := by
  refine ⟨h.places.trans ?_, h.ids, h.queued, h.entry.erase id⟩
  have herase := AList.collect_erase (f := fun p : Pending => some p.permit) hp
  simp only [permitPlaces, Ledger.finish, hq, List.append_assoc]
  refine List.Perm.append_left _ ?_
  rw [← List.append_assoc]
  refine (herase.append_right _).trans ?_
  exact (List.perm_append_singleton p.permit _).symm

/-- Every move keeps the permits' book. -/
theorem move {w : Answers} {l l' : Ledger} {a : Actor} (h : l.PermitBook c)
    (hown : l.Ownership) (hm : Move c w l a l') : l'.PermitBook c := by
  cases hm with
  | idle => exact h
  | overflow | closeRx | postCancel | submit | reapCancel | reapStale =>
    exact h.same rfl rfl rfl rfl rfl
  | send m hm =>
    refine ⟨?_, ?_, ?_, ?_⟩
    · simp only [Ledger.send, permitPlaces, List.map_append, readPermits_append,
        List.append_assoc]
      refine (h.places.append_right _).trans ?_
      rw [← readPermits_eq_map]
      simp only [permitPlaces, List.append_assoc]
      exact List.Perm.append_left _ (by
        rw [← List.append_assoc]
        exact List.perm_append_comm)
    · simp only [Ledger.send, List.map_append, h.ids, readIds_eq_map]
    · intro x hx
      rw [Ledger.send, readMsgs_append] at hx
      exact List.mem_append.mpr ((List.mem_append.mp hx).imp (h.queued x) id)
    · intro id p hlook
      obtain ⟨x, hx, hrest⟩ := h.entry id p hlook
      exact ⟨x, List.mem_append_left _ hx, hrest⟩
  | @postRead k ud file len off ptr data res hk hd ha =>
    unfold writeBlock
    split
    · exact h.same rfl rfl rfl rfl rfl
    · rename_i p hp
      exact (h.store (q := { p with buf := { p.buf with
        bytes := overwrite p.buf.bytes ptr.off data } }) hp rfl (length_overwrite _ _ _)).same
          rfl rfl rfl rfl rfl
  | reject e hc => exact h.reject hc
  | accept hc hd hp hs => exact h.accept hc (hown.queued_notMem hc) hp
  | cancelMiss hc hp => exact h.touch hc rfl
  | @cancelHit id rest p hc hp =>
    have hstore := (h.touch hc rfl).store (q := { p with cancelRequested := true }) hp rfl rfl
    exact hstore.sameButCancels (queueCancel_frame _ _)
  | @shutdown rest order hc ho =>
    have hdown : ({ l with chan := rest, shuttingDown := true } : Ledger).PermitBook c :=
      (h.touch hc rfl).same rfl rfl rfl rfl rfl
    exact hdown.sameButCancels (queueCancels_frame _ order)
  | @submitSweep order errors hd ho =>
    have hflushed : ({ ({ l with stats := { l.stats with submitErrors := errors } }.flush
        c.sqCapacity) with shuttingDown := true } : Ledger).PermitBook c :=
      h.same rfl rfl rfl rfl rfl
    exact hflushed.sameButCancels (queueCancels_frame _ order)
  | @resubmit q rest p p' sqe fileLen hq hb hp hf hr =>
    obtain ⟨_, hsame, hbuf, _⟩ := reapRead_resubmit hr
    exact (h.store (q := p') hp hsame.permit (by rw [hbuf])).same rfl rfl rfl rfl rfl
  | @finish q rest p p' outcome tx fileLen late hq hb hp hf hr ht =>
    have hdone : ({ l with cq := rest } : Ledger).PermitBook c := h.same rfl rfl rfl rfl rfl
    exact hdone.finish hp (reapRead_finish hr).1.permit
  | leak n hd =>
    refine h.frame rfl rfl ?_ (List.Subset.refl _) ?_
    · refine List.Perm.append_right _ (List.Perm.append_left _ (List.Perm.of_eq ?_))
      simp only [tablePermits, AList.collect, leak, AList.mapVal, List.filterMap_map]
      rfl
    · exact AList.All.mapVal fun id p hp => ⟨p, hp, rfl, rfl⟩
  | dropChan hd =>
    refine ⟨h.places.trans ?_, h.ids, by simp [dropChan, readMsgs], h.entry⟩
    have hnil : readPermits [] = [] := rfl
    simp only [permitPlaces, dropChan, hnil, List.nil_append, List.append_assoc]
    rw [← List.append_assoc (tablePermits l.pending)]
    exact List.perm_append_comm

end PermitBook

end Ledger

/-- Permits once dropped stay dropped, in order, and only a caller's send adds a request. -/
theorem Move.history {c : Params} {w : Answers} {l l' : Ledger} {a : Actor}
    (hm : Move c w l a l') : l.hist.released <+: l'.hist.released ∧
      (a ≠ .caller → l'.hist.requests = l.hist.requests) := by
  have hsame {m : Ledger} (hr : m.hist.released = l.hist.released)
      (hq : m.hist.requests = l.hist.requests) : l.hist.released <+: m.hist.released ∧
        (a ≠ .caller → m.hist.requests = l.hist.requests) :=
    ⟨hr ▸ List.prefix_rfl, fun _ => hq⟩
  cases hm with
  | idle | overflow | closeRx | postCancel | submit | reapCancel | reapStale | cancelMiss |
      resubmit | leak => exact hsame rfl rfl
  | send m hm => exact ⟨List.prefix_rfl, fun ha => absurd rfl ha⟩
  | postRead res hk hd ha =>
    obtain ⟨t, ht⟩ := l.postRead_frame _ ⟨_, res⟩ _ _
    rw [ht]
    exact hsame rfl rfl
  | reject e hc => exact ⟨List.prefix_append _ _, fun _ => rfl⟩
  | accept hc hd hp hs => exact hsame rfl rfl
  | @cancelHit id rest p hc hp =>
    have hf := Ledger.queueCancel_frame { l with
      chan := rest
      pending := l.pending.insert id { p with cancelRequested := true } } id
    exact hsame hf.released hf.requests
  | @shutdown rest order hc ho =>
    have hf := Ledger.queueCancels_frame { l with chan := rest, shuttingDown := true } order
    exact hsame hf.released hf.requests
  | @submitSweep order errors hd ho =>
    have hf := Ledger.queueCancels_frame { ({ l with stats := { l.stats with
      submitErrors := errors } }.flush c.sqCapacity) with shuttingDown := true } order
    exact hsame hf.released hf.requests
  | finish late hq hb hp hf hr ht => exact ⟨List.prefix_append _ _, fun _ => rfl⟩
  | dropChan hd => exact ⟨List.prefix_append _ _, fun _ => rfl⟩

/-- The book holds in every reachable state. -/
theorem Shard.Reach.permitBook {c : Params} {s : Shard} (h : Reach c s) :
    s.toLedger.PermitBook c := by
  have hboth : s.toLedger.Ownership ∧ s.toLedger.PermitBook c :=
    ledger_invariant (I := fun l => l.Ownership ∧ l.PermitBook c) ⟨Ledger.Ownership.init, .init⟩
      (fun _ _ _ hi hm => ⟨hi.1.move hm, hi.2.move hi.1 hm⟩) h
  exact hboth.2

end Uring
