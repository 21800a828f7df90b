import Uring.Core.Service
import Uring.Driver.Loops
import Uring.Driver.Refusal
import Uring.Shard.Errors
import Uring.Shard.Stream

/-!
# A driver is a read service

Seen from its callers a driver is a service: `submit` is a call, and the poll that finishes
a handle is the answer. Over files of fixed content and a faithful kernel every driver, with
any number of shards, under either routing policy, with or without limits, and through any
interleaving of deferral, cancellation and shutdown, refines one specification: an invalid
request is answered with its own error, a positioned read with its range of the file, a
stream read with its transfer, and a valid read that fails with one of a few errors.
-/

namespace Uring

open Uring.Core Caller

/-- The errors of a read that passed validation. -/
inductive Request.Fails (req : Request) : IoError → Prop
  /-- The read was not sent. -/
  | gone : Fails req driverGone
  /-- It was sent and its result sender was dropped. -/
  | dropped : Fails req driverGoneBeforeCompletion
  | refused : Fails req shuttingDownError
  | leaked : Fails req leakedError
  | os (n : Nat) : Fails req (.os n)
  | short (h : 1 < req.align) : Fails req shortReadError

/-- What the read service answers to call `i`, over files `F` and streams `G`; the read of
call `i` has id `i + 1`. -/
def ReadSpec (cfg : Config) (F G : Nat → List UInt8) (i : Nat) (req : Request) (res : IoResult) :
    Prop :=
  match validateRead cfg.params.usizeMax cfg.limits req.offset req.len req.align
      req.allowCurrentPosition with
  | .error e => res = .error e
  | .ok _ =>
    match res with
    | .ok bytes =>
      if req.allowCurrentPosition then bytes = G (i + 1) ∧ bytes.length ≤ req.len
      else bytes = window (F req.file) req.offset req.len
    | .error e => req.Fails e

/-- The labels of a loop behind `submit`, in front of a conforming kernel that reads the files
`F` and the streams `G`. -/
def Shard.Faithful (c : Params) (F G : Nat → List UInt8) (s : Shard) (e : Event) : Prop :=
  (fileAnswers F).Allows s e ∧ (streamAnswers G).Allows s e ∧ Shard.Plain c s e

/-- The request passed validation. -/
def Request.Valid (cfg : Config) (req : Request) : Prop := ∃ charge, Admissible cfg req charge

/-- What a caller may still answer to the request `req`. -/
def Caller.Owes (cfg : Config) (F G : Nat → List UInt8) (i : Nat) (req : Request) (x : Caller) :
    Prop :=
  match x with
  | .submitting c => c.req = req ∧ req.Valid cfg
  | .holding h =>
    match h.state with
    | .inert value => ReadSpec cfg F G i req value
    | .waiting w => w.req = req ∧ req.Valid cfg
    | .submitted _ => req.Valid cfg

/-- The answer a caller's handle has returned. -/
def Caller.returned (i : Nat) : Caller → List (Seen Request IoResult)
  | .submitting _ => []
  | .holding h => (h.finished.map (Seen.answer i)).toList

namespace Driver

/-- What a transition shows: the request of a `submit`, and what a poll that finishes its
handle returns. -/
def seen (cfg : Config) (d : Driver) (e : DriverEvent) : List (Seen Request IoResult) :=
  match e with
  | .submit req => [.call req]
  | .caller id .poll =>
    match step cfg d e with
    | none => []
    | some d' => (d'.callers.lookup id).elim [] (Caller.returned (id - 1))
  | _ => []

end Driver

section Spec

variable {cfg : Config} {F G : Nat → List UInt8} {i : Nat} {req : Request}

/-- A valid request may fail with each of its errors. -/
theorem ReadSpec.of_fails (hv : req.Valid cfg) {e : IoError} (he : req.Fails e) :
    ReadSpec cfg F G i req (.error e) := by
  obtain ⟨charge, n, hn, _⟩ := hv
  unfold ReadSpec
  rw [hn]
  exact he

/-- A valid positioned request may return its range. -/
theorem ReadSpec.of_window (hv : req.Valid cfg) (hp : req.allowCurrentPosition = false)
    {bytes : List UInt8} (hb : bytes = window (F req.file) req.offset req.len) :
    ReadSpec cfg F G i req (.ok bytes) := by
  obtain ⟨charge, n, hn, _⟩ := hv
  unfold ReadSpec
  rw [hn]
  simp only [hp, Bool.false_eq_true, if_false]
  exact hb

/-- A valid stream request may return its transfer. -/
theorem ReadSpec.of_stream (hv : req.Valid cfg) (hp : req.allowCurrentPosition = true)
    {bytes : List UInt8} (hb : bytes = G (i + 1) ∧ bytes.length ≤ req.len) :
    ReadSpec cfg F G i req (.ok bytes) := by
  obtain ⟨charge, n, hn, _⟩ := hv
  unfold ReadSpec
  rw [hn]
  simp only [hp, if_true]
  exact hb

/-- A handle of a read that was not sent. -/
theorem owes_gone (hv : req.Valid cfg) (k : Nat) :
    (holding (inertHandle k (.error driverGone))).Owes cfg F G i req := by
  change ReadSpec cfg F G i req (.error driverGone)
  exact ReadSpec.of_fails hv .gone

/-- A refused selection leaves a handle that answers the same request. -/
theorem owes_refused {c : Submit} (h : (submitting c).Owes cfg F G i req) (r : Option Nat)
    (k : Nat) (e : TryAcquireError) : (holding (c.refused r k e)).Owes cfg F G i req := by
  cases e with
  | closed => exact owes_gone h.2 k
  | noPermits => exact h

/-- Every operation of `submit` owes the same answer. -/
theorem owes_step {c : Submit} (h : (submitting c).Owes cfg F G i req) (id : Nat) (r : Option Nat)
    (v : View) : (c.step id r v).1.Owes cfg F G i req := by
  unfold Submit.step
  split
  · split
    · exact owes_refused h _ _ _
    · exact h
  · split
    · exact h
    · split
      · simp only
        split <;> exact h
      · exact owes_refused h _ _ _
  · split
    · exact h
    · split <;> exact h
  · exact owes_refused h _ _ _
  · split
    · exact owes_refused h _ _ _
    · split <;> exact owes_refused h _ _ _
  · simp only
    split
    · exact h.2
    · exact owes_gone h.2 _

/-- Every operation of a poll owes the same answer. -/
theorem owes_poll {h : ReadHandle} (ho : (holding h).Owes cfg F G i req) (id : Nat) (v : View) :
    (holding (h.poll id v).1).Owes cfg F G i req := by
  unfold ReadHandle.poll
  split
  · exact ho
  · split <;> exact ho
  · rename_i w hs
    have hw : w.req = req ∧ req.Valid cfg := by
      rw [Owes, hs] at ho
      exact ho
    split
    · split
      · exact ho
      · exact ho
      · exact hw
    · split
      · exact hw
      · split
        · exact hw
        · exact ho
        · exact hw
    · simp only
      split
      · exact hw.2
      · exact hw.2

theorem owes_act {x x' : Caller} (ho : x.Owes cfg F G i req) {e : CallerEvent} {id : Nat}
    {r : Option Nat} {v v' : View} (ha : x.act e id r v = some (some x', v')) :
    x'.Owes cfg F G i req := by
  cases act_remains ha with
  | call => exact owes_step ho id r v
  | poll => exact owes_poll ho id v
  | keep => exact ho

/-- What a poll returns is an answer, if what arrives in the result channel is. -/
theorem poll_answers {h : ReadHandle} (ho : (holding h).Owes cfg F G i req)
    (hf : h.finished = none) {id : Nat} {v : View}
    (hmail : h.isSubmitted = true → ∀ s ∈ v.loop.mail.sends, s.id = id → s.arrived = true →
      ReadSpec cfg F G i req s.outcome) {res : IoResult}
    (hres : (h.poll id v).1.finished = some res) : ReadSpec cfg F G i req res := by
  cases ReadHandle.poll_returns hf hres with
  | inert hs =>
    rw [Owes, hs] at ho
    exact ho
  | gone hs =>
    rw [Owes, hs] at ho
    exact ReadSpec.of_fails ho.2 .gone
  | dropped hst =>
    obtain ⟨wake, hs⟩ := ReadHandle.isSubmitted_iff.mp hst
    rw [Owes, hs] at ho
    exact ReadSpec.of_fails ho .dropped
  | sent hst hx hid harr hout => exact hout ▸ hmail hst _ hx hid harr

end Spec

namespace Shard

variable {c : Params} {F G : Nat → List UInt8} {s : Shard}

/-- What was delivered, in runs over files of fixed content. -/
theorem Reach.delivery (limits : ReadLimits)
    (h : Reachable (step c) (Faithful c F G) init s) : s.toLedger.Delivery c limits F := by
  have hboth : s.toLedger.Accounted ∧ s.toLedger.Delivery c limits F :=
    ledger_invariant_of (I := fun l => l.Accounted ∧ l.Delivery c limits F)
      (fun _ _ ha => ha.1) ⟨.init, .init⟩
      (fun _ _ _ hi hm => ⟨hi.1.move hm, hi.2.move hi.1 hm⟩) h
  exact hboth.2

theorem Faithful.contract {e : Event} (h : Faithful c F G s e) : Contract c s e := h.2.2.contract

/-- A used sender belongs to one of the requests. -/
theorem request_of_sent (hl : s.toLedger.Contracted c) {x : Sent} (hx : x ∈ s.mail.sends) :
    ∃ m ∈ s.hist.requests, m.id = x.id := by
  have hissued : x.id ∈ s.hist.issued := by
    refine hl.accounted.senders.places.mem_iff.mpr ?_
    simp only [Ledger.senderPlaces, List.append_assoc]
    exact List.mem_append_left _ (List.mem_map_of_mem hx)
  rw [← hl.book.ids] at hissued
  exact List.mem_map.mp hissued

/-- What a loop sends to a receiver that is still open is an answer to the request. -/
theorem sent_answers {cfg : Config} (hu : WideUsize cfg.params.usizeMax)
    (h : Reachable (step cfg.params) (Faithful cfg.params F G) init s) {x : Sent}
    (hx : x ∈ s.mail.sends) (harr : x.arrived = true) {m : ReadMsg} (hm : m ∈ s.hist.requests)
    {i : Nat} (hid : m.id = i + 1) (hxid : x.id = m.id) {req : Request}
    (heq : m = req.msg m.id m.permit) (hv : req.Valid cfg) (hp : req.Public) :
    ReadSpec cfg F G i req x.outcome := by
  have hl := Reach.contracted (h.mono fun _ _ he => he.contract)
  obtain ⟨id, outcome, arrived⟩ := x
  obtain rfl : id = m.id := hxid
  obtain rfl : arrived = true := harr
  cases outcome with
  | ok bytes =>
    cases hcur : req.allowCurrentPosition with
    | false =>
      have hpos : Positioned cfg.params cfg.limits m := by
        obtain ⟨charge, n, hn, _⟩ := hv
        rw [hcur] at hn
        rw [heq]
        exact ⟨n, hn⟩
      refine .of_window hv hcur ?_
      have hbytes := (Reach.delivery cfg.limits h).sent m hm hpos bytes hx
      rw [heq] at hbytes
      exact hbytes
    | true =>
      have hstream : m.offset = currentPosition := by
        rw [heq]
        cases hp with
        | readCurrent => rfl
        | readAt | readAtDirect => cases hcur
      have hsent := (Reach.streamed hu (h.mono fun _ _ he => ⟨he.contract, he.2.1⟩)).sent
        m hm hstream bytes hx
      refine .of_stream hv hcur ?_
      rw [hid] at hsent
      refine ⟨hsent.1, ?_⟩
      have hlen : m.len = req.len := by rw [heq]; rfl
      exact hlen ▸ hsent.2
  | error err =>
    refine .of_fails hv ?_
    obtain ⟨es, hrun, ha⟩ := (h.mono fun _ _ he => he.2.2).exists_run
    have hcontract := ha.mono fun _ _ he => he.contract
    cases (explained_of_run hu hrun hcontract).sends _ hx err rfl with
    | refused => exact .refused
    | leaked => exact .leaked
    | ended hm' hid' _ _ _ has hends =>
      cases hends with
      | errno n => exact .os n
      | cancelled => exact .os eCanceled
      | metadata _ _ hlen =>
        obtain ⟨n, rfl⟩ := attempts_plain hrun ha _ _ (has ▸ List.mem_concat_self) _ hlen
        exact .os n
      | short halign =>
        obtain rfl := hl.request_inj hm' hm hid'
        refine .short ?_
        rw [heq] at halign
        exact halign

end Shard

/-- A caller carries the request it owes an answer to. -/
theorem Caller.Owes.carries {cfg : Config} {F G : Nat → List UInt8} {i : Nat} {req : Request}
    {x : Caller} (h : x.Owes cfg F G i req) {r : Option Nat} {req' : Request} {charge : Nat}
    {res : Option Nat} (hc : x.Carries r req' charge res) : req' = req ∧ req.Valid cfg := by
  cases x with
  | submitting c => exact ⟨hc.1.trans h.1, h.2⟩
  | holding hd =>
    obtain ⟨w, hs, rfl, _⟩ := hc
    rw [Owes, hs] at h
    exact h

/-- Only a poll finishes a handle. -/
theorem Caller.done_act {x x' : Caller} {e : CallerEvent} {id : Nat} {r : Option Nat} {v v' : View}
    (h : x.act e id r v = some (some x', v')) (hd : x'.done = false) : x.done = false := by
  cases act_remains h with
  | call => rfl
  | poll h hf => simp [done, hf]
  | keep => exact hd

namespace Driver

/-- The driver and the service have had the same calls; a caller owes the answer to its call,
which is unanswered until the caller is done; and every read sent is the read of its call. -/
structure Serves (cfg : Config) (F G : Nat → List UInt8) (d : Driver) (q : Service Request) :
    Prop where
  next : d.nextId = q.calls.length + 1
  callers : d.callers.All fun id x => ∃ i req, id = i + 1 ∧ q.calls[i]? = some req ∧
    x.Owes cfg F G i req ∧ (x.done = false → i ∉ q.answered)
  sent : ∀ cell ∈ d.cells, ∀ m ∈ cell.loop.hist.requests, ∃ i req, m.id = i + 1 ∧
    q.calls[i]? = some req ∧ req.Valid cfg ∧ m = req.msg m.id m.permit
  asked : ∀ req ∈ q.calls, req.Public
  answered : ∀ i ∈ q.answered, i < q.calls.length

namespace Serves

variable {cfg : Config} {r : Option Nat} {F G : Nat → List UInt8} {d d' : Driver}
    {q : Service Request}

theorem init : (Driver.init cfg r).Serves cfg F G .idle where
  next := rfl
  callers := AList.all_empty
  sent := fun _ h => nomatch h
  asked := fun _ h => nomatch h
  answered := fun _ h => nomatch h

/-- Changes that send no read and touch no caller. -/
theorem frame (h : d.Serves cfg F G q) (hcallers : d'.callers = d.callers)
    (hid : d'.nextId = d.nextId)
    (hcells : ∀ b ∈ d'.cells, b.loop.hist.requests = [] ∨
      ∃ a ∈ d.cells, b.loop.hist.requests = a.loop.hist.requests) : d'.Serves cfg F G q where
  next := hid.trans h.next
  callers := hcallers ▸ h.callers
  sent := by
    intro b hb m hm
    rcases hcells b hb with hnil | ⟨a, ha, heq⟩
    · rw [hnil] at hm
      cases hm
    · exact h.sent a ha m (heq ▸ hm)
  asked := h.asked
  answered := h.answered

theorem kept {c : Params} (h : d.Serves cfg F G q) (hk : d.Kept c d') : d'.Serves cfg F G q := by
  refine h.frame hk.callers hk.nextId fun b hb => Or.inr ?_
  obtain ⟨k, hb⟩ := List.mem_iff_getElem?.mp hb
  obtain ⟨a, ha, hab⟩ := forall₂_getElem? hk.cells hb
  exact ⟨a, List.mem_of_getElem? ha, hab.requests⟩

/-- A `submit` is the next call. -/
theorem submit (h : d.Serves cfg F G q) {req : Request} {x : Caller} {n : Nat}
    (hid : d.nextId < cancelBit) (hx : Begun cfg d req x) (hp : req.Public) :
    ({ d with nextId := fetchAdd d.nextId, rr := n,
              callers := d.callers.insert d.nextId x } : Driver).Serves cfg F G
      { q with calls := q.calls ++ [req] } where
  next := by
    have hnext : fetchAdd d.nextId = d.nextId + 1 :=
      fetchAdd_of_lt (by unfold cancelBit at hid; omega)
    change fetchAdd d.nextId = _
    rw [hnext, h.next, List.length_append, List.length_singleton]
  callers := by
    refine AList.All.insert (fun id y hy => ?_)
      ⟨q.calls.length, req, h.next, ?_, ?_, fun _ hin => ?_⟩
    · obtain ⟨i, req', rfl, hi, hrest⟩ := h.callers id y hy
      refine ⟨i, req', rfl, ?_, hrest⟩
      rw [List.getElem?_append_left (List.getElem?_eq_some_iff.mp hi).1]
      exact hi
    · exact List.getElem?_concat_length
    · cases hx with
      | invalid he =>
        change ReadSpec cfg F G q.calls.length req _
        unfold ReadSpec
        rw [he]
      | valid hn => exact ⟨rfl, _, _, hn, rfl⟩
    · exact lt_irrefl _ (h.answered _ hin)
  sent := by
    intro cell hcell m hm
    obtain ⟨i, req', hid', hi, hrest⟩ := h.sent cell hcell m hm
    refine ⟨i, req', hid', ?_, hrest⟩
    rw [List.getElem?_append_left (List.getElem?_eq_some_iff.mp hi).1]
    exact hi
  asked := by
    intro req' hreq
    rcases List.mem_append.mp hreq with hold | hnew
    · exact h.asked req' hold
    · exact List.mem_singleton.mp hnew ▸ hp
  answered := by
    intro i hi
    rw [List.length_append]
    exact Nat.lt_add_right _ (h.answered i hi)

/-- What an operation of a caller leaves, apart from its answer. -/
theorem caller (h : d.Serves cfg F G q) {id : Nat} {e : CallerEvent} {x : Caller}
    {y : Option Caller} {v v' : View} (hx : d.callers.lookup id = some x)
    (hv : d.view x.shard = some v) (ha : x.act e id d.reservation v = some (y, v'))
    {q' : Service Request} (hcalls : q'.calls = q.calls)
    (hold : ∀ i, i ∈ q'.answered → i ∈ q.answered ∨ id = i + 1)
    (hnew : ∀ x' i, y = some x' → id = i + 1 → x'.done = false → i ∉ q'.answered) :
    ((d.install x.shard v').put id y).Serves cfg F G q' := by
  obtain ⟨i, req, rfl, hi, howes, _⟩ := h.callers id x hx
  have hcell := view_eq_some hv
  refine ⟨?_, ?_, ?_, ?_, fun j hj => ?_⟩
  · rw [put_nextId, hcalls]
    exact h.next
  · rw [hcalls]
    intro j z hz
    by_cases hj : j = i + 1
    · subst hj
      rw [lookup_put_self] at hz
      subst hz
      refine ⟨i, req, rfl, hi, owes_act howes ha, hnew z i rfl rfl⟩
    · rw [lookup_put_of_ne _ hj] at hz
      obtain ⟨k, req', rfl, hk, hk', hun⟩ := h.callers j z hz
      refine ⟨k, req', rfl, hk, hk', fun hd hin => ?_⟩
      rcases hold k hin with hin | heq
      · exact hun hd hin
      · exact hj heq.symm
  · rw [put_cells, hcalls]
    refine Wired.mem_install hv (P := fun s => ∀ m ∈ s.hist.requests, ∃ i req, m.id = i + 1 ∧
      q.calls[i]? = some req ∧ req.Valid cfg ∧ m = req.msg m.id m.permit) h.sent fun hs m hm => ?_
    rcases (Caller.act_cases (c := cfg.params) ha).requests with hreq |
      ⟨req', charge, res, hcarry, hreq⟩
    · exact hs m (hreq ▸ hm)
    · rw [hreq] at hm
      rcases List.mem_append.mp hm with hm | hm
      · exact hs m hm
      · obtain rfl := List.mem_singleton.mp hm
        obtain ⟨rfl, hvalid⟩ := howes.carries hcarry
        exact ⟨i, req', rfl, hi, hvalid, rfl⟩
  · rw [hcalls]
    exact h.asked
  · rw [hcalls]
    rcases hold j hj with hin | heq
    · exact h.answered j hin
    · cases heq
      exact (List.getElem?_eq_some_iff.mp hi).1

/-- What arrives at a caller is an answer to its call. -/
theorem mail (h : d.Serves cfg F G q) (hu : WideUsize cfg.params.usizeMax)
    (hl : d.Looped cfg (Shard.Faithful cfg.params F G) Request.Public) {i : Nat} {req : Request}
    (hi : q.calls[i]? = some req) (hvalid : req.Valid cfg) {k : Nat} {v : View}
    (hv : d.view k = some v) {s : Uring.Sent} (hs : s ∈ v.loop.mail.sends) (hid : s.id = i + 1)
    (harr : s.arrived = true) : ReadSpec cfg F G i req s.outcome := by
  obtain ⟨cell, hcell, rfl⟩ := view_eq_some hv
  have hmem := List.mem_of_getElem? hcell
  have hr := hl.loops cell hmem
  have hcontract := Shard.Reach.contracted (hr.mono fun _ _ he => he.contract)
  obtain ⟨m, hm, hms⟩ := Shard.request_of_sent hcontract hs
  obtain ⟨j, req', hmid, hj, _, heq⟩ := h.sent cell hmem m hm
  obtain rfl : j = i := by omega
  obtain rfl : req' = req := Option.some.inj (hj.symm.trans hi)
  exact Shard.sent_answers hu hr hs harr hm hmid hms.symm heq hvalid
    (h.asked req' (List.mem_of_getElem? hj))

/-- A poll that finishes its handle answers its call. -/
theorem poll (h : d.Serves cfg F G q) (hu : WideUsize cfg.params.usizeMax)
    (hl : d.Looped cfg (Shard.Faithful cfg.params F G) Request.Public) {id : Nat} {x : Caller}
    {y : Option Caller} {v v' : View} (hx : d.callers.lookup id = some x)
    (hv : d.view x.shard = some v) (ha : x.act .poll id d.reservation v = some (y, v'))
    (hs : step cfg d (.caller id .poll) = some ((d.install x.shard v').put id y)) :
    ∃ q', Service.Trace (ReadSpec cfg F G) q (seen cfg d (.caller id .poll)) q' ∧
      ((d.install x.shard v').put id y).Serves cfg F G q' := by
  obtain ⟨i, req, rfl, hi, howes, hun⟩ := h.callers id x hx
  cases x with
  | submitting c => cases ha
  | holding hd =>
    unfold Caller.act at ha
    simp only at ha
    split at ha
    · cases ha
    · rename_i hf
      rw [Option.not_isSome_iff_eq_none] at hf
      cases ha
      have hact : (holding hd).act .poll (i + 1) d.reservation v =
          some (some (.holding (hd.poll (i + 1) v).1), (hd.poll (i + 1) v).2) := by
        simp [Caller.act, hf]
      have hundone : i ∉ q.answered := hun (by simp [Caller.done, hf])
      have hseen : seen cfg d (.caller (i + 1) .poll) =
          ((hd.poll (i + 1) v).1.finished.map (Seen.answer i)).toList := by
        simp only [seen, hs, lookup_put_self, Option.elim_some, Caller.returned,
          Nat.add_sub_cancel]
      cases hres : (hd.poll (i + 1) v).1.finished with
      | none =>
        refine ⟨q, ?_, h.caller hx hv hact rfl (fun _ hin => Or.inl hin) ?_⟩
        · rw [hseen, hres]
          exact .nil
        · intro x' j _ hj _
          obtain rfl : i = j := by omega
          exact hundone
      | some res =>
        refine ⟨{ q with answered := i :: q.answered }, ?_,
          h.caller hx hv hact rfl (fun j hin => ?_) ?_⟩
        · rw [hseen, hres]
          refine Service.Trace.single (.answer hi hundone ?_)
          refine poll_answers howes hf (fun hst s hs hid harr => ?_) hres
          have hvalid : req.Valid cfg := by
            obtain ⟨wake, hstate⟩ := ReadHandle.isSubmitted_iff.mp hst
            rw [Owes, hstate] at howes
            exact howes
          exact h.mail hu hl hi hvalid hv hs hid harr
        · rcases List.mem_cons.mp hin with rfl | hin
          · exact Or.inr rfl
          · exact Or.inl hin
        · intro x' j hx' _ hd'
          cases hx'
          simp [Caller.done, hres] at hd'

/-- Every transition shows a step of the service, or none. -/
theorem transition (h : d.Serves cfg F G q) (hu : WideUsize cfg.params.usizeMax)
    (hw : d.Wired cfg r) (hl : d.Looped cfg (Shard.Faithful cfg.params F G) Request.Public)
    {e : DriverEvent} (he : Within (Shard.Faithful cfg.params F G) Request.Public d e)
    (hs : step cfg d e = some d') : ∃ q', Service.Trace (ReadSpec cfg F G) q (seen cfg d e) q' ∧
      d'.Serves cfg F G q' := by
  have hm := step_move hs
  cases (step_transition hs).2 with
  | startShard hl hn =>
    refine ⟨q, .nil, h.frame rfl rfl fun b hb => ?_⟩
    rcases List.mem_append.mp hb with hold | hnew
    · exact Or.inr ⟨b, hold, rfl⟩
    · rw [List.mem_singleton.mp hnew]
      exact Or.inl rfl
  | @submit req d' hlife hb =>
    obtain ⟨hid, x, hx, rfl⟩ := beginSubmit_cases hb
    exact ⟨_, Service.Trace.single (.call req), h.submit hid hx (he.2 req rfl)⟩
  | @caller id e x v v' y hx hv ha =>
    by_cases hpoll : e = .poll
    · subst hpoll
      exact h.poll hu hl hx hv ha hs
    · obtain ⟨i, req, rfl, hi, howes, hun⟩ := h.callers id x hx
      have hseen : seen cfg d (.caller (i + 1) e) = [] := by
        cases e with
        | poll => exact absurd rfl hpoll
        | call | keep | drop => rfl
      refine ⟨q, ?_, h.caller hx hv ha rfl (fun _ hin => Or.inl hin) fun x' j hx' hj hd => ?_⟩
      · rw [hseen]
        exact .nil
      · obtain rfl : i = j := by omega
        exact hun (Caller.done_act (hx' ▸ ha) hd)
  | @turn k e v v' hthread hv ht =>
    obtain ⟨cell, hcell, heq⟩ := view_eq_some hv
    obtain ⟨freed, hturn⟩ := hw.turn_cases hv hthread ht
    refine ⟨q, .nil, h.frame rfl rfl fun b hb => Or.inr ?_⟩
    rcases mem_modify_cases hb with ⟨a, ha, rfl⟩ | hold
    · obtain rfl : cell = a := Option.some.inj (hcell.symm.trans ha)
      refine ⟨cell, List.mem_of_getElem? hcell, ?_⟩
      rw [heq] at hturn
      exact hturn.requests
    · exact ⟨b, hold, rfl⟩
  | started | failStart | guard | requestShutdown | closer | retire | join =>
    cases hm with
    | kept _ hk hl => exact ⟨q, .nil, h.kept hk⟩

end Serves

section Run

variable {cfg : Config} {r : Option Nat} {F G : Nat → List UInt8}

/-- A read that a public function asks for may be sent. -/
theorem sendable_of_asked {m : ReadMsg} (h : Asked cfg Request.Public m) :
    Sendable cfg.params m := by
  obtain ⟨req, charge, hp, ⟨n, hn, _⟩, heq⟩ := h
  rw [heq]
  refine ⟨cfg.limits, n, ?_⟩
  cases hp with
  | readAt | readAtDirect => exact Or.inl hn
  | readCurrent => exact Or.inr ⟨rfl, rfl, hn⟩

/-- Whatever comes from outside a loop's thread is faithful. -/
theorem faithful_of_outside (s : Shard) (e : Event)
    (he : Outside (Asked cfg Request.Public) s e) : Shard.Faithful cfg.params F G s e := by
  obtain ⟨hthread, hsend⟩ := he
  refine ⟨?_, ?_, ?_, fun p m heq => sendable_of_asked (hsend p m heq)⟩
  all_goals cases e <;> trivial

/-- The calls seen at one transition. -/
theorem calls_seen (cfg : Config) (d : Driver) (e : DriverEvent) :
    Seen.calls (seen cfg d e) = submitted [e] := by
  cases e with
  | submit req => rfl
  | caller id a =>
    cases a with
    | poll =>
      unfold seen
      simp only
      split
      · rfl
      · rename_i d' _
        cases d'.callers.lookup id with
        | none => rfl
        | some x =>
          cases x with
          | submitting c => rfl
          | holding h => cases hf : h.finished <;> simp [Caller.returned, hf, Seen.calls, submitted]
    | call | keep | drop => rfl
  | _ => rfl

/-- The calls seen of a run are the requests given to `submit`. -/
theorem calls_outputs {d d' : Driver} {es : List DriverEvent}
    (h : run (step cfg) d es = some d') :
    Seen.calls (outputs (step cfg) (seen cfg) d es) = submitted es := by
  induction es generalizing d with
  | nil => rfl
  | cons e es ih =>
    simp only [run, Option.bind_eq_some_iff] at h
    obtain ⟨d₁, hs, hrest⟩ := h
    have hone := calls_seen cfg d e
    have happend : submitted (e :: es) = submitted [e] ++ submitted es :=
      List.filterMap_append (l := [e])
    simp only [outputs, hs]
    rw [happend, ← ih hrest, ← hone]
    exact List.filterMap_append

/-- What the callers of a driver see of any run is a trace of the read service: calls are
numbered in order, and each is answered at most once and with what the service permits. -/
theorem trace_of_run (hu : WideUsize cfg.params.usizeMax) {es : List DriverEvent} {d : Driver}
    (hrun : run (step cfg) (init cfg r) es = some d)
    (ha : Admitted (step cfg) (Within (Shard.Faithful cfg.params F G) Request.Public)
      (init cfg r) es) :
    ∃ q, q.calls = submitted es ∧
      Service.Trace (ReadSpec cfg F G) .idle (outputs (step cfg) (seen cfg) (init cfg r) es) q := by
  have hserves : ∃ q, Service.Trace (ReadSpec cfg F G) .idle
      (outputs (step cfg) (seen cfg) (init cfg r) es) q ∧ d.Serves cfg F G q :=
    Service.trace_of_simulation (fun d q => d.Serves cfg F G q)
      (fun _ _ _ _ hr he hs hR => hR.transition hu (Reach.wired (hr.mono fun _ _ _ => trivial))
        (Reach.looped faithful_of_outside hr) he hs) .start .init ha hrun
  obtain ⟨q, htrace, _⟩ := hserves
  refine ⟨q, ?_, htrace⟩
  rw [htrace.eq]
  exact calls_outputs hrun

/-- No loop of such a run panics. -/
theorem alive_of_run (hu : WideUsize cfg.params.usizeMax) {es : List DriverEvent} {d : Driver}
    (hrun : run (step cfg) (init cfg r) es = some d)
    (ha : Admitted (step cfg) (Within (Shard.Faithful cfg.params F G) Request.Public)
      (init cfg r) es) : d.aborted = false := by
  have hl := Reach.looped faithful_of_outside (reachable_of_run hrun ha)
  refine List.any_eq_false.mpr fun cell hcell => ?_
  rw [decide_eq_true_eq]
  exact Shard.Reach.alive hu ((hl.loops cell hcell).mono fun _ _ he => he.contract)

end Run

/-- Check one label of a loop that reads no stream. -/
def keepsFaith (c : Params) (F : Nat → List UInt8) (s : Shard) (e : Event) : Bool :=
  Shard.answersFit F s e && Shard.keepsContract c s e && Shard.plainMetadata e &&
    match e with
    | .post k _ _ => (s.held[k]?).all fun
      | .read _ _ _ _ off => decide (off ≠ currentPosition)
      | .asyncCancel .. => true
    | _ => true

theorem faithful_of_keepsFaith {c : Params} {F G : Nat → List UInt8} {s : Shard} {e : Event}
    (h : keepsFaith c F s e = true) : Shard.Faithful c F G s e := by
  simp only [keepsFaith, Bool.and_eq_true] at h
  obtain ⟨⟨⟨hfit, hkeep⟩, hplain⟩, hstream⟩ := h
  refine ⟨Shard.allows_of_answersFit hfit, ?_, Shard.plain_of_keepsContract hkeep hplain⟩
  cases e with
  | post k res data =>
    intro e he
    cases e with
    | read ud file ptr len off =>
      intro hoff
      simp only [he, Option.all_some, decide_eq_true_eq] at hstream
      exact absurd hoff hstream
    | asyncCancel => trivial
  | reap fileLen late => exact fun _ _ _ _ _ => trivial
  | _ => trivial

/-- Check one label of a driver that is asked for positioned reads. -/
def keepsWithin (c : Params) (F : Nat → List UInt8) (d : Driver) : DriverEvent → Bool
  | .turn k a => (d.cells[k]?).all fun cell => keepsFaith c F cell.loop a
  | .submit req => !req.allowCurrentPosition
  | _ => true

theorem within_of_keepsWithin {c : Params} {F G : Nat → List UInt8} {d : Driver} {e : DriverEvent}
    (h : keepsWithin c F d e = true) : Within (Shard.Faithful c F G) Request.Public d e := by
  constructor
  · rintro k a cell rfl hcell
    simp only [keepsWithin, hcell, Option.all_some] at h
    exact faithful_of_keepsFaith h
  · rintro ⟨file, offset, len, align, cur, policy⟩ rfl
    cases cur with
    | false => exact .readAtDirect file offset len align policy
    | true => cases h

/-- A two-byte read is sent, taken in, answered by the kernel and polled. -/
def servedRead : List DriverEvent :=
  [.startShard, .started, .submit twoBytes, .caller 1 .call, .caller 1 .call, .caller 1 .call,
    .turn 0 (.signal 1), .turn 0 .wake, .turn 0 .drainCq, .turn 0 .drainWake,
    .turn 0 (.intake 4096 []), .turn 0 (.intake 4096 [1]), .turn 0 (.submit false (.ok 1) [1]),
    .turn 0 (.post 0 2 [10, 20]), .turn 0 (.reap (.ok 5) false), .caller 1 .poll]

theorem servedRead_runs : (run (step smallDriver) (init smallDriver none) servedRead).isSome =
    true := by
  decide +kernel

end Driver

end Uring
