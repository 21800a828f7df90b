import Uring.Driver.Admission
import Uring.Driver.Bound

/-!
# What a handle sends

The messages of a run are read off the channels as they grow. For each id they are none,
or its read, or its read and then its cancel, all on the channel of the shard the caller
is bound to; and a channel gives them to its loop in the order in which they were sent.
-/

namespace Uring

open Uring.Core

/-- A loop takes messages from the front of its channel. -/
theorem Move.chan_suffix {c : Params} {w : Answers} {l l' : Ledger} {a : Actor}
    (h : Move c w l a l') (ha : a ≠ .caller) : l'.chan <:+ l.chan := by
  cases h with
  | send | closeRx => exact absurd rfl ha
  | idle | overflow | postCancel | submit | reapCancel | reapStale | resubmit | finish | leak =>
    exact List.suffix_refl _
  | postRead res hk hd hw =>
    obtain ⟨t, ht⟩ := l.postRead_frame _ ⟨_, res⟩ _ _
    rw [ht]
  | reject e hc | accept hc hd hp hs | cancelMiss hc hp =>
    rw [hc]
    exact List.suffix_cons _ _
  | @cancelHit id rest p hc hp =>
    rw [(Ledger.queueCancel_frame _ id).chan, hc]
    exact List.suffix_cons _ _
  | @shutdown rest order hc ho =>
    rw [Ledger.shutdown, (Ledger.queueCancels_frame _ order).chan, hc]
    exact List.suffix_cons _ _
  | @submitSweep order errors hd ho =>
    rw [Ledger.shutdown, (Ledger.queueCancels_frame _ order).chan]
    exact List.suffix_refl _
  | dropChan hd => exact List.nil_suffix

/-- A label of the thread adds no message. -/
theorem Shard.chan_of_ofThread {c : Params} {s s' : Shard} {e : Event} (hc : s.Control)
    (he : e.ofThread = true) (h : s.step c e = some s') : s'.chan <:+ s.chan := by
  have hm := (Shard.step_move hc (Shard.any_allows s e) h).1
  cases e with
  | signal p =>
    unfold Shard.step at h
    split at h
    · cases h
    · cases h
      exact List.suffix_refl _
  | send | join | hangup | closeRx => cases he
  | _ => exact hm.chan_suffix nofun

/-- A message about the read `id`. -/
def Msg.isAbout (id : Nat) : Msg → Bool
  | .read m => decide (m.id = id)
  | .cancel j => decide (j = id)
  | .shutdown => false

/-- The messages about the read `id`. -/
def about (id : Nat) (l : List Msg) : List Msg := l.filter (Msg.isAbout id)

theorem about_append (id : Nat) (l l' : List Msg) :
    about id (l ++ l') = about id l ++ about id l' :=
  List.filter_append _ _

theorem about_replicate (id n : Nat) : about id (List.replicate n .shutdown) = [] := by
  refine List.filter_eq_nil_iff.mpr fun m hm => ?_
  rw [List.eq_of_mem_replicate hm]
  exact Bool.false_ne_true

namespace Caller

/-- The read of this caller was handed to the driver. -/
def sent (x : Caller) : Bool :=
  match x with
  | .submitting _ => false
  | .holding h => h.isSubmitted

/-- The poll that finished this caller's handle has returned. -/
def done (x : Caller) : Bool :=
  match x with
  | .submitting _ => false
  | .holding h => h.finished.isSome

/-- The caller goes on without sending: a read already sent stays with its shard, and one
not sent is at most given up by a poll that failed at its send. -/
def Continues (x x' : Caller) : Prop :=
  (x.sent = true ∧ x'.sent = true ∧ x'.shard = x.shard ∧ (x.done = true → x'.done = true)) ∨
    (x.sent = false ∧ (x'.sent = true → x'.done = true))

theorem Continues.refl (x : Caller) : x.Continues x := by
  cases hs : x.sent with
  | true => exact Or.inl ⟨hs, hs, rfl, fun hd => hd⟩
  | false => exact Or.inr ⟨hs, fun h => absurd h (by simp [hs])⟩

end Caller

/-- What one operation of caller `id` sends, and which eventfd it is to signal then. -/
inductive Sends (id : Nat) (r : Option Nat) (v : View) :
    Caller → CallerEvent → Option Caller → View → Prop
  /-- Nothing. -/
  | nothing {x : Caller} {e : CallerEvent} {y : Option Caller} {v' : View}
      (hchan : v'.loop.chan = v.loop.chan) (hy : ∀ x', y = some x' → x.Continues x') :
      Sends id r v x e y v'
  /-- The read, with the count permit in hand. -/
  | read {x : Caller} {e : CallerEvent} {h : ReadHandle} {v' : View} {req : Request} {charge : Nat}
      {res : Option Nat} {wake : Nat} (he : e = .call ∨ e = .poll) (hx : x.sent = false)
      (hheld : ∀ k, x.held k = if x.shard = k then 1 else 0) (hc : x.Carries r req charge res)
      (hchan : v'.loop.chan = v.loop.chan ++ [.read (req.msg id (v.permitsFor charge res))])
      (hs : h.isSubmitted = true) (hk : h.shard = x.shard) (hw : x.wake = some wake)
      (hsig : x.signals e id r v = some wake) :
      Sends id r v x e (some (.holding h)) v'
  /-- The cancel of an unfinished read, by dropping its handle. -/
  | cancel {h : ReadHandle} {v' : View} {wake : Nat} (hs : h.isSubmitted = true)
      (hf : h.finished = none) (hd : h.cancelOnDrop = true)
      (hchan : v'.loop.chan = v.loop.chan ++ [.cancel id]) (hw : h.wake = some wake)
      (hsig : (Caller.holding h).signals .drop id r v = some wake) :
      Sends id r v (.holding h) .drop none v'

/-- A sent message is last in its channel. -/
theorem Shard.chan_of_sendMsg {s s' : Shard} {p : Nat} {m : Msg} (h : s.sendMsg p m = some s') :
    s'.chan = s.chan ++ [m] := by
  obtain ⟨_, _, _, rfl⟩ := Shard.sendMsg_eq_some h
  rfl

namespace Sends

variable {id : Nat} {r : Option Nat} {v v' : View} {x : Caller} {y : Option Caller}
    {e : CallerEvent}

/-- An operation before and after which the read is not sent. -/
theorem unsent (hx : x.sent = false) (hchan : v'.loop.chan = v.loop.chan)
    (hy : ∀ x', y = some x' → x'.sent = false) : Sends id r v x e y v' := by
  refine .nothing hchan fun x' hx' => Or.inr ⟨hx, fun hs => ?_⟩
  rw [hy x' hx'] at hs
  cases hs

/-- A dropped handle goes on nowhere. -/
theorem gone (hchan : v'.loop.chan = v.loop.chan) : Sends id r v x e none v' := .nothing hchan nofun

theorem sent_refused (c : Submit) (r : Option Nat) (k : Nat) (err : TryAcquireError) :
    (Caller.holding (c.refused r k err)).sent = false := by
  cases err <;> rfl

theorem step (c : Submit) :
    Sends id r v (.submitting c) .call (some (c.step id r v).1) (c.step id r v).2 := by
  have hrefused {k : Nat} {err : TryAcquireError} {u : View} (hchan : u.loop.chan = v.loop.chan) :
      Sends id r v (.submitting c) .call (some (.holding (c.refused r k err))) u :=
    unsent rfl hchan fun _ hx => Option.some.inj hx ▸ sent_refused c r k err
  have hgoto {pc : SubmitPc} {u : View} (hchan : u.loop.chan = v.loop.chan) :
      Sends id r v (.submitting c) .call (some (c.goto pc)) u :=
    unsent rfl hchan fun _ hx => Option.some.inj hx ▸ rfl
  unfold Submit.step
  split
  · split
    · exact hrefused rfl
    · exact hgoto rfl
  · split
    · exact hgoto rfl
    · split
      · simp only
        split
        · exact hgoto rfl
        · exact hgoto rfl
      · exact hrefused rfl
  · split
    · exact hgoto rfl
    · split
      · exact hgoto rfl
      · exact hgoto rfl
  · exact hrefused rfl
  · split
    · exact hrefused rfl
    · split
      · exact hrefused rfl
      · exact hrefused rfl
  · rename_i k hpc
    simp only
    split
    · rename_i u hu
      obtain ⟨_, _, _, hsend, _⟩ := View.sendRead_eq_some hu
      have hchan := Shard.chan_of_sendMsg hsend
      have hwake : (Caller.submitting c).wake = some k := by simp only [Caller.wake, hpc]
      refine .read (Or.inl rfl) rfl (fun j => ?_) ⟨rfl, rfl, rfl⟩ hchan rfl ?_ hwake ?_
      · simp only [Caller.held, Caller.shard, Submit.shard, hpc]
      · simp only [Caller.shard, Submit.shard, hpc]
      · simp only [Caller.signals, Submit.signals, hpc, hu, Option.map_some]
    · exact unsent rfl rfl fun _ hx => Option.some.inj hx ▸ rfl

theorem poll (h : ReadHandle) (hf : h.finished = none) :
    Sends id r v (.holding h) .poll (some (.holding (h.poll id v).1)) (h.poll id v).2 := by
  have hunsent {h' : ReadHandle} {u : View} (hx : (Caller.holding h).sent = false)
      (hs : (Caller.holding h').sent = false) (hchan : u.loop.chan = v.loop.chan) :
      Sends id r v (.holding h) .poll (some (.holding h')) u :=
    unsent hx hchan fun _ hx' => Option.some.inj hx' ▸ hs
  have hdone {h' : ReadHandle} (hx : (Caller.holding h).sent = true)
      (hs : (Caller.holding h').sent = true) (hk : h'.shard = h.shard)
      (hd : h.finished.isSome = true → h'.finished.isSome = true) :
      Sends id r v (.holding h) .poll (some (.holding h')) v :=
    .nothing rfl fun _ hx' => Option.some.inj hx' ▸ Or.inl ⟨hx, hs, hk, hd⟩
  unfold ReadHandle.poll
  split
  · rename_i value hs
    have hsent : (Caller.holding h).sent = false := by rw [Caller.sent, ReadHandle.isSubmitted, hs]
    exact hunsent hsent hsent rfl
  · rename_i wake hs
    have hsent : (Caller.holding h).sent = true := ReadHandle.isSubmitted_iff.mpr ⟨wake, hs⟩
    split
    · exact hdone hsent hsent rfl fun hd => hd
    · exact hdone hsent hsent rfl fun _ => rfl
    · exact hdone hsent hsent rfl fun _ => rfl
  · rename_i w hs
    have hsent : (Caller.holding h).sent = false := by rw [Caller.sent, ReadHandle.isSubmitted, hs]
    split
    · split
      · exact hunsent hsent hsent rfl
      · exact hunsent hsent hsent rfl
      · exact hunsent hsent rfl rfl
    · split
      · exact hunsent hsent rfl rfl
      · split
        · exact hunsent hsent rfl rfl
        · exact hunsent hsent hsent rfl
        · exact hunsent hsent rfl rfl
    · rename_i hst
      simp only
      split
      · rename_i u hu
        obtain ⟨_, _, _, hsend, _⟩ := View.sendRead_eq_some hu
        have hchan := Shard.chan_of_sendMsg hsend
        have hwake : (Caller.holding h).wake = some w.wake := by
          rw [Caller.wake, ReadHandle.wake, hs]
        refine .read (Or.inr rfl) hsent (fun k => ?_) ⟨w, hs, rfl, rfl, rfl⟩ hchan rfl rfl hwake ?_
        · exact Caller.held_partial hs hf (by rw [hst]; simp) k
        · simp only [Caller.signals, ReadHandle.pollSignals, hs, hst, hu, Option.map_some]
      · exact .nothing rfl fun _ hx => Option.some.inj hx ▸ Or.inr ⟨hsent, fun _ => rfl⟩

theorem drop (h : ReadHandle) : Sends id r v (.holding h) .drop none (h.drop id v) := by
  unfold ReadHandle.drop
  split
  · exact gone rfl
  · split
    · exact gone rfl
    · split
      · exact gone rfl
      · exact gone rfl
  · rename_i wake hs
    have hsub : h.isSubmitted = true := ReadHandle.isSubmitted_iff.mpr ⟨wake, hs⟩
    simp only
    split
    · rename_i hlive
      rw [Bool.and_eq_true, Option.isNone_iff_eq_none] at hlive
      cases hsend : Shard.sendMsg { v.loop with mail := v.loop.mail.close id } id (.cancel id) with
      | none => exact gone rfl
      | some loop =>
        have hchan := Shard.chan_of_sendMsg hsend
        have hwake : h.wake = some wake := by rw [ReadHandle.wake, hs]
        refine .cancel hsub hlive.1 hlive.2 hchan hwake ?_
        simp [Caller.signals, ReadHandle.dropSignals, hs, hlive.1, hlive.2]
    · exact gone rfl

/-- Every operation of a caller. -/
theorem of_act (ha : x.act e id r v = some (y, v')) : Sends id r v x e y v' := by
  unfold Caller.act at ha
  split at ha
  · cases ha
    exact step _
  · split at ha
    · cases ha
    · rename_i hf
      cases ha
      exact poll _ (Option.not_isSome_iff_eq_none.mp hf)
  · split at ha <;> cases ha
    exact .nothing rfl fun _ hx => Option.some.inj hx ▸ Caller.Continues.refl (.holding _)
  · split at ha <;> cases ha
    exact drop _
  · cases ha

end Sends

namespace Driver

/-- The channel of shard `k`. -/
def chanAt (d : Driver) (k : Nat) : List Msg := (d.cells[k]?).elim [] fun cell => cell.loop.chan

/-- The messages a transition puts into the channel of shard `k`; a loop's own steps put
none. -/
def postedTo (cfg : Config) (k : Nat) (d : Driver) (e : DriverEvent) : List Msg :=
  match e with
  | .turn _ _ => []
  | e =>
    match step cfg d e with
    | none => []
    | some d' => (d'.chanAt k).drop (d.chanAt k).length

/-- Everything a run put into the channel of shard `k`, in order. -/
def channelLog (cfg : Config) (r : Option Nat) (es : List DriverEvent) (k : Nat) : List Msg :=
  outputs (step cfg) (postedTo cfg k) (init cfg r) es

/-- The requests given to `submit`, oldest first. -/
def submitted (es : List DriverEvent) : List Request :=
  es.filterMap fun
    | .submit req => some req
    | _ => none

variable {cfg : Config} {r : Option Nat}

/-- What a transition that is no loop step puts into a channel. -/
theorem postedTo_eq {d d' : Driver} {e : DriverEvent} {k : Nat} (he : ∀ j a, e ≠ .turn j a)
    (hs : step cfg d e = some d') {l : List Msg} (hl : d'.chanAt k = d.chanAt k ++ l) :
    postedTo cfg k d e = l := by
  unfold postedTo
  split
  · exact absurd rfl (he _ _)
  · simp only [hs, hl, List.drop_left]

theorem chanAt_put (d : Driver) (id : Nat) (y : Option Caller) :
    (d.put id y).chanAt = d.chanAt := by
  cases y <;> rfl

/-- A new shard's channel is empty. -/
theorem chanAt_startShard (d : Driver) (k : Nat) : (d.startShard cfg).chanAt k = d.chanAt k := by
  simp only [chanAt, startShard]
  by_cases hk : k < d.cells.length
  · rw [List.getElem?_append_left hk]
  · rw [List.getElem?_append_right (not_lt.mp hk), List.getElem?_singleton,
      List.getElem?_eq_none_iff.mpr (not_lt.mp hk)]
    split
    · rfl
    · rfl

/-- Channels through an installed view. -/
theorem chanAt_install {d : Driver} {k : Nat} {v v' : View} (hv : d.view k = some v) (j : Nat) :
    (d.install k v').chanAt j = if j = k then v'.loop.chan else d.chanAt j := by
  obtain ⟨cell, hcell, rfl⟩ := view_eq_some hv
  simp only [chanAt, install, List.getElem?_modify]
  by_cases hj : j = k
  · subst hj
    simp [hcell]
  · simp [hj, Ne.symm hj]

theorem chanAt_view {d : Driver} {k : Nat} {v : View} (hv : d.view k = some v) :
    d.chanAt k = v.loop.chan := by
  obtain ⟨cell, hcell, rfl⟩ := view_eq_some hv
  simp [chanAt, hcell]

/-- What a caller's operation puts into the channels. -/
theorem postedTo_caller {d : Driver} {id : Nat} {e : CallerEvent} {x : Caller}
    {y : Option Caller} {v v' : View}
    (hs : step cfg d (.caller id e) = some ((d.install x.shard v').put id y))
    (hv : d.view x.shard = some v) {l : List Msg} (hchan : v'.loop.chan = v.loop.chan ++ l)
    (k : Nat) :
    ((d.install x.shard v').put id y).chanAt k = d.chanAt k ++ (if k = x.shard then l else []) ∧
      postedTo cfg k d (.caller id e) = if k = x.shard then l else [] := by
  have hturn (j : Nat) (a : Event) : DriverEvent.caller id e ≠ .turn j a := nofun
  have hchan' : ((d.install x.shard v').put id y).chanAt k =
      d.chanAt k ++ (if k = x.shard then l else []) := by
    rw [chanAt_put, chanAt_install hv]
    split
    · rename_i hk
      rw [hchan, hk, chanAt_view hv]
    · rw [List.append_nil]
  exact ⟨hchan', postedTo_eq hturn hs hchan'⟩

/-- A change that moves no permit at most asks loops to stop. -/
theorem chanAt_kept {c : Params} {d d' : Driver} (h : d.Kept c d') (k : Nat) :
    ∃ n, d'.chanAt k = d.chanAt k ++ List.replicate n .shutdown := by
  cases hb : d'.cells[k]? with
  | none =>
    have hlen := h.cells.length_eq
    have hle := List.getElem?_eq_none_iff.mp hb
    have ha : d.cells[k]? = none := List.getElem?_eq_none_iff.mpr (by omega)
    exact ⟨0, by simp [chanAt, ha, hb]⟩
  | some b =>
    obtain ⟨a, ha, hab⟩ := forall₂_getElem? h.cells hb
    obtain ⟨n, hn⟩ := hab.asked
    exact ⟨n, by simp [chanAt, ha, hb, hn]⟩

/-- The messages about one read, by shard: exactly `l`, all to shard `k`. -/
def Told (a : Nat → List Msg) (k : Nat) (l : List Msg) : Prop := a k = l ∧ ∀ j, j ≠ k → a j = []

/-- The messages about the read `id` at any time: none, or its read, or its cancel after it,
on one channel. -/
def Settled (a : Nat → List Msg) (id : Nat) : Prop :=
  (∀ k, a k = []) ∨ ∃ k m, m.id = id ∧ (Told a k [.read m] ∨ Told a k [.read m, .cancel id])

/-- The messages about the read of a caller: none before it is sent, and the read alone from
then on; none either when the send itself failed. -/
def Story (a : Nat → List Msg) (id : Nat) (x : Caller) : Prop :=
  (x.sent = true ∧ ∃ m, m.id = id ∧ Told a x.shard [.read m]) ∨
    ((x.sent = true → x.done = true) ∧ ∀ k, a k = [])

theorem Story.continues {a : Nat → List Msg} {id : Nat} {x x' : Caller} (h : Story a id x)
    (hc : x.Continues x') : Story a id x' := by
  rcases hc with ⟨hs, hs', hk, hd⟩ | ⟨hs, hd'⟩
  · rcases h with ⟨_, m, hm, ht⟩ | ⟨hdone, hnone⟩
    · exact Or.inl ⟨hs', m, hm, hk ▸ ht⟩
    · exact Or.inr ⟨fun _ => hd (hdone hs), hnone⟩
  · rcases h with ⟨hsent, _⟩ | ⟨_, hnone⟩
    · rw [hs] at hsent
      cases hsent
    · exact Or.inr ⟨hd', hnone⟩

end Driver

/-- The request a caller still has to send. -/
def Caller.request (x : Caller) : Option Request :=
  match x with
  | .submitting c => some c.req
  | .holding h =>
    match h.state with
    | .waiting w => some w.req
    | _ => none

theorem Caller.Carries.request {x : Caller} {r : Option Nat} {req : Request} {charge : Nat}
    {res : Option Nat} (h : x.Carries r req charge res) : x.request = some req := by
  cases x with
  | submitting c => exact congrArg some h.1.symm
  | holding hd =>
    obtain ⟨w, hs, rfl, _⟩ := h
    rw [Caller.request, hs]

namespace Driver

theorem request_refused (c : Submit) (r : Option Nat) (k : Nat) (err : TryAcquireError)
    {req : Request}
    (hr : (Caller.holding (c.refused r k err)).request = some req) : some c.req = some req := by
  cases err with
  | closed => cases hr
  | noPermits => exact hr

theorem request_step (c : Submit) (id : Nat) (r : Option Nat) (v : View) {req : Request}
    (hr : (c.step id r v).1.request = some req) : some c.req = some req := by
  unfold Submit.step at hr
  split at hr
  · split at hr
    · exact request_refused c r _ _ hr
    · exact hr
  · split at hr
    · exact hr
    · split at hr
      · simp only at hr
        split at hr
        · exact hr
        · exact hr
      · exact request_refused c r _ _ hr
  · split at hr
    · exact hr
    · split at hr
      · exact hr
      · exact hr
  · exact request_refused c r _ _ hr
  · split at hr
    · exact request_refused c r _ _ hr
    · split at hr
      · exact request_refused c r _ _ hr
      · exact request_refused c r _ _ hr
  · simp only at hr
    split at hr
    · cases hr
    · cases hr

theorem request_poll (h : ReadHandle) (id : Nat) (v : View) {req : Request}
    (hr : (Caller.holding (h.poll id v).1).request = some req) :
    (Caller.holding h).request = some req := by
  unfold ReadHandle.poll at hr
  split at hr
  · exact hr
  · split at hr
    · exact hr
    · exact hr
    · exact hr
  · rename_i w hs
    have hreq : (Caller.holding h).request = some w.req := by rw [Caller.request, hs]
    have hawait {stage : Stage} (hr : (Caller.holding (h.await w stage)).request = some req) :
        (Caller.holding h).request = some req := hreq.trans hr
    split at hr
    · split at hr
      · exact hr
      · exact hr
      · exact hawait hr
    · split at hr
      · exact hawait hr
      · split at hr
        · exact hawait hr
        · exact hr
        · exact hawait hr
    · simp only at hr
      split at hr
      · cases hr
      · cases hr

/-- Nothing a caller does changes its request. -/
theorem request_act {x x' : Caller} {e : CallerEvent} {id : Nat} {v v' : View}
    (ha : x.act e id r v = some (some x', v')) {req : Request} (hr : x'.request = some req) :
    x.request = some req := by
  unfold Caller.act at ha
  split at ha
  · cases ha
    exact request_step _ id r v hr
  · split at ha <;> cases ha
    exact request_poll _ id v hr
  · split at ha <;> cases ha
    exact hr
  · split at ha <;> cases ha
  · cases ha

/-- What a run has sent so far, and who may send what is left. -/
structure Protocol (cfg : Config) (r : Option Nat) (es : List DriverEvent) (d : Driver) : Prop where
  /-- A channel holds the end of its log. -/
  fifo : ∀ k, d.chanAt k <:+ channelLog cfg r es k
  next : d.nextId = (submitted es).length + 1
  fresh : ∀ id k, d.nextId ≤ id → about id (channelLog cfg r es k) = []
  settled : ∀ id, Settled (fun k => about id (channelLog cfg r es k)) id
  callers : d.callers.All fun id x => Story (fun k => about id (channelLog cfg r es k)) id x
  asked : d.callers.All fun id x => ∀ req, x.request = some req → (submitted es)[id - 1]? = some req
  reads : ∀ k m, .read m ∈ channelLog cfg r es k → m.permit.count = 1 ∧
    ∃ req, (submitted es)[m.id - 1]? = some req ∧ m = req.msg m.id m.permit

namespace Protocol

variable {es : List DriverEvent} {d d' : Driver} {e : DriverEvent}

theorem init : Protocol cfg r [] (Driver.init cfg r) := by
  refine ⟨fun k => List.suffix_refl _, rfl, fun _ _ _ => rfl, fun _ => Or.inl fun _ => rfl,
    ?_, ?_, ?_⟩
  · exact AList.all_empty
  · exact AList.all_empty
  · intro k m hm
    cases hm

/-- A step that sends nothing about any read and begins no call. -/
theorem quiet (h : Protocol cfg r es d) (hrun : run (step cfg) (Driver.init cfg r) es = some d)
    {n : Nat → Nat} (hposted : ∀ k, postedTo cfg k d e = List.replicate (n k) .shutdown)
    (hchan : ∀ k, d'.chanAt k <:+ d.chanAt k ++ List.replicate (n k) .shutdown)
    (hsub : submitted (es ++ [e]) = submitted es) (hid : d'.nextId = d.nextId)
    (hcallers : ∀ id x', d'.callers.lookup id = some x' → ∃ x, d.callers.lookup id = some x ∧
      (∀ req, x'.request = some req → x.request = some req) ∧ x.Continues x') :
    Protocol cfg r (es ++ [e]) d' := by
  have hlog (k : Nat) : channelLog cfg r (es ++ [e]) k =
      channelLog cfg r es k ++ List.replicate (n k) .shutdown := by
    rw [channelLog, outputs_concat hrun, hposted, channelLog]
  have habout (id k : Nat) : about id (channelLog cfg r (es ++ [e]) k) =
      about id (channelLog cfg r es k) := by
    rw [hlog, about_append, about_replicate, List.append_nil]
  refine ⟨fun k => ?_, ?_, fun id k hle => ?_, fun id => ?_, fun id x' hx' => ?_,
    fun id x' hx' => ?_, fun k m hm => ?_⟩
  · obtain ⟨t, ht⟩ := h.fifo k
    rw [hlog, ← ht, List.append_assoc]
    exact (hchan k).trans (List.suffix_append _ _)
  · rw [hid, hsub, h.next]
  · rw [habout]
    exact h.fresh id k (hid ▸ hle)
  · simp only [habout]
    exact h.settled id
  · obtain ⟨x, hx, _, hcont⟩ := hcallers id x' hx'
    simp only [habout]
    exact (h.callers id x hx).continues hcont
  · obtain ⟨x, hx, hreq, _⟩ := hcallers id x' hx'
    intro req hr
    rw [hsub]
    exact h.asked id x hx req (hreq req hr)
  · rw [hlog] at hm
    rw [hsub]
    rcases List.mem_append.mp hm with hm | hm
    · exact h.reads k m hm
    · cases List.eq_of_mem_replicate hm

/-- A begun `submit` gets the next id and sends nothing yet. -/
theorem submit (h : Protocol cfg r es d) (hrun : run (step cfg) (Driver.init cfg r) es = some d)
    {req : Request} {x : Caller} {n : Nat} (hid : d.nextId < cancelBit) (hx : Begun cfg d req x)
    (hs : step cfg d (.submit req) = some { d with
      nextId := fetchAdd d.nextId, rr := n, callers := d.callers.insert d.nextId x }) :
    Protocol cfg r (es ++ [.submit req]) { d with
      nextId := fetchAdd d.nextId, rr := n, callers := d.callers.insert d.nextId x } := by
  have hnext : fetchAdd d.nextId = d.nextId + 1 :=
    fetchAdd_of_lt (by unfold cancelBit at hid; omega)
  have hturn (j : Nat) (a : Event) : DriverEvent.submit req ≠ .turn j a := nofun
  have hlog (k : Nat) : channelLog cfg r (es ++ [.submit req]) k = channelLog cfg r es k := by
    rw [channelLog, outputs_concat hrun, postedTo_eq hturn hs (List.append_nil _).symm,
      List.append_nil, channelLog]
  have hsub : submitted (es ++ [.submit req]) = submitted es ++ [req] := by
    rw [submitted, List.filterMap_append]
    rfl
  have hold {j : Nat} {req' : Request} (hj : (submitted es)[j]? = some req') :
      (submitted (es ++ [.submit req]))[j]? = some req' := by
    obtain ⟨hlt, _⟩ := List.getElem?_eq_some_iff.mp hj
    rw [hsub, List.getElem?_append_left hlt]
    exact hj
  have hunsent : x.sent = false ∧ ∀ req', x.request = some req' → req' = req := by
    cases hx with
    | invalid he => exact ⟨rfl, nofun⟩
    | valid hn => exact ⟨rfl, fun _ hr => (Option.some.inj hr).symm⟩
  refine ⟨fun k => ?_, ?_, fun id k hle => ?_, fun id => ?_, ?_, ?_, fun k m hm => ?_⟩
  · rw [hlog]
    exact h.fifo k
  · rw [hsub, List.length_append, List.length_singleton, ← h.next]
    exact hnext
  · rw [hlog]
    exact h.fresh id k (by simp only [hnext] at hle; omega)
  · simp only [hlog]
    exact h.settled id
  · simp only [hlog]
    refine h.callers.insert (Or.inr ⟨fun hsent => ?_, fun k => h.fresh _ k (Nat.le_refl _)⟩)
    rw [hunsent.1] at hsent
    cases hsent
  · refine AList.All.insert (fun id y hy req' hr => hold (h.asked id y hy req' hr))
      fun req' hr => ?_
    rw [hunsent.2 req' hr, hsub, h.next, Nat.add_sub_cancel]
    exact List.getElem?_concat_length
  · rw [hlog] at hm
    obtain ⟨hcount, req', hj, heq⟩ := h.reads k m hm
    exact ⟨hcount, req', hold hj, heq⟩

/-- One step of a loop. -/
theorem turn (h : Protocol cfg r es d) (hrun : run (step cfg) (Driver.init cfg r) es = some d)
    (hw : d.Wired cfg r) {k : Nat} {a : Event} {v v' : View} (hv : d.view k = some v)
    (he : a.ofThread = true) (ht : v.turn cfg.params a = some v') :
    Protocol cfg r (es ++ [.turn k a]) (d.install k v') := by
  obtain ⟨freed, hturn⟩ := hw.turn_cases hv he ht
  have hsuffix := Shard.chan_of_ofThread (Shard.Reach.control (hw.reach hv)) he hturn.step
  refine h.quiet hrun (n := fun _ => 0) (fun _ => rfl) (fun j => ?_) ?_ rfl fun id x hx =>
    ⟨x, hx, fun _ hr => hr, .refl x⟩
  · rw [chanAt_install hv, List.replicate_zero, List.append_nil]
    split
    · rename_i hj
      rw [hj, chanAt_view hv]
      exact hsuffix
    · exact List.suffix_refl _
  · rw [submitted, List.filterMap_append]
    exact List.append_nil _

/-- An operation that sends one message about its own read. -/
theorem sending (h : Protocol cfg r es d) (hrun : run (step cfg) (Driver.init cfg r) es = some d)
    (hw : d.Wired cfg r) {id : Nat} {e : CallerEvent} {x : Caller} {y : Option Caller} {v v' : View}
    (hs : step cfg d (.caller id e) = some ((d.install x.shard v').put id y))
    (hx : d.callers.lookup id = some x) (hv : d.view x.shard = some v) {m : Msg}
    (hchan : v'.loop.chan = v.loop.chan ++ [m]) (hm : ∀ j, m.isAbout j = decide (id = j))
    {l : List Msg} (hl : ∀ k, about id (channelLog cfg r es k) = if k = x.shard then l else [])
    (hsettled : Settled (fun k => if k = x.shard then l ++ [m] else []) id)
    (hstory : ∀ x', y = some x' → Story (fun k => if k = x.shard then l ++ [m] else []) id x' ∧
      ∀ req, x'.request = some req → x.request = some req)
    (hread : ∀ m', m = .read m' → m'.permit.count = 1 ∧
      ∃ req, (submitted es)[m'.id - 1]? = some req ∧ m' = req.msg m'.id m'.permit) :
    Protocol cfg r (es ++ [.caller id e]) ((d.install x.shard v').put id y) := by
  have hposted (k : Nat) := postedTo_caller hs hv hchan k
  have hlog (k : Nat) : channelLog cfg r (es ++ [.caller id e]) k =
      channelLog cfg r es k ++ if k = x.shard then [m] else [] := by
    rw [channelLog, outputs_concat hrun, (hposted k).2, channelLog]
  have hself (k : Nat) : about id (channelLog cfg r (es ++ [.caller id e]) k) =
      if k = x.shard then l ++ [m] else [] := by
    rw [hlog, about_append, hl]
    split
    · simp [about, hm]
    · rfl
  have hother (j k : Nat) (hj : j ≠ id) : about j (channelLog cfg r (es ++ [.caller id e]) k) =
      about j (channelLog cfg r es k) := by
    rw [hlog, about_append]
    split
    · simp [about, hm, Ne.symm hj]
    · exact List.append_nil _
  have hsub : submitted (es ++ [.caller id e]) = submitted es := by
    rw [submitted, List.filterMap_append]
    exact List.append_nil _
  have hlt : id < d.nextId := hw.known id x hx
  refine ⟨fun k => ?_, ?_, fun j k hle => ?_, fun j => ?_, ?_, ?_, fun k m' hm' => ?_⟩
  · obtain ⟨t, ht⟩ := h.fifo k
    rw [hlog, (hposted k).1, ← ht, List.append_assoc]
    exact List.suffix_append _ _
  · rw [put_nextId, hsub]
    exact h.next
  · rw [put_nextId] at hle
    have hle' : d.nextId ≤ j := hle
    rw [hother j k (by omega)]
    exact h.fresh j k hle'
  · by_cases hj : j = id
    · subst hj
      simp only [hself]
      exact hsettled
    · simp only [hother j _ hj]
      exact h.settled j
  · intro j z hz
    by_cases hj : j = id
    · subst hj
      rw [lookup_put_self] at hz
      simp only [hself]
      exact (hstory z hz).1
    · rw [lookup_put_of_ne _ hj] at hz
      simp only [hother j _ hj]
      exact h.callers j z hz
  · intro j z hz req hr
    rw [hsub]
    by_cases hj : j = id
    · subst hj
      rw [lookup_put_self] at hz
      exact h.asked j x hx req ((hstory z hz).2 req hr)
    · rw [lookup_put_of_ne _ hj] at hz
      exact h.asked j z hz req hr
  · rw [hlog] at hm'
    rw [hsub]
    rcases List.mem_append.mp hm' with hm' | hm'
    · exact h.reads k m' hm'
    · split at hm'
      · exact hread m' (List.mem_singleton.mp hm').symm
      · cases hm'

/-- One operation of a caller. -/
theorem caller (h : Protocol cfg r es d) (hrun : run (step cfg) (Driver.init cfg r) es = some d)
    (hw : d.Wired cfg r) {id : Nat} {e : CallerEvent} {x : Caller} {y : Option Caller} {v v' : View}
    (hs : step cfg d (.caller id e) = some ((d.install x.shard v').put id y))
    (hx : d.callers.lookup id = some x) (hv : d.view x.shard = some v)
    (ha : x.act e id d.reservation v = some (y, v')) :
    Protocol cfg r (es ++ [.caller id e]) ((d.install x.shard v').put id y) := by
  have hreq (x' : Caller) (hy : y = some x') (req : Request) (hr : x'.request = some req) :
      x.request = some req := request_act (hy ▸ ha) hr
  have hstory := h.callers id x hx
  have hsends := Sends.of_act ha
  cases hsends with
  | nothing hchan hy =>
    have hposted (k : Nat) := postedTo_caller (l := []) hs hv (by rw [hchan, List.append_nil]) k
    simp only [ite_self] at hposted
    refine h.quiet hrun (n := fun _ => 0) (fun k => (hposted k).2) (fun k => ?_) ?_
      (put_nextId _ _ _) ?_
    · rw [(hposted k).1]
      exact List.suffix_refl _
    · rw [submitted, List.filterMap_append]
      exact List.append_nil _
    · intro j z hz
      by_cases hj : j = id
      · subst hj
        rw [lookup_put_self] at hz
        exact ⟨x, hx, hreq z hz, hy z hz⟩
      · rw [lookup_put_of_ne _ hj] at hz
        exact ⟨z, hz, fun _ hr => hr, .refl z⟩
  | @read _ _ hd _ req charge res _ he hunsent hheld hc hchan hst hk =>
    have hnone : ∀ k, about id (channelLog cfg r es k) = [] := by
      rcases hstory with ⟨hsent, _⟩ | ⟨_, hnone⟩
      · rw [hunsent] at hsent
        cases hsent
      · exact hnone
    have htold (k : Nat) : Told (fun j => if j = k then [] ++ [Msg.read (req.msg id
        (v.permitsFor charge res))] else []) k [.read (req.msg id (v.permitsFor charge res))] :=
      ⟨if_pos rfl, fun _ hj => if_neg hj⟩
    have hsent : (Caller.holding hd).sent = true := hst
    refine h.sending hrun hw hs hx hv hchan (fun _ => rfl) (l := []) (fun k => ?_)
      (Or.inr ⟨x.shard, _, rfl, Or.inl (htold x.shard)⟩)
      (fun x' hy => ⟨?_, hreq x' hy⟩) fun m' hm' => ?_
    · rw [hnone, ite_self]
    · obtain rfl := Option.some.inj hy
      refine Or.inl ⟨hsent, req.msg id (v.permitsFor charge res), rfl, ?_⟩
      rw [show (Caller.holding hd).shard = x.shard from hk]
      exact htold x.shard
    · cases hm'
      exact ⟨rfl, req, h.asked id x hx req hc.request, rfl⟩
  | @cancel hd _ _ hst hf hcancel hchan =>
    have hsent : (Caller.holding hd).sent = true := hst
    have hundone : (Caller.holding hd).done = false := by rw [Caller.done, hf]; rfl
    obtain ⟨m, hm, hself, helse⟩ : ∃ m, m.id = id ∧ Told (fun k => about id (channelLog cfg r es k))
        hd.shard [.read m] := by
      rcases hstory with ⟨_, m, hm, ht⟩ | ⟨hdone, _⟩
      · exact ⟨m, hm, ht⟩
      · rw [hdone hsent] at hundone
        cases hundone
    refine h.sending hrun hw hs hx hv hchan (fun _ => rfl) (l := [.read m]) (fun k => ?_)
      (Or.inr ⟨hd.shard, m, hm, Or.inr ⟨if_pos rfl, fun _ hj => if_neg hj⟩⟩) nofun nofun
    split
    · rename_i hk
      rw [hk]
      exact hself
    · rename_i hk
      exact helse k hk

/-- A transition that moves no permit. -/
theorem kept (h : Protocol cfg r es d) (hrun : run (step cfg) (Driver.init cfg r) es = some d)
    (he : ∀ k a, e ≠ .turn k a) (hs : step cfg d e = some d') (hsub : submitted [e] = [])
    (hchan : ∀ k, ∃ n, d'.chanAt k = d.chanAt k ++ List.replicate n .shutdown)
    (hcallers : d'.callers = d.callers) (hid : d'.nextId = d.nextId) :
    Protocol cfg r (es ++ [e]) d' := by
  choose n hn using hchan
  refine h.quiet hrun (fun k => postedTo_eq he hs (hn k)) (fun k => ?_) ?_ hid fun id x hx =>
    ⟨x, hcallers ▸ hx, fun _ hr => hr, .refl x⟩
  · rw [hn]
  · rw [submitted, List.filterMap_append, ← submitted, ← submitted, hsub, List.append_nil]

theorem move (h : Protocol cfg r es d) (hrun : run (step cfg) (Driver.init cfg r) es = some d)
    (hs : step cfg d e = some d') : Protocol cfg r (es ++ [e]) d' := by
  have hw := Reach.wired (reachable_of_run_any hrun)
  have hkept (he : ∀ k a, e ≠ .turn k a) (hsub : submitted [e] = []) (hk : d.Kept cfg.params d') :=
    h.kept hrun he hs hsub (chanAt_kept hk) hk.callers hk.nextId
  have hm := step_move hs
  cases (step_transition hs).2 with
  | turn he hv ht => exact h.turn hrun hw hv he ht
  | submit hl hb =>
    obtain ⟨hid, x, hx, rfl⟩ := beginSubmit_cases hb
    exact h.submit hrun hid hx hs
  | caller hx hv ha => exact h.caller hrun hw hs hx hv ha
  | startShard hl hn =>
    refine h.kept hrun (fun k a => nofun) hs rfl (fun k => ⟨0, ?_⟩) rfl rfl
    rw [chanAt_startShard, List.replicate_zero, List.append_nil]
  | started | failStart | guard | requestShutdown | closer | retire | join =>
    cases hm with
    | kept _ hk hl => exact hkept (by rintro _ _ ⟨⟩) rfl hk

end Protocol

/-- What handles send, after a run and by its next transition. -/
structure SendProtocol (cfg : Config) (r : Option Nat) (es : List DriverEvent) (d : Driver) :
    Prop where
  /-- At most a read and its cancel, in this order and to one shard; the read is what
  `submit` was given. -/
  story : ∀ id, (∀ k, about id (channelLog cfg r es k) = []) ∨
    ∃ k req permit, (submitted es)[id - 1]? = some req ∧ permit.count = 1 ∧
      (about id (channelLog cfg r es k) = [.read (req.msg id permit)] ∨
        about id (channelLog cfg r es k) = [.read (req.msg id permit), .cancel id]) ∧
      ∀ j, j ≠ k → about id (channelLog cfg r es j) = []
  /-- What a loop has not received yet is the end of what it was sent. -/
  fifo : ∀ k, d.chanAt k <:+ channelLog cfg r es k
  /-- A read is sent by the `submit` or a poll of its own caller, to the one shard whose
  count permit is in the caller's hand. -/
  reads : ∀ k e m, .read m ∈ postedTo cfg k d e → ∃ x, d.callers.lookup m.id = some x ∧
    (e = .caller m.id .call ∨ e = .caller m.id .poll) ∧ ∀ j, x.held j = if j = k then 1 else 0
  /-- A cancel is sent by dropping an unfinished submitted handle that cancels on drop. -/
  cancels : ∀ k e id, .cancel id ∈ postedTo cfg k d e → e = .caller id .drop ∧
    ∃ h, d.callers.lookup id = some (.holding h) ∧ h.isSubmitted = true ∧ h.finished = none ∧
      h.cancelOnDrop = true ∧ h.shard = k
  /-- A handle that was not submitted is dropped silently. -/
  silent : ∀ k id h, d.callers.lookup id = some (.holding h) → h.isSubmitted = false →
    postedTo cfg k d (.caller id .drop) = []
  /-- An inert handle holds nothing and is queued nowhere. -/
  inert : ∀ id h value, d.callers.lookup id = some (.holding h) → h.state = .inert value →
    (∀ k, (Caller.holding h).held k = 0) ∧ (Caller.holding h).bytesHeld = 0 ∧
      (∀ cell ∈ d.cells, cell.sem.claim id = none) ∧
      ∀ b, d.bytes = some b → b.claim id = none

theorem protocol_of_run {es : List DriverEvent} {d : Driver}
    (h : run (step cfg) (init cfg r) es = some d) : Protocol cfg r es d :=
  run_history (P := fun es d => Protocol cfg r es d) .init
    (fun _ _ _ _ hrun hp hs => hp.move hrun hs) h

variable {d : Driver}

/-- Reads and cancels come from callers. -/
theorem posted_cases {k : Nat} {e : DriverEvent} {m : Msg} (hm : m ∈ postedTo cfg k d e)
    (hne : m ≠ .shutdown) : ∃ id a x y v v', e = .caller id a ∧ d.callers.lookup id = some x ∧
      d.view x.shard = some v ∧ x.act a id d.reservation v = some (y, v') ∧
      step cfg d e = some ((d.install x.shard v').put id y) := by
  by_cases hturn : ∃ j a, e = .turn j a
  · obtain ⟨j, a, rfl⟩ := hturn
    cases hm
  simp only [not_exists] at hturn
  cases hs : step cfg d e with
  | none =>
    unfold postedTo at hm
    split at hm
    · cases hm
    · rw [hs] at hm
      cases hm
  | some d' =>
    have hquiet {n : Nat} (hn : d'.chanAt k = d.chanAt k ++ List.replicate n .shutdown) :
        False := by
      rw [postedTo_eq hturn hs hn] at hm
      exact hne (List.eq_of_mem_replicate hm)
    cases step_move hs with
    | kept he hk hl =>
      obtain ⟨n, hn⟩ := chanAt_kept hk k
      exact (hquiet hn).elim
    | start hl =>
      exact (hquiet (n := 0) (by rw [chanAt_startShard]; exact (List.append_nil _).symm)).elim
    | submit hl hid hx => exact (hquiet (n := 0) (List.append_nil _).symm).elim
    | caller hx hv ha => exact ⟨_, _, _, _, _, _, rfl, hx, hv, ha, rfl⟩
    | turn hv he ht => exact absurd rfl (hturn _ _)

section Posted

variable {id k : Nat} {a : CallerEvent} {x : Caller} {y : Option Caller} {v v' : View}

/-- A message that an operation of a caller puts into a channel is its read, sent with the
count permit in hand, or the cancel of its unfinished read. -/
theorem posted_by (hv : d.view x.shard = some v) (ha : x.act a id d.reservation v = some (y, v'))
    (hs : step cfg d (.caller id a) = some ((d.install x.shard v').put id y)) {m : Msg}
    (hm : m ∈ postedTo cfg k d (.caller id a)) : k = x.shard ∧
      ((∃ (req : Request) (permit : ReadPermits), m = .read (req.msg id permit) ∧
          (a = .call ∨ a = .poll) ∧ ∀ j, x.held j = if j = k then 1 else 0) ∨
        m = .cancel id ∧ a = .drop ∧ ∃ h, x = .holding h ∧ h.isSubmitted = true ∧
          h.finished = none ∧ h.cancelOnDrop = true) := by
  have hsends := Sends.of_act ha
  cases hsends with
  | nothing hchan hy =>
    rw [(postedTo_caller (l := []) hs hv (by rw [hchan, List.append_nil]) k).2, ite_self] at hm
    cases hm
  | read he hunsent hheld hc hchan hst hk =>
    rw [(postedTo_caller hs hv hchan k).2] at hm
    split at hm
    · rename_i hkx
      refine ⟨hkx, Or.inl ⟨_, _, List.mem_singleton.mp hm, he, ?_⟩⟩
      intro j
      rw [hheld, hkx]
      exact if_congr eq_comm rfl rfl
    · cases hm
  | @cancel h _ _ hst hf hd hchan =>
    rw [(postedTo_caller hs hv hchan k).2] at hm
    split at hm
    · rename_i hkx
      exact ⟨hkx, Or.inr ⟨List.mem_singleton.mp hm, rfl, h, rfl, hst, hf, hd⟩⟩
    · cases hm

/-- A handle that was not submitted is dropped silently. -/
theorem silent_drop {h : ReadHandle} (hx : d.callers.lookup id = some (.holding h))
    (hst : h.isSubmitted = false) : postedTo cfg k d (.caller id .drop) = [] := by
  by_contra hne
  obtain ⟨m, hm⟩ := List.exists_mem_of_ne_nil _ hne
  cases hs : step cfg d (.caller id .drop) with
  | none =>
    simp only [postedTo, hs] at hm
    cases hm
  | some d' =>
    cases step_move hs with
    | kept he hk hl => exact he id .drop rfl
    | caller hx' hv ha =>
      obtain ⟨-, ⟨_, _, -, he, -⟩ | ⟨-, -, h', rfl, hst', -⟩⟩ := posted_by hv ha hs hm
      · rcases he with he | he <;> cases he
      · cases hx.symm.trans hx'
        rw [hst] at hst'
        cases hst'

/-- An inert handle holds nothing and is queued nowhere. -/
theorem inert_empty (hr : Reach cfg r d) {h : ReadHandle} {value : IoResult}
    (hx : d.callers.lookup id = some (.holding h)) (hst : h.state = .inert value) :
    (∀ k, (Caller.holding h).held k = 0) ∧ (Caller.holding h).bytesHeld = 0 ∧
      (∀ cell ∈ d.cells, cell.sem.claim id = none) ∧
      ∀ b, d.bytes = some b → b.claim id = none := by
  obtain ⟨hheld, hbytes, hcount, hweight⟩ :=
    Caller.settled_holding (h := h) fun w hw => by rw [hst] at hw; cases hw
  refine ⟨hheld, hbytes, ?_, ?_⟩
  · intro cell hcell
    obtain ⟨k, hk⟩ := List.mem_iff_getElem?.mp hcell
    apply Option.eq_none_iff_forall_ne_some.mpr
    intro n hn
    obtain ⟨_, x, hx', hawait⟩ := (Reach.counted hr).claims k cell hk id n hn
    cases hx'.symm.trans hx
    exact hcount k hawait
  · intro b hb
    apply Option.eq_none_iff_forall_ne_some.mpr
    intro n hn
    obtain ⟨x, hx', hawait⟩ := (Reach.weighed hr).claims b hb id n hn
    cases hx'.symm.trans hx
    exact hweight n hawait

end Posted

/-- The messages about a read in a channel are those of its own story. -/
theorem Protocol.story {es : List DriverEvent} (hp : Protocol cfg r es d) (id : Nat) :
    (∀ k, about id (channelLog cfg r es k) = []) ∨
      ∃ k req permit, (submitted es)[id - 1]? = some req ∧ permit.count = 1 ∧
        (about id (channelLog cfg r es k) = [.read (req.msg id permit)] ∨
          about id (channelLog cfg r es k) = [.read (req.msg id permit), .cancel id]) ∧
        ∀ j, j ≠ k → about id (channelLog cfg r es j) = [] := by
  rcases hp.settled id with hnone | ⟨k, m, rfl, ht⟩
  · exact Or.inl hnone
  · have hmem : .read m ∈ about m.id (channelLog cfg r es k) := by
      rcases ht with ⟨hself, _⟩ | ⟨hself, _⟩
      · rw [show about m.id (channelLog cfg r es k) = _ from hself]
        exact List.mem_cons_self
      · rw [show about m.id (channelLog cfg r es k) = _ from hself]
        exact List.mem_cons_self
    obtain ⟨hcount, req, hreq, heq⟩ := hp.reads k m (List.mem_of_mem_filter hmem)
    refine Or.inr ⟨k, req, m.permit, hreq, hcount, ?_, ht.elim And.right And.right⟩
    rw [← heq]
    exact ht.imp And.left And.left

/-- Handles keep to their protocol in every run. -/
theorem send_protocol (cfg : Config) (r : Option Nat) {es : List DriverEvent} {d : Driver}
    (hrun : run (step cfg) (init cfg r) es = some d) : SendProtocol cfg r es d := by
  have hp := protocol_of_run hrun
  refine ⟨hp.story, hp.fifo, ?_, ?_, ?_, ?_⟩
  · intro k e m hm
    obtain ⟨id, a, x, y, v, v', rfl, hx, hv, ha, hs⟩ := posted_cases hm nofun
    obtain ⟨-, ⟨req, permit, heq, he, hheld⟩ | ⟨heq, -⟩⟩ := posted_by hv ha hs hm
    · cases heq
      exact ⟨x, hx, he.imp (congrArg _) (congrArg _), hheld⟩
    · cases heq
  · intro k e id hm
    obtain ⟨j, a, x, y, v, v', rfl, hx, hv, ha, hs⟩ := posted_cases hm nofun
    obtain ⟨rfl, ⟨req, permit, heq, -⟩ | ⟨heq, rfl, h, rfl, hst, hf, hd⟩⟩ :=
      posted_by hv ha hs hm
    · cases heq
    · cases heq
      exact ⟨rfl, h, hx, hst, hf, hd, rfl⟩
  · intro k id h hx hst
    exact silent_drop hx hst
  · intro id h value hx hst
    exact inert_empty (reachable_of_run_any hrun) hx hst

end Driver

end Uring
