import Uring.Driver.Batch
import Uring.Driver.Protocol
import Uring.Shard.Wakeup

/-!
# Who signals which shard

Whoever sends to a shard signals a wake eventfd next: the caller of a read the one its handle
carries, a `request_shutdown` call and `Shard::join` that of the shard they have just asked. A
batch makes one signal for all the reads it sent to a shard. The signals still to be made are
kept beside the driver, so that each of them has its sender.
-/

namespace Uring

open Uring.Core

/-- Who signals a shard. -/
inductive Sender
  | read (id : Nat)
  | closer (t : Nat)
  | joiner (k : Nat)
  deriving DecidableEq, Repr

/-- The producer number under which the sender has sent. -/
def Sender.producer : Sender → Nat
  | .read id => id
  | .closer t => t
  | .joiner k => k

/-- The label writes a wake eventfd. -/
def DriverEvent.isSignal : DriverEvent → Bool
  | .turn _ (.signal _) => true
  | _ => false

namespace Driver

/-- The signals to be made after a transition: by whom, and on the eventfd of which shard. -/
def owes (d : Driver) : DriverEvent → List (Sender × Nat)
  | .caller id e =>
    ((d.callers.lookup id).bind fun x =>
      (d.view x.shard).bind fun v => x.signals e id d.reservation v).toList.map fun k =>
        (.read id, k)
  | .closer t =>
    match d.closers.lookup t with
    | some (.notify (k :: _)) => [(.closer t, k)]
    | _ => []
  | .join =>
    match d.life with
    | .joining _ k false => if k < d.cells.length then [(.joiner k, k)] else []
    | _ => []
  | _ => []

end Driver

/-- A driver with the signals that its senders are still to make. -/
structure Signalling where
  driver : Driver
  owed : List (Sender × Nat)

/-- The labels of a driver whose signals have senders. -/
inductive SignalEvent
  /-- A transition that writes no wake eventfd. -/
  | driver (e : DriverEvent)
  /-- `EventFd::signal` on the eventfd of shard `k`, on behalf of all of `senders`. -/
  | signal (k : Nat) (senders : List Sender)
  deriving DecidableEq

namespace Caller

variable {x y : Caller} {e : CallerEvent} {id : Nat} {r : Option Nat} {v v' : View}

theorem routed_submitting (c : Submit) : (submitting c).Routed := by
  intro k hk
  cases hpc : c.pc <;> simp only [wake, hpc, reduceCtorEq, Option.some.injEq] at hk
  simp only [shard, Submit.shard, hpc, hk]

theorem routed_inert (k : Nat) (value : IoResult) : (holding (inertHandle k value)).Routed := nofun

theorem routed_refused (c : Submit) (k : Nat) (err : TryAcquireError) :
    (holding (c.refused r k err)).Routed := by
  cases err with
  | closed => exact routed_inert k _
  | noPermits => exact fun _ hk => (Option.some.inj hk).symm

theorem routed_step (c : Submit) : (c.step id r v).1.Routed := by
  unfold Submit.step
  split
  · split
    · exact routed_refused c _ _
    · exact routed_submitting _
  · split
    · exact routed_submitting _
    · split
      · simp only
        split
        · exact routed_submitting _
        · exact routed_submitting _
      · exact routed_refused c _ _
  · split
    · exact routed_submitting _
    · split
      · exact routed_submitting _
      · exact routed_submitting _
  · exact routed_refused c _ _
  · split
    · exact routed_refused c _ _
    · split
      · exact routed_refused c _ _
      · exact routed_refused c _ _
  · simp only
    split
    · exact fun _ hk => (Option.some.inj hk).symm
    · exact routed_inert _ _

/-- A handle keeps its eventfd and its channel. -/
theorem routed_poll {h : ReadHandle} (hr : (holding h).Routed) :
    (holding (h.poll id v).1).Routed := by
  have hstay {h' : ReadHandle} (hw : h'.wake = h.wake) (hk : h'.shard = h.shard) :
      (holding h').Routed := by
    intro k hk'
    rw [show (holding h').shard = h.shard from hk]
    exact hr k (hw.symm.trans hk')
  unfold ReadHandle.poll
  cases hs : h.state with
  | inert value => exact hstay rfl rfl
  | submitted wake =>
    simp only
    split
    · exact hr
    · exact hstay rfl rfl
    · exact hstay rfl rfl
  | waiting w =>
    have hwake : h.wake = some w.wake := by rw [ReadHandle.wake, hs]
    simp only
    split
    · split
      · exact hr
      · exact hstay rfl rfl
      · exact hstay hwake.symm rfl
    · split
      · exact hstay hwake.symm rfl
      · split
        · exact hstay hwake.symm rfl
        · exact hstay rfl rfl
        · exact hstay hwake.symm rfl
    · split
      · exact hstay hwake.symm rfl
      · exact hstay hwake.symm rfl

theorem Routed.act (hr : x.Routed) (ha : x.act e id r v = some (some y, v')) : y.Routed := by
  cases act_remains ha with
  | call => exact routed_step _
  | poll => exact routed_poll hr
  | keep => exact hr

/-- A caller signals the shard it sends to: with its read just sent there, or with its cancel
when the read was sent before. -/
theorem Routed.signals {z : Option Caller} {k : Nat} (hr : x.Routed)
    (ha : x.act e id r v = some (z, v')) (hsig : x.signals e id r v = some k) :
    k = x.shard ∧ ((∃ m : ReadMsg, m.id = id ∧ v'.loop.chan = v.loop.chan ++ [.read m]) ∨
      x.sent = true ∧ x.done = false) := by
  unfold Caller.signals at hsig
  split at hsig
  · rename_i c
    unfold Submit.signals at hsig
    split at hsig
    · rename_i j hpc
      obtain ⟨u, hu, rfl⟩ := Option.map_eq_some_iff.mp hsig
      cases ha
      have hchan : (c.step id r v).2.loop.chan =
          v.loop.chan ++ [.read (c.req.msg id (v.permitsFor c.charge r))] := by
        obtain ⟨_, _, _, hsend, _⟩ := View.sendRead_eq_some hu
        rw [Submit.step, hpc]
        simp only [hu]
        exact Shard.chan_of_sendMsg hsend
      exact ⟨by rw [shard, Submit.shard, hpc], Or.inl ⟨_, rfl, hchan⟩⟩
    · cases hsig
  · rename_i h
    unfold ReadHandle.pollSignals at hsig
    split at hsig
    · rename_i w hs
      split at hsig
      · rename_i hst
        obtain ⟨u, hu, rfl⟩ := Option.map_eq_some_iff.mp hsig
        have hwake : h.wake = some w.wake := by rw [ReadHandle.wake, hs]
        have hchan : (h.poll id v).2.loop.chan =
            v.loop.chan ++ [.read (w.req.msg id (v.permitsFor w.charge w.reservation))] := by
          obtain ⟨_, _, _, hsend, _⟩ := View.sendRead_eq_some hu
          rw [ReadHandle.poll, hs]
          simp only [hst, hu]
          exact Shard.chan_of_sendMsg hsend
        unfold Caller.act at ha
        simp only at ha
        split at ha <;> cases ha
        exact ⟨hr _ hwake, Or.inl ⟨_, rfl, hchan⟩⟩
      · cases hsig
    · cases hsig
  · rename_i h
    unfold ReadHandle.dropSignals at hsig
    split at hsig
    · rename_i j hs
      split at hsig
      · rename_i hlive
        cases hsig
        rw [Bool.and_eq_true, Option.isNone_iff_eq_none] at hlive
        have hwake : h.wake = some k := by rw [ReadHandle.wake, hs]
        refine ⟨hr _ hwake, Or.inr ⟨?_, ?_⟩⟩
        · exact ReadHandle.isSubmitted_iff.mpr ⟨_, hs⟩
        · rw [done, hlive.1]
          rfl
      · cases hsig
    · cases hsig
  · cases hsig

end Caller

namespace Driver

variable {cfg : Config} {r : Option Nat} {d d' : Driver} {e : DriverEvent}

/-- Every caller holds the eventfd of the shard it sends to. -/
theorem Reach.routed (h : Reach cfg r d) : d.callers.All fun _ x => x.Routed := by
  refine h.invariant (I := fun d => d.callers.All fun _ x => x.Routed) AList.all_empty ?_
  intro d e d' _ hi _ hs
  cases step_move hs with
  | kept _ hk => exact hk.callers ▸ hi
  | start => exact hi
  | @submit req x n hl hid hx =>
    refine hi.insert ?_
    cases hx with
    | invalid => exact Caller.routed_inert _ _
    | valid => exact Caller.routed_submitting _
  | @caller id c x y v v' hx hv ha =>
    intro j z hz
    by_cases hj : j = id
    · subst hj
      rw [lookup_put_self] at hz
      subst hz
      exact (hi _ x hx).act ha
    · rw [lookup_put_of_ne _ hj] at hz
      exact hi j z hz
  | turn => exact hi

/-- The signals to be made of a run. -/
def owedLog (cfg : Config) (r : Option Nat) (es : List DriverEvent) : List (Sender × Nat) :=
  outputs (step cfg) owes (init cfg r) es

/-- A caller's operation owes the signal it is to make. -/
theorem owes_caller {id : Nat} {c : CallerEvent} {x : Caller} {v : View}
    (hx : d.callers.lookup id = some x) (hv : d.view x.shard = some v) :
    d.owes (.caller id c) = (x.signals c id d.reservation v).toList.map fun k => (.read id, k) := by
  simp only [owes, hx, hv, Option.bind_some]

/-- Only an operation of its caller owes the signals of a read. -/
theorem of_mem_owes {id k : Nat} (h : (.read id, k) ∈ d.owes e) : ∃ c x v, e = .caller id c ∧
    d.callers.lookup id = some x ∧ d.view x.shard = some v ∧
      x.signals c id d.reservation v = some k := by
  unfold owes at h
  split at h
  · rename_i j c
    obtain ⟨i, hi, heq⟩ := List.mem_map.mp h
    cases heq
    rw [Option.mem_toList, Option.bind_eq_some_iff] at hi
    obtain ⟨x, hx, hi⟩ := hi
    obtain ⟨v, hv, hsig⟩ := Option.bind_eq_some_iff.mp hi
    exact ⟨c, x, v, rfl, hx, hv, hsig⟩
  · split at h <;> simp at h
  · split at h
    · split at h <;> simp at h
    · cases h
  · cases h

/-- Every message about a read that a transition puts into a channel is followed by a signal of
the read's caller to that channel's shard. -/
theorem posted_owed (hr : Reach cfg r d) (id k : Nat) :
    (about id (postedTo cfg k d e)).length ≤ (d.owes e).count (.read id, k) := by
  cases habout : about id (postedTo cfg k d e) with
  | nil => exact Nat.zero_le _
  | cons m rest =>
    have hm : m ∈ about id (postedTo cfg k d e) := by
      rw [habout]
      exact List.mem_cons_self
    obtain ⟨hmem, hself⟩ := List.mem_filter.mp hm
    have hne : m ≠ .shutdown := by
      rintro rfl
      cases hself
    obtain ⟨j, a, x, y, v, v', rfl, hx, hv, ha, hs⟩ := posted_cases hmem hne
    have hrouted := Reach.routed hr j x hx
    -- one message, to the shard whose eventfd the caller holds
    have hone {m' : Msg} {wake : Nat} (hchan : v'.loop.chan = v.loop.chan ++ [m'])
        (hw : x.wake = some wake) (hsig : x.signals a j d.reservation v = some wake)
        (hid : m'.isAbout id = true → id = j) :
        (m :: rest).length ≤ (d.owes (.caller j a)).count (.read id, k) := by
      rw [(postedTo_caller hs hv hchan k).2] at habout hmem
      split at hmem
      · rename_i hk
        rw [if_pos hk] at habout
        obtain rfl := List.mem_singleton.mp hmem
        obtain rfl := hid hself
        obtain rfl : wake = k := (hrouted wake hw).trans hk.symm
        rw [← habout, owes_caller hx hv, hsig]
        simpa [about] using (List.length_filter_le _ [m]).trans (le_refl 1)
      · cases hmem
    cases Sends.of_act ha with
    | nothing hchan =>
      rw [(postedTo_caller (l := []) hs hv (by rw [hchan, List.append_nil]) k).2, ite_self] at hmem
      cases hmem
    | read _ _ _ _ hchan _ _ hw hsig =>
      exact hone hchan hw hsig fun hself => (of_decide_eq_true hself).symm
    | cancel _ _ _ hchan hw hsig =>
      exact hone hchan hw hsig fun hself => (of_decide_eq_true hself).symm

/-- A read's signal goes to the shard that was sent the read. -/
theorem owed_home {es : List DriverEvent} (hrun : run (step cfg) (init cfg r) es = some d)
    (hs : step cfg d e = some d') {id k : Nat} (h : (.read id, k) ∈ d.owes e) :
    ∃ m, m.id = id ∧ .read m ∈ channelLog cfg r (es ++ [e]) k := by
  obtain ⟨c, x, v, rfl, hx, hv, hsig⟩ := of_mem_owes h
  rw [channelLog, outputs_concat hrun, ← channelLog]
  cases step_move hs with
  | kept he => exact absurd rfl (he id c)
  | @caller _ _ x' y v₀ v' hx' hv' ha =>
    obtain rfl : x' = x := Option.some.inj (hx'.symm.trans hx)
    obtain rfl : v₀ = v := Option.some.inj (hv'.symm.trans hv)
    have hrouted := Reach.routed (reachable_of_run_any hrun) id x' hx
    obtain ⟨rfl, ⟨m, hm, hchan⟩ | ⟨hsent, hdone⟩⟩ := hrouted.signals ha hsig
    · refine ⟨m, hm, List.mem_append_right _ ?_⟩
      rw [(postedTo_caller hs hv hchan _).2, if_pos rfl]
      exact List.mem_singleton_self _
    · rcases (protocol_of_run hrun).callers id x' hx with ⟨_, m, hm, htold⟩ | ⟨hgone, _⟩
      · have hmem : .read m ∈ about id (channelLog cfg r es x'.shard) := by
          rw [show about id (channelLog cfg r es x'.shard) = _ from htold.1]
          exact List.mem_singleton_self _
        exact ⟨m, hm, List.mem_append_left _ (List.mem_of_mem_filter hmem)⟩
      · rw [hgone hsent] at hdone
        cases hdone

/-- The signals of a run's reads: each goes to the shard that was sent the read, and there is one
for every message. -/
structure Owed (cfg : Config) (r : Option Nat) (es : List DriverEvent) : Prop where
  home : ∀ id k, (.read id, k) ∈ owedLog cfg r es → ∃ m, m.id = id ∧
    .read m ∈ channelLog cfg r es k
  covers : ∀ id k,
    (about id (channelLog cfg r es k)).length ≤ (owedLog cfg r es).count (.read id, k)

theorem owed_of_run {es : List DriverEvent} (h : run (step cfg) (init cfg r) es = some d) :
    Owed cfg r es := by
  refine run_history (P := fun es _ => Owed cfg r es) ⟨nofun, fun _ _ => Nat.le_refl 0⟩ ?_ h
  intro es t e t' hrun hi hs
  have hlog : owedLog cfg r (es ++ [e]) = owedLog cfg r es ++ t.owes e := outputs_concat hrun e
  have hchan (k : Nat) : channelLog cfg r (es ++ [e]) k =
      channelLog cfg r es k ++ postedTo cfg k t e := outputs_concat hrun e
  refine ⟨fun id k hmem => ?_, fun id k => ?_⟩
  · rw [hlog] at hmem
    rcases List.mem_append.mp hmem with hmem | hmem
    · obtain ⟨m, hm, hin⟩ := hi.home id k hmem
      exact ⟨m, hm, hchan k ▸ List.mem_append_left _ hin⟩
    · exact owed_home hrun hs hmem
  · rw [hlog, hchan, about_append, List.length_append, List.count_append]
    exact Nat.add_le_add (hi.covers id k) (posted_owed (reachable_of_run_any hrun) id k)

/-- What the wake eventfd of shard `k` counts. -/
def counter (d : Driver) (k : Nat) : Option Nat := (d.wakeOf k).map Wake.wakeEfd

theorem counter_eq (d : Driver) (k : Nat) :
    d.counter k = d.cells[k]?.map fun cell => cell.loop.wake.wakeEfd := by
  rw [counter, wakeOf, Option.map_map]
  rfl

/-- The counters through an installed view. -/
theorem counter_install (d : Driver) (k : Nat) (v : View) (j : Nat) : (d.install k v).counter j =
    if j = k then (d.counter j).map fun _ => v.loop.wake.wakeEfd else d.counter j := by
  rw [counter, wakeOf_install]
  split
  · rw [counter, Option.map_map, Option.map_map]
    rfl
  · rfl

theorem counter_view {k : Nat} {v : View} (hv : d.view k = some v) :
    d.counter k = some v.loop.wake.wakeEfd := by
  obtain ⟨cell, hcell, rfl⟩ := view_eq_some hv
  rw [counter_eq, hcell, Option.map_some]

/-- A transition that is no signal leaves every counter as it is or at zero. -/
theorem counter_step (hr : Reach cfg r d) (hs : step cfg d e = some d') (he : e.isSignal = false)
    {k n : Nat} (hn : d'.counter k = some n) : n = 0 ∨ d.counter k = some n := by
  cases step_move hs with
  | kept _ hk =>
    right
    rw [counter_eq, Option.map_eq_some_iff] at hn
    obtain ⟨b, hb, rfl⟩ := hn
    obtain ⟨a, ha, hab⟩ := forall₂_getElem? hk.cells hb
    rw [counter_eq, ha, Option.map_some, hab.thread.wakeEfd]
  | start =>
    rw [counter_eq, Option.map_eq_some_iff] at hn
    obtain ⟨b, hb, rfl⟩ := hn
    rcases Nat.lt_or_ge k d.cells.length with hk | hk
    · right
      rw [startShard, List.getElem?_append_left hk] at hb
      rw [counter_eq, hb, Option.map_some]
    · left
      rw [startShard, List.getElem?_append_right hk, List.getElem?_singleton] at hb
      split at hb <;> cases hb
      rfl
  | submit => exact Or.inr hn
  | @caller id c x y v v' hx hv ha =>
    right
    rw [counter, wakeOf_put, ← counter, counter_install] at hn
    split at hn
    · rename_i hk
      subst hk
      rw [counter_view hv, Option.map_some, Option.some.injEq] at hn
      rw [counter_view hv, ← hn, (Caller.act_cases (c := cfg.params) ha).loop.2.wakeEfd]
    · exact hn
  | @turn j a v v' hv hthread ht =>
    obtain ⟨freed, hturn⟩ := (Reach.wired hr).turn_cases hv hthread ht
    rw [counter_install] at hn
    split at hn
    · rename_i hk
      subst hk
      rw [counter_view hv, Option.map_some, Option.some.injEq] at hn
      have hlabel (p : Nat) : a ≠ .signal p := by
        rintro rfl
        cases he
      rw [counter_view hv]
      exact (Shard.wakeEfd_step hturn.step hlabel).imp (fun h => hn ▸ h)
        (fun h => by rw [← hn, h])
    · exact Or.inr hn

/-- A signal writes the counter of its shard, and no other. -/
theorem counter_signal (hr : Reach cfg r d) {k p : Nat}
    (hs : step cfg d (.turn k (.signal p)) = some d') : ∃ n, d.counter k = some n ∧
      ∀ j, d'.counter j = if j = k then some (signalEfd n) else d.counter j := by
  cases (step_transition hs).2 with
  | @turn _ _ v v' hthread hv ht =>
    obtain ⟨freed, hturn⟩ := (Reach.wired hr).turn_cases hv hthread ht
    refine ⟨_, counter_view hv, fun j => ?_⟩
    rw [counter_install]
    split
    · rename_i hj
      subst hj
      rw [counter_view hv, Option.map_some]
      have hstep := hturn.step
      unfold Shard.step at hstep
      split at hstep
      · cases hstep
      · rw [← Option.some.inj hstep]
    · rfl

end Driver

namespace Signalling

/-- Where a driver begins, nobody has sent anything. -/
def init (cfg : Config) (r : Option Nat) : Signalling := ⟨.init cfg r, []⟩

/-- The signals of `senders` on the eventfd of shard `k`. -/
def onShard (k : Nat) (senders : List Sender) : List (Sender × Nat) := senders.map fun x => (x, k)

/-- One transition; a signal is made by those who owe it to that eventfd. -/
def step (cfg : Config) (s : Signalling) (e : SignalEvent) : Option Signalling :=
  match e with
  | .driver e =>
    if e.isSignal then none
    else (s.driver.step cfg e).map fun d => ⟨d, s.owed ++ s.driver.owes e⟩
  | .signal _ [] => none
  | .signal k (x :: rest) =>
    if (onShard k (x :: rest)).Subperm s.owed then
      (s.driver.step cfg (.turn k (.signal x.producer))).map fun d =>
        ⟨d, s.owed.diff (onShard k (x :: rest))⟩
    else none

/-- States under any interleaving. -/
abbrev Reach (cfg : Config) (r : Option Nat) (s : Signalling) : Prop :=
  Reachable (step cfg) anyLabel (init cfg r) s

/-- The driver's own label. -/
def driverEvent : SignalEvent → DriverEvent
  | .driver e => e
  | .signal k senders => .turn k (.signal (senders.head?.elim 0 Sender.producer))

/-- The signals made by a label. -/
def making : SignalEvent → List (Sender × Nat)
  | .driver _ => []
  | .signal k senders => onShard k senders

/-- The signals made along a run. -/
def made (es : List SignalEvent) : List (Sender × Nat) := es.flatMap making

/-- What a step does to the driver and to what is owed. -/
theorem step_cases {cfg : Config} {s s' : Signalling} {e : SignalEvent}
    (h : step cfg s e = some s') : s.driver.step cfg (driverEvent e) = some s'.driver ∧
      ((making e = [] ∧ (driverEvent e).isSignal = false ∧
          s'.owed = s.owed ++ s.driver.owes (driverEvent e)) ∨
        ∃ k x rest, e = .signal k (x :: rest) ∧ (onShard k (x :: rest)).Subperm s.owed ∧
          s'.owed = s.owed.diff (onShard k (x :: rest))) := by
  unfold step at h
  split at h
  · split at h
    · cases h
    · rename_i he
      obtain ⟨d, hd, rfl⟩ := Option.map_eq_some_iff.mp h
      exact ⟨hd, Or.inl ⟨rfl, Bool.eq_false_iff.mpr he, rfl⟩⟩
  · cases h
  · split at h
    · rename_i hsub
      obtain ⟨d, hd, rfl⟩ := Option.map_eq_some_iff.mp h
      exact ⟨hd, Or.inr ⟨_, _, _, rfl, hsub, rfl⟩⟩
    · cases h

/-- Beside its signals' senders the driver runs as it does without them. -/
theorem run_driver {cfg : Config} {s s' : Signalling} {es : List SignalEvent}
    (h : run (step cfg) s es = some s') :
    run (Driver.step cfg) s.driver (es.map driverEvent) = some s'.driver := by
  induction es generalizing s with
  | nil =>
    obtain rfl : s = s' := Option.some.inj h
    rfl
  | cons e es ih =>
    obtain ⟨t, ht, hrest⟩ := Option.bind_eq_some_iff.mp h
    rw [List.map_cons, run, (step_cases ht).1, Option.bind_some]
    exact ih hrest

/-- What has been signalled and what is still owed is all that was ever to be signalled. -/
theorem made_owed {cfg : Config} {r : Option Nat} {s : Signalling} {es : List SignalEvent}
    (h : run (step cfg) (init cfg r) es = some s) :
    (made es ++ s.owed).Perm (Driver.owedLog cfg r (es.map driverEvent)) := by
  refine run_history (P := fun es s => (made es ++ s.owed).Perm
    (Driver.owedLog cfg r (es.map driverEvent))) (List.Perm.refl _) ?_ h
  intro es t e t' hrun hi hs
  have hlog : Driver.owedLog cfg r ((es ++ [e]).map driverEvent) =
      Driver.owedLog cfg r (es.map driverEvent) ++ t.driver.owes (driverEvent e) := by
    rw [List.map_append]
    exact outputs_concat (run_driver hrun) (driverEvent e)
  have hmade : made (es ++ [e]) = made es ++ making e := by simp [made]
  rw [hlog, hmade]
  obtain ⟨-, ⟨hmaking, -, howed⟩ | ⟨k, x, rest, rfl, hsub, howed⟩⟩ := step_cases hs
  · rw [hmaking, howed, List.append_nil, ← List.append_assoc]
    exact hi.append_right _
  · -- a signal pays what was owed
    have hpaid : (onShard k (x :: rest) ++ t'.owed).Perm t.owed := by
      rw [howed]
      exact List.subperm_append_diff_self_of_count_le fun y _ => hsub.count_le y
    change (made es ++ onShard k (x :: rest) ++ t'.owed).Perm (_ ++ [])
    rw [List.append_nil, List.append_assoc]
    exact (hpaid.append_left _).trans hi

/-- The protocol of handles, after a run and for its next step: what they send, and which eventfds
are signalled. -/
structure HandleProtocol (cfg : Config) (r : Option Nat) (es : List SignalEvent)
    (s : Signalling) : Prop extends
    Driver.SendProtocol cfg r (es.map driverEvent) s.driver where
  /-- A handle carries the wake eventfd of the shard of its channel. -/
  wakes : ∀ id h k, s.driver.callers.lookup id = some (.holding h) → h.wake = some k → k = h.shard
  /-- What a read's caller has signalled, or is to signal, is the eventfd of the shard that was
  sent the read with the shard's count permit. -/
  routed : ∀ id k, (.read id, k) ∈ made es ++ s.owed →
    ∃ (req : Request) (permit : ReadPermits), permit.count = 1 ∧
      .read (req.msg id permit) ∈ Driver.channelLog cfg r (es.map driverEvent) k
  /-- To every message about a read its caller makes one signal, or is to make it. -/
  covers : ∀ id k, (about id (Driver.channelLog cfg r (es.map driverEvent) k)).length ≤
    (made es ++ s.owed).count (.read id, k)
  /-- A signal is made by those who owe it to that eventfd. It leaves the eventfd readable, with
  one more write unless it was full, and writes no other. -/
  written : ∀ k senders s', step cfg s (.signal k senders) = some s' → senders ≠ [] ∧
    (∀ x ∈ senders, (x, k) ∈ s.owed) ∧ ∃ n n', s.driver.counter k = some n ∧
      s'.driver.counter k = some n' ∧ 0 < n' ∧ (n < eventfdMax → n' = n + 1) ∧
      ∀ j, j ≠ k → s'.driver.counter j = s.driver.counter j
  /-- Nothing else writes a wake eventfd; a loop drains its own. -/
  quiet : ∀ e s' k n, step cfg s (.driver e) = some s' → s'.driver.counter k = some n →
    n = 0 ∨ s.driver.counter k = some n

/-- Handles keep their protocol in every run in which the signals have senders. -/
theorem handle_protocol (cfg : Config) (r : Option Nat) {es : List SignalEvent} {s : Signalling}
    (h : run (step cfg) (init cfg r) es = some s) : HandleProtocol cfg r es s := by
  have hrun := run_driver h
  have hreach : Driver.Reach cfg r s.driver := reachable_of_run_any hrun
  have hperm := made_owed h
  have howed := Driver.owed_of_run hrun
  refine ⟨Driver.send_protocol cfg r hrun, ?_, ?_, ?_, ?_, ?_⟩
  · intro id hd k hx hw
    exact Driver.Reach.routed hreach id _ hx k hw
  · intro id k hmem
    obtain ⟨m, rfl, hm⟩ := howed.home id k (hperm.mem_iff.mp hmem)
    obtain ⟨hcount, req, -, heq⟩ := (Driver.protocol_of_run hrun).reads k m hm
    exact ⟨req, m.permit, hcount, heq ▸ hm⟩
  · intro id k
    rw [hperm.count_eq]
    exact howed.covers id k
  · intro k senders s' hs
    obtain ⟨hd, ⟨_, hquiet, _⟩ | ⟨j, x, rest, heq, hsub, _⟩⟩ := step_cases hs
    · cases hquiet
    · cases heq
      obtain ⟨n, hn, hwrite⟩ := Driver.counter_signal hreach hd
      refine ⟨List.cons_ne_nil _ _, ?_, n, signalEfd n, hn, ?_, signalEfd_pos n, ?_, ?_⟩
      · intro y hy
        exact hsub.subset (List.mem_map_of_mem hy)
      · rw [hwrite, if_pos rfl]
      · exact fun hlow => if_pos hlow
      · intro j hj
        rw [hwrite, if_neg hj]
  · intro e s' k n hs hn
    obtain ⟨hd, ⟨_, hquiet, _⟩ | ⟨_, _, _, heq, _⟩⟩ := step_cases hs
    · exact Driver.counter_step hreach hd hquiet hn
    · cases heq

/-- A read is sent to each of two shards and the second one is cancelled; a third one waits for
the first shard, whose loop answers the first read, and is sent by its poll. -/
def routedReads : List SignalEvent :=
  [.driver .startShard, .driver .startShard, .driver .started, .driver (.submit Driver.twoBytes),
    .driver (.caller 1 .call), .driver (.caller 1 .call), .signal 0 [.read 1],
    .driver (.submit Driver.twoBytes), .driver (.caller 2 .call), .driver (.caller 2 .call),
    .signal 1 [.read 2], .driver (.submit Driver.twoBytes), .driver (.caller 3 .call),
    .driver (.caller 2 .drop), .signal 1 [.read 2], .driver (.caller 3 .poll),
    .driver (.turn 0 .wake), .driver (.turn 0 .drainCq), .driver (.turn 0 .drainWake),
    .driver (.turn 0 (.intake 4096 [])), .driver (.turn 0 (.intake 4096 [1])),
    .driver (.turn 0 (.submit false (.ok 1) [1])), .driver (.turn 0 (.post 0 2 [10, 20])),
    .driver (.turn 0 (.reap (.ok 5) false)), .driver (.caller 3 .poll), .driver (.caller 3 .poll),
    .signal 0 [.read 3]]

theorem routedReads_runs :
    (run (step Driver.slotPair) (init Driver.slotPair none) routedReads).isSome = true := by
  decide +kernel

theorem handle_protocol_routed : ∃ s,
    run (step Driver.slotPair) (init Driver.slotPair none) routedReads = some s ∧
    made routedReads = [(.read 1, 0), (.read 2, 1), (.read 2, 1), (.read 3, 0)] ∧
    about 2 (Driver.channelLog Driver.slotPair none (routedReads.map driverEvent) 1) =
      [.read (Driver.twoBytes.msg 2 ⟨1, none, none⟩), .cancel 2] ∧
    about 3 (Driver.channelLog Driver.slotPair none (routedReads.map driverEvent) 0) =
      [.read (Driver.twoBytes.msg 3 ⟨1, none, none⟩)] ∧
    s.driver.counter 0 = some 1 ∧ s.driver.counter 1 = some 2 ∧
    HandleProtocol Driver.slotPair none routedReads s := by
  have hrun := (Option.some_get routedReads_runs).symm
  exact ⟨_, hrun, by decide +kernel, by decide +kernel, by decide +kernel, by decide +kernel,
    by decide +kernel, handle_protocol Driver.slotPair none hrun⟩

end Signalling

end Uring
