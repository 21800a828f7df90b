import Uring.Driver.Shutdown

/-!
# No caller is stranded by an exit

A thread fails the callers of a table it leaks, closes its semaphore and drops its
receiver; its exit guard then closes byte admission. After that every handle bound to
its shard is ready: its value or its sender's end is in the result channel, or its
acquire or its send fails.
-/

namespace Uring

open Uring.Core Caller

namespace Ledger

/-- Outside the loop's own parts no result sender enters the table. -/
theorem senders_of_move {c : Params} {w : Answers} {l l' : Ledger} {a : Actor}
    (hm : Move c w l a l') (hi : a ≠ .intake) (hs : a ≠ .submit) (hr : a ≠ .reap)
    (h : senders l.pending = []) : senders l'.pending = [] := by
  cases hm with
  | idle | overflow | send | closeRx | postCancel | dropChan => exact h
  | @postRead k ud file len off ptr data res hk hd ha =>
    unfold writeBlock
    split
    · exact h
    · rename_i p hp
      have hperm := senders_overwrite { p with buf := { p.buf with
        bytes := overwrite p.buf.bytes ptr.off data } } hp rfl
      rw [h] at hperm
      exact hperm.eq_nil
  | reject | accept | cancelMiss | cancelHit | shutdown => exact absurd rfl hi
  | submit | submitSweep => exact absurd rfl hs
  | reapCancel | reapStale | resubmit | finish => exact absurd rfl hr
  | leak n hd => exact senders_leak _

/-- The kernel takes no message. -/
theorem chan_post {l l' : Ledger} {k : Nat} {res : Int} {data : List UInt8}
    (h : l.post k res data = some l') : l'.chan = l.chan := by
  unfold post at h
  split at h
  · cases h
  · simp only at h
    split at h
    · split at h
      · cases h
      · cases h
        unfold writeBlock
        split <;> rfl
    · split at h <;> cases h
      rfl

end Ledger

namespace Shard

/-- Once the exit is decided the table holds no result sender, leaked or not. -/
theorem Reach.senders_exiting {c : Params} {s : Shard} (h : Reach c s) {leaked : Bool} :
    s.Exiting leaked → senders s.pending = [] := by
  refine h.invariant (I := fun s => s.Exiting leaked → senders s.pending = []) ?_ ?_
  · rintro (he | he) <;> cases he
  · intro s e s' hr hi _ hs he
    rcases exiting_cases he hs with hold | ⟨_, _, hempty, hleak⟩
    · obtain ⟨hin, hsub, hreap⟩ := exiting_actor hold hs
      exact Ledger.senders_of_move (step_move (Reach.control hr) (any_allows s e) hs).1 hin hsub
        hreap (hi hold)
    · cases leaked with
      | false => rw [senders, (hempty rfl).1, List.filterMap_nil]
      | true =>
        obtain ⟨l, hl⟩ := hleak rfl
        rw [hl]
        exact l.senders_leak

/-- A thread exits by dropping its receiver after its semaphore is closed, and nothing is
sent to it afterwards. -/
theorem exited_cases {c : Params} {s s' : Shard} {e : Event} {leaked : Bool}
    (he : s'.phase = .exited leaked) (h : step c s e = some s') :
    (s'.chan = [] ∧ s'.semClosed = true) ∨
      (s.phase = .exited leaked ∧ s'.chan = s.chan ∧ s'.semClosed = s.semClosed) := by
  have hexit := (exiting_cases (Or.inr he) h).resolve_right fun hc => by
    rw [hc.2.1] at he
    cases he
  cases (step_transition h).2 with
  | send ht =>
    obtain ⟨_, hrecv, _, rfl⟩ := sendMsg_eq_some ht
    have hp : s.phase = .exited leaked := he
    rw [hp] at hrecv
    cases hrecv
  | join hj ht =>
    obtain ⟨_, hrecv, _, rfl⟩ := sendMsg_eq_some ht
    have hp : s.phase = .exited leaked := he
    rw [hp] at hrecv
    cases hrecv
  | signal | hangup | closeRx | cqSignal => exact Or.inr ⟨he, rfl, rfl⟩
  | post hl => exact Or.inr ⟨he, Ledger.chan_post hl, rfl⟩
  | wake hp | drainCq hp | drainWake hp | intake hp | submitBefore hp | submitAfter hp | reap hp
  | endTurn hp => exact (hexit.not_running hp fun _ => ⟨nofun, nofun⟩).elim
  | closeSem hp hs =>
    have hp' : s.phase = .exited leaked := he
    rw [hp] at hp'
    cases hp'
  | dropRx hp hs => exact Or.inl ⟨rfl, hs⟩

/-- A thread closes its semaphore in one step of its own. -/
theorem semClosed_step {c : Params} {s s' : Shard} {e : Event} (he : e ≠ .closeSem)
    (h : step c s e = some s') : s'.semClosed = s.semClosed := by
  cases (step_transition h).2 with
  | send ht =>
    obtain ⟨_, _, _, rfl⟩ := sendMsg_eq_some ht
    rfl
  | join hj ht =>
    obtain ⟨_, _, _, rfl⟩ := sendMsg_eq_some ht
    rfl
  | signal | closeRx | hangup | cqSignal | wake | drainCq | drainWake | post | dropRx => rfl
  | @intake base order hp ho => exact (intake_cases c .any s base order ho).1.semClosed
  | submitBefore hp ho ht | submitAfter hp ho ht =>
    exact (submitRing_cases (w := .any) ho ht).2.1.semClosed
  | @reap fileLen late hp => exact (reap_cases c s fileLen late).1.semClosed
  | @endTurn overflow now now' hp =>
    obtain ⟨m, n, hover⟩ := s.updateCqOverflow_eq overflow
    rcases finishTurn_cases c (s.updateCqOverflow overflow) now now' with
      ⟨_, _, _, heq⟩ | ⟨_, deadline, heq⟩ | ⟨deadline, heq⟩
    · rw [heq, hover]
    · rw [heq, hover]
    · rw [heq, hover]
      rfl
  | closeSem => exact absurd rfl he

/-- The channel of an exited thread is empty and its semaphore was closed. -/
theorem Reach.exited {c : Params} {s : Shard} (h : Reach c s) {leaked : Bool} :
    s.phase = .exited leaked → s.chan = [] ∧ s.semClosed = true := by
  refine h.invariant (I := fun s => s.phase = .exited leaked → s.chan = [] ∧ s.semClosed = true)
    (fun he => by cases he) ?_
  intro s e s' _ hi _ hs he
  rcases exited_cases he hs with hnew | ⟨hold, hchan, hsem⟩
  · exact hnew
  · rw [hchan, hsem]
    exact hi hold

/-- Every read sent to an exited thread has been answered or its sender dropped. -/
theorem Reach.settled {c : Params} {s : Shard} (h : Reach c s) {leaked : Bool}
    (he : s.phase = .exited leaked) {id : Nat} (hid : id ∈ s.hist.issued) :
    s.mail.Settled id := by
  have hplaces := (Reach.accounted h).senders.places.mem_iff.mp hid
  rw [Ledger.senderPlaces, (Reach.exited h he).1, Reach.senders_exiting h (Or.inr he)] at hplaces
  simpa [readIds, Mail.Settled] using hplaces

end Shard

/-- A handle of the read `id` returns the value that was sent to it, or else that the driver
went away before the read completed. -/
structure Mail.Gives (m : Mail) (id : Nat) (r : IoResult) : Prop where
  sent : ∀ s ∈ m.sends, s.id = id → s.arrived = true → r = s.outcome
  gone : (∀ s ∈ m.sends, s.id = id → s.arrived = false) → r = .error driverGoneBeforeCompletion

/-- A settled result channel is ready. -/
theorem Mail.recv_settled {m : Mail} {id : Nat} (h : m.Settled id)
    (hnodup : (m.sends.map Sent.id).Nodup) :
    ∃ a, m.recv id = some a ∧ m.Gives id (a.getD (.error driverGoneBeforeCompletion)) := by
  unfold Mail.recv
  cases hfind : m.sends.find? fun s => decide (s.id = id) && s.arrived with
  | some u =>
    have hu := List.find?_some hfind
    rw [Bool.and_eq_true, decide_eq_true_eq] at hu
    have hmem := List.mem_of_find?_eq_some hfind
    refine ⟨_, rfl, ?_, fun hnone => ?_⟩
    · intro s hs hid _
      -- one send for each id
      rw [List.inj_on_of_nodup_map hnodup hs hmem (hid.trans hu.1.symm)]
      rfl
    · rw [hnone u hmem hu.1] at hu
      cases hu.2
  | none =>
    have h : id ∈ m.sends.map Sent.id ∨ id ∈ m.lost := h
    simp only [if_pos h]
    refine ⟨_, rfl, ?_, fun _ => rfl⟩
    intro s hs hid harrived
    have hmiss := List.find?_eq_none.mp hfind s hs
    simp only [hid, harrived, decide_true, Bool.and_self, not_true] at hmiss

/-- A poll of a handle bound to an exited shard returns. -/
theorem ReadHandle.poll_exited {h : ReadHandle} (id : Nat) {v : View}
    (hs : v.sem.closed = true) (hb : ∀ b, v.bytes = some b → b.closed = true)
    (hr : v.loop.phase.receiving = false)
    (hstaged : ∀ w p, h.state = .waiting w → w.stage = .bytes p → v.bytes.isSome = true)
    (hnodup : (v.loop.mail.sends.map Sent.id).Nodup)
    (hsettled : h.isSubmitted = true → v.loop.mail.Settled id) :
    ∃ r, (h.poll id v).1.finished = some r ∧ (∀ value, h.state = .inert value → r = value) ∧
      (∀ w, h.state = .waiting w → r = .error driverGone) ∧
      (h.isSubmitted = true → v.loop.mail.Gives id r) := by
  unfold ReadHandle.poll
  unfold ReadHandle.isSubmitted at hsettled ⊢
  cases hstate : h.state with
  | inert value =>
    refine ⟨value, rfl, fun value' heq => ?_, nofun, nofun⟩
    cases heq
    rfl
  | submitted wake =>
    rw [hstate] at hsettled
    obtain ⟨a, ha, hgives⟩ := Mail.recv_settled (hsettled rfl) hnodup
    simp only [ha]
    cases a with
    | none => exact ⟨_, rfl, nofun, nofun, fun _ => hgives⟩
    | some r => exact ⟨r, rfl, nofun, nofun, fun _ => hgives⟩
  | waiting w =>
    simp only
    cases hw : w.stage with
    | count =>
      rw [Semaphore.pollAcquire_closed hs]
      exact ⟨_, rfl, nofun, fun _ _ => rfl, nofun⟩
    | bytes p =>
      obtain ⟨b, hbytes⟩ := Option.isSome_iff_exists.mp (hstaged w p hstate hw)
      rw [hbytes]
      simp only
      rw [Semaphore.pollAcquire_closed (hb b hbytes)]
      exact ⟨_, rfl, nofun, fun _ _ => rfl, nofun⟩
    | admitted =>
      have hsend : v.sendRead (w.req.msg id (v.permitsFor w.charge w.reservation)) = none := by
        simp [View.sendRead, Shard.sendMsg, hr]
      simp only [hsend]
      exact ⟨_, rfl, nofun, fun _ _ => rfl, nofun⟩

namespace Driver

/-- A thread that closed its semaphore closed the one callers see. -/
def SemsFollow (d : Driver) : Prop :=
  ∀ cell ∈ d.cells, cell.loop.semClosed = true → cell.sem.closed = true

namespace SemsFollow

variable {cfg : Config} {r : Option Nat}

theorem install {d : Driver} {k : Nat} {v v' : View} (h : d.SemsFollow) (hv : d.view k = some v)
    (hs : (v.loop.semClosed = true → v.sem.closed = true) →
      v'.loop.semClosed = true → v'.sem.closed = true) : (d.install k v').SemsFollow := by
  obtain ⟨cell, hcell, rfl⟩ := view_eq_some hv
  intro b hb
  rcases mem_modify_cases hb with ⟨a, ha, rfl⟩ | hb
  · obtain rfl : a = cell := Option.some.inj (ha.symm.trans hcell)
    exact hs (h a (List.mem_of_getElem? ha))
  · exact h b hb

theorem move {d d' : Driver} {e : DriverEvent} (h : d.SemsFollow) (hw : d.Wired cfg r)
    (hm : Move cfg d e d') : d'.SemsFollow := by
  cases hm with
  | kept _ hk _ =>
    intro b hb hclosed
    obtain ⟨k, hb⟩ := List.mem_iff_getElem?.mp hb
    obtain ⟨a, ha, hab⟩ := forall₂_getElem? hk.cells hb
    rw [hab.thread.semClosed] at hclosed
    exact hab.sem.closed (h a (List.mem_of_getElem? ha) hclosed)
  | start =>
    intro b hb hclosed
    rcases List.mem_append.mp hb with hb | hb
    · exact h b hb hclosed
    · rw [List.mem_singleton.mp hb] at hclosed
      cases hclosed
  | submit => exact h
  | @caller id c x y v v' hx hv ha =>
    have hact := Caller.act_cases (c := cfg.params) ha
    intro b hb
    rw [put_cells] at hb
    refine h.install hv (fun hold hclosed => ?_) b hb
    rw [hact.loop.2.semClosed] at hclosed
    rw [hact.closed.1]
    exact hold hclosed
  | @turn k e v v' hv he ht =>
    obtain ⟨freed, hturn⟩ := hw.turn_cases hv he ht
    refine h.install hv fun hold hclosed => ?_
    by_cases hclose : e = .closeSem
    · exact hturn.closeSem hclose
    · rw [Shard.semClosed_step hclose hturn.step] at hclosed
      exact hturn.closed (hold hclosed)

end SemsFollow

theorem Reach.semsFollow {cfg : Config} {r : Option Nat} {d : Driver} (h : Reach cfg r d) :
    d.SemsFollow :=
  h.invariant (fun _ hcell => (List.not_mem_nil hcell).elim) fun _ _ _ hr hi _ hs =>
    hi.move (Reach.wired hr) (step_move hs)

/-- What a finished thread of shard `k` leaves to its callers. -/
structure NoStranded (cfg : Config) (d : Driver) (k : Nat) (cell : Cell) : Prop where
  /-- No live result sender survives in the table, leaked or not, or in the channel. -/
  senders : senders cell.loop.pending = [] ∧ cell.loop.chan = []
  /-- Acquires fail from now on. -/
  closed : cell.sem.closed = true ∧ d.BytesClosed
  /-- The sender of every read submitted to the shard was used or dropped. -/
  settled : ∀ m ∈ cell.loop.hist.requests, cell.loop.mail.Settled m.id
  /-- Every handle that has not returned yet returns at its next operation: an inert one its
  value, a deferred one the error, and a submitted one what its sender left it. -/
  ready : ∀ id h, d.callers.lookup id = some (.holding h) → h.shard = k → h.finished = none →
    d.aborted = false → ∃ d' h' r, step cfg d (.caller id .poll) = some d' ∧
      d'.callers.lookup id = some (.holding h') ∧ h'.finished = some r ∧
      (∀ value, h.state = .inert value → r = value) ∧
      (∀ w, h.state = .waiting w → r = .error driverGone) ∧
      (h.isSubmitted = true → cell.loop.mail.Gives id r)

/-- In every interleaving and after either exit of `drive`, a finished thread strands no
caller. -/
theorem no_stranded_caller (cfg : Config) (r : Option Nat) (d : Driver) (k : Nat) (cell : Cell)
    (h : Reach cfg r d) (hk : d.cells[k]? = some cell) (hf : cell.finished = true) :
    NoStranded cfg d k cell := by
  have hmem := List.mem_of_getElem? hk
  have hloop := (Reach.wired h).loops cell hmem
  obtain ⟨leaked, hphase, hguard⟩ : ∃ leaked, cell.loop.phase = .exited leaked ∧
      cell.guard = .finished := by
    unfold Cell.finished at hf
    split at hf
    · rename_i leaked hp
      exact ⟨leaked, hp, of_decide_eq_true hf⟩
    · cases hf
  obtain ⟨hchan, hsem⟩ := Shard.Reach.exited hloop hphase
  have hsclosed := Reach.semsFollow h cell hmem hsem
  have hbclosed : d.BytesClosed := by
    refine (Reach.closersDone h).guards cell hmem ?_
    rw [hguard]
    trivial
  have hsettled (m : ReadMsg) (hm : m ∈ cell.loop.hist.requests) :
      cell.loop.mail.Settled m.id := by
    refine Shard.Reach.settled hloop hphase ?_
    rw [← (Shard.Reach.permitBook hloop).ids]
    exact List.mem_map_of_mem hm
  refine ⟨⟨Shard.Reach.senders_exiting hloop (Or.inr hphase), hchan⟩, ⟨hsclosed, hbclosed⟩,
    hsettled, ?_⟩
  intro id hd hx hshard hfin habort
  have hbound := (Reach.allBound h).callers id _ hx
  have hv : d.view (holding hd).shard = some ⟨cell.loop, cell.sem, d.bytes⟩ := by
    rw [Caller.shard, hshard, view, hk]
    rfl
  obtain ⟨r, hready, hinert, hwait, hgives⟩ := ReadHandle.poll_exited (h := hd) id
    (v := ⟨cell.loop, cell.sem, d.bytes⟩) hsclosed hbclosed (by rw [hphase]; rfl)
    (fun w p => hbound.staged hd w p rfl) (Shard.Reach.accounted hloop).senders.sends_nodup
    fun hst => by
      obtain ⟨cell', hcell', m, hm, rfl⟩ := hbound.submitted hd rfl hst hfin
      rw [hshard, hk] at hcell'
      cases hcell'
      exact hsettled m hm
  have hact : (holding hd).act .poll id d.reservation ⟨cell.loop, cell.sem, d.bytes⟩ =
      some (some (.holding (hd.poll id ⟨cell.loop, cell.sem, d.bytes⟩).1),
        (hd.poll id ⟨cell.loop, cell.sem, d.bytes⟩).2) := by
    simp [Caller.act, hfin]
  exact ⟨_, _, r, step_caller_eq habort hx hv hact, lookup_put_self _ _ _, hready, hinert, hwait,
    hgives⟩

/-- One read is leaked on a bounded drain while a second one awaits its permit. -/
def leakedWhileDeferred : List DriverEvent :=
  closedWhileDeferred ++
    [.turn 0 (.intake 4096 [1]), .turn 0 (.intake 4096 [1]), .turn 0 (.submit false (.ok 1) [1]),
      .turn 0 (.reap (.ok 0) false), .turn 0 (.submit false (.ok 0) [1]),
      .turn 0 (.endTurn 0 0 5), .turn 0 .closeSem, .turn 0 .dropRx, .guard 0, .guard 0, .guard 0]

theorem leakedWhileDeferred_runs :
    (run (step smallDriver) (init smallDriver none) leakedWhileDeferred).isSome = true := by
  decide +kernel

theorem leakedWhileDeferred_shard :
    0 < ((run (step smallDriver) (init smallDriver none) leakedWhileDeferred).get
      leakedWhileDeferred_runs).cells.length := by
  decide +kernel

/-- After a leaking exit neither the leaked nor the deferred caller is stranded. -/
theorem no_stranded_caller_leaked : ∃ d cell, Reach smallDriver none d ∧
    d.cells[0]? = some cell ∧ cell.loop.phase = .exited true ∧ cell.loop.pending.size = 1 ∧
    d.callers.size = 2 ∧ NoStranded smallDriver d 0 cell := by
  have hr := reachable_get leakedWhileDeferred_runs
  have hcell := List.getElem?_eq_getElem leakedWhileDeferred_shard
  refine ⟨_, _, hr, hcell, ?_, ?_, ?_, no_stranded_caller smallDriver none _ 0 _ hr hcell ?_⟩
  · decide +kernel
  · decide +kernel
  · decide +kernel
  · decide +kernel

end Driver

end Uring
