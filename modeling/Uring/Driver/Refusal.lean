import Uring.Driver.Protocol
import Uring.Driver.Retire

/-!
# Refusals

Admission is open until a shutdown begins: somebody asks for one, or the value goes away, or a
loop stops by itself. Until then no semaphore is closed, every send finds its receiver, and no
caller is told that the driver is gone.
-/

namespace Uring

open Uring.Core Caller

/-- The caller is told that the driver is gone, now or by its next operation. -/
def Caller.Refused (x : Caller) : Prop :=
  match x with
  | .submitting c => c.pc = .recheckBytes none ∨ ∃ k, c.pc = .dropCount k .closed
  | .holding h => h.state = .inert (.error driverGone)

/-- What an inert handle holds. -/
def Caller.InertError (x : Caller) : Prop :=
  match x with
  | .submitting _ => True
  | .holding h => ∀ value, h.state = .inert value →
      value = .error driverGone ∨ ∃ msg, value = .error (.invalidInput msg)

section Act

variable {c : Params} {id : Nat} {r : Option Nat} {v v' : View} {x x' : Caller} {e : CallerEvent}

/-- A caller that has still to send its read has sent nothing. -/
theorem Act.unsent (h : Act c id r v x (some x') v') (hx : x'.sent = false) :
    v'.loop.hist.requests = v.loop.hist.requests := by
  cases h with
  | send hh hx' hw hq hm hy hs =>
    rw [show (holding _).sent = true from hy] at hx
    cases hx
  | @pollCount h w hs hf hw =>
    unfold ReadHandle.poll
    rw [hs]
    simp only [hw]
    split <;> rfl
  | @pollBytes h w q b hs hf hw hv =>
    unfold ReadHandle.poll
    rw [hs]
    simp only [hw, hv]
    split <;> rfl
  | _ => rfl

theorem inertError_inert {k : Nat} : (holding (inertHandle k (.error driverGone))).InertError := by
  rintro value ⟨⟩
  exact Or.inl rfl

theorem inertError_refused (s : Submit) (k : Nat) (err : TryAcquireError) :
    (holding (s.refused r k err)).InertError := by
  cases err with
  | closed => exact inertError_inert
  | noPermits => exact nofun

theorem inertError_step (s : Submit) : (s.step id r v).1.InertError := by
  unfold Submit.step
  split
  · split
    · exact inertError_refused _ _ _
    · trivial
  · split
    · trivial
    · split
      · simp only
        split <;> trivial
      · exact inertError_refused _ _ _
  · split
    · trivial
    · split <;> trivial
  · exact inertError_refused _ _ _
  · split
    · exact inertError_refused _ _ _
    · split <;> exact inertError_refused _ _ _
  · simp only
    split
    · exact nofun
    · exact inertError_inert

/-- No poll makes a handle inert. -/
theorem ReadHandle.inert_of_poll {h : ReadHandle} {value : IoResult}
    (hs : (h.poll id v).1.state = .inert value) : h.state = .inert value := by
  unfold ReadHandle.poll at hs
  split at hs
  · exact hs
  · split at hs <;> exact hs
  · split at hs
    · split at hs
      · exact hs
      · exact hs
      · cases hs
    · split at hs
      · cases hs
      · split at hs
        · cases hs
        · exact hs
        · cases hs
    · simp only at hs
      split at hs <;> cases hs

/-- No operation makes an inert handle that holds another error. -/
theorem Caller.InertError.act (h : x.InertError) (ha : x.act e id r v = some (some x', v')) :
    x'.InertError := by
  cases act_remains ha with
  | call => exact inertError_step _
  | poll => exact fun value hs => h value (ReadHandle.inert_of_poll hs)
  | keep => exact h

/-- A view in which an operation of caller `id` is refused. -/
def Refuses (id : Nat) (x : Caller) (v : View) : Prop :=
  v.sem.closed = true ∨ v.bytesClosed = true ∨
    x.sent = false ∧ ∃ (req : Request) (permit : ReadPermits), v.sendRead (req.msg id permit) = none

theorem bytesClosed_of_closed {b : Semaphore} (hb : v.bytes = some b) (hc : b.closed = true) :
    v.bytesClosed = true := by
  simp [View.bytesClosed, hb, hc]

/-- A selection that fails because of a closed semaphore. -/
theorem refused_closed {s : Submit} {k : Nat} {err : TryAcquireError}
    (h : (holding (s.refused r k err)).Refused) : err = .closed := by
  cases err with
  | closed => rfl
  | noPermits => cases h

/-- A `submit` that is refused met a view that refuses, or had been refused. -/
theorem refused_step {s : Submit} (h : (s.step id r v).1.Refused) :
    (submitting s).Refused ∨ Refuses id (submitting s) v := by
  unfold Submit.step at h
  split at h
  · split at h
    · rename_i hb
      exact Or.inr (Or.inr (Or.inl hb))
    · rcases h with h | ⟨k, h⟩ <;> cases h
  · rename_i k rest waiting hp
    split at h
    · rcases h with h | ⟨k, h⟩
      all_goals
        simp only at h
        split at h <;> cases h
    · rename_i err herr
      have hclosed (heq : err = .closed) : v.sem.closed = true := by
        subst heq
        exact Semaphore.closed_of_tryAcquire herr
      split at h
      · -- the scan goes on, or ends without a full shard
        by_cases hn : err = .noPermits
        · simp only [hn, if_true] at h
          split at h
          · rcases h with h | ⟨k, h⟩
            · simp only [SubmitPc.recheckBytes.injEq] at h
              cases waiting <;> cases h
            · cases h
          · rcases h with h | ⟨k, h⟩ <;> cases h
        · refine Or.inr (Or.inl (hclosed ?_))
          cases err with
          | closed => rfl
          | noPermits => exact absurd rfl hn
      · exact Or.inr (Or.inl (hclosed (refused_closed h)))
  · rename_i k hp
    split at h
    · rcases h with h | ⟨k, h⟩ <;> cases h
    · rename_i b hb
      split at h
      · rcases h with h | ⟨k, h⟩ <;> cases h
      · rename_i err herr
        rcases h with h | ⟨j, h⟩
        · cases h
        · cases h
          exact Or.inr (Or.inr (Or.inl
            (bytesClosed_of_closed hb (Semaphore.closed_of_tryAcquire herr))))
  · rename_i k err hp
    obtain rfl := refused_closed h
    exact Or.inl (Or.inr ⟨k, hp⟩)
  · rename_i waiting hp
    split at h
    · rename_i hb
      exact Or.inr (Or.inr (Or.inl hb))
    · split at h
      · cases h
      · exact Or.inl (Or.inl hp)
  · simp only at h
    split at h
    · cases h
    · rename_i hsend
      exact Or.inr (Or.inr (Or.inr ⟨rfl, _, _, hsend⟩))

/-- Whoever is refused met a view that refuses, or had been refused. -/
theorem Caller.Refused.cause (ha : x.act e id r v = some (some x', v')) (h : x'.Refused) :
    x.Refused ∨ Refuses id x v := by
  cases act_remains ha with
  | call => exact refused_step h
  | poll => exact Or.inl (ReadHandle.inert_of_poll h)
  | keep => exact Or.inl h

/-- What a poll returns, and where it comes from. -/
inductive PollReturns (id : Nat) (h : ReadHandle) (v : View) : IoResult → Prop
  | inert {value : IoResult} (hs : h.state = .inert value) : PollReturns id h v value
  /-- The acquire failed, or the send that followed it. -/
  | gone {w : Waiting} (hs : h.state = .waiting w) (hr : Refuses id (.holding h) v) :
      PollReturns id h v (.error driverGone)
  | dropped (hs : h.isSubmitted = true)
      (hm : id ∈ v.loop.mail.lost ∨ ∃ x ∈ v.loop.mail.sends, x.id = id ∧ x.arrived = false) :
      PollReturns id h v (.error driverGoneBeforeCompletion)
  | sent {x : Sent} {value : IoResult} (hs : h.isSubmitted = true) (hx : x ∈ v.loop.mail.sends)
      (hid : x.id = id) (harr : x.arrived = true) (ho : x.outcome = value) :
      PollReturns id h v value

theorem ReadHandle.poll_returns {h : ReadHandle} (hf : h.finished = none) {res : IoResult}
    (hres : (h.poll id v).1.finished = some res) : PollReturns id h v res := by
  have hnone {P : Prop} (hn : (none : Option IoResult) = some res) : P := nomatch hn
  have hunsent {w : Waiting} (hs : h.state = .waiting w) : (holding h).sent = false := by
    rw [Caller.sent, ReadHandle.isSubmitted, hs]
  unfold ReadHandle.poll at hres
  split at hres
  · rename_i value hs
    cases hres
    exact .inert hs
  · rename_i wake hs
    split at hres
    · rw [hf] at hres
      exact hnone hres
    · rename_i result hrecv
      cases hres
      unfold Mail.recv at hrecv
      split at hrecv
      · rename_i x hfind
        have hx := List.find?_some hfind
        rw [Bool.and_eq_true, decide_eq_true_eq] at hx
        have houtcome := Option.some.inj (Option.some.inj hrecv)
        exact .sent (ReadHandle.isSubmitted_iff.mpr ⟨wake, hs⟩) (List.mem_of_find?_eq_some hfind)
          hx.1 hx.2 houtcome
      · split at hrecv <;> cases hrecv
    · rename_i hrecv
      cases hres
      refine .dropped (ReadHandle.isSubmitted_iff.mpr ⟨wake, hs⟩) ?_
      unfold Mail.recv at hrecv
      split at hrecv
      · cases hrecv
      · rename_i hfind
        split at hrecv
        · rename_i hm
          rcases hm with hsent | hlost
          · obtain ⟨x, hx, hid⟩ := List.mem_map.mp hsent
            have hmiss := List.find?_eq_none.mp hfind x hx
            simp only [hid, decide_true, Bool.true_and, Bool.not_eq_true] at hmiss
            exact Or.inr ⟨x, hx, hid, hmiss⟩
          · exact Or.inl hlost
        · cases hrecv
  · rename_i w hs
    split at hres
    · split at hres
      · rw [hf] at hres
        exact hnone hres
      · rename_i sem hpoll
        cases hres
        exact .gone hs (Or.inl (Semaphore.closed_of_pollAcquire hpoll))
      · rw [show (h.await w _).finished = h.finished from rfl, hf] at hres
        exact hnone hres
    · split at hres
      · rw [show (h.await w _).finished = h.finished from rfl, hf] at hres
        exact hnone hres
      · rename_i b hb
        split at hres
        · rw [show (h.await w _).finished = h.finished from rfl, hf] at hres
          exact hnone hres
        · rename_i b' hpoll
          cases hres
          exact .gone hs (Or.inr (Or.inl
            (bytesClosed_of_closed hb (Semaphore.closed_of_pollAcquire hpoll))))
        · rw [show (h.await w _).finished = h.finished from rfl, hf] at hres
          exact hnone hres
    · simp only at hres
      split at hres
      · rw [hf] at hres
        exact hnone hres
      · rename_i hsend
        cases hres
        exact .gone hs (Or.inr (Or.inr ⟨hunsent hs, _, _, hsend⟩))

end Act

namespace Driver

variable {cfg : Config} {r : Option Nat} {d d' : Driver} {e : DriverEvent}

/-- A shutdown has begun: somebody asked for one, or the value goes away, or a loop is to stop. -/
def ShutdownBegun (d : Driver) : Prop :=
  (∃ t, t ∈ d.closers) ∨ d.life.ending = true ∨ ∃ cell ∈ d.cells, cell.loop.Stopping

/-- A driver that goes away keeps going away. -/
theorem LifeMove.ends (h : LifeMove d d') (he : d.life.ending = true) : d'.life.ending = true := by
  cases h with
  | same h => rwa [h]
  | started h | failed h | retire h =>
    rw [h] at he
    cases he
  | joining _ h' | asked _ h' | joined _ _ _ h' | gone _ _ h' =>
    rw [h']
    rfl

/-- A shutdown that has begun goes on. -/
theorem ShutdownBegun.step (h : d.ShutdownBegun) (hr : Reach cfg r d)
    (hs : step cfg d e = some d') : d'.ShutdownBegun := by
  rcases h with ⟨t, ht⟩ | hlife | ⟨cell, hcell, hstop⟩
  · left
    obtain ⟨pc, hpc⟩ := Option.isSome_iff_exists.mp (AList.lookup_isSome.mpr ht)
    cases step_control hs with
    | same hc => exact ⟨t, hc ▸ ht⟩
    | start => exact ⟨t, ht⟩
    | begin hc | closer _ hc => exact ⟨t, hc ▸ (AList.mem_insert _).mpr (Or.inr ht)⟩
    | @guard k cell hcell => exact ⟨t, (d.closeStep_control cell.guard).1 ▸ ht⟩
  · exact Or.inr (Or.inl ((step_life hs).ends hlife))
  · obtain ⟨k, hk⟩ := List.mem_iff_getElem?.mp hcell
    obtain ⟨b, hb, hlater⟩ := cell_later hr hs hk
    refine Or.inr (Or.inr ⟨b, List.mem_of_getElem? hb, ?_⟩)
    exact hstop.moves hlater.loop ((Reach.wired hr).loops cell hcell)

/-- Ids start at one and stay below the cancel bit, and the id of a read that was not sent is
new to every loop. -/
structure Fresh (d : Driver) : Prop where
  next : 0 < d.nextId ∧ d.nextId ≤ cancelBit
  positive : d.callers.All fun id _ => 0 < id
  unsent : d.callers.All fun id x => x.sent = false → ∀ k, ¬ d.Sent id k

namespace Fresh

theorem init : (Driver.init cfg r).Fresh :=
  ⟨(by decide : 0 < 1 ∧ 1 ≤ cancelBit), AList.all_empty, AList.all_empty⟩

theorem step (h : d.Fresh) (hr : Reach cfg r d) (hs : Driver.step cfg d e = some d') :
    d'.Fresh := by
  have hw := Reach.wired hr
  have hm := step_move hs
  -- every caller but the one that acts is as it was
  have hsame (id : Nat) (he : ∀ c, e ≠ .caller id c) (k : Nat) (hold : ¬ d.Sent id k) :
      ¬ d'.Sent id k := fun hin => hold (hm.sent hw he hin)
  cases hm with
  | kept he hk _ =>
    refine ⟨hk.nextId ▸ h.next, hk.callers ▸ h.positive, fun id x hx hns k => ?_⟩
    exact hsame id (he id) k (h.unsent id x (hk.callers ▸ hx) hns k)
  | start | turn =>
    exact ⟨h.next, h.positive, fun id x hx hns k => hsame id nofun k (h.unsent id x hx hns k)⟩
  | @submit req x n _ hid hx =>
    have hnew (k : Nat) : ¬ d.Sent d.nextId k := by
      rintro ⟨cell, hcell, m, hmem, heq⟩
      have := (Reach.allBound hr).sent_lt cell (List.mem_of_getElem? hcell) m hmem
      omega
    refine ⟨?_, h.positive.insert h.next.1, h.unsent.insert fun _ => hnew⟩
    rw [fetchAdd_of_lt (by unfold cancelBit at hid; omega)]
    exact ⟨Nat.succ_pos _, hid⟩
  | @caller id c x y v v' hx hv ha =>
    refine ⟨by rw [put_nextId]; exact h.next, all_put (d := d.install x.shard v') h.positive
      fun _ _ => h.positive id x hx, fun j z hz hns k => ?_⟩
    by_cases hj : j = id
    · subst hj
      rw [lookup_put_self] at hz
      subst hz
      have hxs : x.sent = false := by
        cases Sends.of_act ha with
        | nothing _ hy =>
          rcases hy z rfl with ⟨_, hz, _⟩ | ⟨hx, _⟩
          · rw [hz] at hns
            cases hns
          · exact hx
        | read _ hx => exact hx
      rw [sent_put]
      intro hsent
      refine h.unsent j x hx hxs k (sent_of_install hv (fun hin => ?_) hsent)
      rwa [(Caller.act_cases (c := cfg.params) ha).unsent hns] at hin
    · rw [lookup_put_of_ne _ hj] at hz
      refine hsame j (fun c heq => ?_) k (h.unsent j z hz hns k)
      cases heq
      exact hj rfl

end Fresh

theorem Reach.fresh (h : Reach cfg r d) : d.Fresh :=
  h.invariant .init fun _ _ _ hr hi _ hs => hi.step hr hs

/-- A thread that has dropped its receiver is stopping. -/
theorem begun_of_receiving (hr : Reach cfg r d)
    (hlive : ∀ cell ∈ d.cells, cell.loop.phase ≠ .aborted) {cell : Cell} (hcell : cell ∈ d.cells)
    (h : cell.loop.phase.receiving = false) :
    d.ShutdownBegun := by
  refine Or.inr (Or.inr ⟨cell, hcell, Or.inl ?_⟩)
  have hctl := Shard.Reach.control ((Reach.wired hr).loops cell hcell)
  cases hp : cell.loop.phase with
  | exited leaked => exact hctl.exited leaked hp
  | aborted => exact absurd hp (hlive cell hcell)
  | _ =>
    rw [hp] at h
    cases h

/-- The send of a read that was not sent yet fails only once a shutdown has begun. -/
theorem begun_of_sendRead (hr : Reach cfg r d)
    (hlive : ∀ cell ∈ d.cells, cell.loop.phase ≠ .aborted) {id : Nat} {x : Caller} {v : View}
    (hx : d.callers.lookup id = some x) (hns : x.sent = false) (hv : d.view x.shard = some v)
    {req : Request} {permit : ReadPermits}
    (h : v.sendRead (req.msg id permit) = none) : d.ShutdownBegun := by
  obtain ⟨cell, hcell, rfl⟩ := view_eq_some hv
  have hmem := List.mem_of_getElem? hcell
  have hloop := (Reach.wired hr).loops cell hmem
  have hctl := Shard.Reach.control hloop
  have hfresh := Reach.fresh hr
  have hnone : cell.loop.sendMsg id (.read (req.msg id permit)) = none :=
    Option.map_eq_none_iff.mp h
  unfold Shard.sendMsg at hnone
  split at hnone
  · rename_i hbad
    rcases hbad with hd | hrecv | ⟨j, hj, hbad⟩
    · exact Or.inr (Or.inr ⟨cell, hmem, hctl.joined (hctl.disconnected hd)⟩)
    · exact begun_of_receiving hr hlive hmem hrecv
    · obtain rfl : j = id := List.mem_singleton.mp hj
      rcases hbad with hissued | hlarge
      · rw [← (Shard.Reach.permitBook hloop).ids] at hissued
        obtain ⟨m, hm, hmid⟩ := List.mem_map.mp hissued
        exact absurd ⟨cell, hcell, m, hm, hmid⟩ (hfresh.unsent j x hx hns x.shard)
      · have hlt := (Reach.wired hr).known j x hx
        have := hfresh.next.2
        omega
  · cases hnone

/-- Nothing is closed and nobody is refused. -/
structure AdmissionOpen (d : Driver) : Prop where
  registry : d.registry.closed = false
  counts : ∀ cell ∈ d.cells, cell.sem.closed = false
  bytes : ∀ b, d.bytes = some b → b.closed = false
  callers : d.callers.All fun _ x => ¬ x.Refused

namespace AdmissionOpen

theorem init : (Driver.init cfg r).AdmissionOpen := by
  refine ⟨rfl, fun _ h => (List.not_mem_nil h).elim, fun b hb => ?_, AList.all_empty⟩
  obtain ⟨n, _, rfl⟩ := Option.map_eq_some_iff.mp hb
  rfl

/-- Writing back a view in which nothing was closed. -/
theorem install (h : d.AdmissionOpen) {k : Nat} {v v' : View} (hv : d.view k = some v)
    (hsem : v'.sem.closed = v.sem.closed)
    (hbytes : ∀ b', v'.bytes = some b' → ∃ b, v.bytes = some b ∧ b'.closed = b.closed) :
    (d.install k v').AdmissionOpen := by
  obtain ⟨cell, hcell, rfl⟩ := view_eq_some hv
  refine ⟨h.registry, fun b hb => ?_, fun b hb => ?_, h.callers⟩
  · rcases mem_modify_cases hb with ⟨a, ha, rfl⟩ | hold
    · exact hsem.trans (h.counts cell (List.mem_of_getElem? hcell))
    · exact h.counts b hold
  · obtain ⟨b₀, hb₀, heq⟩ := hbytes b hb
    exact heq.trans (h.bytes b₀ hb₀)

/-- Where nothing is closed only the end of a loop refuses. -/
theorem begun_of_refuses (h : d.AdmissionOpen) (hr : Reach cfg r d)
    (hlive : ∀ cell ∈ d.cells, cell.loop.phase ≠ .aborted) {id : Nat} {x : Caller} {v : View}
    (hx : d.callers.lookup id = some x) (hv : d.view x.shard = some v) (href : Refuses id x v) :
    d.ShutdownBegun := by
  rcases href with hclosed | hclosed | ⟨hns, req, permit, hsend⟩
  · obtain ⟨cell, hcell, rfl⟩ := view_eq_some hv
    rw [h.counts cell (List.mem_of_getElem? hcell)] at hclosed
    cases hclosed
  · obtain ⟨cell, hcell, rfl⟩ := view_eq_some hv
    obtain ⟨b, hb, hbc⟩ := (Option.any_eq_true _ _).mp hclosed
    rw [h.bytes b hb] at hbc
    cases hbc
  · exact begun_of_sendRead hr hlive hx hns hv hsend

/-- Until a shutdown begins nothing is closed. -/
theorem step (h : d.AdmissionOpen) (hr : Reach cfg r d) (hs : Driver.step cfg d e = some d')
    (hnot : ¬ d'.ShutdownBegun) : d'.AdmissionOpen := by
  have hbefore : ¬ d.ShutdownBegun := fun hb => hnot (hb.step hr hs)
  have hlive := live_of_step hs
  cases (step_transition hs).2 with
  | startShard hl hn =>
    refine ⟨?_, fun cell hcell => ?_, h.bytes, h.callers⟩
    · unfold startShard
      simp only
      split
      · exact h.registry
      · exact h.registry
    · rcases List.mem_append.mp hcell with hold | hnew
      · exact h.counts cell hold
      · rw [List.mem_singleton.mp hnew]
        simp [h.registry, Semaphore.new]
  | started => exact ⟨h.registry, h.counts, h.bytes, h.callers⟩
  | failStart => exact absurd (Or.inr (Or.inl rfl)) hnot
  | submit hl hb =>
    obtain ⟨_, x, hx, rfl⟩ := beginSubmit_cases hb
    refine ⟨h.registry, h.counts, h.bytes, h.callers.insert ?_⟩
    cases hx with
    | invalid he =>
      obtain ⟨msg, rfl⟩ := validateRead_error he
      intro href
      cases href
    | valid hn =>
      unfold firstPc
      split
      · rintro (hp | ⟨k, hp⟩) <;> cases hp
      · rintro (hp | ⟨k, hp⟩) <;> cases hp
  | @caller id c x v v' y hx hv ha =>
    obtain ⟨hsem, hbytes⟩ := (Caller.act_cases (c := cfg.params) ha).closed
    have hopen := h.install hv hsem hbytes
    have hreg : ((d.install x.shard v').put id y).registry = d.registry := by
      cases y <;> rfl
    refine ⟨hreg ▸ h.registry, by rw [put_cells]; exact hopen.counts,
      by rw [put_bytes]; exact hopen.bytes, all_put hopen.callers fun x' hy href => ?_⟩
    rcases Refused.cause (hy ▸ ha) href with hold | hview
    · exact h.callers id x hx hold
    · exact hbefore (h.begun_of_refuses hr hlive hx hv hview)
  | @turn k ev v v' hthread hv hturn =>
    obtain ⟨freed, ht⟩ := (Reach.wired hr).turn_cases hv hthread hturn
    obtain ⟨cell, hcell, rfl⟩ := view_eq_some hv
    refine h.install hv (ht.keepsSem ?_) fun b' hb' => ?_
    · -- only a loop that exits closes its semaphore
      rintro rfl
      have hmem := List.mem_of_getElem? hcell
      have hctl := Shard.Reach.control ((Reach.wired hr).loops cell hmem)
      have hstep := ht.step
      generalize v'.loop = s' at hstep
      cases (Shard.step_transition hstep).2 with
      | closeSem hp => exact hbefore (Or.inr (Or.inr ⟨cell, hmem, Or.inl (hctl.closing _ hp)⟩))
    · cases hb : d.bytes with
      | none =>
        rw [ht.unlimited hb] at hb'
        cases hb'
      | some b =>
        obtain ⟨b'', hb'', hgiven⟩ := ht.bytes b hb
        obtain rfl : b'' = b' := Option.some.inj (hb''.symm.trans hb')
        exact ⟨b, rfl, hgiven.closed⟩
  | @guard k cell leaked hcell hp =>
    have hmem := List.mem_of_getElem? hcell
    have hctl := Shard.Reach.control ((Reach.wired hr).loops cell hmem)
    exact absurd (Or.inr (Or.inr ⟨cell, hmem, Or.inl (hctl.exited _ hp)⟩)) hbefore
  | @requestShutdown t | @retire t =>
    exact absurd (Or.inl ⟨t, (AList.mem_insert _).mpr (Or.inl rfl)⟩) hnot
  | @closer t pc hpc => exact absurd (Or.inl ⟨t, AList.mem_of_lookup hpc⟩) hbefore
  | join hj =>
    refine absurd (Or.inr (Or.inl ?_)) hbefore
    unfold joinStep at hj
    split at hj
    · rename_i hl
      rw [hl]
      rfl
    · rename_i hl
      rw [hl]
      rfl
    · cases hj

end AdmissionOpen

/-- Admission is open until a shutdown begins. -/
theorem Reach.open_or_begun (h : Reach cfg r d) : d.ShutdownBegun ∨ d.AdmissionOpen := by
  refine h.invariant (I := fun d => d.ShutdownBegun ∨ d.AdmissionOpen) (Or.inr .init) ?_
  intro d e d' hr hi _ hs
  rcases hi with hbegun | hopen
  · exact Or.inl (hbegun.step hr hs)
  · by_cases hnot : d'.ShutdownBegun
    · exact Or.inl hnot
    · exact Or.inr (hopen.step hr hs hnot)

/-- What inert handles hold: the error of the validation, or that the driver is gone. -/
theorem Reach.inertError (h : Reach cfg r d) : d.callers.All fun _ x => x.InertError := by
  refine h.invariant (I := fun d => d.callers.All fun _ x => x.InertError) AList.all_empty ?_
  intro d e d' hr hi _ hs
  cases step_move hs with
  | kept _ hk _ => exact hk.callers ▸ hi
  | start => exact hi
  | @submit req x n _ _ hx =>
    refine hi.insert ?_
    cases hx with
    | invalid he =>
      obtain ⟨msg, rfl⟩ := validateRead_error he
      rintro value ⟨⟩
      exact Or.inr ⟨msg, rfl⟩
    | valid => trivial
  | caller hx hv ha =>
    exact all_put (d := d.install _ _) hi fun x' hy => InertError.act (hi _ _ hx) (hy ▸ ha)
  | turn => exact hi

end Driver

end Uring
