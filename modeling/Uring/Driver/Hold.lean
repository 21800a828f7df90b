import Uring.Driver.Step

/-!
# What a caller has in hand

A caller holds at most one count permit, of the shard it is bound to, and at most its
charge in bytes. Every operation of a caller exchanges permits between its hand, the
two semaphores and the messages it sends; the relation `Act` lists these exchanges.
-/

namespace Uring

open Uring.Core

theorem Stage.bytes_ne_count (p : Bool) : Stage.bytes p ≠ .count := by
  intro h
  cases h

theorem Stage.admitted_ne_count : Stage.admitted ≠ .count := by
  intro h
  cases h

/-- A finished handle has nothing left to acquire. -/
theorem ReadHandle.finish_settled (h : ReadHandle) (r : IoResult) :
    ∀ w, (h.finish r).state = .waiting w → (h.finish r).finished ≠ none :=
  fun _ _ => Option.some_ne_none r

namespace Caller

/-- Count permits of shard `k` in the caller's hand. -/
def held (x : Caller) (k : Nat) : Nat :=
  match x with
  | .submitting c =>
    match c.pc with
    | .tryBytes j | .dropCount j _ | .send j => if j = k then 1 else 0
    | _ => 0
  | .holding h =>
    match h.state, h.finished with
    | .waiting w, none => if w.stage ≠ .count ∧ h.shard = k then 1 else 0
    | _, _ => 0

/-- Byte permits in the caller's hand. -/
def bytesHeld (x : Caller) : Nat :=
  match x with
  | .submitting c =>
    match c.pc with
    | .send _ => c.charge
    | _ => 0
  | .holding h =>
    match h.state, h.finished with
    | .waiting w, none => if w.stage = .admitted then w.charge else 0
    | _, _ => 0

/-- The caller may be queued for the count permit of shard `k`. -/
def AwaitsCount (x : Caller) (k : Nat) : Prop :=
  ∃ h w, x = .holding h ∧ h.state = .waiting w ∧ h.finished = none ∧ w.stage = .count ∧ h.shard = k

/-- The caller may be queued for `n` bytes. -/
def AwaitsBytes (x : Caller) (n : Nat) : Prop :=
  ∃ h w p, x = .holding h ∧ h.state = .waiting w ∧ h.finished = none ∧ w.stage = .bytes p ∧
    w.charge = n

/-- What the caller sends once it is admitted. -/
def Carries (x : Caller) (r : Option Nat) (req : Request) (charge : Nat) (res : Option Nat) :
    Prop :=
  match x with
  | .submitting s => req = s.req ∧ charge = s.charge ∧ res = r
  | .holding h => ∃ w, h.state = .waiting w ∧ req = w.req ∧ charge = w.charge ∧ res = w.reservation

end Caller

/-- Count permits of shard `k` in the hand of a caller that may be gone. -/
def heldBy (y : Option Caller) (k : Nat) : Nat := y.elim 0 fun x => x.held k

/-- Byte permits in the hand of a caller that may be gone. -/
def bytesHeldBy (y : Option Caller) : Nat := y.elim 0 Caller.bytesHeld

/-- The loop moved by steps of its own transition system. -/
abbrev Shard.Moves (c : Params) (s s' : Shard) : Prop := Reachable (Shard.step c) anyLabel s s'

/-- The thread stands where it stood, and nobody has signalled it. -/
structure Shard.SameThread (s s' : Shard) : Prop where
  phase : s'.phase = s.phase
  semClosed : s'.semClosed = s.semClosed
  released : s'.hist.released = s.hist.released
  wakeEfd : s'.wake.wakeEfd = s.wake.wakeEfd

theorem Shard.SameThread.refl (s : Shard) : s.SameThread s := ⟨rfl, rfl, rfl, rfl⟩

/-- A send is a step of the loop's transition system. -/
theorem Shard.moves_of_sendMsg {c : Params} {s s' : Shard} {p : Nat} {m : Msg}
    (ha : s.phase ≠ .aborted) (h : s.sendMsg p m = some s') : s.Moves c s' := by
  refine .next (e := .send p m) .start trivial ?_
  rw [Shard.step, if_neg ha]
  exact h

/-- The exchanges of permits that one operation of caller `id` can make. -/
inductive Act (c : Params) (id : Nat) (r : Option Nat) (v : View) :
    Caller → Option Caller → View → Prop
  /-- No permit moves. -/
  | quiet {x : Caller} {y : Option Caller} (hc : ∀ k, heldBy y k = x.held k)
      (hb : v.bytes.isSome = true → bytesHeldBy y = x.bytesHeld)
      (hw : ∀ k, x.AwaitsCount k → ∃ x', y = some x' ∧ x'.AwaitsCount k)
      (hq : v.bytes.isSome = true → ∀ n, x.AwaitsBytes n → ∃ x', y = some x' ∧ x'.AwaitsBytes n) :
      Act c id r v x y v
  /-- An immediate count permit. -/
  | takeCount {s : Submit} {k : Nat} {rest : List Nat} {waiting : Option Nat} {sem : Semaphore}
      (hp : s.pc = .tryCount k rest waiting) (hs : v.sem.tryAcquire 1 = .ok sem) :
      Act c id r v (.submitting s)
        (some (s.goto (if v.bytes.isSome then .tryBytes k else .send k))) { v with sem := sem }
  /-- Immediate bytes. -/
  | takeBytes {s : Submit} {k : Nat} {b b' : Semaphore} (hp : s.pc = .tryBytes k)
      (hv : v.bytes = some b) (hb : b.tryAcquire s.charge = .ok b') :
      Act c id r v (.submitting s) (some (s.goto (.send k))) { v with bytes := some b' }
  /-- The count permit goes back after a failed byte attempt. -/
  | dropCount {s : Submit} {k : Nat} {e : TryAcquireError} (hp : s.pc = .dropCount k e) :
      Act c id r v (.submitting s) (some (.holding (s.refused r k e)))
        { v with sem := v.sem.release 1 }
  /-- The read is sent with its permits. -/
  | send {x : Caller} {y : ReadHandle} {req : Request} {charge : Nat} {res : Option Nat} {v' : View}
      (hh : ∀ k, x.held k = if x.shard = k then 1 else 0) (hx : x.bytesHeld = charge)
      (hw : ∀ k, ¬ x.AwaitsCount k) (hq : ∀ n, ¬ x.AwaitsBytes n)
      (hm : x.Carries r req charge res) (hy : y.isSubmitted = true)
      (hs : v.sendRead (req.msg id (v.permitsFor charge res)) = some v') :
      Act c id r v x (some (.holding y)) v'
  /-- The receiver is gone and the message's permits go back. -/
  | sendFailed {x : Caller} {y : ReadHandle} {charge : Nat} {res : Option Nat}
      (hh : ∀ k, x.held k = if x.shard = k then 1 else 0) (hx : x.bytesHeld = charge)
      (hw : ∀ k, ¬ x.AwaitsCount k) (hq : ∀ n, ¬ x.AwaitsBytes n)
      (hy : ∀ w, y.state = .waiting w → y.finished ≠ none) :
      Act c id r v x (some (.holding y)) (v.dropPermits (v.permitsFor charge res))
  /-- A poll of the count acquire. -/
  | pollCount {h : ReadHandle} {w : Waiting} (hs : h.state = .waiting w) (hf : h.finished = none)
      (hw : w.stage = .count) :
      Act c id r v (.holding h) (some (.holding (h.poll id v).1)) (h.poll id v).2
  /-- A poll of the byte acquire. -/
  | pollBytes {h : ReadHandle} {w : Waiting} {p : Bool} {b : Semaphore}
      (hs : h.state = .waiting w) (hf : h.finished = none) (hw : w.stage = .bytes p)
      (hv : v.bytes = some b) :
      Act c id r v (.holding h) (some (.holding (h.poll id v).1)) (h.poll id v).2
  /-- A handle is dropped while it awaits its count permit. -/
  | dropQueued {h : ReadHandle} {w : Waiting} (hs : h.state = .waiting w) (hf : h.finished = none)
      (hw : w.stage = .count) :
      Act c id r v (.holding h) none { v with sem := v.sem.cancel id }
  /-- A handle is dropped while it holds its count permit and awaits its bytes. -/
  | dropPartial {h : ReadHandle} {w : Waiting} (hs : h.state = .waiting w) (hf : h.finished = none)
      (hw : w.stage = .bytes false) :
      Act c id r v (.holding h) none
        { v with sem := v.sem.release 1, bytes := v.bytes.map fun b => b.cancel id }
  /-- A submitted handle is dropped: only its channels change. -/
  | dropSubmitted {h : ReadHandle} {loop : Shard} (hs : h.isSubmitted = true)
      (hl : v.loop.phase ≠ .aborted → v.loop.Moves c loop)
      (hr : loop.hist.requests = v.loop.hist.requests) (ht : v.loop.SameThread loop) :
      Act c id r v (.holding h) none { v with loop := loop }

namespace Caller

@[simp] theorem heldBy_none (k : Nat) : heldBy none k = 0 := rfl

@[simp] theorem heldBy_some (x : Caller) (k : Nat) : heldBy (some x) k = x.held k := rfl

@[simp] theorem bytesHeldBy_none : bytesHeldBy none = 0 := rfl

@[simp] theorem bytesHeldBy_some (x : Caller) : bytesHeldBy (some x) = x.bytesHeld := rfl

/-- A running `submit` is queued nowhere. -/
theorem not_awaits_submitting (s : Submit) :
    (∀ k, ¬ (submitting s).AwaitsCount k) ∧ ∀ n, ¬ (submitting s).AwaitsBytes n := by
  constructor
  · rintro k ⟨h, w, hx, _⟩
    cases hx
  · rintro n ⟨h, w, p, hx, _⟩
    cases hx

/-- A handle with nothing left to acquire holds no permit and is queued nowhere. -/
theorem settled_holding {h : ReadHandle} (hs : ∀ w, h.state = .waiting w → h.finished ≠ none) :
    (∀ k, (holding h).held k = 0) ∧ (holding h).bytesHeld = 0 ∧
      (∀ k, ¬ (holding h).AwaitsCount k) ∧ ∀ n, ¬ (holding h).AwaitsBytes n := by
  refine ⟨fun k => ?_, ?_, ?_, ?_⟩
  · unfold held
    split
    · cases ‹holding h = _›
    · rename_i hx
      cases hx
      split
      · rename_i w hw hf
        exact absurd hf (hs w hw)
      · rfl
  · unfold bytesHeld
    split
    · cases ‹holding h = _›
    · rename_i hx
      cases hx
      split
      · rename_i w hw hf
        exact absurd hf (hs w hw)
      · rfl
  · rintro k ⟨h', w, hx, hw, hf, _⟩
    cases hx
    exact hs w hw hf
  · rintro n ⟨h', w, p, hx, hw, hf, _⟩
    cases hx
    exact hs w hw hf

/-- What a handle holds while its acquire is unresolved. -/
theorem held_waiting {h : ReadHandle} {w : Waiting} (hs : h.state = .waiting w)
    (hf : h.finished = none) (k : Nat) :
    (holding h).held k = if w.stage ≠ .count ∧ h.shard = k then 1 else 0 := by
  simp only [held, hs, hf]

/-- Past the first stage a handle holds its shard's count permit. -/
theorem held_partial {h : ReadHandle} {w : Waiting} (hs : h.state = .waiting w)
    (hf : h.finished = none) (hw : w.stage ≠ .count) (k : Nat) :
    (holding h).held k = if (holding h).shard = k then 1 else 0 := by
  rw [held_waiting hs hf]
  by_cases hk : h.shard = k <;> simp [hk, hw, Caller.shard]

theorem bytesHeld_waiting {h : ReadHandle} {w : Waiting} (hs : h.state = .waiting w)
    (hf : h.finished = none) :
    (holding h).bytesHeld = if w.stage = .admitted then w.charge else 0 := by
  simp only [bytesHeld, hs, hf]

/-- A handle awaits its count permit at the first stage only. -/
theorem awaitsCount_waiting {h : ReadHandle} {w : Waiting} (hs : h.state = .waiting w)
    (hf : h.finished = none) (k : Nat) :
    (holding h).AwaitsCount k ↔ w.stage = .count ∧ h.shard = k := by
  constructor
  · rintro ⟨h', w', hx, hw, _, hstage, hk⟩
    cases hx
    cases hs.symm.trans hw
    exact ⟨hstage, hk⟩
  · rintro ⟨hstage, hk⟩
    exact ⟨h, w, rfl, hs, hf, hstage, hk⟩

theorem awaitsBytes_waiting {h : ReadHandle} {w : Waiting} (hs : h.state = .waiting w)
    (hf : h.finished = none) (n : Nat) :
    (holding h).AwaitsBytes n ↔ (∃ p, w.stage = .bytes p) ∧ w.charge = n := by
  constructor
  · rintro ⟨h', w', p, hx, hw, _, hstage, hn⟩
    cases hx
    cases hs.symm.trans hw
    exact ⟨⟨p, hstage⟩, hn⟩
  · rintro ⟨⟨p, hstage⟩, hn⟩
    exact ⟨h, w, p, rfl, hs, hf, hstage, hn⟩

/-- The handle of a failed selection holds nothing. -/
theorem held_refused (s : Submit) (r : Option Nat) (k : Nat) (e : TryAcquireError) :
    (∀ j, (holding (s.refused r k e)).held j = 0) ∧ (holding (s.refused r k e)).bytesHeld = 0 := by
  cases e <;> exact ⟨fun _ => rfl, rfl⟩

end Caller

open Caller

/-- An operation of a `submit` that keeps the hand as it is. -/
theorem Act.quiet_submit {c : Params} {id : Nat} {r : Option Nat} {v : View} {s : Submit}
    {y : Caller} (hc : ∀ k, y.held k = (submitting s).held k)
    (hb : v.bytes.isSome = true → y.bytesHeld = (submitting s).bytesHeld) :
    Act c id r v (.submitting s) (some y) v :=
  .quiet hc hb (fun k h => absurd h ((not_awaits_submitting s).1 k))
    (fun _ n h => absurd h ((not_awaits_submitting s).2 n))

/-- Every operation of `submit` is one of the exchanges. -/
theorem Submit.step_act {c : Params} {id : Nat} {r : Option Nat} {v : View} (s : Submit) :
    Act c id r v (.submitting s) (some (s.step id r v).1) (s.step id r v).2 := by
  have hrefuse (k : Nat) (e : TryAcquireError) (hh : ∀ j, (submitting s).held j = 0)
      (hb : (submitting s).bytesHeld = 0) :
      Act c id r v (.submitting s) (some (.holding (s.refused r k e))) v := by
    obtain ⟨hheld, hbytes⟩ := held_refused s r k e
    exact .quiet_submit (fun j => by rw [hheld j, hh j]) (fun _ => by rw [hbytes, hb])
  unfold Submit.step
  split
  · rename_i rest hp
    have hh : ∀ j, (submitting s).held j = 0 := fun j => by simp only [held, hp]
    have hb : (submitting s).bytesHeld = 0 := by simp only [bytesHeld, hp]
    split
    · exact hrefuse _ _ hh hb
    · exact .quiet_submit (fun j => (hh j).symm) (fun _ => hb.symm)
  · rename_i k rest waiting hp
    have hh : ∀ j, (submitting s).held j = 0 := fun j => by simp only [held, hp]
    have hb : (submitting s).bytesHeld = 0 := by simp only [bytesHeld, hp]
    split
    · rename_i sem hs
      exact .takeCount hp hs
    · split
      · simp only
        split
        · exact .quiet_submit (fun j => (hh j).symm) (fun _ => hb.symm)
        · exact .quiet_submit (fun j => (hh j).symm) (fun _ => hb.symm)
      · exact hrefuse _ _ hh hb
  · rename_i k hp
    split
    · rename_i hv
      refine .quiet_submit (fun j => ?_) (fun h => ?_)
      · simp only [Submit.goto, held, hp]
      · rw [hv] at h
        cases h
    · rename_i b hv
      split
      · rename_i b' hb
        exact .takeBytes hp hv hb
      · refine .quiet_submit (fun j => ?_) (fun _ => ?_)
        · simp only [Submit.goto, held, hp]
        · simp only [Submit.goto, bytesHeld, hp]
  · rename_i k e hp
    exact .dropCount hp
  · rename_i waiting hp
    have hh : ∀ j, (submitting s).held j = 0 := fun j => by simp only [held, hp]
    have hb : (submitting s).bytesHeld = 0 := by simp only [bytesHeld, hp]
    split
    · exact hrefuse _ _ hh hb
    · split
      · exact hrefuse _ _ hh hb
      · exact hrefuse _ _ hh hb
  · rename_i k hp
    have hh : ∀ j, (submitting s).held j = if (submitting s).shard = j then 1 else 0 := by
      intro j
      simp only [held, Caller.shard, Submit.shard, hp]
    have hb : (submitting s).bytesHeld = s.charge := by simp only [bytesHeld, hp]
    obtain ⟨hw, hq⟩ := not_awaits_submitting s
    simp only
    split
    · rename_i v' hs
      exact .send hh hb hw hq ⟨rfl, rfl, rfl⟩ rfl hs
    · exact .sendFailed hh hb hw hq fun w hs => by cases hs

/-- An operation of a settled handle keeps its hand empty. -/
theorem Act.quiet_settled {c : Params} {id : Nat} {r : Option Nat} {v : View} {h h' : ReadHandle}
    (hs : ∀ w, h.state = .waiting w → h.finished ≠ none)
    (hs' : ∀ w, h'.state = .waiting w → h'.finished ≠ none) :
    Act c id r v (.holding h) (some (.holding h')) v := by
  obtain ⟨hh, hb, hw, hq⟩ := settled_holding hs
  obtain ⟨hh', hb', _, _⟩ := settled_holding hs'
  refine .quiet (fun k => ?_) (fun _ => ?_) (fun k hk => absurd hk (hw k))
    (fun _ n hn => absurd hn (hq n))
  · rw [heldBy_some, hh, hh']
  · rw [bytesHeldBy_some, hb, hb']

/-- Every operation of a poll is one of the exchanges. -/
theorem ReadHandle.poll_act {c : Params} {id : Nat} {r : Option Nat} {v : View} (h : ReadHandle)
    (hf : h.finished = none) :
    Act c id r v (.holding h) (some (.holding (h.poll id v).1)) (h.poll id v).2 := by
  cases hstate : h.state with
  | inert value =>
    unfold ReadHandle.poll
    rw [hstate]
    exact .quiet_settled (fun w hw => by rw [hstate] at hw; cases hw) (h.finish_settled _)
  | submitted =>
    have hs : ∀ w, h.state = .waiting w → h.finished ≠ none :=
      fun w hw => by rw [hstate] at hw; cases hw
    unfold ReadHandle.poll
    rw [hstate]
    simp only
    split
    · exact .quiet_settled hs hs
    · exact .quiet_settled hs (h.finish_settled _)
    · exact .quiet_settled hs (h.finish_settled _)
  | waiting w =>
    cases hw : w.stage with
    | count => exact .pollCount hstate hf hw
    | bytes p =>
      cases hv : v.bytes with
      | some b => exact .pollBytes hstate hf hw hv
      | none =>
        unfold ReadHandle.poll
        rw [hstate]
        simp only [hw, hv]
        have hstate' : (h.await w .admitted).state = .waiting { w with stage := .admitted } := rfl
        refine .quiet (fun k => ?_) (fun hsome => ?_) (fun k hk => ?_) (fun hsome => ?_)
        · rw [heldBy_some, held_partial hstate hf (by rw [hw]; exact Stage.bytes_ne_count p),
            held_partial hstate' hf Stage.admitted_ne_count]
          rfl
        · rw [hv] at hsome
          cases hsome
        · rw [awaitsCount_waiting hstate hf, hw] at hk
          cases hk.1
        · rw [hv] at hsome
          cases hsome
    | admitted =>
      have hh (j : Nat) : (holding h).held j = if (holding h).shard = j then 1 else 0 :=
        held_partial hstate hf (by rw [hw]; exact Stage.admitted_ne_count) j
      have hb : (holding h).bytesHeld = w.charge := by
        rw [bytesHeld_waiting hstate hf, if_pos hw]
      have hnw (k : Nat) : ¬ (holding h).AwaitsCount k := by
        rw [awaitsCount_waiting hstate hf, hw]
        exact fun hk => Stage.admitted_ne_count hk.1
      have hnq (n : Nat) : ¬ (holding h).AwaitsBytes n := by
        rw [awaitsBytes_waiting hstate hf, hw]
        rintro ⟨⟨p, hp⟩, _⟩
        cases hp
      unfold ReadHandle.poll
      rw [hstate]
      simp only [hw]
      split
      · rename_i v' hs
        exact .send hh hb hnw hnq ⟨w, hstate, rfl, rfl, rfl⟩ rfl hs
      · exact .sendFailed hh hb hnw hnq fun _ _ => Option.some_ne_none _

/-- Dropping a submitted handle closes its receiver and may send a cancel. -/
theorem ReadHandle.drop_submitted {c : Params} {h : ReadHandle} (hs : h.isSubmitted = true)
    (id : Nat) (v : View) : ∃ loop, h.drop id v = { v with loop := loop } ∧
      (v.loop.phase ≠ .aborted → v.loop.Moves c loop) ∧
      loop.hist.requests = v.loop.hist.requests ∧ v.loop.SameThread loop := by
  have hclose (ha : v.loop.phase ≠ .aborted) :
      v.loop.Moves c { v.loop with mail := v.loop.mail.close id } := by
    refine .next (e := .closeRx id) .start trivial ?_
    simp [Shard.step, ha]
  obtain ⟨wake, hstate⟩ := ReadHandle.isSubmitted_iff.mp hs
  unfold ReadHandle.drop
  rw [hstate]
  simp only
  split
  · cases hsend :
        ({ v.loop with mail := v.loop.mail.close id } : Shard).sendMsg id (.cancel id) with
    | none => exact ⟨_, rfl, hclose, rfl, rfl, rfl, rfl, rfl⟩
    | some loop =>
      obtain ⟨_, _, _, rfl⟩ := Shard.sendMsg_eq_some hsend
      refine ⟨_, rfl, fun ha => (hclose ha).trans (Shard.moves_of_sendMsg ha hsend), ?_, rfl, rfl,
        rfl, rfl⟩
      simp [Ledger.send, readMsgs]
  · exact ⟨_, rfl, hclose, rfl, rfl, rfl, rfl, rfl⟩

/-- Every drop of a handle between polls is one of the exchanges. -/
theorem ReadHandle.drop_act {c : Params} {id : Nat} {r : Option Nat} {v : View} {h : ReadHandle}
    (hp : h.polling = false) : Act c id r v (.holding h) none (h.drop id v) := by
  have hsettled (hs : ∀ w, h.state = .waiting w → h.finished ≠ none) :
      Act c id r v (.holding h) none v := by
    obtain ⟨hh, hb, hw, hq⟩ := settled_holding hs
    exact .quiet (fun k => (hh k).symm) (fun _ => hb.symm) (fun k hk => absurd hk (hw k))
      (fun _ n hn => absurd hn (hq n))
  cases hstate : h.state with
  | inert value =>
    unfold ReadHandle.drop
    rw [hstate]
    exact hsettled fun w hw => by rw [hstate] at hw; cases hw
  | submitted wake =>
    have hsub : h.isSubmitted = true := ReadHandle.isSubmitted_iff.mpr ⟨wake, hstate⟩
    obtain ⟨loop, heq, hl, hr, hd⟩ := ReadHandle.drop_submitted (c := c) hsub id v
    rw [heq]
    exact .dropSubmitted hsub hl hr hd
  | waiting w =>
    unfold ReadHandle.drop
    rw [hstate]
    simp only
    split
    · rename_i hf
      refine hsettled fun w' _ hnone => ?_
      rw [hnone] at hf
      cases hf
    · rename_i hf
      have hf : h.finished = none := by simpa using hf
      simp only [ReadHandle.polling, hstate, hf, Option.isNone_none, Bool.true_and] at hp
      cases hw : w.stage with
      | count => exact .dropQueued hstate hf hw
      | bytes p =>
        rw [hw] at hp
        exact .dropPartial hstate hf (by rw [hw]; exact congrArg Stage.bytes hp)
      | admitted =>
        rw [hw] at hp
        cases hp

/-- Every operation of a caller is one of the exchanges. -/
theorem Caller.act_cases {c : Params} {x : Caller} {y : Option Caller} {e : CallerEvent} {id : Nat}
    {r : Option Nat} {v v' : View} (h : x.act e id r v = some (y, v')) : Act c id r v x y v' := by
  unfold Caller.act at h
  split at h
  · rename_i s
    cases h
    exact s.step_act
  · rename_i hd
    split at h
    · cases h
    · rename_i hf
      cases h
      exact hd.poll_act (by simpa using hf)
  · rename_i hd
    split at h
    · cases h
    · cases h
      refine .quiet (fun k => rfl) (fun _ => rfl) ?_ ?_
      · rintro k ⟨h', w, hx, hs, hf, hw, hk⟩
        cases hx
        exact ⟨_, rfl, _, w, rfl, hs, hf, hw, hk⟩
      · rintro _ n ⟨h', w, p, hx, hs, hf, hw, hn⟩
        cases hx
        exact ⟨_, rfl, _, w, p, rfl, hs, hf, hw, hn⟩
  · rename_i hd
    split at h
    · cases h
    · rename_i hp
      cases h
      exact hd.drop_act (Bool.eq_false_iff.mpr hp)
  · cases h

/-- The operations after which the caller is still there. -/
inductive Caller.Remains (id : Nat) (r : Option Nat) (v : View) :
    Caller → CallerEvent → Caller → View → Prop
  | call (s : Submit) : Remains id r v (.submitting s) .call (s.step id r v).1 (s.step id r v).2
  | poll (h : ReadHandle) (hf : h.finished = none) :
      Remains id r v (.holding h) .poll (.holding (h.poll id v).1) (h.poll id v).2
  | keep (h : ReadHandle) : Remains id r v (.holding h) .keep
      (.holding { h with cancelOnDrop := false }) v

theorem Caller.act_remains {x x' : Caller} {e : CallerEvent} {id : Nat} {r : Option Nat}
    {v v' : View} (h : x.act e id r v = some (some x', v')) : x.Remains id r v e x' v' := by
  unfold Caller.act at h
  split at h
  · cases h
    exact .call _
  · split at h
    · cases h
    · rename_i hf
      cases h
      exact .poll _ (Option.not_isSome_iff_eq_none.mp hf)
  · split at h <;> cases h
    exact .keep _
  · split at h <;> cases h
  · cases h

end Uring
