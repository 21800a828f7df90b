import Uring.Core.Fairness
import Uring.Driver.Admission
import Uring.Driver.Bound
import Uring.Driver.Select
import Uring.Read.Validation

/-!
# Deferred handles make progress

Count permits are acquired before bytes, and both queues are served in order. When nobody
but deferred handles has permits, some queue has a waiter that lacks none, or the bytes
are all free; so the next poll of some polled handle acquires everything it waits for.
-/

namespace Uring

open Uring.Core

/-- The semaphores of a view serve their waiters in order. -/
structure View.Served (v : View) : Prop where
  sem : v.sem.Served
  bytes : ∀ b, v.bytes = some b → b.Served

namespace View.Served

variable {v : View}

/-- Byte semaphores after an update of the one there is. -/
theorem map_bytes (h : v.Served)
    {f : Semaphore → Semaphore} (hf : ∀ b : Semaphore, b.Served → (f b).Served) :
    ∀ b, v.bytes.map f = some b → b.Served := by
  intro b hb
  obtain ⟨b, hold, rfl⟩ := Option.map_eq_some_iff.mp hb
  exact hf b (h.bytes b hold)

theorem dropPermits (h : v.Served) (p : ReadPermits) : (v.dropPermits p).Served :=
  ⟨h.sem.release _, h.map_bytes fun _ hb => hb.release _⟩

theorem poll (h : v.Served) (hd : ReadHandle) (id : Nat) : (hd.poll id v).2.Served := by
  unfold ReadHandle.poll
  split
  · exact h
  · split <;> exact h
  · rename_i w hs
    split
    · have hpoll := h.sem.pollAcquire id 1
      split
      all_goals
        rename_i sem heq
        rw [heq] at hpoll
      · exact ⟨hpoll, h.bytes⟩
      · exact ⟨hpoll.cancel id, h.bytes⟩
      · exact ⟨hpoll, h.bytes⟩
    · split
      · exact h
      · rename_i b hb
        have hpoll := (h.bytes b hb).pollAcquire id w.charge
        split
        all_goals
          rename_i b' heq
          rw [heq] at hpoll
        · exact ⟨h.sem, fun _ hb' => Option.some.inj hb' ▸ hpoll⟩
        · exact ⟨h.sem.release 1, fun _ hb' => Option.some.inj hb' ▸ hpoll.cancel id⟩
        · exact ⟨h.sem, fun _ hb' => Option.some.inj hb' ▸ hpoll⟩
    · simp only
      split
      · rename_i v' hv'
        obtain ⟨hsem, hbytes, _⟩ := View.sendRead_eq_some hv'
        exact ⟨hsem ▸ h.sem, hbytes ▸ h.bytes⟩
      · exact h.dropPermits _

/-- One operation of a caller. -/
theorem act {c : Params} {id : Nat} {r : Option Nat} {x : Caller} {y : Option Caller} {v' : View}
    (h : v.Served) (ha : Act c id r v x y v') : v'.Served := by
  cases ha with
  | quiet => exact h
  | takeCount hp hs => exact ⟨h.sem.tryAcquire hs, h.bytes⟩
  | takeBytes hp hv hb =>
    exact ⟨h.sem, fun b' hb' => Option.some.inj hb' ▸ (h.bytes _ hv).tryAcquire hb⟩
  | dropCount hp => exact ⟨h.sem.release 1, h.bytes⟩
  | send hh hx hw hq hm hy hs =>
    obtain ⟨hsem, hbytes, _⟩ := View.sendRead_eq_some hs
    exact ⟨hsem ▸ h.sem, hbytes ▸ h.bytes⟩
  | sendFailed hh hx hw hq hy => exact h.dropPermits _
  | pollCount hs hf hw => exact h.poll _ id
  | pollBytes hs hf hw hv => exact h.poll _ id
  | dropQueued hs hf hw => exact ⟨h.sem.cancel id, h.bytes⟩
  | dropPartial hs hf hw => exact ⟨h.sem.release 1, h.map_bytes fun _ hb => hb.cancel id⟩
  | dropSubmitted hs hl hr ht => exact ⟨h.sem, h.bytes⟩

/-- One step of a loop. -/
theorem turn {c : Params} {e : Event} {v' : View} (h : v.Served) (ht : v.turn c e = some v') :
    v'.Served := by
  simp only [View.turn, Option.bind_eq_bind, Option.bind_eq_some_iff, Option.pure_def,
    Option.some.injEq] at ht
  obtain ⟨loop, _, rfl⟩ := ht
  have hstart : View.Served
      { v with loop := loop, sem := if e = .closeSem then v.sem.close else v.sem } := by
    refine ⟨?_, h.bytes⟩
    simp only
    split
    · exact h.sem.close
    · exact h.sem
  generalize loop.hist.released.drop v.loop.hist.released.length = freed
  revert hstart
  generalize
    ({ v with loop := loop, sem := if e = .closeSem then v.sem.close else v.sem } : View) = u
  intro hstart
  induction freed generalizing u with
  | nil => exact hstart
  | cons p freed ih => exact ih _ (hstart.dropPermits p)

end View.Served

/-- A semaphore that was at most closed serves its waiters as before. -/
theorem Core.Semaphore.Kept.served {s s' : Semaphore} (h : s.Kept s') (hs : s.Served) :
    s'.Served := by
  obtain ⟨hpermits, hwaiters⟩ := h.queue
  refine ⟨fun hopen => ?_, hwaiters ▸ hs.lined⟩
  have hopen' : s.closed = false := by
    cases hc : s.closed with
    | false => rfl
    | true => rw [h.closed hc] at hopen; cases hopen
  rw [hpermits, hwaiters]
  exact hs.fair hopen'

namespace Driver

/-- Every semaphore of a driver serves its waiters in order. -/
structure Served (d : Driver) : Prop where
  cells : ∀ cell ∈ d.cells, cell.sem.Served
  bytes : ∀ b, d.bytes = some b → b.Served

namespace Served

variable {cfg : Config} {r : Option Nat}

theorem init : (Driver.init cfg r).Served := by
  refine ⟨fun _ h => (nomatch h), fun b hb => ?_⟩
  obtain ⟨n, _, rfl⟩ := Option.map_eq_some_iff.mp hb
  exact .new n

theorem view {d : Driver} (h : d.Served) {k : Nat} {v : View} (hv : d.view k = some v) :
    v.Served := by
  obtain ⟨cell, hcell, rfl⟩ := view_eq_some hv
  exact ⟨h.cells cell (List.mem_of_getElem? hcell), h.bytes⟩

theorem install {d : Driver} (h : d.Served) (k : Nat) {v : View} (hv : v.Served) :
    (d.install k v).Served := by
  refine ⟨fun cell hcell => ?_, hv.bytes⟩
  rcases mem_modify_cases hcell with ⟨b, _, rfl⟩ | hold
  · exact hv.sem
  · exact h.cells cell hold

theorem put {d : Driver} (h : d.Served) (id : Nat) (y : Option Caller) : (d.put id y).Served :=
  ⟨put_cells d id y ▸ h.cells, put_bytes d id y ▸ h.bytes⟩

theorem kept {c : Params} {d d' : Driver} (h : d.Served) (hk : d.Kept c d') : d'.Served := by
  constructor
  · intro cell hcell
    obtain ⟨k, hget⟩ := List.mem_iff_getElem?.mp hcell
    obtain ⟨a, ha, hab⟩ := forall₂_getElem? hk.cells hget
    exact hab.sem.served (h.cells a (List.mem_of_getElem? ha))
  · intro b' hb'
    have hrel := hk.bytes
    rw [hb'] at hrel
    cases hb : d.bytes with
    | none =>
      rw [hb] at hrel
      cases hrel
    | some b =>
      rw [hb] at hrel
      exact hrel.served (h.bytes b hb)

theorem start {d : Driver} (h : d.Served) : (d.startShard cfg).Served := by
  refine ⟨fun cell hcell => ?_, h.bytes⟩
  rcases List.mem_append.mp hcell with hold | hnew
  · exact h.cells cell hold
  · rw [List.mem_singleton.mp hnew]
    simp only
    split
    · exact (Semaphore.Served.new _).close
    · exact .new _

theorem move {d d' : Driver} {e : DriverEvent} (h : d.Served) (hm : Move cfg d e d') :
    d'.Served := by
  cases hm with
  | kept _ hk hl => exact h.kept hk
  | start hl => exact h.start
  | submit hl hid hx => exact ⟨h.cells, h.bytes⟩
  | caller hx hv ha =>
    exact (h.install _ ((h.view hv).act (Caller.act_cases (c := cfg.params) ha))).put _ _
  | turn hv he ht => exact h.install _ ((h.view hv).turn ht)

end Served

theorem Reach.served {cfg : Config} {r : Option Nat} {d : Driver} (h : Reach cfg r d) : d.Served :=
  h.invariant .init fun _ _ _ _ hi _ hs => hi.move (step_move hs)

/-- A selection in a reachable state finds fair semaphores. -/
theorem Reach.sems_fair {cfg : Config} {r : Option Nat} {d : Driver} (h : Reach cfg r d) :
    ∀ s ∈ d.sems.counts, s.Fair := by
  intro s hs
  obtain ⟨cell, hcell, rfl⟩ := List.mem_map.mp hs
  exact (h.served.cells cell hcell).fair

/-- The permits caller `id` is queued for at shard `k`. -/
def claimAt (d : Driver) (k id : Nat) : Option Nat :=
  (d.cells[k]?).bind fun cell => cell.sem.claim id

/-- A waiting handle is queued for its count permit or already past it. -/
def InLine (d : Driver) (id : Nat) (h : ReadHandle) (w : Waiting) : Prop :=
  w.stage ≠ .count ∨ d.claimAt h.shard id ≠ none

/-- A label polls the handle `id`. -/
abbrev polls (id : Nat) : DriverEvent := .caller id .poll

/-- Exactly the handles polled in a run stand in line after it. -/
structure Lines (es : List DriverEvent) (d : Driver) : Prop where
  waiting : ∀ id h w, d.callers.lookup id = some (.holding h) → h.state = .waiting w →
    h.finished = none → (polls id ∈ es ↔ d.InLine id h w)
  submitting : ∀ id s, d.callers.lookup id = some (.submitting s) → polls id ∉ es
  fresh : ∀ id, d.nextId ≤ id → polls id ∉ es

theorem claimAt_kept {c : Params} {d d' : Driver} (h : d.Kept c d') : d'.claimAt = d.claimAt := by
  have hmap : d'.cells.map (fun cell => cell.sem.claim) = d.cells.map fun cell => cell.sem.claim :=
    map_eq_of_forall₂ h.cells fun _ _ hab => hab.sem.claim
  have hread (d : Driver) (k id : Nat) : d.claimAt k id =
      ((d.cells.map fun cell => cell.sem.claim)[k]?).bind fun f => f id := by
    rw [claimAt, List.getElem?_map]
    cases d.cells[k]? <;> rfl
  funext k id
  rw [hread, hread, hmap]

/-- Claims through an installed view. -/
theorem claimAt_install {d : Driver} {k : Nat} {v v' : View} (hv : d.view k = some v) {id : Nat}
    (h : v'.sem.claim id = v.sem.claim id) (j : Nat) :
    (d.install k v').claimAt j id = d.claimAt j id := by
  obtain ⟨cell, hcell, rfl⟩ := view_eq_some hv
  simp only [claimAt, install, List.getElem?_modify]
  by_cases hj : k = j
  · subst hj
    rw [hcell]
    simpa using h
  · simp [hj]

theorem claimAt_install_self {d : Driver} {k : Nat} {v v' : View} (hv : d.view k = some v)
    (id : Nat) : (d.install k v').claimAt k id = v'.sem.claim id := by
  obtain ⟨cell, hcell, rfl⟩ := view_eq_some hv
  simp [claimAt, install, hcell]

theorem claimAt_put (d : Driver) (id : Nat) (y : Option Caller) :
    (d.put id y).claimAt = d.claimAt := by
  cases y <;> rfl


/-- A `submit` queues nobody. -/
theorem claim_step (c : Submit) (id : Nat) (r : Option Nat) (v : View) :
    (c.step id r v).2.sem.claim = v.sem.claim := by
  unfold Submit.step
  split
  · split <;> rfl
  · split
    · rename_i sem hacq
      exact (Semaphore.tryAcquire_ok hacq).2.2.2
    · split
      · simp only
        split <;> rfl
      · rfl
  · split
    · rfl
    · split <;> rfl
  · exact funext (v.sem.claim_release 1)
  · split
    · rfl
    · split <;> rfl
  · simp only
    split
    · rename_i v' hs
      rw [(View.sendRead_eq_some hs).1]
    · exact funext (v.sem.claim_release 1)

/-- A handle that `submit` returns waits for its first poll. -/
theorem stage_step {c : Submit} {id : Nat} {r : Option Nat} {v : View} {h : ReadHandle}
    {w : Waiting} (hc : (c.step id r v).1 = .holding h) (hs : h.state = .waiting w) :
    w.stage = .count := by
  have hrefused {k : Nat} {e : TryAcquireError}
      (hr : Caller.holding (c.refused r k e) = .holding h) : w.stage = .count := by
    cases hr
    cases e <;> cases hs
    rfl
  unfold Submit.step at hc
  split at hc
  · split at hc
    · exact hrefused hc
    · cases hc
  · split at hc
    · cases hc
    · split at hc
      · simp only at hc
        split at hc <;> cases hc
      · exact hrefused hc
  · split at hc
    · cases hc
    · split at hc <;> cases hc
  · exact hrefused hc
  · split at hc
    · exact hrefused hc
    · split at hc <;> exact hrefused hc
  · simp only at hc
    split at hc <;> cases hc <;> cases hs

/-- A handle stays with its shard. -/
theorem shard_poll (h : ReadHandle) (id : Nat) (v : View) : (h.poll id v).1.shard = h.shard := by
  unfold ReadHandle.poll
  split
  · rfl
  · split <;> rfl
  · split
    · split <;> rfl
    · split
      · rfl
      · split <;> rfl
    · simp only
      split <;> rfl

/-- A begun `submit` waits for nothing. -/
theorem not_waiting_begun {cfg : Config} {d : Driver} {req : Request} {x : Caller}
    (hx : Begun cfg d req x) {h : ReadHandle} (hh : x = .holding h) (w : Waiting) :
    h.state ≠ .waiting w := by
  cases hx with
  | invalid he =>
    obtain rfl := Caller.holding.inj hh
    exact nofun
  | valid hn => cases hh

/-- A poll that leaves its handle waiting leaves it in line. -/
theorem inLine_poll {h h' : ReadHandle} {id : Nat} {v v' : View} {w : Waiting}
    (hc : v.sem.claim id = none ∨ v.sem.claim id = some 1) (hp : h.poll id v = (h', v'))
    (hs' : h'.state = .waiting w) (hf' : h'.finished = none) :
    w.stage ≠ .count ∨ v'.sem.claim id ≠ none := by
  unfold ReadHandle.poll at hp
  split at hp
  · cases hp
    cases hf'
  · rename_i hs
    split at hp <;> cases hp
    · rw [hs] at hs'
      cases hs'
    · cases hf'
    · cases hf'
  · rename_i u hs
    split at hp
    · -- the count acquire is queued, failed, or past
      rcases Semaphore.pollAcquire_cases hc with ⟨_, heq⟩ | ⟨_, sem, heq, _, _, hclaim⟩ |
        ⟨_, sem, heq, _⟩
      · rw [heq] at hp
        cases hp
        cases hf'
      · rw [heq] at hp
        cases hp
        right
        rw [hclaim, if_pos rfl]
        exact nofun
      · rw [heq] at hp
        cases hp
        cases hs'
        left
        simp only
        split <;> exact nofun
    · split at hp
      · cases hp
        cases hs'
        exact Or.inl nofun
      · split at hp <;> cases hp
        · cases hs'
          exact Or.inl nofun
        · cases hf'
        · cases hs'
          exact Or.inl nofun
    · simp only at hp
      split at hp <;> cases hp <;> cases hs'

namespace Lines

variable {cfg : Config} {r : Option Nat} {es : List DriverEvent} {d d' : Driver}

/-- A step that polls nobody and changes no claim of an old caller. -/
theorem same {e : DriverEvent} (h : d.Lines es) (he : ∀ id, e ≠ polls id)
    (hcallers : ∀ id x, d'.callers.lookup id = some x → d.callers.lookup id = some x ∨
      ((∀ hd w, x = .holding hd → hd.state ≠ .waiting w) ∧ d.nextId ≤ id))
    (hclaims : d'.claimAt = d.claimAt) (hid : d.nextId ≤ d'.nextId) : d'.Lines (es ++ [e]) := by
  have hmem (id : Nat) : polls id ∈ es ++ [e] ↔ polls id ∈ es := by
    rw [List.mem_append, List.mem_singleton]
    exact ⟨fun h => h.resolve_right fun heq => he id heq.symm, Or.inl⟩
  refine ⟨fun id hd w hx hs hf => ?_, fun id s hx => ?_, fun id hle => ?_⟩
  · rw [hmem]
    rcases hcallers id _ hx with hold | ⟨hnew, _⟩
    · rw [h.waiting id hd w hold hs hf, InLine, InLine, hclaims]
    · exact absurd hs (hnew hd w rfl)
  · rw [hmem]
    rcases hcallers id _ hx with hold | ⟨_, hle⟩
    · exact h.submitting id s hold
    · exact h.fresh id hle
  · rw [hmem]
    exact h.fresh id (hid.trans hle)

/-- One operation of a caller. -/
theorem caller (h : d.Lines es) (hw : d.Wired cfg r) (hc : d.Counted cfg)
    {id : Nat} {e : CallerEvent}
    {x : Caller} {y : Option Caller} {v v' : View} (hx : d.callers.lookup id = some x)
    (hv : d.view x.shard = some v) (ha : x.act e id d.reservation v = some (y, v')) :
    ((d.install x.shard v').put id y).Lines (es ++ [.caller id e]) := by
  obtain ⟨cell, hcell, heq⟩ := view_eq_some hv
  have hclaim (k n : Nat) (hn : d.claimAt k id = some n) : n = 1 ∧ x.AwaitsCount k := by
    obtain ⟨cell, hcell, hn⟩ := Option.bind_eq_some_iff.mp hn
    obtain ⟨hone, x', hx', hawait⟩ := hc.claims k cell hcell id n hn
    obtain rfl : x' = x := Option.some.inj (hx'.symm.trans hx)
    exact ⟨hone, hawait⟩
  have hsem : v.sem.claim id = d.claimAt x.shard id := by
    rw [claimAt, hcell, heq]
    rfl
  have hkept := (Caller.act_cases (c := cfg.params) ha).count fun n hn => hclaim _ n (hsem ▸ hn)
  have hother (k j : Nat) (hj : j ≠ id) :
      ((d.install x.shard v').put id y).claimAt k j = d.claimAt k j := by
    rw [claimAt_put]
    exact claimAt_install hv (hkept.others j hj) k
  have hmem (j : Nat) (hj : j ≠ id) : polls j ∈ es ++ [.caller id e] ↔ polls j ∈ es := by
    rw [List.mem_append, List.mem_singleton]
    refine ⟨fun h => h.resolve_right fun heq => hj ?_, Or.inl⟩
    injection heq
  refine ⟨fun j hd w hlook hs hf => ?_, fun j s hlook => ?_, fun j hle => ?_⟩
  · by_cases hj : j = id
    · rw [hj, lookup_put_self] at hlook
      subst hj hlook
      rw [List.mem_append, List.mem_singleton, InLine, claimAt_put]
      unfold Caller.act at ha
      split at ha
      · -- a call that just returned is neither polled nor queued
        rename_i c
        obtain ⟨hstep, rfl⟩ := Prod.mk.inj (Option.some.inj ha)
        have hstage := stage_step (Option.some.inj hstep) hs
        have hnone : d.claimAt hd.shard j = none := by
          refine Option.eq_none_iff_forall_ne_some.mpr fun n hn => ?_
          exact (Caller.not_awaits_submitting c).1 _ (hclaim _ n hn).2
        rw [claimAt_install hv (congrFun (claim_step c j d.reservation v) j), hnone, hstage]
        refine iff_of_false (not_or.mpr ⟨h.submitting j c hx, nofun⟩) (by simp)
      · rename_i hold
        split at ha
        · cases ha
        · rename_i hfold
          obtain ⟨hstep, rfl⟩ := Prod.mk.inj (Option.some.inj ha)
          obtain rfl := Caller.holding.inj (Option.some.inj hstep)
          refine iff_of_true (Or.inr rfl) ((inLine_poll ?_ rfl hs hf).imp_right fun hq => ?_)
          · rw [hsem]
            cases hn : d.claimAt (Caller.holding hold).shard j with
            | none => exact Or.inl rfl
            | some n => exact Or.inr (congrArg some (hclaim _ n hn).1)
          · rw [shard_poll]
            exact fun hn => hq ((claimAt_install_self hv j).symm.trans hn)
      · rename_i hold
        split at ha
        · cases ha
        · obtain ⟨hstep, rfl⟩ := Prod.mk.inj (Option.some.inj ha)
          obtain rfl := Caller.holding.inj (Option.some.inj hstep)
          rw [claimAt_install hv rfl]
          have hold := h.waiting j hold w hx hs hf
          exact ⟨fun hm => hold.mp (hm.resolve_right nofun), fun hl => Or.inl (hold.mpr hl)⟩
      · split at ha <;> cases ha
      · cases ha
    · rw [lookup_put_of_ne _ hj] at hlook
      rw [hmem j hj, h.waiting j hd w hlook hs hf, InLine, InLine, hother _ j hj]
  · by_cases hj : j = id
    · rw [hj, lookup_put_self] at hlook
      subst hj hlook
      -- only a running call stays one
      unfold Caller.act at ha
      split at ha
      · rename_i c
        rw [List.mem_append, List.mem_singleton]
        exact not_or.mpr ⟨h.submitting j c hx, nofun⟩
      · split at ha <;> cases ha
      · split at ha <;> cases ha
      · split at ha <;> cases ha
      · cases ha
    · rw [lookup_put_of_ne _ hj] at hlook
      rw [hmem j hj]
      exact h.submitting j s hlook
  · rw [put_nextId] at hle
    have hlt : id < d.nextId := hw.known id x hx
    have hle' : d.nextId ≤ j := hle
    rw [hmem j (by omega)]
    exact h.fresh j hle

theorem move {e : DriverEvent} (h : d.Lines es) (hw : d.Wired cfg r) (hc : d.Counted cfg)
    (hm : Move cfg d e d') : d'.Lines (es ++ [e]) := by
  cases hm with
  | kept he hk hl =>
    refine h.same (fun id => he id _) (fun id x hx => Or.inl ?_) (claimAt_kept hk) hk.nextId.ge
    rw [← hk.callers]
    exact hx
  | start hl =>
    have hnone (id : Nat) : (d.startShard cfg).callers.lookup id = none := by
      rw [startShard, hw.starting hl]
      rfl
    refine ⟨fun id hd w hx => ?_, fun id s hx => ?_, fun id hle => ?_⟩
    · rw [hnone] at hx
      cases hx
    · rw [hnone] at hx
      cases hx
    · rw [List.mem_append, List.mem_singleton, not_or]
      exact ⟨h.fresh id hle, fun heq => by cases heq⟩
  | @submit req x n hl hid hx =>
    refine h.same (fun id heq => by cases heq) (fun id z hz => ?_) rfl ?_
    · by_cases hj : id = d.nextId
      · subst hj
        obtain rfl := Option.some.inj ((AList.lookup_insert _).symm.trans hz)
        exact Or.inr ⟨fun hd w hh => not_waiting_begun hx hh w, Nat.le_refl _⟩
      · left
        rw [← hz]
        exact (AList.lookup_insert_ne hj).symm
    · simp only
      rw [fetchAdd_of_lt (by unfold cancelBit at hid; omega)]
      exact Nat.le_succ _
  | caller hx hv ha => exact h.caller hw hc hx hv ha
  | turn hv he ht =>
    obtain ⟨freed, hturn⟩ := hw.turn_cases hv he ht
    refine h.same (fun id heq => by cases heq) (fun id x hx => Or.inl hx) ?_ (Nat.le_refl _)
    funext k id
    exact claimAt_install hv (congrFun hturn.claim id) k

end Lines

/-- After a run exactly the handles polled in it stand in line. -/
theorem lines_of_run {cfg : Config} {r : Option Nat} {es : List DriverEvent} {d : Driver}
    (h : run (step cfg) (init cfg r) es = some d) : d.Lines es := by
  refine run_history (P := fun es d => d.Lines es) ?_ (fun es t e t' hrun ht hs => ?_) h
  · refine ⟨fun id hd w hx => ?_, fun id s hx => ?_, fun _ _ => List.not_mem_nil⟩
    · cases hx
    · cases hx
  · have hr : Reach cfg r t := reachable_of_run_any hrun
    exact ht.move (Reach.wired hr) (Reach.counted hr) (step_move hs)

/-- No semaphore is closed. -/
structure AllOpen (d : Driver) : Prop where
  counts : ∀ cell ∈ d.cells, cell.sem.closed = false
  bytes : ∀ b, d.bytes = some b → b.closed = false

/-- Nobody but deferred handles has permits: no running `submit`, no queued message, no
pending or leaked entry. -/
structure Unloaded (d : Driver) : Prop where
  counts : ∀ k, d.submitCounts k = 0
  bytes : d.submitBytes = 0
  queue : ∀ cell ∈ d.cells, readMsgs cell.loop.chan = []
  table : ∀ cell ∈ d.cells, cell.loop.pending.size = 0

/-- A handle that was deferred and neither admitted nor finished. -/
def Deferred (d : Driver) (id : Nat) (h : ReadHandle) (w : Waiting) : Prop :=
  d.callers.lookup id = some (.holding h) ∧ h.state = .waiting w ∧ h.finished = none

end Driver

/-- An accepted request fits the byte limit. -/
theorem Admissible.charge_le {cfg : Config} {req : Request} {charge limit : Nat}
    (h : Admissible cfg req charge)
    (hl : cfg.limits.maxInFlightBytes = some limit) : charge ≤ limit := by
  obtain ⟨n, hn, rfl⟩ := h
  have hle := exceeds_eq_false.mp (validateRead_bytes hn) limit hl
  exact (Nat.mod_le n _).trans hle

/-- One poll of a handle, alone, acquires everything the handle waits for. A poll that has
it already is left where it stands. -/
inductive ReadHandle.PollAdmits (id : Nat) : ReadHandle → View → Prop
  | acquired {h : ReadHandle} {v : View} {w : Waiting} (hs : h.state = .waiting w)
      (hf : h.finished = none) (hw : w.stage = .admitted) : PollAdmits id h v
  | operation {h : ReadHandle} {v : View} (hp : (h.poll id v).1.polling = true)
      (hrest : PollAdmits id (h.poll id v).1 (h.poll id v).2) : PollAdmits id h v

namespace Driver

variable {cfg : Config} {r : Option Nat} {d : Driver}

/-- With enough bytes free or granted, the byte stage of a poll succeeds. -/
theorem pollAdmits_bytes {h : ReadHandle} {w : Waiting} {id : Nat} {p : Bool} {v : View}
    {b : Semaphore}
    (hs : h.state = .waiting w) (hf : h.finished = none) (hw : w.stage = .bytes p)
    (hb : v.bytes = some b) (hready : (b.pollAcquire id w.charge).1 = .ready) :
    h.PollAdmits id v := by
  obtain ⟨b', hb'⟩ : ∃ b', b.pollAcquire id w.charge = (.ready, b') := ⟨_, Prod.ext hready rfl⟩
  have hpoll : h.poll id v = (h.await w .admitted, { v with bytes := some b' }) := by
    simp only [ReadHandle.poll, hs, hw, hb, hb']
  refine .operation ?_ (.acquired (w := { w with stage := .admitted }) ?_ ?_ rfl)
  · rw [hpoll]
    simp [ReadHandle.polling, ReadHandle.await, hf, Stage.polling]
  · rw [hpoll]
    rfl
  · rw [hpoll]
    exact hf

/-- With a count permit free or granted, a poll goes on to the byte stage. -/
theorem pollAdmits_count {h : ReadHandle} {w : Waiting} {id : Nat} {v : View} {b : Semaphore}
    (hs : h.state = .waiting w) (hf : h.finished = none) (hw : w.stage = .count)
    (hb : v.bytes = some b) (hready : (v.sem.pollAcquire id 1).1 = .ready)
    (hbytes : (b.pollAcquire id w.charge).1 = .ready) : h.PollAdmits id v := by
  obtain ⟨sem, hsem⟩ : ∃ sem, v.sem.pollAcquire id 1 = (.ready, sem) := ⟨_, Prod.ext hready rfl⟩
  have hpoll : h.poll id v = (h.await w (.bytes true), { v with sem := sem }) := by
    simp only [ReadHandle.poll, hs, hw, hsem, hb, Option.isSome_some, if_true]
  refine .operation ?_ ?_
  · rw [hpoll]
    simp [ReadHandle.polling, ReadHandle.await, hf, Stage.polling]
  · rw [hpoll]
    exact pollAdmits_bytes (w := { w with stage := .bytes true }) rfl hf rfl hb hbytes

/-- When nobody is past its acquires, free and granted bytes are all there are. -/
theorem Unloaded.bytes_value (hu : d.Unloaded) (ha : AdmissionAccounted cfg d) {b : Semaphore}
    (hb : d.bytes = some b) {limit : Nat} (hl : cfg.limits.maxInFlightBytes = some limit)
    (hnone : ∀ id h w, d.Deferred id h w → w.stage ≠ .admitted) : b.value = limit := by
  have hhandles : d.handleBytes = 0 := by
    refine AList.total_eq_zero_iff.mpr fun id x hx => ?_
    cases x with
    | submitting s => rfl
    | holding h =>
      simp only [Caller.bytesHeld]
      split
      · rename_i w hs hf
        exact if_neg (hnone id h w ⟨hx, hs, hf⟩)
      · rfl
  have howned : (d.cells.map fun cell => cell.loop.bytesOwned).sum = 0 := by
    refine List.sum_eq_zero fun n hn => ?_
    obtain ⟨cell, hcell, rfl⟩ := List.mem_map.mp hn
    have hempty := AList.size_eq_zero_iff.mp (hu.table cell hcell)
    have hpending : (cell.loop.pending.total fun p => p.permit.byteCount) = 0 := by
      refine List.sum_eq_zero fun n hn => ?_
      obtain ⟨e, he, rfl⟩ := List.mem_map.mp hn
      exact absurd (AList.mem_keys.mpr (List.mem_map_of_mem he)) (hempty e.1)
    rw [Shard.bytesOwned, hu.queue cell hcell, hpending]
    rfl
  have hsum := ha.bytes b hb limit hl
  rw [Semaphore.value]
  rw [hhandles, hu.bytes, howned] at hsum
  omega

/-- When every deferred handle still awaits its count permit, free and granted permits are
all there are. -/
theorem Unloaded.counts_value (hu : d.Unloaded) (ha : AdmissionAccounted cfg d)
    {k : Nat} {cell : Cell}
    (hk : d.cells[k]? = some cell) (hcount : ∀ id h w, d.Deferred id h w → w.stage = .count) :
    cell.sem.value = cfg.params.entries := by
  have hmem := List.mem_of_getElem? hk
  have hhandles : d.handleCounts k = 0 := by
    refine AList.total_eq_zero_iff.mpr fun id x hx => ?_
    cases x with
    | submitting s => rfl
    | holding h =>
      simp only [Caller.held]
      split
      · rename_i w hs hf
        exact if_neg fun hc => hc.1 (hcount id h w ⟨hx, hs, hf⟩)
      · rfl
  have hsum := ha.counts k cell hk
  rw [hhandles, hu.counts k, hu.queue cell hmem, hu.table cell hmem] at hsum
  rw [Semaphore.value]
  simp only [List.length_nil] at hsum
  omega

/-- Where no semaphore is closed and nobody but deferred handles has permits, a poll of some
polled deferred handle, alone, acquires everything that handle waits for. A ring has at
least one entry, as its setup refuses zero. -/
theorem deferred_admission_progresses (cfg : Config) (r : Option Nat) {limit : Nat}
    (hl : cfg.limits.maxInFlightBytes = some limit) (hring : 0 < cfg.params.entries)
    {es : List DriverEvent} {d : Driver} (hrun : run (step cfg) (init cfg r) es = some d)
    (hopen : d.AllOpen) (hu : d.Unloaded) {id₀ : Nat} {h₀ : ReadHandle} {w₀ : Waiting}
    (hdef : d.Deferred id₀ h₀ w₀) (hpolled : polls id₀ ∈ es) :
    ∃ id h w v, d.Deferred id h w ∧ polls id ∈ es ∧ d.view h.shard = some v ∧
      h.PollAdmits id v := by
  have hr : Reach cfg r d := reachable_of_run_any hrun
  have hw := Reach.wired hr
  have hbound := Reach.allBound hr
  have hserved := Reach.served hr
  have hlines := lines_of_run hrun
  have hacct := admission_accounted cfg r d hr
  obtain ⟨b, hb⟩ : ∃ b, d.bytes = some b :=
    Option.isSome_iff_exists.mp (hw.limited.trans (by rw [hl]; rfl))
  have hbopen := hopen.bytes b hb
  have hcharge {id : Nat} {h : ReadHandle} {w : Waiting} (hd : d.Deferred id h w) :
      w.charge ≤ limit :=
    (hw.valid id _ hd.1 w hd.2.1).1.charge_le hl
  have hview {id : Nat} {h : ReadHandle} {w : Waiting} (hd : d.Deferred id h w) :
      ∃ cell, d.cells[h.shard]? = some cell ∧
        d.view h.shard = some ⟨cell.loop, cell.sem, d.bytes⟩ := by
    obtain ⟨v, hv⟩ := hbound.view_of_lookup hd.1
    obtain ⟨cell, hcell, rfl⟩ := view_eq_some hv
    exact ⟨cell, hcell, hv⟩
  have hline {id : Nat} {h : ReadHandle} {w : Waiting} (hd : d.Deferred id h w)
      (hi : d.InLine id h w) :
      polls id ∈ es := (hlines.waiting id h w hd.1 hd.2.1 hd.2.2).mpr hi
  by_cases hadm : ∃ id h w, d.Deferred id h w ∧ w.stage = .admitted
  · -- a running poll already has everything
    obtain ⟨id, h, w, hd, hst⟩ := hadm
    obtain ⟨cell, _, hv⟩ := hview hd
    exact ⟨id, h, w, _, hd, hline hd (Or.inl (hst ▸ Stage.admitted_ne_count)), hv,
      .acquired hd.2.1 hd.2.2 hst⟩
  simp only [not_exists, not_and] at hadm
  have hvalue := hu.bytes_value hacct hb hl hadm
  by_cases hq : b.waiters = []
  · -- the bytes are all free
    have hfree : b.permits = limit := by
      rw [Semaphore.value, hq] at hvalue
      exact hvalue
    have hready {id : Nat} {h : ReadHandle} {w : Waiting} (hd : d.Deferred id h w) :
        (b.pollAcquire id w.charge).1 = .ready :=
      Semaphore.pollAcquire_free hbopen hq (by rw [hfree]; exact hcharge hd)
    by_cases hstaged : ∃ id h w p, d.Deferred id h w ∧ w.stage = .bytes p
    · obtain ⟨id, h, w, p, hd, hst⟩ := hstaged
      obtain ⟨cell, _, hv⟩ := hview hd
      exact ⟨id, h, w, _, hd, hline hd (Or.inl (hst ▸ Stage.bytes_ne_count p)), hv,
        pollAdmits_bytes hd.2.1 hd.2.2 hst hb (hready hd)⟩
    · simp only [not_exists, not_and] at hstaged
      have hcount (id : Nat) (h : ReadHandle) (w : Waiting) (hd : d.Deferred id h w) :
          w.stage = .count := by
        cases hst : w.stage with
        | count => rfl
        | bytes p => exact absurd hst (hstaged id h w p hd)
        | admitted => exact absurd hst (hadm id h w hd)
      -- the queue of the polled handle has a waiter with its permit
      obtain ⟨cell, hcell, _⟩ := hview hdef
      have hmem := List.mem_of_getElem? hcell
      have hin := ((hlines.waiting id₀ h₀ w₀ hdef.1 hdef.2.1 hdef.2.2).mp hpolled).resolve_left
        (not_not.mpr (hcount _ _ _ hdef))
      have hne : cell.sem.waiters ≠ [] := by
        intro hnil
        apply hin
        rw [claimAt, hcell, Option.bind_some, Semaphore.claim, hnil]
        rfl
      obtain ⟨u, hu', hsat⟩ :=
        (hserved.cells cell hmem).exists_satisfied (hopen.counts cell hmem) hne
        fun u hu' => by
          rw [hu.counts_value hacct hcell hcount, (hacct.countWaiters _ cell hcell u hu').1]
          exact hring
      obtain ⟨_, x, hx, h, w, rfl, hs, hf, hst, hk⟩ := hacct.countWaiters _ cell hcell u hu'
      have hd : d.Deferred u.key h w := ⟨hx, hs, hf⟩
      have hcell' : d.cells[h.shard]? = some cell := by rw [hk, hcell]
      have hv : d.view h.shard = some ⟨cell.loop, cell.sem, d.bytes⟩ := by simp [view, hcell']
      have hclaim : d.InLine u.key h w := by
        right
        rw [claimAt, hcell', Option.bind_some, Semaphore.claim_of_mem hu']
        exact Option.some_ne_none _
      exact ⟨u.key, h, w, _, hd, hline hd hclaim, hv, pollAdmits_count hs hf hst hb
        (Semaphore.pollAcquire_satisfied (hopen.counts cell hmem) hu' hsat 1) (hready hd)⟩
  · -- the byte queue has a waiter with all its bytes
    have hwant (u : Waiter) (hu' : u ∈ b.waiters) : u.want ≤ b.value := by
      obtain ⟨x, hx, h, w, p, rfl, hs, hf, hst, hch⟩ := hacct.byteWaiters b hb u hu'
      rw [hvalue, ← hch]
      exact hcharge ⟨hx, hs, hf⟩
    obtain ⟨u, hu', hsat⟩ := (hserved.bytes b hb).exists_satisfied hbopen hq hwant
    obtain ⟨x, hx, h, w, p, rfl, hs, hf, hst, hch⟩ := hacct.byteWaiters b hb u hu'
    have hd : d.Deferred u.key h w := ⟨hx, hs, hf⟩
    obtain ⟨cell, _, hv⟩ := hview hd
    exact ⟨u.key, h, w, _, hd, hline hd (Or.inl (hst ▸ Stage.bytes_ne_count p)), hv,
      pollAdmits_bytes hs hf hst hb (Semaphore.pollAcquire_satisfied hbopen hu' hsat _)⟩

/-- The first read completes while a deferred handle is queued for its permit. -/
def completedWhileDeferred : List DriverEvent :=
  deferredRead ++ [.turn 0 (.intake 4096 [1]), .turn 0 (.submit false (.ok 1) [1]),
    .turn 0 (.post 0 2 [20, 30]), .turn 0 (.reap (.ok 5) false)]

theorem completedWhileDeferred_runs :
    (run (step smallDriver) (init smallDriver none) completedWhileDeferred).isSome = true := by
  decide +kernel

/-- The permit of the finished read was granted to the queued handle, whose next poll
acquires it and the bytes. -/
theorem deferred_admission_progresses_completed : ∃ d, Reach smallDriver none d ∧
    (d.cells.map fun cell => (cell.sem.permits, cell.sem.waiters)) = [(0, [⟨2, 1, 1⟩])] ∧
    ∃ id h w v, d.Deferred id h w ∧ polls id ∈ completedWhileDeferred ∧ d.view h.shard = some v ∧
      h.PollAdmits id v := by
  have hrun := (Option.some_get completedWhileDeferred_runs).symm
  generalize hd : (run (step smallDriver) (init smallDriver none) completedWhileDeferred).get
    completedWhileDeferred_runs = d at hrun
  have hcells : (d.cells.all fun cell => !cell.sem.closed && (readMsgs cell.loop.chan).isEmpty &&
      decide (cell.loop.pending.size = 0)) = true := by
    rw [← hd]
    decide +kernel
  have hcell (cell : Cell) (hc : cell ∈ d.cells) := List.all_eq_true.mp hcells cell hc
  simp only [Bool.and_eq_true, Bool.not_eq_true', List.isEmpty_iff, decide_eq_true_eq] at hcell
  have hbytes : d.bytes.map Semaphore.closed = some false := by
    rw [← hd]
    decide +kernel
  have hopen : d.AllOpen := by
    refine ⟨fun cell hc => (hcell cell hc).1.1, fun b hb => ?_⟩
    rw [hb] at hbytes
    exact Option.some.inj hbytes
  have hzero : d.SubmitsDone := submitsDone_of_unborrowed (by rw [← hd]; decide +kernel)
  have hu : d.Unloaded := ⟨hzero.zero.1, hzero.zero.2, fun cell hc => (hcell cell hc).1.2,
    fun cell hc => (hcell cell hc).2⟩
  have hdef : d.Deferred 2 ⟨0, .waiting ⟨twoBytes, 2, none, 0, .count⟩, none, true⟩
      ⟨twoBytes, 2, none, 0, .count⟩ := ⟨by rw [← hd]; decide +kernel, rfl, rfl⟩
  refine ⟨d, reachable_of_run_any hrun, by rw [← hd]; decide +kernel, ?_⟩
  exact deferred_admission_progresses smallDriver none rfl (by decide) hrun hopen hu hdef
    (by decide)

end Driver

end Uring
