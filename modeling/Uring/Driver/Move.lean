import Uring.Core.Cells
import Uring.Driver.Exchange

/-!
# What one transition does to a driver

Every transition starts a shard, begins a `submit`, performs one operation of a
caller, performs one step of a loop, or moves no permit at all. Closing, joining and
the driver's own life belong to the last kind: they only close semaphores, fill the
registry and ask loops to stop.
-/

namespace Uring

open Uring.Core Caller

/-- A semaphore that kept its permits and its queue, and was at most closed. -/
structure Core.Semaphore.Kept (s s' : Semaphore) : Prop where
  value : s'.value = s.value
  claim : s'.claim = s.claim
  closed : s.closed = true → s'.closed = true
  queue : s'.permits = s.permits ∧ s'.waiters = s.waiters

theorem Core.Semaphore.Kept.refl (s : Semaphore) : s.Kept s := ⟨rfl, rfl, id, rfl, rfl⟩

theorem Core.Semaphore.kept_close (s : Semaphore) : s.Kept s.close :=
  ⟨rfl, rfl, fun _ => rfl, rfl, rfl⟩

/-- A loop that was at most asked to stop. -/
def Shard.Asked (s s' : Shard) : Prop := ∃ n, s'.chan = s.chan ++ List.replicate n .shutdown

theorem Shard.Asked.refl (s : Shard) : s.Asked s := ⟨0, (List.append_nil _).symm⟩

/-- A cell in which no permit moved: its loop was at most sent a message without one. -/
structure Cell.Kept (c : Params) (a b : Cell) : Prop where
  sem : a.sem.Kept b.sem
  moves : a.loop.phase ≠ .aborted → a.loop.Moves c b.loop
  requests : b.loop.hist.requests = a.loop.hist.requests
  thread : a.loop.SameThread b.loop
  asked : a.loop.Asked b.loop

theorem Cell.Kept.refl {c : Params} (a : Cell) : a.Kept c a :=
  ⟨.refl _, fun _ => .start, rfl, .refl _, .refl _⟩

/-- A loop step taken or refused, for labels that send no read. -/
theorem Shard.kept_getD {c : Params} {s : Shard} {o : Option Shard}
    (ho : ∀ s', o = some s' → (s.phase ≠ .aborted → s.Moves c s') ∧
      s'.hist.requests = s.hist.requests ∧ s.SameThread s' ∧ s.Asked s') :
    (s.phase ≠ .aborted → s.Moves c (o.getD s)) ∧
      (o.getD s).hist.requests = s.hist.requests ∧
        s.SameThread (o.getD s) ∧ s.Asked (o.getD s) := by
  cases o with
  | none => exact ⟨fun _ => .start, rfl, .refl _, .refl _⟩
  | some s' => exact ho s' rfl

/-- Asking a loop to stop sends it no permit. -/
theorem Shard.sendMsg_shutdown {c : Params} {s s' : Shard} {p : Nat}
    (h : s.sendMsg p .shutdown = some s') : (s.phase ≠ .aborted → s.Moves c s') ∧
      s'.hist.requests = s.hist.requests ∧ s.SameThread s' ∧ s.Asked s' := by
  refine ⟨fun ha => Shard.moves_of_sendMsg ha h, ?_⟩
  obtain ⟨_, _, _, rfl⟩ := Shard.sendMsg_eq_some h
  exact ⟨List.append_nil _, ⟨rfl, rfl, rfl, rfl⟩, 1, rfl⟩

namespace Driver

/-- The semaphores of two byte limits, where there is one. -/
def BytesRel : Option Semaphore → Option Semaphore → Prop
  | none, none => True
  | some b, some b' => b.Kept b'
  | _, _ => False

theorem BytesRel.refl (o : Option Semaphore) : BytesRel o o := by
  cases o with
  | none => trivial
  | some b => exact Semaphore.Kept.refl b

theorem BytesRel.isSome {o o' : Option Semaphore} (h : BytesRel o o') : o'.isSome = o.isSome := by
  cases o <;> cases o' <;> first | rfl | cases h

/-- A change that moves no permit and touches no caller. -/
structure Kept (c : Params) (d d' : Driver) : Prop where
  cells : List.Forall₂ (Cell.Kept c) d.cells d'.cells
  bytes : BytesRel d.bytes d'.bytes
  callers : d'.callers = d.callers
  reservation : d'.reservation = d.reservation
  nextId : d'.nextId = d.nextId

theorem Kept.refl {c : Params} (d : Driver) : d.Kept c d :=
  ⟨List.forall₂_same.mpr fun a _ => .refl a, .refl _, rfl, rfl, rfl⟩

/-- Changing one cell without moving a permit. -/
theorem kept_modify {c : Params} (d : Driver) (k : Nat) (f : Cell → Cell)
    (h : ∀ a : Cell, a.Kept c (f a)) : d.Kept c { d with cells := d.cells.modify k f } :=
  ⟨forall₂_modify .refl fun a _ => h a, .refl _, rfl, rfl, rfl⟩

theorem kept_closeSem {c : Params} (d : Driver) (k : Nat) : d.Kept c (d.closeSem k) :=
  d.kept_modify k _ fun a => ⟨a.sem.kept_close, fun _ => .start, rfl, .refl _, .refl _⟩

theorem kept_post {c : Params} (d : Driver) (k p : Nat) : d.Kept c (d.post k p .shutdown) := by
  refine d.kept_modify k _ fun a => ?_
  have h := Shard.kept_getD (c := c) (s := a.loop) (o := a.loop.sendMsg p .shutdown)
    fun _ => Shard.sendMsg_shutdown
  exact ⟨.refl _, h.1, h.2.1, h.2.2.1, h.2.2.2⟩

theorem kept_askJoin (cfg : Config) (d : Driver) (k : Nat) :
    d.Kept cfg.params (d.askJoin cfg k) := by
  refine d.kept_modify k _ fun a => ?_
  have h := Shard.kept_getD (c := cfg.params) (s := a.loop)
    (o := a.loop.step cfg.params (.join k)) fun s' hs => ?_
  · exact ⟨.refl _, h.1, h.2.1, h.2.2.1, h.2.2.2⟩
  · refine ⟨fun _ => .next (e := .join k) .start trivial hs, ?_⟩
    unfold Shard.step at hs
    split at hs
    · cases hs
    · simp only at hs
      split at hs
      · cases hs
      · obtain ⟨t, ht, rfl⟩ := Option.map_eq_some_iff.mp hs
        obtain ⟨_, hreq, hthread, hasked⟩ := Shard.sendMsg_shutdown (c := cfg.params) ht
        exact ⟨hreq, ⟨hthread.phase, hthread.semClosed, hthread.released, hthread.wakeEfd⟩, hasked⟩

/-- Closing byte admission moves no permit. -/
theorem kept_closeStep {c : Params} (d : Driver) (pc : Closing) :
    d.Kept c (d.closeStep pc).2 ∧ (d.closeStep pc).2.life = d.life := by
  unfold closeStep
  split
  · exact ⟨⟨(Kept.refl d).cells, .refl _, rfl, rfl, rfl⟩, rfl⟩
  · refine ⟨⟨(Kept.refl d).cells, ?_, rfl, rfl, rfl⟩, rfl⟩
    cases d.bytes with
    | none => trivial
    | some b => exact b.kept_close
  · exact ⟨.refl d, rfl⟩
  · exact ⟨d.kept_closeSem _, rfl⟩
  · exact ⟨.refl d, rfl⟩

/-- A shutdown request moves no permit. -/
theorem kept_shutdownStep {c : Params} (d : Driver) (t : Nat) (pc : Shutdown) :
    d.Kept c (d.shutdownStep t pc).2 ∧ (d.shutdownStep t pc).2.life = d.life := by
  unfold shutdownStep
  split
  · exact ⟨.refl d, rfl⟩
  · exact d.kept_closeStep _
  · exact ⟨.refl d, rfl⟩
  · exact ⟨d.kept_closeSem _, rfl⟩
  · exact ⟨.refl d, rfl⟩
  · exact ⟨d.kept_post _ t, rfl⟩
  · exact ⟨.refl d, rfl⟩

/-- The two beginnings of a `submit`: an inert handle with the validation's error, or a
running call that holds nothing yet. -/
inductive Begun (cfg : Config) (d : Driver) (req : Request) : Caller → Prop
  | invalid {e : IoError} (h : validateRead cfg.params.usizeMax cfg.limits req.offset req.len
      req.align req.allowCurrentPosition = .error e) :
      Begun cfg d req (.holding (inertHandle (d.rr % d.cells.length) (.error e)))
  | valid {n : Nat} (h : validateRead cfg.params.usizeMax cfg.limits req.offset req.len
      req.align req.allowCurrentPosition = .ok n) :
      Begun cfg d req (.submitting ⟨req, chargeOf n, d.rr % d.cells.length,
        d.firstPc req (d.rr % d.cells.length)⟩)

/-- A driver's life stays as it is, or moves on; it runs once all shards are started. -/
def LifeStep (cfg : Config) (d : Driver) (life : Life) : Prop :=
  life = d.life ∨ life ≠ .starting ∧ (life = .running → d.cells.length = cfg.shardCount)

/-- The transitions of a driver. -/
inductive Move (cfg : Config) (d : Driver) : DriverEvent → Driver → Prop
  /-- No permit moves. -/
  | kept {e : DriverEvent} {d' : Driver} (he : ∀ id c, e ≠ .caller id c)
      (h : d.Kept cfg.params d') (hl : d.LifeStep cfg d'.life) : Move cfg d e d'
  | start (hl : d.life = .starting) : Move cfg d .startShard (d.startShard cfg)
  | submit {req : Request} {x : Caller} {n : Nat} (hl : d.life = .running)
      (hid : d.nextId < cancelBit) (hx : Begun cfg d req x) :
      Move cfg d (.submit req)
        { d with nextId := fetchAdd d.nextId, rr := n, callers := d.callers.insert d.nextId x }
  | caller {id : Nat} {e : CallerEvent} {x : Caller} {y : Option Caller} {v v' : View}
      (hx : d.callers.lookup id = some x) (hv : d.view x.shard = some v)
      (ha : x.act e id d.reservation v = some (y, v')) :
      Move cfg d (.caller id e) ((d.install x.shard v').put id y)
  | turn {k : Nat} {e : Event} {v v' : View} (hv : d.view k = some v) (he : e.ofThread = true)
      (ht : v.turn cfg.params e = some v') : Move cfg d (.turn k e) (d.install k v')

/-- A `submit` that begins gets the next id. -/
theorem beginSubmit_cases {cfg : Config} {d d' : Driver} {req : Request}
    (h : d.beginSubmit cfg req = some d') : d.nextId < cancelBit ∧ ∃ x, Begun cfg d req x ∧
      d' = { d with
        nextId := fetchAdd d.nextId
        rr := (d.rr + 1) % (cfg.params.usizeMax + 1)
        callers := d.callers.insert d.nextId x } := by
  unfold beginSubmit at h
  simp only at h
  split at h
  · cases h
  · rename_i hid
    refine ⟨not_le.mp hid, ?_⟩
    split at h
    · rename_i e he
      cases h
      exact ⟨_, .invalid he, rfl⟩
    · rename_i n hn
      cases h
      exact ⟨_, .valid hn, rfl⟩

/-- No loop has panicked while the driver takes steps. -/
theorem live_of_step {cfg : Config} {d d' : Driver} {e : DriverEvent} (h : step cfg d e = some d') :
    ∀ cell ∈ d.cells, cell.loop.phase ≠ .aborted := by
  have hlive := (step_transition h).1
  simp only [aborted, List.any_eq_false, decide_eq_true_eq] at hlive
  exact hlive

/-- Joining and dropping move no permit. -/
theorem joinStep_kept {cfg : Config} {d d' : Driver} (h : d.joinStep cfg = some d') :
    d.Kept cfg.params d' ∧ d.LifeStep cfg d'.life := by
  unfold joinStep at h
  split at h
  · split at h
    · cases h
      exact ⟨⟨(Kept.refl d).cells, .refl _, rfl, rfl, rfl⟩, Or.inr ⟨nofun, nofun⟩⟩
    · cases h
  · rename_i failed k asked hl
    split at h
    · cases h
      exact ⟨⟨(Kept.refl d).cells, .refl _, rfl, rfl, rfl⟩, Or.inr ⟨nofun, nofun⟩⟩
    · split at h
      · split at h
        · cases h
          exact ⟨⟨(Kept.refl d).cells, .refl _, rfl, rfl, rfl⟩, Or.inr ⟨nofun, nofun⟩⟩
        · cases h
      · cases h
        have hk := d.kept_askJoin cfg k
        exact ⟨⟨hk.cells, hk.bytes, hk.callers, hk.reservation, hk.nextId⟩, Or.inr ⟨nofun, nofun⟩⟩
  · cases h

/-- Every transition is one of the moves. -/
theorem step_move {cfg : Config} {d d' : Driver} {e : DriverEvent} (h : step cfg d e = some d') :
    Move cfg d e d' := by
  have hsame {d' : Driver} (hcells : d'.cells = d.cells) (hbytes : d'.bytes = d.bytes)
      (hcallers : d'.callers = d.callers) (hr : d'.reservation = d.reservation)
      (hid : d'.nextId = d.nextId) : d.Kept cfg.params d' := by
    refine ⟨?_, ?_, hcallers, hr, hid⟩
    · rw [hcells]
      exact (Kept.refl d).cells
    · rw [hbytes]
      exact .refl _
  cases (step_transition h).2 with
  | startShard hl hn => exact .start hl
  | started hl hn => exact .kept nofun (hsame rfl rfl rfl rfl rfl) (Or.inr ⟨nofun, fun _ => hn⟩)
  | failStart | retire => exact .kept nofun (hsame rfl rfl rfl rfl rfl) (Or.inr ⟨nofun, nofun⟩)
  | submit hl hs =>
    obtain ⟨hid, x, hx, rfl⟩ := beginSubmit_cases hs
    exact .submit hl hid hx
  | caller hx hv ha => exact .caller hx hv ha
  | turn he hv ht => exact .turn hv he ht
  | @guard k cell leaked hcell hp =>
    obtain ⟨hk, hl⟩ := d.kept_closeStep (c := cfg.params) cell.guard
    refine .kept nofun ⟨?_, hk.bytes, hk.callers, hk.reservation, hk.nextId⟩ (Or.inl hl)
    exact forall₂_modify_right hk.cells fun a b hab =>
      ⟨hab.sem, hab.moves, hab.requests, hab.thread, hab.asked⟩
  | requestShutdown => exact .kept nofun (hsame rfl rfl rfl rfl rfl) (Or.inl rfl)
  | @closer t pc hpc =>
    obtain ⟨hk, hl⟩ := d.kept_shutdownStep (c := cfg.params) t pc
    exact .kept nofun ⟨hk.cells, hk.bytes, hk.callers, hk.reservation, hk.nextId⟩ (Or.inl hl)
  | join hj =>
    obtain ⟨hk, hl⟩ := joinStep_kept hj
    exact .kept nofun hk hl

end Driver

end Uring
