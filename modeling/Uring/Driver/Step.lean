import Uring.Driver.Caller

/-!
# A driver's transitions

A driver is started shard by shard, used by callers, closed by any number of
`request_shutdown` calls and by the exits of its threads, and finally joined and
dropped. Each label is one operation of one of these actors. A panic of any loop
ends the process.
-/

namespace Uring

open Uring.Core

namespace Event

/-- The labels taken by the loop, the kernel or a pending signal; sends and receiver
closures come from callers. -/
def ofThread : Event → Bool
  | .send .. | .join _ | .hangup | .closeRx _ => false
  | _ => true

end Event

/-- One step of a loop; the permits it drops go back. -/
def View.turn (c : Params) (v : View) (e : Event) : Option View := do
  let loop ← v.loop.step c e
  let sem := if e = .closeSem then v.sem.close else v.sem
  let freed := loop.hist.released.drop v.loop.hist.released.length
  return freed.foldl View.dropPermits { v with loop := loop, sem := sem }

/-- The labels of a driver. -/
inductive DriverEvent
  /-- `start_shard` succeeds. -/
  | startShard
  /-- `start_with_limits` returns the driver. -/
  | started
  /-- `start_shard` fails, before or after registering its semaphore. -/
  | failStart (registered : Bool)
  /-- `submit` is called; its validation runs. -/
  | submit (req : Request)
  | caller (id : Nat) (e : CallerEvent)
  /-- One step of the loop of shard `k`. -/
  | turn (k : Nat) (e : Event)
  /-- One operation of the exit guard of shard `k`. -/
  | guard (k : Nat)
  /-- `request_shutdown` is called. -/
  | requestShutdown (t : Nat)
  /-- One operation of that call. -/
  | closer (t : Nat)
  /-- `shutdown` or `drop` takes the driver. -/
  | retire (t : Nat)
  /-- The next action of joining the shards. -/
  | join
  deriving DecidableEq

namespace Driver

/-- Some loop panicked and the process is gone. -/
def aborted (d : Driver) : Bool := d.cells.any fun cell => decide (cell.loop.phase = .aborted)

/-- `start_shard`: a new semaphore is registered, or closed when the registry already
is; the guard has work only with byte limits. -/
def startShard (cfg : Config) (d : Driver) : Driver :=
  let sem := Semaphore.new cfg.params.entries
  { d with
    cells := d.cells ++ [{
      loop := .init
      sem := if d.bytes.isSome && d.registry.closed then sem.close else sem
      guard := if d.bytes.isSome then .lock else .finished }]
    registry := if d.bytes.isSome && !d.registry.closed then
        { d.registry with counts := d.registry.counts ++ [d.cells.length] }
      else d.registry }

/-- The shards from `start` on, then those before it. -/
def scanOrder (d : Driver) (start : Nat) : List Nat :=
  List.range' start (d.cells.length - start) ++ List.range start

/-- The first operation of a valid request's `submit`. -/
def firstPc (d : Driver) (req : Request) (start : Nat) : SubmitPc :=
  if req.capacityAware then .checkBytes (d.scanOrder start).tail else .tryCount start [] none

/-- `submit` up to its first semaphore operation; an id with the cancel bit panics. -/
def beginSubmit (cfg : Config) (d : Driver) (req : Request) : Option Driver :=
  let id := d.nextId
  if cancelBit ≤ id then none
  else
    let start := d.rr % d.cells.length
    let d := { d with nextId := fetchAdd id, rr := (d.rr + 1) % (cfg.params.usizeMax + 1) }
    match validateRead cfg.params.usizeMax cfg.limits req.offset req.len req.align
        req.allowCurrentPosition with
    | .error e => some (d.put id (some (.holding (inertHandle start (.error e)))))
    | .ok n =>
      some (d.put id (some (.submitting ⟨req, chargeOf n, start, d.firstPc req start⟩)))

/-- Close the count semaphore of shard `k`. -/
def closeSem (d : Driver) (k : Nat) : Driver :=
  { d with cells := d.cells.modify k fun cell => { cell with sem := cell.sem.close } }

/-- Send a message to shard `k`; a send to a dropped receiver is ignored. -/
def post (d : Driver) (k p : Nat) (m : Msg) : Driver :=
  { d with cells := d.cells.modify k fun cell =>
    { cell with loop := (cell.loop.sendMsg p m).getD cell.loop } }

/-- One operation of `ByteAdmission::close`. -/
def closeStep (d : Driver) : Closing → Closing × Driver
  | .lock => (.bytes d.registry.counts, { d with registry := ⟨true, []⟩ })
  | .bytes counts => (.counts counts, { d with bytes := d.bytes.map Semaphore.close })
  | .counts [] => (.finished, d)
  | .counts (k :: rest) => (.counts rest, d.closeSem k)
  | .finished => (.finished, d)

/-- Where `request_shutdown` starts. -/
def firstShutdown (d : Driver) : Shutdown :=
  if d.bytes.isSome then .admission .lock else .sems (List.range d.cells.length)

/-- One operation of `request_shutdown`. -/
def shutdownStep (d : Driver) (t : Nat) : Shutdown → Shutdown × Driver
  | .admission .finished => (.sems (List.range d.cells.length), d)
  | .admission c => (.admission (d.closeStep c).1, (d.closeStep c).2)
  | .sems [] => (.notify (List.range d.cells.length), d)
  | .sems (k :: rest) => (.sems rest, d.closeSem k)
  | .notify [] => (.returned, d)
  | .notify (k :: rest) => (.notify rest, d.post k t .shutdown)
  | .returned => (.returned, d)

/-- No call that borrows the driver is running. -/
def unborrowed (d : Driver) : Bool :=
  (d.callers.entries.all fun e => match e.2 with
    | .submitting _ => false
    | .holding _ => true) &&
  d.closers.entries.all fun e => decide (e.2 = .returned)

/-- Ask shard `k` to stop before joining its thread. -/
def askJoin (cfg : Config) (d : Driver) (k : Nat) : Driver :=
  { d with cells := d.cells.modify k fun cell =>
    { cell with loop := (cell.loop.step cfg.params (.join k)).getD cell.loop } }

/-- The next action of `Shard::join` over the shards, and the drop that follows. -/
def joinStep (cfg : Config) (d : Driver) : Option Driver :=
  match d.life with
  | .retiring t =>
    if d.closers.lookup t = some .returned then some { d with life := .joining false 0 false }
    else none
  | .joining failed k asked =>
    match d.cells[k]? with
    | none => some { d with life := .gone failed }
    | some cell =>
      if asked then
        if cell.finished then some { d with life := .joining failed (k + 1) false } else none
      else some { d.askJoin cfg k with life := .joining failed k true }
  | _ => none

/-- One transition. A label is refused when its actor is not in position to take it. -/
def step (cfg : Config) (d : Driver) (e : DriverEvent) : Option Driver :=
  if d.aborted then none
  else
    match e with
    | .startShard =>
      if d.life = .starting ∧ d.cells.length < cfg.shardCount then some (d.startShard cfg) else none
    | .started =>
      if d.life = .starting ∧ d.cells.length = cfg.shardCount then
        some { d with life := .running }
      else none
    | .failStart registered =>
      if d.life = .starting ∧ d.cells.length < cfg.shardCount then
        some { d with
          life := .joining true 0 false
          registry := if registered && d.bytes.isSome && !d.registry.closed then
              { d.registry with counts := d.registry.counts ++ [d.cells.length] }
            else d.registry }
      else none
    | .submit req => if d.life = .running then d.beginSubmit cfg req else none
    | .caller id e => do
      let x ← d.callers.lookup id
      let v ← d.view x.shard
      let (y, v') ← x.act e id d.reservation v
      return (d.install x.shard v').put id y
    | .turn k e =>
      if e.ofThread then do
        let v ← d.view k
        let v' ← v.turn cfg.params e
        return d.install k v'
      else none
    | .guard k => do
      let cell ← d.cells[k]?
      match cell.loop.phase with
      | .exited _ =>
        let next := d.closeStep cell.guard
        return { next.2 with cells := next.2.cells.modify k fun cell =>
          { cell with guard := next.1 } }
      | _ => none
    | .requestShutdown t =>
      if d.life = .running ∧ t ∉ d.closers then
        some { d with closers := d.closers.insert t d.firstShutdown }
      else none
    | .closer t => do
      let pc ← d.closers.lookup t
      let next := d.shutdownStep t pc
      return { next.2 with closers := next.2.closers.insert t next.1 }
    | .retire t =>
      if d.life = .running ∧ d.unborrowed ∧ t ∉ d.closers then
        some { d with life := .retiring t, closers := d.closers.insert t d.firstShutdown }
      else none
    | .join => d.joinStep cfg

/-- The transitions of a driver by label: when each is taken and what it leaves. -/
inductive Transition (cfg : Config) (d : Driver) : DriverEvent → Driver → Prop
  | startShard (hl : d.life = .starting) (hn : d.cells.length < cfg.shardCount) :
      Transition cfg d .startShard (d.startShard cfg)
  | started (hl : d.life = .starting) (hn : d.cells.length = cfg.shardCount) :
      Transition cfg d .started { d with life := .running }
  | failStart {registered : Bool} (hl : d.life = .starting)
      (hn : d.cells.length < cfg.shardCount) :
      Transition cfg d (.failStart registered) { d with
        life := .joining true 0 false
        registry := if registered && d.bytes.isSome && !d.registry.closed then
            { d.registry with counts := d.registry.counts ++ [d.cells.length] }
          else d.registry }
  | submit {req : Request} {d' : Driver} (hl : d.life = .running)
      (hs : d.beginSubmit cfg req = some d') : Transition cfg d (.submit req) d'
  | caller {id : Nat} {e : CallerEvent} {x : Caller} {v v' : View} {y : Option Caller}
      (hx : d.callers.lookup id = some x) (hv : d.view x.shard = some v)
      (ha : x.act e id d.reservation v = some (y, v')) :
      Transition cfg d (.caller id e) ((d.install x.shard v').put id y)
  | turn {k : Nat} {e : Event} {v v' : View} (he : e.ofThread = true) (hv : d.view k = some v)
      (ht : v.turn cfg.params e = some v') : Transition cfg d (.turn k e) (d.install k v')
  | guard {k : Nat} {cell : Cell} {leaked : Bool} (hcell : d.cells[k]? = some cell)
      (hp : cell.loop.phase = .exited leaked) :
      Transition cfg d (.guard k) { (d.closeStep cell.guard).2 with
        cells := (d.closeStep cell.guard).2.cells.modify k fun a =>
          { a with guard := (d.closeStep cell.guard).1 } }
  | requestShutdown {t : Nat} (hl : d.life = .running) (ht : t ∉ d.closers) :
      Transition cfg d (.requestShutdown t) { d with
        closers := d.closers.insert t d.firstShutdown }
  | closer {t : Nat} {pc : Shutdown} (hpc : d.closers.lookup t = some pc) :
      Transition cfg d (.closer t) { (d.shutdownStep t pc).2 with
        closers := (d.shutdownStep t pc).2.closers.insert t (d.shutdownStep t pc).1 }
  | retire {t : Nat} (hl : d.life = .running) (hu : d.unborrowed = true) (ht : t ∉ d.closers) :
      Transition cfg d (.retire t) { d with
        life := .retiring t
        closers := d.closers.insert t d.firstShutdown }
  | join {d' : Driver} (hj : d.joinStep cfg = some d') : Transition cfg d .join d'

/-- A driver none of whose loops has panicked takes the transitions and no others. -/
theorem step_transition {cfg : Config} {d d' : Driver} {e : DriverEvent}
    (h : step cfg d e = some d') : d.aborted = false ∧ Transition cfg d e d' := by
  unfold step at h
  split at h
  · cases h
  rename_i hlive
  refine ⟨Bool.eq_false_iff.mpr hlive, ?_⟩
  cases e with
  | startShard =>
    simp only at h
    split at h
    · rename_i hg
      cases h
      exact .startShard hg.1 hg.2
    · cases h
  | started =>
    simp only at h
    split at h
    · rename_i hg
      cases h
      exact .started hg.1 hg.2
    · cases h
  | failStart registered =>
    simp only at h
    split at h
    · rename_i hg
      cases h
      exact .failStart hg.1 hg.2
    · cases h
  | submit req =>
    simp only at h
    split at h
    · rename_i hl
      exact .submit hl h
    · cases h
  | caller id e =>
    simp only [Option.bind_eq_bind, Option.bind_eq_some_iff, Option.pure_def,
      Option.some.injEq] at h
    obtain ⟨x, hx, v, hv, ⟨y, v'⟩, ha, rfl⟩ := h
    exact .caller hx hv ha
  | turn k e =>
    simp only [Option.bind_eq_bind, Option.pure_def] at h
    split at h
    · rename_i he
      simp only [Option.bind_eq_some_iff, Option.some.injEq] at h
      obtain ⟨v, hv, v', ht, rfl⟩ := h
      exact .turn he hv ht
    · cases h
  | guard k =>
    simp only [Option.bind_eq_bind, Option.bind_eq_some_iff] at h
    obtain ⟨cell, hcell, h⟩ := h
    split at h
    · rename_i hp
      simp only [Option.pure_def, Option.some.injEq] at h
      subst h
      exact .guard hcell hp
    · cases h
  | requestShutdown t =>
    simp only at h
    split at h
    · rename_i hg
      cases h
      exact .requestShutdown hg.1 hg.2
    · cases h
  | closer t =>
    simp only [Option.bind_eq_bind, Option.bind_eq_some_iff, Option.pure_def,
      Option.some.injEq] at h
    obtain ⟨pc, hpc, rfl⟩ := h
    exact .closer hpc
  | retire t =>
    simp only at h
    split at h
    · rename_i hg
      cases h
      exact .retire hg.1 hg.2.1 hg.2.2
    · cases h
  | join => exact .join h

/-- States reached by a driver under any interleaving. -/
abbrev Reach (cfg : Config) (r : Option Nat) (d : Driver) : Prop :=
  Reachable (step cfg) anyLabel (init cfg r) d

end Driver

end Uring
