import Uring.Core.Semaphore
import Uring.Shard.Permits

/-!
# State of a driver

A driver shares its shards with callers on any number of threads. A cell is one
shard: its loop, its count semaphore and the exit guard of its thread. A caller is
a running `submit` or the handle it returned; both stop at each semaphore and channel
operation, so that every interleaving of these operations is a run.
-/

namespace Uring

open Uring.Core

/-- `ShardPolicy`. -/
inductive ShardPolicy
  | roundRobin
  | capacityAware
  deriving DecidableEq, Repr

/-- The arguments of `submit` and the policy in force. -/
structure Request where
  file : Nat
  offset : Nat
  len : Nat
  align : Nat
  allowCurrentPosition : Bool
  policy : ShardPolicy
  deriving DecidableEq, Repr

/-- `capacity_aware`: stream reads keep round-robin routing. -/
def Request.capacityAware (r : Request) : Bool :=
  decide (r.policy = .capacityAware) && !r.allowCurrentPosition

/-- The next operation of a running `submit`. -/
inductive SubmitPc
  /-- The first `is_closed` of a capacity-aware selection; `rest` follows the start. -/
  | checkBytes (rest : List Nat)
  /-- `try_acquire_owned` on shard `k`; the shards left to scan and the first full one. -/
  | tryCount (k : Nat) (rest : List Nat) (waiting : Option Nat)
  /-- `try_acquire_many_owned`, holding the count permit of shard `k`. -/
  | tryBytes (k : Nat)
  /-- The byte attempt failed and the count permit of shard `k` is dropped. -/
  | dropCount (k : Nat) (err : TryAcquireError)
  /-- The last `is_closed`, after a scan without success. -/
  | recheckBytes (waiting : Option Nat)
  /-- `tx.send`, holding all permits on shard `k`. -/
  | send (k : Nat)
  deriving DecidableEq, Repr

/-- A running `submit` of a valid request. -/
structure Submit where
  req : Request
  charge : Nat
  start : Nat
  pc : SubmitPc
  deriving DecidableEq, Repr

/-- The shard whose semaphore or channel the next operation touches. -/
def Submit.shard (c : Submit) : Nat :=
  match c.pc with
  | .checkBytes _ | .recheckBytes _ => c.start
  | .tryCount k _ _ | .tryBytes k | .dropCount k _ | .send k => k

/-- How far the future of `acquire_read_permits` is. -/
inductive Stage
  /-- Awaiting the count permit; not polled yet, or queued. -/
  | count
  /-- Holding the count permit and awaiting the bytes, inside a poll or between polls. -/
  | bytes (polling : Bool)
  /-- All permits are acquired: inside the poll that sends the read. -/
  | admitted
  deriving DecidableEq, Repr

/-- A poll is still running at this stage. -/
def Stage.polling : Stage → Bool
  | .count => false
  | .bytes polling => polling
  | .admitted => true

/-- The fields of `HandleState::WaitingPermit`, with the reservation its future captured; `wake`
is the eventfd of that shard. -/
structure Waiting where
  req : Request
  charge : Nat
  reservation : Option Nat
  wake : Nat
  stage : Stage
  deriving DecidableEq, Repr

/-- `HandleState`. -/
inductive HandleState
  /-- The result is already in the result channel. -/
  | inert (value : IoResult)
  | waiting (w : Waiting)
  /-- The op is with the driver; `wake` is the eventfd of the shard that a cancel wakes. -/
  | submitted (wake : Nat)
  deriving DecidableEq

/-- `ReadHandle`; `shard` is the shard of its `tx`, and `finished` keeps what the poll that
finished it returned. -/
structure ReadHandle where
  shard : Nat
  state : HandleState
  finished : Option IoResult
  cancelOnDrop : Bool
  deriving DecidableEq

/-- The op is with the driver. -/
def ReadHandle.isSubmitted (h : ReadHandle) : Bool :=
  match h.state with
  | .submitted _ => true
  | _ => false

/-- The wake eventfd that the handle holds. -/
def ReadHandle.wake (h : ReadHandle) : Option Nat :=
  match h.state with
  | .inert _ => none
  | .waiting w => some w.wake
  | .submitted wake => some wake

/-- The handle wakes the shard it sends to. -/
def ReadHandle.Routed (h : ReadHandle) : Prop := ∀ k, h.wake = some k → k = h.shard

theorem ReadHandle.isSubmitted_iff {h : ReadHandle} :
    h.isSubmitted = true ↔ ∃ wake, h.state = .submitted wake := by
  unfold isSubmitted
  cases h.state <;> simp

theorem ReadHandle.not_waiting {h : ReadHandle} (hs : h.isSubmitted = true) (w : Waiting) :
    h.state ≠ .waiting w := by
  obtain ⟨wake, hstate⟩ := isSubmitted_iff.mp hs
  rw [hstate]
  exact nofun

/-- Whoever acts for one read before the loop answers it. -/
inductive Caller
  | submitting (c : Submit)
  | holding (h : ReadHandle)
  deriving DecidableEq

/-- The shard a caller acts on. -/
def Caller.shard : Caller → Nat
  | .submitting c => c.shard
  | .holding h => h.shard

/-- The wake eventfd that a caller holds; a running `submit` is to hand out its owner's. -/
def Caller.wake : Caller → Option Nat
  | .submitting c => match c.pc with
    | .send k => some k
    | _ => none
  | .holding h => h.wake

/-- The caller wakes the shard it sends to. -/
def Caller.Routed (x : Caller) : Prop := ∀ k, x.wake = some k → k = x.shard

/-- `ByteAdmission::close`: the registry section, the byte semaphore, then the counts
taken from the registry. -/
inductive Closing
  | lock
  | bytes (counts : List Nat)
  | counts (rest : List Nat)
  | finished
  deriving DecidableEq, Repr

/-- `request_shutdown`. -/
inductive Shutdown
  | admission (c : Closing)
  /-- The shards whose semaphore is still to be closed. -/
  | sems (rest : List Nat)
  /-- The shards still to be sent their shutdown request. -/
  | notify (rest : List Nat)
  | returned
  deriving DecidableEq, Repr

/-- One shard: its loop, its count semaphore and its thread's exit guard. -/
structure Cell where
  loop : Shard
  sem : Semaphore
  guard : Closing

/-- The thread has returned: the loop has exited and the guard has run. -/
def Cell.finished (c : Cell) : Bool :=
  match c.loop.phase with
  | .exited _ => decide (c.guard = .finished)
  | _ => false

/-- `AdmissionRegistry`. -/
structure AdmissionRegistry where
  closed : Bool
  counts : List Nat
  deriving DecidableEq, Repr

/-- The life of a driver value. -/
inductive Life
  /-- `start_with_limits` is starting shards. -/
  | starting
  /-- The value exists and may be shared. -/
  | running
  /-- `shutdown` or `drop` runs the `request_shutdown` call numbered `t`. -/
  | retiring (t : Nat)
  /-- Shard `k` is joined, after it was asked to stop when `asked`. -/
  | joining (failed : Bool) (k : Nat) (asked : Bool)
  /-- The value, or the shards of a failed start, are dropped. -/
  | gone (failed : Bool)
  deriving DecidableEq, Repr

/-- A driver, its callers and its threads. -/
structure Driver where
  cells : List Cell
  /-- `ByteAdmission::bytes`, when a byte limit is set. -/
  bytes : Option Semaphore
  registry : AdmissionRegistry
  /-- `ByteAdmission::shared_reservation`. -/
  reservation : Option Nat
  nextId : Nat
  rr : Nat
  callers : Table Caller
  /-- Calls of `request_shutdown`, by call. -/
  closers : Table Shutdown
  life : Life

/-- What a driver is started with. -/
structure Config where
  params : Params
  shards : Nat
  limits : ReadLimits
  deriving DecidableEq, Repr

/-- `shards.max(1)`. -/
def Config.shardCount (cfg : Config) : Nat := max 1 cfg.shards

/-- The state in which `start_with_limits` starts its first shard. -/
def Driver.init (cfg : Config) (reservation : Option Nat) : Driver where
  cells := []
  bytes := cfg.limits.maxInFlightBytes.map Semaphore.new
  registry := ⟨false, []⟩
  reservation := cfg.limits.maxInFlightBytes.bind fun _ => reservation
  nextId := 1
  rr := 0
  callers := ∅
  closers := ∅
  life := .starting

/-- What one operation of a caller or of a loop touches: one shard's loop and count
semaphore, and the byte semaphore. -/
structure View where
  loop : Shard
  sem : Semaphore
  bytes : Option Semaphore

namespace Driver

/-- What a caller on shard `k` sees. -/
def view (d : Driver) (k : Nat) : Option View :=
  d.cells[k]?.map fun cell => ⟨cell.loop, cell.sem, d.bytes⟩

/-- Write back what an operation on shard `k` changed. -/
def install (d : Driver) (k : Nat) (v : View) : Driver :=
  { d with
    cells := d.cells.modify k fun cell => { cell with loop := v.loop, sem := v.sem }
    bytes := v.bytes }

/-- Replace or remove a caller. -/
def put (d : Driver) (id : Nat) : Option Caller → Driver
  | none => { d with callers := d.callers.erase id }
  | some x => { d with callers := d.callers.insert id x }

end Driver

end Uring
