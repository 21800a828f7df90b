import Uring.Core.Bytes
import Uring.Core.Table
import Uring.Read.Pending

/-!
# State of one shard

The ledger of a shard is what its loop owns or accounts for: the pending table,
the backlog, the ring queues, the channel, the result channels and the counters.
The shard adds the control state of the thread running `drive` and both eventfds.
History fields record what has happened and are read by no transition.
-/

namespace Uring

open Uring.Core

/-- `TURN_MESSAGES`. -/
def turnMessages : Nat := 64

/-- `TURN_COMPLETIONS`. -/
def turnCompletions : Nat := 64

/-- `TURN_ALLOCATION_BYTES`. -/
def turnAllocationBytes : Nat := 8 * 1024 * 1024

/-- `MAX_CONSECUTIVE_SUBMIT_ERRORS`. -/
def maxConsecutiveSubmitErrors : Nat := 128

/-- `TurnBudget`: the work taken so far in the current turn. -/
structure TurnBudget where
  messages : Nat
  completions : Nat
  allocationBytes : Nat
  deriving DecidableEq, Repr

namespace TurnBudget

/-- `TurnBudget::default()`. -/
def fresh : TurnBudget := ⟨0, 0, 0⟩

def canTakeMessage (b : TurnBudget) : Bool :=
  decide (b.messages < turnMessages) && decide (b.allocationBytes < turnAllocationBytes)

def canReap (b : TurnBudget) : Bool := decide (b.completions < turnCompletions)

def continueWithoutWait (b : TurnBudget) (readyCqe queuedSubmission : Bool) (submitted : Nat) :
    Bool :=
  !b.canTakeMessage || !b.canReap || readyCqe || (queuedSubmission && decide (0 < submitted))

end TurnBudget

/-- `fetch_add(1)` on an `AtomicU64`. -/
def fetchAdd (n : Nat) : Nat := (n + 1) % 2 ^ 64

/-- `fetch_sub(1)` on an `AtomicU64`. -/
def fetchSub (n : Nat) : Nat := (n + (2 ^ 64 - 1)) % 2 ^ 64

/-- `DriverStats`: the shard's atomic counters. -/
structure DriverStats where
  submitted : Nat
  delivered : Nat
  orphanReclaimed : Nat
  inFlight : Nat
  cancelSucceeded : Nat
  cancelNotFound : Nat
  cancelAlready : Nat
  cqOverflow : Nat
  submitErrors : Nat
  deriving DecidableEq, Repr

/-- `DriverStats::default()`. -/
def DriverStats.zero : DriverStats := ⟨0, 0, 0, 0, 0, 0, 0, 0, 0⟩

/-- The three recorded outcomes of an `AsyncCancel` completion. -/
def DriverStats.cancelResult (st : DriverStats) (res : Int) : DriverStats :=
  if res = 0 then { st with cancelSucceeded := fetchAdd st.cancelSucceeded }
  else if res = -eNoEnt then { st with cancelNotFound := fetchAdd st.cancelNotFound }
  else if res = -eAlready then { st with cancelAlready := fetchAdd st.cancelAlready }
  else st

/-- The payload of `Msg::Read`. Its result sender is the oneshot numbered `id`. -/
structure ReadMsg where
  id : Nat
  file : Nat
  offset : Nat
  len : Nat
  align : Nat
  permit : ReadPermits
  deriving DecidableEq, Repr

/-- `Msg`. -/
inductive Msg
  | read (m : ReadMsg)
  | cancel (id : Nat)
  | shutdown
  deriving DecidableEq, Repr

/-- The reads queued in a channel, oldest first. -/
def readMsgs (chan : List Msg) : List ReadMsg :=
  chan.filterMap fun
    | .read m => some m
    | _ => none

/-- The read ids queued in a channel, oldest first. -/
def readIds (chan : List Msg) : List Nat :=
  chan.filterMap fun
    | .read m => some m.id
    | _ => none

/-- The permits carried by the reads queued in a channel, oldest first. -/
def readPermits (chan : List Msg) : List ReadPermits :=
  chan.filterMap fun
    | .read m => some m.permit
    | _ => none

/-- One use of a result sender: the oneshot, the value, and whether it arrived. -/
structure Sent where
  id : Nat
  outcome : IoResult
  arrived : Bool
  deriving DecidableEq, Repr

/-- Result channels: closed receivers, performed sends, and senders dropped unused. -/
structure Mail where
  closed : Finset Nat
  sends : List Sent
  lost : List Nat

namespace Mail

/-- `oneshot::Sender::send`, which consumes the sender. -/
def send (m : Mail) (id : Nat) (r : IoResult) : Mail :=
  { m with sends := m.sends ++ [⟨id, r, decide (id ∉ m.closed)⟩] }

/-- Close the receiving half. -/
def close (m : Mail) (id : Nat) : Mail := { m with closed := insert id m.closed }

/-- The sender of this oneshot has been consumed by a send or dropped. -/
def Settled (m : Mail) (id : Nat) : Prop := id ∈ m.sends.map Sent.id ∨ id ∈ m.lost

end Mail

/-- The eventfd counters and who still owes a signal: producers between a send
and their signal, and completions posted but not yet signalled. -/
structure Wake where
  wakeEfd : Nat
  cqEfd : Nat
  owing : List Nat
  cqOwing : Nat
  deriving DecidableEq, Repr

/-- The largest value an eventfd counter holds; a further write gives `EAGAIN`. -/
def eventfdMax : Nat := 2 ^ 64 - 2

/-- `EventFd::signal`. -/
def signalEfd (n : Nat) : Nat := if n < eventfdMax then n + 1 else n

/-- A signalled eventfd is readable. -/
theorem signalEfd_pos (n : Nat) : 0 < signalEfd n := by
  unfold signalEfd eventfdMax
  split <;> omega

/-- What has happened so far; no transition reads it. -/
structure History where
  /-- Reads ever sent to this shard. -/
  requests : List ReadMsg
  /-- Their ids. -/
  issued : List Nat
  /-- Read ids inserted into the pending table. -/
  accepted : List Nat
  /-- Ids counted as delivered. -/
  delivered : List Nat
  /-- Ids counted as orphan-reclaimed. -/
  orphaned : List Nat
  /-- SQEs ever queued, in order. -/
  queued : List Sqe
  /-- SQEs the kernel has consumed, in order. -/
  consumed : List Sqe
  /-- Cancel completions reaped. -/
  cancelsReaped : List Nat
  /-- Permits dropped by this shard's thread. -/
  released : List ReadPermits

/-- Position of the driver thread in the body of `drive`. -/
inductive Phase
  | wait
  | drainCq
  | drainWake
  | intake
  | submitBefore
  | reap
  | submitAfter
  | endTurn
  /-- The exit was decided and any leak done; the receiver still exists. -/
  | closing (leaked : Bool)
  /-- `drive` has returned and its receiver is dropped. -/
  | exited (leaked : Bool)
  /-- The thread panicked: the abort barrier has ended the process. -/
  | aborted
  deriving DecidableEq, Repr

/-- The receiving half of the channel still exists. -/
def Phase.receiving : Phase → Bool
  | .exited _ => false
  | .aborted => false
  | _ => true

/-- What one loop owns or accounts for: its table, its queues, its channel, the
result channels and the counters. -/
structure Ledger where
  pending : Table Pending
  backlog : List Sqe
  /-- Submission queue: pushed, not yet consumed by the kernel. -/
  sq : List Sqe
  /-- Consumed by the kernel and not yet completed. -/
  held : List Sqe
  /-- Completion queue, oldest first. -/
  cq : List Cqe
  /-- Ids with an `AsyncCancel` already queued. -/
  queuedCancels : Finset Nat
  shuttingDown : Bool
  /-- Messages sent and not yet received, oldest first. -/
  chan : List Msg
  stats : DriverStats
  mail : Mail
  hist : History

/-- One `drive` loop: its ledger and the control state of its thread. -/
structure Shard extends Ledger where
  phase : Phase
  drainDeadline : Option Nat
  consecutiveSubmitErrors : Nat
  submitErrorLogged : Bool
  previousCqOverflow : Nat
  continueWithoutWait : Bool
  budget : TurnBudget
  submittedBeforeReap : Nat
  submittedAfterReap : Nat
  /-- The thread has closed its count semaphore. -/
  semClosed : Bool
  /-- `Shard::join` has sent its shutdown request. -/
  joined : Bool
  /-- Every sender has been dropped. -/
  disconnected : Bool
  wake : Wake

/-- Constants of a shard: semaphore size, SQ capacity, `usize::MAX`, drain timeout. -/
structure Params where
  entries : Nat
  sqCapacity : Nat
  usizeMax : Nat
  drainTimeout : Nat
  deriving DecidableEq, Repr

/-- No read, no message and no count yet. -/
def Ledger.init : Ledger where
  pending := ∅
  backlog := []
  sq := []
  held := []
  cq := []
  queuedCancels := ∅
  shuttingDown := false
  chan := []
  stats := .zero
  mail := ⟨∅, [], []⟩
  hist := ⟨[], [], [], [], [], [], [], [], []⟩

/-- The state in which `drive` starts. -/
def Shard.init : Shard where
  toLedger := .init
  phase := .wait
  drainDeadline := none
  consecutiveSubmitErrors := 0
  submitErrorLogged := false
  previousCqOverflow := 0
  continueWithoutWait := false
  budget := .fresh
  submittedBeforeReap := 0
  submittedAfterReap := 0
  semClosed := false
  joined := false
  disconnected := false
  wake := ⟨0, 0, [], 0⟩

end Uring
