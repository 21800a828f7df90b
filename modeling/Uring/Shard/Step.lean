import Uring.Core.Run
import Uring.Shard.Ledger

/-!
# One shard's transitions

Each label is one atomic action of the loop, of a producer, of the kernel or of a
caller. A label carries the choices its actor makes: the allocator's address, the
iteration order of the table, the submit result, the completion order and data,
the metadata answer and the clock. A panic leaves the memory as it was and ends
the process.
-/

namespace Uring

open Uring.Core

namespace Shard

/-- Intake of `Msg::Read`, with the allocator's answer; `none` is a panic. -/
def intakeRead (c : Params) (s : Shard) (m : ReadMsg) (base : Nat) : Option Shard :=
  if s.shuttingDown then
    some { s with toLedger := s.reject m (.other "uring driver shutting down") }
  else do
    let (kernelOffset, head, regionLen) ← alignedGeometry c.usizeMax m.offset m.len m.align
    match checkedAdd c.usizeMax regionLen (m.align - 1) with
    | none =>
      return { s with
        toLedger := s.reject m (.other "aligned O_DIRECT allocation size overflow") }
    | some cap =>
      -- `vec!` panics on a request above `isize::MAX`
      if c.usizeMax / 2 < cap then none
      else
        let s := { s with budget := { s.budget with
          allocationBytes := min c.usizeMax (s.budget.allocationBytes + cap) } }
        let pad := alignOffset base m.align
        if pad = c.usizeMax ∨
            ¬ (checkedAdd c.usizeMax pad regionLen).any (fun stop => decide (stop ≤ cap)) then
          return { s with toLedger := s.reject m (.other "could not align O_DIRECT read buffer") }
        else do
          let p := newPending m base kernelOffset head regionLen cap
          let sqe ← p.readSqe c.usizeMax m.id
          return { s with toLedger := s.accept m.id p sqe }

/-- Intake of one message. The sweep order must enumerate the table's keys. -/
def intakeMsg (c : Params) (s : Shard) (m : Msg) (base : Nat) (order : List Nat) : Option Shard :=
  match m with
  | .read r => s.intakeRead c r base
  | .cancel id => some { s with toLedger := s.cancel id }
  | .shutdown => some { s with toLedger := s.shutdown order }

/-- One iteration of the intake loop. -/
def intake (c : Params) (s : Shard) (base : Nat) (order : List Nat) : Shard :=
  if s.budget.canTakeMessage then
    match s.chan with
    | [] => { s with shuttingDown := s.shuttingDown || s.disconnected, phase := .submitBefore }
    | m :: rest =>
      let taken := { s with
        chan := rest
        budget := { s.budget with messages := s.budget.messages + 1 } }
      (taken.intakeMsg c m base order).getD { s with phase := .aborted }
  else { s with phase := .submitBefore }

end Shard

/-- The loop state that `handle_submit_result` updates. -/
structure SubmitState where
  submitErrors : Nat
  consecutive : Nat
  logged : Bool
  shuttingDown : Bool
  deriving DecidableEq, Repr

/-- `EBUSY` and `EINTR` are retried without being counted. -/
def transientSubmit : IoError → Bool
  | .os e => decide (e = eBusy) || decide (e = eIntr)
  | _ => false

/-- `handle_submit_result`: the new state, the returned count, and whether the
shutdown callback runs. The `u32` streak wraps, as in a build without overflow checks. -/
def handleSubmitResult (r : Except IoError Nat) (st : SubmitState) : SubmitState × Nat × Bool :=
  match r with
  | .ok n => ({ st with consecutive := 0 }, n, false)
  | .error e =>
    if transientSubmit e then ({ st with consecutive := 0 }, 0, false)
    else
      let st := { st with
        submitErrors := fetchAdd st.submitErrors
        consecutive := (st.consecutive + 1) % 2 ^ 32
        logged := true }
      if !st.shuttingDown && decide (maxConsecutiveSubmitErrors ≤ st.consecutive) then
        ({ st with shuttingDown := true }, 0, true)
      else (st, 0, false)

namespace Shard

/-- The part of the loop state handed to `handle_submit_result`. -/
def submitState (s : Shard) : SubmitState :=
  ⟨s.stats.submitErrors, s.consecutiveSubmitErrors, s.submitErrorLogged, s.shuttingDown⟩

/-- Write back what `handle_submit_result` changed. -/
def withSubmitState (s : Shard) (st : SubmitState) : Shard :=
  { s with
    stats := { s.stats with submitErrors := st.submitErrors }
    consecutiveSubmitErrors := st.consecutive
    submitErrorLogged := st.logged
    shuttingDown := st.shuttingDown }

/-- `io_uring_enter`: the kernel consumes a prefix of the submission queue, or
none of it with an error. -/
def enter (s : Shard) (r : Except IoError Nat) : Option Shard :=
  match r with
  | .ok n => if s.sq.length < n then none else some { s with toLedger := s.consume n }
  | .error _ => some s

/-- `submit_ring`: flush, enter when needed, classify the result. `kernelWork` is
the ring's overflow or task-run flag. -/
def submitRing (c : Params) (s : Shard) (kernelWork : Bool) (r : Except IoError Nat)
    (order : List Nat) : Option (Shard × Nat) :=
  let s := { s with toLedger := s.flush c.sqCapacity }
  if s.sq.isEmpty && !kernelWork then some (s, 0)
  else do
    let s ← s.enter r
    let (st, n, callback) := handleSubmitResult r s.submitState
    let s := s.withSubmitState st
    if callback then return ({ s with toLedger := s.queueCancels order }, n) else return (s, n)

/-- One iteration of the reap loop. -/
def reap (c : Params) (s : Shard) (fileLen : Except IoError Nat) (late : Bool) : Shard :=
  if s.budget.canReap then
    match s.cq with
    | [] => { s with phase := .submitAfter }
    | q :: rest =>
      match { s.toLedger with cq := rest }.reapCqe c.usizeMax q fileLen late with
      | none => { s with phase := .aborted }
      | some l => { s with
          toLedger := l
          budget := { s.budget with completions := s.budget.completions + 1 } }
  else { s with phase := .submitAfter }

/-- `update_cq_overflow`. -/
def updateCqOverflow (s : Shard) (observed : Nat) : Shard :=
  if observed = s.previousCqOverflow then s
  else { s with previousCqOverflow := observed, stats := { s.stats with cqOverflow := observed } }

/-- Compute `continue_without_wait` and go back to the loop head. -/
def nextTurn (c : Params) (s : Shard) : Shard :=
  { s with
    continueWithoutWait := s.budget.continueWithoutWait (!s.cq.isEmpty)
      (!s.backlog.isEmpty || !s.sq.isEmpty)
      (min c.usizeMax (s.submittedBeforeReap + s.submittedAfterReap))
    phase := .wait }

/-- The end of a turn: exit when drained or timed out, else go on. -/
def finishTurn (c : Params) (s : Shard) (now now' : Nat) : Shard :=
  if s.shuttingDown then
    if s.pending.entries.isEmpty && s.backlog.isEmpty then
      { s with phase := .closing false }
    else
      let deadline := s.drainDeadline.getD (now + c.drainTimeout)
      let s := { s with drainDeadline := some deadline }
      if deadline ≤ now' then
        { s with toLedger := s.leak, phase := .closing true }
      else s.nextTurn c
  else s.nextTurn c

/-- A producer's send: it fails once the receiver is dropped, and afterwards the
producer owes a signal. Reads carry fresh ids below the cancel bit. -/
def sendMsg (s : Shard) (p : Nat) (m : Msg) : Option Shard :=
  if s.disconnected ∨ s.phase.receiving = false ∨
      (∃ id ∈ readIds [m], id ∈ s.hist.issued ∨ cancelBit ≤ id) then none
  else some { s with
    toLedger := s.send m
    wake := { s.wake with owing := if p ∈ s.wake.owing then s.wake.owing else p :: s.wake.owing } }

end Shard

/-- The labels of a shard's transition system. -/
inductive Event
  /-- Producer `p` sends a message. -/
  | send (p : Nat) (m : Msg)
  /-- `Shard::join` sends its shutdown request. -/
  | join (p : Nat)
  /-- Producer `p` signals the wake eventfd, also after a send that failed. -/
  | signal (p : Nat)
  /-- The last sender is dropped, after the shard was joined. -/
  | hangup
  /-- A caller closes or drops a result receiver. -/
  | closeRx (id : Nat)
  /-- The kernel completes a held entry. -/
  | post (k : Nat) (res : Int) (data : List UInt8)
  /-- The kernel signals the completion eventfd. -/
  | cqSignal
  /-- `wait_for_events` returns, or is skipped. -/
  | wake
  | drainCq
  | drainWake
  | intake (base : Nat) (order : List Nat)
  | submit (kernelWork : Bool) (r : Except IoError Nat) (order : List Nat)
  | reap (fileLen : Except IoError Nat) (late : Bool)
  | endTurn (overflow now now' : Nat)
  /-- On either exit the thread closes its count semaphore. -/
  | closeSem
  /-- `drive` returns and drops its receiver. -/
  | dropRx
  deriving DecidableEq, Repr

namespace Shard

/-- One transition. A label is refused when its actor is not in position to take it. -/
def step (c : Params) (s : Shard) (e : Event) : Option Shard :=
  if s.phase = .aborted then none
  else
    match e with
    | .send p m => s.sendMsg p m
    | .join p => if s.joined then none else
        (s.sendMsg p .shutdown).map fun s => { s with joined := true }
    | .signal p => some { s with wake := { s.wake with
        wakeEfd := signalEfd s.wake.wakeEfd, owing := s.wake.owing.erase p } }
    | .hangup => if s.joined then some { s with disconnected := true } else none
    | .closeRx id => some { s with mail := s.mail.close id }
    | .post k res data => (s.toLedger.post k res data).map fun l =>
        { s with toLedger := l, wake := { s.wake with cqOwing := s.wake.cqOwing + 1 } }
    | .cqSignal => if 0 < s.wake.cqOwing then
        some { s with wake := { s.wake with
          cqEfd := signalEfd s.wake.cqEfd, cqOwing := s.wake.cqOwing - 1 } }
      else none
    | .wake => if s.phase = .wait then some { s with phase := .drainCq } else none
    | .drainCq => if s.phase = .drainCq then
        some { s with wake := { s.wake with cqEfd := 0 }, phase := .drainWake }
      else none
    | .drainWake => if s.phase = .drainWake then
        some { s with wake := { s.wake with wakeEfd := 0 }, budget := .fresh, phase := .intake }
      else none
    | .intake base order => if s.phase = .intake ∧ order.Perm s.pending.keys then
        some (s.intake c base order)
      else none
    | .submit kernelWork r order => if order.Perm s.pending.keys then
        match s.phase with
        | .submitBefore => (s.submitRing c kernelWork r order).map fun (s, n) =>
            { s with submittedBeforeReap := n, phase := .reap }
        | .submitAfter => (s.submitRing c kernelWork r order).map fun (s, n) =>
            { s with submittedAfterReap := n, phase := .endTurn }
        | _ => none
      else none
    | .reap fileLen late => if s.phase = .reap then some (s.reap c fileLen late) else none
    | .endTurn overflow now now' => if s.phase = .endTurn then
        some ((s.updateCqOverflow overflow).finishTurn c now now')
      else none
    | .closeSem =>
      match s.phase with
      | .closing _ => if s.semClosed then none else some { s with semClosed := true }
      | _ => none
    | .dropRx =>
      match s.phase with
      | .closing leaked => if s.semClosed then
          some { s with toLedger := s.dropChan, phase := .exited leaked }
        else none
      | _ => none

/-- States reached by a shard when the environment may take any label. -/
abbrev Reach (c : Params) (s : Shard) : Prop := Reachable (step c) anyLabel init s

/-- A ring with a single slot on a 64-bit target. -/
def oneSlot : Params := ⟨1, 1, 2 ^ 64 - 1, 5⟩

end Shard

end Uring
