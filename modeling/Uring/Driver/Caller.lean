import Uring.Driver.State

/-!
# What callers do

Each definition is one operation of `submit`, of `ReadHandle::poll` or of a handle's
drop on the shard it is bound to. A value that the source drops gives its permits
back in the same operation. Signals are events of their own: a signal may follow its
send at any distance. What an operation is to signal is read off the code that follows it.
-/

namespace Uring

open Uring.Core

/-- The error of every call that finds the driver gone. -/
def driverGone : IoError := .other "uring driver shut down"

/-- Polling an empty result channel whose sender is gone. -/
def driverGoneBeforeCompletion : IoError := .other "uring driver shut down before completion"

/-- `oneshot::Receiver::poll`: nothing yet, a value, or a sender dropped unused. -/
def Mail.recv (m : Mail) (id : Nat) : Option (Option IoResult) :=
  match m.sends.find? fun s => decide (s.id = id) && s.arrived with
  | some s => some (some s.outcome)
  | none => if id ∈ m.sends.map Sent.id ∨ id ∈ m.lost then some none else none

namespace View

/-- Drop `ReadPermits`: the count permit and the bytes go back. -/
def dropPermits (v : View) (p : ReadPermits) : View :=
  { v with
    sem := v.sem.release p.count
    bytes := v.bytes.map fun b => b.release (p.bytes.getD 0) }

/-- The permits of a read admitted on this view. -/
def permitsFor (v : View) (charge : Nat) (reservation : Option Nat) : ReadPermits :=
  ⟨1, v.bytes.map fun _ => charge, reservation⟩

/-- `tx.send` of a read; `none` when the receiver is gone. -/
def sendRead (v : View) (m : ReadMsg) : Option View :=
  (v.loop.sendMsg m.id (.read m)).map fun loop => { v with loop := loop }

/-- The byte semaphore is configured and closed. -/
def bytesClosed (v : View) : Bool := v.bytes.any Semaphore.closed

end View

/-- The message of an admitted request. -/
def Request.msg (r : Request) (id : Nat) (permit : ReadPermits) : ReadMsg :=
  ⟨id, r.file, r.offset, r.len, r.align, permit⟩

/-- A handle that was never handed to the driver. -/
def inertHandle (k : Nat) (value : IoResult) : ReadHandle := ⟨k, .inert value, none, false⟩

namespace Submit

/-- The handle for a selection that failed at shard `k`. -/
def refused (c : Submit) (reservation : Option Nat) (k : Nat) : TryAcquireError → ReadHandle
  | .closed => inertHandle k (.error driverGone)
  | .noPermits => ⟨k, .waiting ⟨c.req, c.charge, reservation, k, .count⟩, none, true⟩

/-- Go on at another operation. -/
def goto (c : Submit) (pc : SubmitPc) : Caller := .submitting { c with pc := pc }

/-- One operation of `select_read_shard` or of the send that follows it. -/
def step (c : Submit) (id : Nat) (reservation : Option Nat) (v : View) : Caller × View :=
  match c.pc with
  | .checkBytes rest =>
    if v.bytesClosed then (.holding (c.refused reservation c.start .closed), v)
    else (c.goto (.tryCount c.start rest none), v)
  | .tryCount k rest waiting =>
    match v.sem.tryAcquire 1 with
    | .ok sem =>
      (c.goto (if v.bytes.isSome then .tryBytes k else .send k), { v with sem := sem })
    | .error e =>
      if c.req.capacityAware then
        let waiting := if e = .noPermits then waiting.or (some k) else waiting
        match rest with
        | [] => (c.goto (.recheckBytes waiting), v)
        | j :: rest => (c.goto (.tryCount j rest waiting), v)
      else (.holding (c.refused reservation k e), v)
  | .tryBytes k =>
    match v.bytes with
    | none => (c.goto (.send k), v)
    | some b =>
      match b.tryAcquire c.charge with
      | .ok b => (c.goto (.send k), { v with bytes := some b })
      | .error e => (c.goto (.dropCount k e), v)
  | .dropCount k e => (.holding (c.refused reservation k e), { v with sem := v.sem.release 1 })
  | .recheckBytes waiting =>
    if v.bytesClosed then (.holding (c.refused reservation c.start .closed), v)
    else
      match waiting with
      | some k => (.holding (c.refused reservation k .noPermits), v)
      | none => (.holding (c.refused reservation c.start .closed), v)
  | .send k =>
    let permit := v.permitsFor c.charge reservation
    match v.sendRead (c.req.msg id permit) with
    | some v => (.holding ⟨k, .submitted k, none, true⟩, v)
    | none => (.holding (inertHandle k (.error driverGone)), v.dropPermits permit)

/-- The eventfd to signal after this operation: that of the shard which was sent the read. -/
def signals (c : Submit) (id : Nat) (reservation : Option Nat) (v : View) : Option Nat :=
  match c.pc with
  | .send k => (v.sendRead (c.req.msg id (v.permitsFor c.charge reservation))).map fun _ => k
  | _ => none

end Submit

namespace ReadHandle

/-- Return `Poll::Ready`. -/
def finish (h : ReadHandle) (r : IoResult) : ReadHandle := { h with finished := some r }

/-- Go on at another stage of the acquire future. -/
def await (h : ReadHandle) (w : Waiting) (stage : Stage) : ReadHandle :=
  { h with state := .waiting { w with stage := stage } }

/-- One operation of `poll`. A failed acquire completes the future, which drops what it
was granted and what it holds. -/
def poll (h : ReadHandle) (id : Nat) (v : View) : ReadHandle × View :=
  match h.state with
  | .inert value => (h.finish value, v)
  | .submitted _ =>
    match v.loop.mail.recv id with
    | none => (h, v)
    | some (some r) => (h.finish r, v)
    | some none => (h.finish (.error driverGoneBeforeCompletion), v)
  | .waiting w =>
    match w.stage with
    | .count =>
      match v.sem.pollAcquire id 1 with
      | (.pending, sem) => (h, { v with sem := sem })
      | (.closed, sem) => (h.finish (.error driverGone), { v with sem := sem.cancel id })
      | (.ready, sem) =>
        (h.await w (if v.bytes.isSome then .bytes true else .admitted), { v with sem := sem })
    | .bytes _ =>
      match v.bytes with
      | none => (h.await w .admitted, v)
      | some b =>
        match b.pollAcquire id w.charge with
        | (.pending, b) => (h.await w (.bytes false), { v with bytes := some b })
        | (.closed, b) => (h.finish (.error driverGone),
            { v with sem := v.sem.release 1, bytes := some (b.cancel id) })
        | (.ready, b) => (h.await w .admitted, { v with bytes := some b })
    | .admitted =>
      let permit := v.permitsFor w.charge w.reservation
      match v.sendRead (w.req.msg id permit) with
      | some v => ({ h with state := .submitted w.wake }, v)
      | none => ({ h with state := .submitted w.wake, finished := some (.error driverGone) },
          v.dropPermits permit)

/-- The eventfd to signal after this operation of a poll: when the read was sent, the one of the
state that the poll replaced. -/
def pollSignals (h : ReadHandle) (id : Nat) (v : View) : Option Nat :=
  match h.state with
  | .waiting w =>
    match w.stage with
    | .admitted => (v.sendRead (w.req.msg id (v.permitsFor w.charge w.reservation))).map fun _ =>
        w.wake
    | _ => none
  | _ => none

/-- A poll is running, so the handle cannot be dropped. -/
def polling (h : ReadHandle) : Bool :=
  match h.state with
  | .waiting w => h.finished.isNone && w.stage.polling
  | _ => false

/-- `ReadHandle::drop` with the drop of its fields. -/
def drop (h : ReadHandle) (id : Nat) (v : View) : View :=
  match h.state with
  | .inert _ => v
  | .waiting w =>
    if h.finished.isSome then v
    else
      match w.stage with
      | .bytes _ => { v with
          sem := v.sem.release 1
          bytes := v.bytes.map fun b => b.cancel id }
      | _ => { v with sem := v.sem.cancel id }
  | .submitted _ =>
    let loop := { v.loop with mail := v.loop.mail.close id }
    if h.finished.isNone && h.cancelOnDrop then
      { v with loop := (loop.sendMsg id (.cancel id)).getD loop }
    else { v with loop := loop }

/-- The eventfd to signal in a drop: a drop that cancels signals also when its send failed. -/
def dropSignals (h : ReadHandle) : Option Nat :=
  match h.state with
  | .submitted wake => if h.finished.isNone && h.cancelOnDrop then some wake else none
  | _ => none

end ReadHandle

/-- What may happen to a caller next. -/
inductive CallerEvent
  /-- The next operation of its `submit`. -/
  | call
  /-- The next operation of a poll of its handle. -/
  | poll
  /-- `without_cancel_on_drop`. -/
  | keep
  /-- The handle is dropped. -/
  | drop
  deriving DecidableEq, Repr

/-- One operation of a caller; a finished handle is not polled again, and a handle is
neither moved nor dropped inside a poll. -/
def Caller.act (x : Caller) (e : CallerEvent) (id : Nat) (reservation : Option Nat) (v : View) :
    Option (Option Caller × View) :=
  match x, e with
  | .submitting c, .call => some (some (c.step id reservation v).1, (c.step id reservation v).2)
  | .holding h, .poll =>
    if h.finished.isSome then none
    else some (some (.holding (h.poll id v).1), (h.poll id v).2)
  | .holding h, .keep =>
    if h.polling then none else some (some (.holding { h with cancelOnDrop := false }), v)
  | .holding h, .drop => if h.polling then none else some (none, h.drop id v)
  | _, _ => none

/-- The eventfd to signal after an operation of a caller. -/
def Caller.signals (x : Caller) (e : CallerEvent) (id : Nat) (reservation : Option Nat)
    (v : View) : Option Nat :=
  match x, e with
  | .submitting c, .call => c.signals id reservation v
  | .holding h, .poll => h.pollSignals id v
  | .holding h, .drop => h.dropSignals
  | _, _ => none

end Uring
