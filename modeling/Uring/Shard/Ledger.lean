import Uring.Shard.State

/-!
# The operations of one loop on its ledger

Each operation is one atomic piece of `drive`: queueing an SQE, taking a message,
flushing and entering the ring, consuming a completion, leaking the table. An
operation that panics in the source returns `none`. The kernel's own operations
are here too: it completes held entries and stores the bytes it read.
-/

namespace Uring

open Uring.Core

namespace Ledger

/-- `backlog.push_back(sqe)`. -/
def queueSqe (l : Ledger) (e : Sqe) : Ledger :=
  { l with backlog := l.backlog ++ [e], hist := { l.hist with queued := l.hist.queued ++ [e] } }

/-- `queue_cancel`: at most one `AsyncCancel` per id in the dedup set. -/
def queueCancel (l : Ledger) (id : Nat) : Ledger :=
  if id ∈ l.queuedCancels then l
  else { l.queueSqe (cancelSqe id) with queuedCancels := insert id l.queuedCancels }

/-- The cancel sweep over the table's keys, in the order the table yields them. -/
def queueCancels (l : Ledger) (order : List Nat) : Ledger := order.foldl queueCancel l

/-- `mpsc::Sender::send`; the reads ever sent are recorded. -/
def send (l : Ledger) (m : Msg) : Ledger :=
  { l with
    chan := l.chan ++ [m]
    hist := { l.hist with
      requests := l.hist.requests ++ readMsgs [m]
      issued := l.hist.issued ++ readIds [m] } }

/-- Refuse a read at intake: answer its caller and drop its permits. -/
def reject (l : Ledger) (m : ReadMsg) (e : IoError) : Ledger :=
  { l with
    mail := l.mail.send m.id (.error e)
    hist := { l.hist with released := l.hist.released ++ [m.permit] } }

end Ledger

/-- `align_offset(align)` of a byte pointer at address `base`. -/
def alignOffset (base align : Nat) : Nat := (align - base % align) % align

/-- The table entry built for an accepted message. -/
def newPending (m : ReadMsg) (base kernelOffset head regionLen cap : Nat) : Pending where
  buf := ⟨m.id, base, List.replicate cap 0⟩
  file := m.file
  done := some m.id
  offset := kernelOffset
  nread := 0
  permit := m.permit
  pad := alignOffset base m.align
  head := head
  want := m.len
  regionLen := regionLen
  align := m.align
  transientRetries := 0
  cancelRequested := false

namespace Ledger

/-- Insert the entry, count it and queue the SQE built from it. -/
def accept (l : Ledger) (id : Nat) (p : Pending) (sqe : Sqe) : Ledger :=
  { l with
    pending := l.pending.insert id p
    stats := { l.stats with
      submitted := fetchAdd l.stats.submitted
      inFlight := fetchAdd l.stats.inFlight }
    hist := { l.hist with accepted := l.hist.accepted ++ [id] } }.queueSqe sqe

/-- Intake of `Msg::Cancel`: record the intent of a pending read and queue its cancel. -/
def cancel (l : Ledger) (id : Nat) : Ledger :=
  match l.pending.lookup id with
  | none => l
  | some p =>
    { l with pending := l.pending.insert id { p with cancelRequested := true } }.queueCancel id

/-- Enter shutdown and cancel every pending read. -/
def shutdown (l : Ledger) (order : List Nat) : Ledger :=
  { l with shuttingDown := true }.queueCancels order

end Ledger

/-- `flush_backlog`: move entries in order until the submission queue is full. -/
def flushBacklog (capacity : Nat) : List Sqe → List Sqe → List Sqe × List Sqe
  | [], sq => ([], sq)
  | e :: rest, sq =>
    if sq.length < capacity then flushBacklog capacity rest (sq ++ [e]) else (e :: rest, sq)

namespace Ledger

/-- `flush_backlog` on the ring's own queue. -/
def flush (capacity : Nat) (l : Ledger) : Ledger :=
  let flushed := flushBacklog capacity l.backlog l.sq
  { l with backlog := flushed.1, sq := flushed.2 }

/-- The kernel consumes the first `n` entries of the submission queue. -/
def consume (l : Ledger) (n : Nat) : Ledger :=
  { l with
    held := l.held ++ l.sq.take n
    sq := l.sq.drop n
    hist := { l.hist with consumed := l.hist.consumed ++ l.sq.take n } }

/-- Finish a logical read at its final completion; `arrived` is the send's result. -/
def finish (l : Ledger) (id tx : Nat) (p : Pending) (outcome : IoResult) (late : Bool) : Ledger :=
  let mail := if late then l.mail.close tx else l.mail
  let arrived := decide (tx ∉ mail.closed)
  { l with
    pending := l.pending.erase id
    mail := mail.send tx outcome
    stats := { l.stats with
      delivered := if arrived then fetchAdd l.stats.delivered else l.stats.delivered
      orphanReclaimed :=
        if arrived then l.stats.orphanReclaimed else fetchAdd l.stats.orphanReclaimed
      inFlight := fetchSub l.stats.inFlight }
    queuedCancels := l.queuedCancels.erase id
    hist := { l.hist with
      delivered := if arrived then l.hist.delivered ++ [id] else l.hist.delivered
      orphaned := if arrived then l.hist.orphaned else l.hist.orphaned ++ [id]
      released := l.hist.released ++ [p.permit] } }

/-- Whether a result sender's receiver is closed, as `deliver` sees it. -/
def doneClosed (l : Ledger) (p : Pending) : Bool :=
  match p.done with
  | none => true
  | some tx => decide (tx ∈ l.mail.closed)

/-- The completion of an `AsyncCancel` only counts its outcome. -/
def cancelDone (l : Ledger) (q : Cqe) : Ledger :=
  { l with
    stats := l.stats.cancelResult q.res
    hist := { l.hist with cancelsReaped := l.hist.cancelsReaped ++ [q.userData] } }

/-- Keep the entry with its progress and queue the SQE for its remainder. -/
def resubmit (l : Ledger) (id : Nat) (p : Pending) (sqe : Sqe) : Ledger :=
  { l with pending := l.pending.insert id p }.queueSqe sqe

/-- One consumed completion; `none` is a panic. `late` closes the receiver between
`deliver`'s look at it and the send. -/
def reapCqe (usizeMax : Nat) (l : Ledger) (q : Cqe) (fileLen : Except IoError Nat)
    (late : Bool) : Option Ledger :=
  if q.userData &&& cancelBit ≠ 0 then some (l.cancelDone q)
  else
    match l.pending.lookup q.userData with
    | none => some l
    | some p => do
      let (p', next) ←
        reapRead usizeMax p q.userData q.res l.shuttingDown (l.doneClosed p) fileLen
      match next with
      | .finish outcome => do
        let tx ← p'.done
        return l.finish q.userData tx p' outcome late
      | .resubmit sqe => return l.resubmit q.userData p' sqe

/-- The bounded-drain leak: fail every stranded caller, keep every buffer. -/
def leak (l : Ledger) : Ledger :=
  { l with
    pending := l.pending.mapVal fun p => { p with done := none }
    mail := { l.mail with
      sends := l.mail.sends ++ (l.pending.entries.filterMap fun e => e.2.done).map fun tx =>
        ⟨tx, .error (.other "uring driver leaked op on bounded-drain timeout"),
          decide (tx ∉ l.mail.closed)⟩ } }

/-- The receiver is dropped with the messages left in it: their senders and
permits are dropped too. -/
def dropChan (l : Ledger) : Ledger :=
  { l with
    chan := []
    mail := { l.mail with lost := l.mail.lost ++ readIds l.chan }
    hist := { l.hist with released := l.hist.released ++ readPermits l.chan } }

/-- The kernel stores `data` at a pointer into a buffer of the pending table. -/
def writeBlock (l : Ledger) (ptr : Ptr) (data : List UInt8) : Ledger :=
  match l.pending.lookup ptr.block with
  | none => l
  | some p =>
    let buf := { p.buf with bytes := overwrite p.buf.bytes ptr.off data }
    { l with pending := l.pending.insert ptr.block { p with buf := buf } }

/-- The kernel completes its `k`-th held entry: it stores at most the requested
bytes of a read and posts one completion. -/
def post (l : Ledger) (k : Nat) (res : Int) (data : List UInt8) : Option Ledger :=
  match l.held[k]? with
  | none => none
  | some e =>
    let posted := { l with held := l.held.eraseIdx k, cq := l.cq ++ [⟨e, res⟩] }
    match e with
    | .read _ _ ptr len _ => if len < data.length then none else some (posted.writeBlock ptr data)
    | .asyncCancel _ _ => if data = [] then some posted else none

end Ledger

end Uring
