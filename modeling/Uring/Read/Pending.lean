import Uring.Read.Geometry

/-!
# One logical read: its table entry, its SQE and its completion

A pending entry owns the buffer, the file and the result sender of one read.
Operations that panic in the source return `none`: a checked subtraction that
underflows, a checked addition past its word, or a slice copied out of range.
Receiver closure and the file-metadata answer are explicit inputs.
-/

namespace Uring

/-- `CANCEL_BIT`: marks the completion of an `AsyncCancel` itself. -/
def cancelBit : Nat := 2 ^ 63

/-- `MAX_TRANSIENT_RETRIES`. -/
def maxTransientRetries : Nat := 16

def eNoEnt : Nat := 2
def eIntr : Nat := 4
def eAgain : Nat := 11
def eBusy : Nat := 16
def eAlready : Nat := 114
def eCanceled : Nat := 125

/-- A pointer into a heap block: the block's identity, its address and a byte offset. -/
structure Ptr where
  block : Nat
  base : Nat
  off : Nat
  deriving DecidableEq, Repr

/-- A submission-queue entry: a positioned read or a cancellation of one. -/
inductive Sqe
  | read (userData : Nat) (file : Nat) (ptr : Ptr) (len : Nat) (offset : Nat)
  | asyncCancel (target : Nat) (userData : Nat)
  deriving DecidableEq, Repr

/-- The `user_data` the kernel copies into the completion. -/
def Sqe.userData : Sqe → Nat
  | .read ud _ _ _ _ => ud
  | .asyncCancel _ ud => ud

/-- Whether this entry is a read, as opposed to an `AsyncCancel`. -/
def Sqe.isRead : Sqe → Bool
  | .read .. => true
  | .asyncCancel .. => false

/-- `opcode::AsyncCancel::new(id).build().user_data(id | CANCEL_BIT)`. -/
def cancelSqe (id : Nat) : Sqe := .asyncCancel id (id ||| cancelBit)

/-- A completion: the entry it answers and the signed kernel result. The driver
reads only `userData` and `res`. -/
structure Cqe where
  sqe : Sqe
  res : Int
  deriving DecidableEq, Repr

def Cqe.userData (c : Cqe) : Nat := c.sqe.userData

/-- The permits travelling with an admitted read: one count permit of a shard's
semaphore, the charged bytes, and the shared reservation receipt. -/
structure ReadPermits where
  count : Nat
  bytes : Option Nat
  sharedReservation : Option Nat
  deriving DecidableEq, Repr

/-- A heap buffer: block identity, address and contents. -/
structure Buf where
  block : Nat
  base : Nat
  bytes : List UInt8
  deriving DecidableEq, Repr

/-- `Pending`: one in-flight logical read and everything the kernel touches. -/
structure Pending where
  buf : Buf
  file : Nat
  /-- The result sender, named by its oneshot channel; `none` once used. -/
  done : Option Nat
  /-- Kernel read offset: block-aligned for a direct read. -/
  offset : Nat
  /-- Bytes already read into the read region. -/
  nread : Nat
  permit : ReadPermits
  /-- Offset inside the buffer where the read region starts. -/
  pad : Nat
  /-- Bytes of the region before the logical range. -/
  head : Nat
  /-- Logical length the caller asked for. -/
  want : Nat
  /-- Bytes the kernel is asked to read. -/
  regionLen : Nat
  align : Nat
  transientRetries : Nat
  cancelRequested : Bool
  deriving DecidableEq, Repr

/-- `Pending::read_sqe`: the SQE for the not-yet-read remainder of the region. -/
def Pending.readSqe (usizeMax : Nat) (p : Pending) (ud : Nat) : Option Sqe :=
  if p.regionLen < p.nread then none
  else do
    let off ← checkedAdd usizeMax p.pad p.nread
    let nextOff ← checkedAdd u64Max p.offset p.nread
    return .read ud p.file ⟨p.buf.block, p.buf.base, off⟩ ((p.regionLen - p.nread) % 2 ^ 32) nextOff

/-- `slice::copy_within(start..stop, 0)`, panicking out of range. -/
def copyWithin (bytes : List UInt8) (start stop : Nat) : Option (List UInt8) :=
  if stop < start ∨ bytes.length < stop then none
  else some ((bytes.drop start).take (stop - start) ++ bytes.drop (stop - start))

/-- `deliver`: exactly the logical range, clamped to what was read. An abandoned
read keeps its allocation and yields the empty placeholder. -/
def deliver (usizeMax : Nat) (p : Pending) (closed : Bool) : Option (Pending × List UInt8) :=
  if p.done.isNone || closed then some (p, [])
  else do
    let avail := min (p.nread - p.head) p.want
    let start ← checkedAdd usizeMax p.pad p.head
    let moved ← if start ≠ 0 ∧ avail ≠ 0 then do
        let stop ← checkedAdd usizeMax start avail
        copyWithin p.buf.bytes start stop
      else some p.buf.bytes
    return ({ p with buf := { p.buf with bytes := [] } }, moved.take avail)

/-- `finish_direct_short_read`: succeed only past the confirmed end of file. -/
def finishDirectShortRead (usizeMax : Nat) (p : Pending) (closed : Bool)
    (fileLen : Except IoError Nat) : Option (Pending × IoResult) :=
  match fileLen with
  | .error e => some (p, .error e)
  | .ok n => do
    let reached ← checkedAdd u64Max p.offset p.nread
    if reached < n then
      return (p, .error (.other "io_uring O_DIRECT: non-block-aligned short read before EOF"))
    else
      let (p', bytes) ← deliver usizeMax p closed
      return (p', .ok bytes)

/-- `ReapStep`: finish the logical read, or re-queue an SQE for its remainder. -/
inductive ReapStep
  | finish (outcome : IoResult)
  | resubmit (sqe : Sqe)
  deriving DecidableEq, Repr

/-- Deliver and finish, the shared tail of the successful branches. -/
def finishOk (usizeMax : Nat) (p : Pending) (closed : Bool) : Option (Pending × ReapStep) := do
  let (p', bytes) ← deliver usizeMax p closed
  return (p', .finish (.ok bytes))

/-- `reap_read` on a negative result. -/
def reapError (usizeMax : Nat) (p : Pending) (id : Nat) (err : Nat) (stop : Bool) :
    Option (Pending × ReapStep) :=
  if (err = eIntr ∨ err = eAgain) ∧ p.offset ≠ currentPosition ∧ p.nread < p.regionLen then
    if stop then some (p, .finish (.error (.os eCanceled)))
    else if p.transientRetries < maxTransientRetries then do
      let p' := { p with transientRetries := p.transientRetries + 1 }
      let sqe ← p'.readSqe usizeMax id
      return (p', .resubmit sqe)
    else some (p, .finish (.error (.os err)))
  else some (p, .finish (.error (.os err)))

/-- `reap_read` after a positive result has been added to `nread`. -/
def reapProgress (usizeMax : Nat) (p : Pending) (id : Nat) (stop closed : Bool)
    (fileLen : Except IoError Nat) : Option (Pending × ReapStep) := do
  let range ← checkedAdd usizeMax p.head p.want
  if p.offset = currentPosition ∨ range ≤ p.nread ∨ p.regionLen ≤ p.nread then
    finishOk usizeMax p closed
  else if stop then
    return (p, .finish (.error (.os eCanceled)))
  else if 1 < p.align ∧ p.nread % p.align ≠ 0 then do
    let (p', outcome) ← finishDirectShortRead usizeMax p closed fileLen
    return (p', .finish outcome)
  else do
    let sqe ← p.readSqe usizeMax id
    return (p, .resubmit sqe)

/-- `reap_read`: decide what follows a read completion. `closed` is the receiver's
state when `deliver` looks at it, `fileLen` the answer of `metadata()`. -/
def reapRead (usizeMax : Nat) (p : Pending) (id : Nat) (res : Int) (shuttingDown closed : Bool)
    (fileLen : Except IoError Nat) : Option (Pending × ReapStep) :=
  let stop := p.cancelRequested || shuttingDown
  if res < 0 then reapError usizeMax p id (-res).toNat stop
  else if res = 0 then finishOk usizeMax p closed
  else do
    let nread ← checkedAdd usizeMax p.nread res.toNat
    reapProgress usizeMax { p with nread := nread, transientRetries := 0 } id stop closed fileLen

/-- A built read SQE carries the caller's `user_data` and addresses the entry's
own buffer at the first unread byte. -/
theorem Pending.readSqe_eq_some {usizeMax : Nat} {p : Pending} {ud : Nat} {sqe : Sqe}
    (h : p.readSqe usizeMax ud = some sqe) :
    sqe = .read ud p.file ⟨p.buf.block, p.buf.base, p.pad + p.nread⟩
        ((p.regionLen - p.nread) % 2 ^ 32) (p.offset + p.nread) ∧
      p.nread ≤ p.regionLen := by
  unfold Pending.readSqe at h
  split at h
  · cases h
  · simp only [Option.bind_eq_bind, Option.bind_eq_some_iff, Option.pure_def,
      Option.some.injEq, checkedAdd_eq_some] at h
    obtain ⟨off, ⟨rfl, _⟩, nextOff, ⟨rfl, _⟩, rfl⟩ := h
    exact ⟨rfl, by omega⟩

/-- It is a read entry under that `user_data`. -/
theorem Pending.readSqe_read {usizeMax : Nat} {p : Pending} {ud : Nat} {sqe : Sqe}
    (h : p.readSqe usizeMax ud = some sqe) : sqe.userData = ud ∧ sqe.isRead = true := by
  obtain ⟨rfl, _⟩ := Pending.readSqe_eq_some h
  exact ⟨rfl, rfl⟩

/-- Two entries that read the same region of the same file into the same buffer. -/
structure Pending.SameRegion (p q : Pending) : Prop where
  block : q.buf.block = p.buf.block
  base : q.buf.base = p.buf.base
  file : q.file = p.file
  offset : q.offset = p.offset
  pad : q.pad = p.pad
  head : q.head = p.head
  want : q.want = p.want
  regionLen : q.regionLen = p.regionLen
  align : q.align = p.align

/-- Everything a completion decision keeps: the region, the sender, the permits and
the cancel intent. -/
structure Pending.SameRead (p q : Pending) : Prop extends Pending.SameRegion p q where
  done : q.done = p.done
  permit : q.permit = p.permit
  cancelRequested : q.cancelRequested = p.cancelRequested

theorem Pending.SameRegion.refl (p : Pending) : p.SameRegion p := by
  constructor <;> rfl

theorem Pending.SameRegion.trans {p q r : Pending} (h : p.SameRegion q) (h' : q.SameRegion r) :
    p.SameRegion r where
  block := h'.block.trans h.block
  base := h'.base.trans h.base
  file := h'.file.trans h.file
  offset := h'.offset.trans h.offset
  pad := h'.pad.trans h.pad
  head := h'.head.trans h.head
  want := h'.want.trans h.want
  regionLen := h'.regionLen.trans h.regionLen
  align := h'.align.trans h.align

/-- The SQE of a read depends on its region and its progress alone. -/
theorem Pending.SameRegion.readSqe {p q : Pending} (h : p.SameRegion q) (hn : q.nread = p.nread)
    (usizeMax ud : Nat) : q.readSqe usizeMax ud = p.readSqe usizeMax ud := by
  simp only [Pending.readSqe, h.block, h.base, h.file, h.offset, h.pad, h.regionLen, hn]

theorem Pending.SameRead.refl (p : Pending) : p.SameRead p :=
  ⟨.refl p, rfl, rfl, rfl⟩

theorem Pending.SameRead.trans {p q r : Pending} (h : p.SameRead q) (h' : q.SameRead r) :
    p.SameRead r where
  toSameRegion := h.toSameRegion.trans h'.toSameRegion
  done := h'.done.trans h.done
  permit := h'.permit.trans h.permit
  cancelRequested := h'.cancelRequested.trans h.cancelRequested

/-- Progress and retries are not part of a read's identity. -/
theorem Pending.SameRead.of_progress (p : Pending) (nread retries : Nat) :
    p.SameRead { p with nread := nread, transientRetries := retries } :=
  ⟨⟨rfl, rfl, rfl, rfl, rfl, rfl, rfl, rfl, rfl⟩, rfl, rfl, rfl⟩

/-- Neither are the bytes of its buffer. -/
theorem Pending.SameRead.of_bytes (p : Pending) (bytes : List UInt8) :
    p.SameRead { p with buf := { p.buf with bytes := bytes } } :=
  ⟨⟨rfl, rfl, rfl, rfl, rfl, rfl, rfl, rfl, rfl⟩, rfl, rfl, rfl⟩

/-- `deliver` may take the buffer's contents and keeps everything else. With a live
receiver it yields the logical range, clamped to what was read. -/
theorem deliver_spec {usizeMax : Nat} {p p' : Pending} {closed : Bool} {bytes : List UInt8}
    (h : deliver usizeMax p closed = some (p', bytes)) :
    p.SameRead p' ∧ (p.done.isSome = true → closed = false →
      bytes = (p.buf.bytes.drop (p.pad + p.head)).take (min (p.nread - p.head) p.want)) := by
  unfold deliver at h
  split at h
  · rename_i hgone
    cases h
    refine ⟨.refl p, fun hs hc => ?_⟩
    rw [hc, Bool.or_false, Option.isNone_iff_eq_none] at hgone
    rw [hgone] at hs
    cases hs
  · have hsame := Pending.SameRead.of_bytes p []
    simp only [Option.bind_eq_bind, Option.bind_eq_some_iff, checkedAdd_eq_some] at h
    obtain ⟨start, ⟨rfl, _⟩, h⟩ := h
    split at h
    · simp only [Option.bind_eq_some_iff, Option.pure_def, Option.some.injEq, Prod.mk.injEq,
        checkedAdd_eq_some, copyWithin] at h
      obtain ⟨stop, ⟨rfl, _⟩, moved, hmoved, rfl, rfl⟩ := h
      refine ⟨hsame, fun _ _ => ?_⟩
      split at hmoved
      · cases hmoved
      · rename_i hfit
        cases hmoved
        rw [List.take_append_of_le_length]
        · rw [Nat.add_sub_cancel_left, List.take_take, Nat.min_self]
        · simp only [List.length_take, List.length_drop]
          omega
    · rename_i hmove
      simp only [Option.bind_some, Option.pure_def, Option.some.injEq, Prod.mk.injEq] at h
      obtain ⟨rfl, rfl⟩ := h
      refine ⟨hsame, fun _ _ => ?_⟩
      by_cases hstart : p.pad + p.head = 0
      · rw [hstart, List.drop_zero]
      · have havail : min (p.nread - p.head) p.want = 0 := by
          by_contra hne
          exact hmove ⟨hstart, hne⟩
        rw [havail, List.take_zero, List.take_zero]

/-- How `reap_read` can continue: it re-queues only an uncancelled positioned read
whose region is not yet full, from an entry that differs in progress alone. -/
theorem reapRead_resubmit {usizeMax : Nat} {p p' : Pending} {id : Nat} {res : Int}
    {down closed : Bool} {fileLen : Except IoError Nat} {sqe : Sqe}
    (h : reapRead usizeMax p id res down closed fileLen = some (p', .resubmit sqe)) :
    p'.readSqe usizeMax id = some sqe ∧ p.SameRead p' ∧ p'.buf = p.buf ∧
      p.cancelRequested = false ∧ down = false ∧ p.offset ≠ currentPosition ∧
      p'.nread = p.nread + res.toNat ∧ p'.nread < p.regionLen ∧
      (1 < p.align → p'.nread % p.align = 0 ∨ p'.nread = p.nread) := by
  unfold reapRead at h
  simp only at h
  split at h
  · -- transient errno: the entry keeps its progress and spends one retry
    rename_i hneg
    unfold reapError at h
    split at h
    · rename_i hcond
      split at h
      · cases h
      · rename_i hstop
        split at h
        · simp only [Option.bind_eq_bind, Option.bind_eq_some_iff, Option.pure_def,
            Option.some.injEq, Prod.mk.injEq, ReapStep.resubmit.injEq] at h
          obtain ⟨sqe', hs, rfl, rfl⟩ := h
          simp only [Bool.or_eq_true, not_or, Bool.not_eq_true] at hstop
          have hres : res.toNat = 0 := by omega
          refine ⟨hs, .of_progress p _ _, rfl, hstop.1,
            hstop.2, hcond.2.1, ?_, hcond.2.2, fun _ => Or.inr rfl⟩
          simp only [hres, Nat.add_zero]
        · cases h
    · cases h
  · split at h
    · unfold finishOk at h
      simp only [Option.bind_eq_bind, Option.bind_eq_some_iff, Option.pure_def,
        Option.some.injEq, Prod.mk.injEq, reduceCtorEq, and_false, exists_false] at h
    · -- short read: only the covered length moves
      simp only [Option.bind_eq_bind, Option.bind_eq_some_iff, checkedAdd_eq_some] at h
      obtain ⟨n, ⟨rfl, _⟩, hp⟩ := h
      unfold reapProgress finishOk at hp
      simp only [Option.bind_eq_bind, Option.bind_eq_some_iff, checkedAdd_eq_some] at hp
      obtain ⟨range, _, hp⟩ := hp
      split at hp
      · simp only [Option.bind_eq_some_iff, Option.pure_def, Option.some.injEq, Prod.mk.injEq,
          reduceCtorEq, and_false, exists_false] at hp
      · rename_i hmore
        split at hp
        · simp only [Option.pure_def, Option.some.injEq, Prod.mk.injEq, reduceCtorEq,
            and_false] at hp
        · rename_i hstop
          split at hp
          · simp only [Option.bind_eq_some_iff, Option.pure_def, Option.some.injEq,
              Prod.mk.injEq, reduceCtorEq, and_false, exists_false] at hp
          · rename_i htail
            simp only [Option.bind_eq_some_iff, Option.pure_def, Option.some.injEq,
              Prod.mk.injEq, ReapStep.resubmit.injEq] at hp
            obtain ⟨sqe', hs, rfl, rfl⟩ := hp
            simp only [Bool.or_eq_true, not_or, Bool.not_eq_true] at hstop
            simp only [not_or, not_le] at hmore
            refine ⟨hs, .of_progress p _ _, rfl, hstop.1,
              hstop.2, hmore.1, rfl, hmore.2.2, ?_⟩
            intro ha
            left
            by_contra hm
            exact htail ⟨ha, hm⟩

/-- Why a successful finish is final: the end of the file, a stream, a covered range,
a full region, or a tail confirmed by the file's length. -/
def Complete (p : Pending) (res : Int) (nread : Nat) (fileLen : Except IoError Nat) : Prop :=
  res = 0 ∨ p.offset = currentPosition ∨ p.head + p.want ≤ nread ∨ p.regionLen ≤ nread ∨
    ∃ n, fileLen = .ok n ∧ n ≤ p.offset + nread

/-- How `reap_read` can finish: it keeps the entry's identity, and a success is what
`deliver` yields from an entry whose progress is complete. -/
theorem reapRead_finish {usizeMax : Nat} {p p' : Pending} {id : Nat} {res : Int}
    {down closed : Bool} {fileLen : Except IoError Nat} {outcome : IoResult}
    (h : reapRead usizeMax p id res down closed fileLen = some (p', .finish outcome)) :
    p.SameRead p' ∧ ∀ bytes, outcome = .ok bytes → 0 ≤ res ∧ ∃ q, p.SameRead q ∧ q.buf = p.buf ∧
      q.nread = p.nread + res.toNat ∧ deliver usizeMax q closed = some (p', bytes) ∧
      Complete p res q.nread fileLen := by
  unfold reapRead at h
  simp only at h
  split at h
  · -- a negative result never succeeds and never touches the entry
    unfold reapError at h
    split at h
    · split at h
      · cases h
        exact ⟨.refl p, nofun⟩
      · split at h
        · simp only [Option.bind_eq_bind, Option.bind_eq_some_iff, Option.pure_def,
            Option.some.injEq, Prod.mk.injEq, reduceCtorEq, and_false, exists_false] at h
        · cases h
          exact ⟨.refl p, nofun⟩
    · cases h
      exact ⟨.refl p, nofun⟩
  · rename_i hneg
    split at h
    · rename_i hzero
      unfold finishOk at h
      simp only [Option.bind_eq_bind, Option.bind_eq_some_iff, Option.pure_def,
        Option.some.injEq, Prod.mk.injEq, ReapStep.finish.injEq] at h
      obtain ⟨⟨q, bytes⟩, hd, rfl, rfl⟩ := h
      refine ⟨(deliver_spec hd).1, fun bytes' hb => ⟨by omega, p, .refl p, rfl, by simp [hzero],
        ?_, Or.inl hzero⟩⟩
      cases hb
      exact hd
    · simp only [Option.bind_eq_bind, Option.bind_eq_some_iff, checkedAdd_eq_some] at h
      obtain ⟨n, ⟨rfl, _⟩, hp⟩ := h
      have hsame := Pending.SameRead.of_progress p (p.nread + res.toNat) 0
      unfold reapProgress at hp
      simp only [Option.bind_eq_bind, Option.bind_eq_some_iff, checkedAdd_eq_some] at hp
      obtain ⟨range, ⟨rfl, _⟩, hp⟩ := hp
      split at hp
      · rename_i hdone
        unfold finishOk at hp
        simp only [Option.bind_eq_bind, Option.bind_eq_some_iff, Option.pure_def,
          Option.some.injEq, Prod.mk.injEq, ReapStep.finish.injEq] at hp
        obtain ⟨⟨q, bytes⟩, hd, rfl, rfl⟩ := hp
        refine ⟨hsame.trans (deliver_spec hd).1, fun bytes' hb => ⟨by omega, _, hsame, rfl, rfl,
          ?_, ?_⟩⟩
        · cases hb
          exact hd
        · rcases hdone with hdone | hdone | hdone
          · exact Or.inr (Or.inl hdone)
          · exact Or.inr (Or.inr (Or.inl hdone))
          · exact Or.inr (Or.inr (Or.inr (Or.inl hdone)))
      · split at hp
        · simp only [Option.pure_def, Option.some.injEq, Prod.mk.injEq,
            ReapStep.finish.injEq] at hp
          obtain ⟨rfl, rfl⟩ := hp
          exact ⟨hsame, nofun⟩
        · split at hp
          · -- an unaligned tail is settled by the metadata answer
            unfold finishDirectShortRead at hp
            simp only [Option.bind_eq_some_iff, Option.pure_def, Option.some.injEq,
              Prod.mk.injEq, ReapStep.finish.injEq] at hp
            obtain ⟨⟨q, result⟩, htail, rfl, rfl⟩ := hp
            split at htail
            · simp only [Option.some.injEq, Prod.mk.injEq] at htail
              obtain ⟨rfl, rfl⟩ := htail
              exact ⟨hsame, nofun⟩
            · rename_i len
              simp only [Option.bind_eq_bind, Option.bind_eq_some_iff,
                checkedAdd_eq_some] at htail
              obtain ⟨reached, ⟨rfl, _⟩, htail⟩ := htail
              split at htail
              · simp only [Option.some.injEq, Prod.mk.injEq] at htail
                obtain ⟨rfl, rfl⟩ := htail
                exact ⟨hsame, nofun⟩
              · rename_i heof
                simp only [Option.bind_eq_some_iff, Option.some.injEq, Prod.mk.injEq] at htail
                obtain ⟨⟨r, bytes⟩, hd, rfl, rfl⟩ := htail
                refine ⟨hsame.trans (deliver_spec hd).1, fun bytes' hb => ⟨by omega, _, hsame, rfl,
                  rfl, ?_, Or.inr (Or.inr (Or.inr (Or.inr ⟨len, rfl, not_lt.mp heof⟩)))⟩⟩
                cases hb
                exact hd
          · simp only [Option.bind_eq_some_iff, Option.pure_def, Option.some.injEq,
              Prod.mk.injEq, reduceCtorEq, and_false, exists_false] at hp

end Uring
