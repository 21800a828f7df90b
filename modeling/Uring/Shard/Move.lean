import Uring.Shard.Step

/-!
# What one transition does to the ledger

Every transition of a shard is one of a few ledger moves. Invariants of the
ledger are proved once per move and then hold along every run, whatever the
thread's phase, the turn budgets or the eventfds do.
-/

namespace Uring

open Uring.Core

/-- The entry an accepted message gets: its geometry, its allocation and the
aligned start of its region inside the allocation. -/
structure NewEntry (c : Params) (m : ReadMsg) (p : Pending) : Prop where
  built : ∃ base kernelOffset head regionLen cap,
    p = newPending m base kernelOffset head regionLen cap ∧
    alignedGeometry c.usizeMax m.offset m.len m.align = some (kernelOffset, head, regionLen) ∧
    cap = regionLen + (m.align - 1) ∧ cap ≤ c.usizeMax / 2 ∧
    alignOffset base m.align + regionLen ≤ cap

/-- Who takes a transition: a caller, the kernel, or one part of the loop's turn. -/
inductive Actor
  | caller
  | kernel
  | intake
  | submit
  | reap
  | turn
  deriving DecidableEq, Repr

/-- The actor of a label. -/
def Event.actor : Event → Actor
  | .send .. | .join _ | .signal _ | .hangup | .closeRx _ => .caller
  | .post .. | .cqSignal => .kernel
  | .intake .. => .intake
  | .submit .. => .submit
  | .reap .. => .reap
  | .wake | .drainCq | .drainWake | .endTurn .. | .closeSem | .dropRx => .turn

/-- What the kernel and the file system may answer: the result and bytes of a read
entry, and the length reported for a file. -/
structure Answers where
  read : Sqe → Int → List UInt8 → Prop
  fileLen : Nat → Except IoError Nat → Prop

/-- Every answer is possible. -/
def Answers.any : Answers := ⟨fun _ _ _ => True, fun _ _ => True⟩

/-- A label gives only answers that `w` permits. -/
def Answers.Allows (w : Answers) (s : Shard) : Event → Prop
  | .post k res data => ∀ e, s.held[k]? = some e → w.read e res data
  | .reap fileLen _ => ∀ q rest p, s.cq = q :: rest → s.pending.lookup q.userData = some p →
      w.fileLen p.file fileLen
  | _ => True

/-- The ledger moves of each actor. -/
inductive Move (c : Params) (w : Answers) (l : Ledger) : Actor → Ledger → Prop
  | idle {actor : Actor} : Move c w l actor l
  | overflow (n : Nat) : Move c w l .turn { l with stats := { l.stats with cqOverflow := n } }
  | send (m : Msg) (hm : ∀ id ∈ readIds [m], id ∉ l.hist.issued ∧ id < cancelBit) :
      Move c w l .caller (l.send m)
  | closeRx (id : Nat) : Move c w l .caller { l with mail := l.mail.close id }
  | postRead {k ud file len off : Nat} {ptr : Ptr} {data : List UInt8} (res : Int)
      (hk : l.held[k]? = some (.read ud file ptr len off)) (hd : data.length ≤ len)
      (ha : w.read (.read ud file ptr len off) res data) :
      Move c w l .kernel ({ l with
        held := l.held.eraseIdx k
        cq := l.cq ++ [Cqe.mk (.read ud file ptr len off) res] }.writeBlock ptr data)
  | postCancel {k target ud : Nat} (res : Int)
      (hk : l.held[k]? = some (.asyncCancel target ud)) :
      Move c w l .kernel { l with
        held := l.held.eraseIdx k
        cq := l.cq ++ [Cqe.mk (.asyncCancel target ud) res] }
  | reject {m : ReadMsg} {rest : List Msg} (e : IoError) (hc : l.chan = .read m :: rest) :
      Move c w l .intake ({ l with chan := rest }.reject m e)
  | accept {m : ReadMsg} {rest : List Msg} {p : Pending} {sqe : Sqe}
      (hc : l.chan = .read m :: rest) (hd : l.shuttingDown = false) (hp : NewEntry c m p)
      (hs : p.readSqe c.usizeMax m.id = some sqe) :
      Move c w l .intake ({ l with chan := rest }.accept m.id p sqe)
  | cancelMiss {id : Nat} {rest : List Msg} (hc : l.chan = .cancel id :: rest)
      (hp : l.pending.lookup id = none) : Move c w l .intake { l with chan := rest }
  | cancelHit {id : Nat} {rest : List Msg} {p : Pending} (hc : l.chan = .cancel id :: rest)
      (hp : l.pending.lookup id = some p) :
      Move c w l .intake ({ l with
        chan := rest
        pending := l.pending.insert id { p with cancelRequested := true } }.queueCancel id)
  | shutdown {rest : List Msg} {order : List Nat} (hc : l.chan = .shutdown :: rest)
      (ho : order.Perm l.pending.keys) : Move c w l .intake ({ l with chan := rest }.shutdown order)
  | submit (n errors : Nat) :
      Move c w l .submit (({ l with stats := { l.stats with submitErrors := errors } }.flush
        c.sqCapacity).consume n)
  | submitSweep {order : List Nat} (errors : Nat) (hd : l.shuttingDown = false)
      (ho : order.Perm l.pending.keys) :
      Move c w l .submit (({ l with stats := { l.stats with submitErrors := errors } }.flush
        c.sqCapacity).shutdown order)
  | reapCancel {q : Cqe} {rest : List Cqe} (hq : l.cq = q :: rest)
      (hb : q.userData &&& cancelBit ≠ 0) : Move c w l .reap ({ l with cq := rest }.cancelDone q)
  | reapStale {q : Cqe} {rest : List Cqe} (hq : l.cq = q :: rest)
      (hb : q.userData &&& cancelBit = 0) (hp : l.pending.lookup q.userData = none) :
      Move c w l .reap { l with cq := rest }
  | resubmit {q : Cqe} {rest : List Cqe} {p p' : Pending} {sqe : Sqe}
      {fileLen : Except IoError Nat} (hq : l.cq = q :: rest)
      (hb : q.userData &&& cancelBit = 0) (hp : l.pending.lookup q.userData = some p)
      (hf : w.fileLen p.file fileLen)
      (hr : reapRead c.usizeMax p q.userData q.res l.shuttingDown (l.doneClosed p) fileLen =
        some (p', .resubmit sqe)) :
      Move c w l .reap ({ l with cq := rest }.resubmit q.userData p' sqe)
  | finish {q : Cqe} {rest : List Cqe} {p p' : Pending} {outcome : IoResult} {tx : Nat}
      {fileLen : Except IoError Nat} (late : Bool) (hq : l.cq = q :: rest)
      (hb : q.userData &&& cancelBit = 0) (hp : l.pending.lookup q.userData = some p)
      (hf : w.fileLen p.file fileLen)
      (hr : reapRead c.usizeMax p q.userData q.res l.shuttingDown (l.doneClosed p) fileLen =
        some (p', .finish outcome)) (ht : p'.done = some tx) :
      Move c w l .reap ({ l with cq := rest }.finish q.userData tx p' outcome late)
  | leak (n : Nat) (hd : l.shuttingDown = true) :
      Move c w l .turn { l with stats := { l.stats with cqOverflow := n } }.leak
  | dropChan (hd : l.shuttingDown = true) : Move c w l .turn l.dropChan

namespace Ledger

@[simp] theorem queueCancels_nil (l : Ledger) : l.queueCancels [] = l := rfl

@[simp] theorem queueCancels_cons (l : Ledger) (id : Nat) (order : List Nat) :
    l.queueCancels (id :: order) = (l.queueCancel id).queueCancels order := rfl

/-- A cancel sweep touches only the backlog, its history and the dedup set. -/
structure SameButCancels (l l' : Ledger) : Prop where
  pending : l'.pending = l.pending
  sq : l'.sq = l.sq
  held : l'.held = l.held
  cq : l'.cq = l.cq
  shuttingDown : l'.shuttingDown = l.shuttingDown
  chan : l'.chan = l.chan
  stats : l'.stats = l.stats
  mail : l'.mail = l.mail
  requests : l'.hist.requests = l.hist.requests
  issued : l'.hist.issued = l.hist.issued
  accepted : l'.hist.accepted = l.hist.accepted
  delivered : l'.hist.delivered = l.hist.delivered
  orphaned : l'.hist.orphaned = l.hist.orphaned
  consumed : l'.hist.consumed = l.hist.consumed
  cancelsReaped : l'.hist.cancelsReaped = l.hist.cancelsReaped
  released : l'.hist.released = l.hist.released

theorem SameButCancels.refl (l : Ledger) : l.SameButCancels l := by
  constructor <;> rfl

theorem SameButCancels.trans {l l' l'' : Ledger} (h : l.SameButCancels l')
    (h' : l'.SameButCancels l'') : l.SameButCancels l'' where
  pending := h'.pending.trans h.pending
  sq := h'.sq.trans h.sq
  held := h'.held.trans h.held
  cq := h'.cq.trans h.cq
  shuttingDown := h'.shuttingDown.trans h.shuttingDown
  chan := h'.chan.trans h.chan
  stats := h'.stats.trans h.stats
  mail := h'.mail.trans h.mail
  requests := h'.requests.trans h.requests
  issued := h'.issued.trans h.issued
  accepted := h'.accepted.trans h.accepted
  delivered := h'.delivered.trans h.delivered
  orphaned := h'.orphaned.trans h.orphaned
  consumed := h'.consumed.trans h.consumed
  cancelsReaped := h'.cancelsReaped.trans h.cancelsReaped
  released := h'.released.trans h.released

theorem queueCancel_frame (l : Ledger) (id : Nat) : l.SameButCancels (l.queueCancel id) := by
  unfold queueCancel
  split
  · exact .refl l
  · constructor <;> rfl

theorem queueCancels_frame (l : Ledger) (order : List Nat) :
    l.SameButCancels (l.queueCancels order) := by
  induction order generalizing l with
  | nil => exact .refl l
  | cons id order ih => exact (l.queueCancel_frame id).trans (ih _)

@[simp] theorem queueCancel_pending (l : Ledger) (id : Nat) :
    (l.queueCancel id).pending = l.pending := (l.queueCancel_frame id).pending

@[simp] theorem shutdown_pending (l : Ledger) (order : List Nat) :
    (l.shutdown order).pending = l.pending :=
  (queueCancels_frame { l with shuttingDown := true } order).pending

/-- A store into a buffer changes the table alone. -/
theorem writeBlock_frame (l : Ledger) (ptr : Ptr) (data : List UInt8) :
    ∃ t, l.writeBlock ptr data = { l with pending := t } := by
  unfold writeBlock
  split
  · exact ⟨l.pending, rfl⟩
  · exact ⟨_, rfl⟩

/-- A posted read changes the held entries, the queue and the table. -/
theorem postRead_frame (l : Ledger) (k : Nat) (q : Cqe) (ptr : Ptr) (data : List UInt8) :
    ∃ t, ({ l with held := l.held.eraseIdx k, cq := l.cq ++ [q] } : Ledger).writeBlock ptr data =
      { l with held := l.held.eraseIdx k, cq := l.cq ++ [q], pending := t } :=
  writeBlock_frame _ ptr data

/-- The kernel completes an entry it holds; beside the two queues only the table changes. -/
theorem post_eq_some {l l' : Ledger} {k : Nat} {res : Int} {data : List UInt8}
    (h : l.post k res data = some l') : ∃ e t, l.held[k]? = some e ∧
      l' = { l with held := l.held.eraseIdx k, cq := l.cq ++ [⟨e, res⟩], pending := t } := by
  unfold post at h
  split at h
  · cases h
  · rename_i e he
    simp only at h
    split at h
    · split at h
      · cases h
      · cases h
        obtain ⟨t, ht⟩ := l.postRead_frame k ⟨_, res⟩ _ data
        exact ⟨_, t, he, ht⟩
    · split at h
      · cases h
        exact ⟨_, l.pending, he, rfl⟩
      · cases h

/-- What becomes of a consumed completion. -/
theorem reapCqe_cases {l l' : Ledger} {rest : List Cqe} {usizeMax : Nat} {q : Cqe}
    {fileLen : Except IoError Nat} {late : Bool}
    (h : { l with cq := rest }.reapCqe usizeMax q fileLen late = some l') :
    (q.userData &&& cancelBit ≠ 0 ∧ l' = { l with cq := rest }.cancelDone q) ∨
      (q.userData &&& cancelBit = 0 ∧ l.pending.lookup q.userData = none ∧
        l' = { l with cq := rest }) ∨
      (q.userData &&& cancelBit = 0 ∧ ∃ p p' sqe, l.pending.lookup q.userData = some p ∧
        reapRead usizeMax p q.userData q.res l.shuttingDown (l.doneClosed p) fileLen =
          some (p', .resubmit sqe) ∧ l' = { l with cq := rest }.resubmit q.userData p' sqe) ∨
      (q.userData &&& cancelBit = 0 ∧ ∃ p p' outcome tx, l.pending.lookup q.userData = some p ∧
        reapRead usizeMax p q.userData q.res l.shuttingDown (l.doneClosed p) fileLen =
          some (p', .finish outcome) ∧ p'.done = some tx ∧
        l' = { l with cq := rest }.finish q.userData tx p' outcome late) := by
  unfold reapCqe at h
  split at h
  · rename_i hb
    exact Or.inl ⟨hb, (Option.some.inj h).symm⟩
  · rename_i hb
    rw [not_not] at hb
    split at h
    · rename_i hp
      exact Or.inr (Or.inl ⟨hb, hp, (Option.some.inj h).symm⟩)
    · rename_i p hp
      simp only [Option.bind_eq_bind, Option.bind_eq_some_iff] at h
      obtain ⟨⟨p', next⟩, hr, h⟩ := h
      cases next with
      | finish outcome =>
        simp only [Option.bind_eq_some_iff, Option.pure_def, Option.some.injEq] at h
        obtain ⟨tx, ht, rfl⟩ := h
        exact Or.inr (Or.inr (Or.inr ⟨hb, p, p', outcome, tx, hp, hr, ht, rfl⟩))
      | resubmit sqe =>
        cases h
        exact Or.inr (Or.inr (Or.inl ⟨hb, p, p', sqe, hp, hr, rfl⟩))

/-- What the completion a loop consumes leaves alone. -/
structure ReapFrame (l l' : Ledger) : Prop where
  chan : l'.chan = l.chan
  cq : l'.cq = l.cq
  consumed : l'.hist.consumed = l.hist.consumed
  submitErrors : l'.stats.submitErrors = l.stats.submitErrors
  shuttingDown : l'.shuttingDown = l.shuttingDown

theorem reapCqe_frame {l l' : Ledger} {usizeMax : Nat} {q : Cqe} {fileLen : Except IoError Nat}
    {late : Bool} (h : l.reapCqe usizeMax q fileLen late = some l') : l.ReapFrame l' := by
  unfold reapCqe at h
  split at h
  · cases h
    refine ⟨rfl, rfl, rfl, ?_, rfl⟩
    simp only [cancelDone, DriverStats.cancelResult]
    split
    · rfl
    · split
      · rfl
      · split <;> rfl
  · split at h
    · cases h
      exact ⟨rfl, rfl, rfl, rfl, rfl⟩
    · simp only [Option.bind_eq_bind, Option.bind_eq_some_iff] at h
      obtain ⟨⟨p', next⟩, _, h⟩ := h
      cases next with
      | finish outcome =>
        simp only [Option.bind_eq_some_iff, Option.pure_def, Option.some.injEq] at h
        obtain ⟨tx, _, rfl⟩ := h
        exact ⟨rfl, rfl, rfl, rfl, rfl⟩
      | resubmit sqe =>
        cases h
        exact ⟨rfl, rfl, rfl, rfl, rfl⟩

/-- Queueing a cancel keeps the ids still to be swept in the table. -/
theorem pending_of_sweep {l : Ledger} {id : Nat} {order : List Nat}
    (ho : ∀ k ∈ id :: order, k ∈ l.pending) : ∀ k ∈ order, k ∈ (l.queueCancel id).pending := by
  intro k hk
  rw [queueCancel_pending]
  exact ho k (List.mem_cons_of_mem _ hk)

/-- A sweep over the whole table sweeps pending ids only. -/
theorem pending_of_perm {l : Ledger} {order : List Nat} (ho : order.Perm l.pending.keys) :
    ∀ id ∈ order, id ∈ l.pending :=
  fun _ hid => AList.mem_keys.mpr (ho.mem_iff.mp hid)

end Ledger

namespace Shard

/-- The thread's control state outside its own phase and budgets is untouched. -/
structure SameControl (s s' : Shard) : Prop where
  semClosed : s'.semClosed = s.semClosed
  joined : s'.joined = s.joined
  disconnected : s'.disconnected = s.disconnected
  wake : s'.wake = s.wake

/-- Intake of a read is a rejection or an acceptance of exactly that message. -/
theorem intakeRead_move {c : Params} {w : Answers} {l : Ledger} {t t' : Shard} {m : ReadMsg}
    {rest : List Msg} {base : Nat} (h : t.intakeRead c m base = some t')
    (hc : l.chan = .read m :: rest) (hl : t.toLedger = { l with chan := rest }) :
    Move c w l .intake t'.toLedger ∧ t.SameControl t' ∧ t'.phase = t.phase ∧
      t'.budget.messages = t.budget.messages := by
  unfold intakeRead at h
  split at h
  · cases h
    exact ⟨hl ▸ Move.reject _ hc, ⟨rfl, rfl, rfl, rfl⟩, rfl, rfl⟩
  · rename_i hd
    simp only [Option.bind_eq_bind, Option.bind_eq_some_iff] at h
    obtain ⟨⟨k, head, region⟩, hg, h⟩ := h
    simp only at h
    split at h
    · cases h
      exact ⟨hl ▸ Move.reject _ hc, ⟨rfl, rfl, rfl, rfl⟩, rfl, rfl⟩
    · rename_i cap hcap
      obtain ⟨hsum, hmax⟩ := checkedAdd_eq_some.mp hcap
      split at h
      · cases h
      · rename_i hsmall
        split at h
        · cases h
          exact ⟨hl ▸ Move.reject _ hc, ⟨rfl, rfl, rfl, rfl⟩, rfl, rfl⟩
        · rename_i hfit
          simp only [Option.bind_eq_some_iff, Option.pure_def, Option.some.injEq] at h
          obtain ⟨sqe, hs, rfl⟩ := h
          refine ⟨?_, ⟨rfl, rfl, rfl, rfl⟩, rfl, rfl⟩
          have hdown : l.shuttingDown = false := by
            have hd' := Bool.eq_false_iff.mpr hd
            rwa [hl] at hd'
          have hpad : alignOffset base m.align + region ≤ cap := by
            simp only [not_or, not_not, Option.any_eq_true] at hfit
            obtain ⟨_, stop, hstop, hle⟩ := hfit
            obtain ⟨rfl, _⟩ := checkedAdd_eq_some.mp hstop
            exact of_decide_eq_true hle
          have hnew : NewEntry c m (newPending m base k head region cap) :=
            ⟨base, k, head, region, cap, rfl, hg, hsum.symm, not_lt.mp hsmall, hpad⟩
          have hmove := Move.accept (w := w) hc hdown hnew hs
          simp only [hl]
          exact hmove

/-- Taking one message moves the ledger by that message alone. -/
theorem intakeMsg_move {c : Params} {w : Answers} {l : Ledger} {t t' : Shard} {m : Msg}
    {rest : List Msg}
    {base : Nat} {order : List Nat} (h : t.intakeMsg c m base order = some t')
    (hc : l.chan = m :: rest) (ho : order.Perm l.pending.keys)
    (hl : t.toLedger = { l with chan := rest }) :
    Move c w l .intake t'.toLedger ∧ t.SameControl t' ∧ t'.phase = t.phase ∧
      t'.budget.messages = t.budget.messages := by
  cases m with
  | read r => exact intakeRead_move h hc hl
  | cancel id =>
    cases h
    refine ⟨?_, ⟨rfl, rfl, rfl, rfl⟩, rfl, rfl⟩
    simp only [hl, Ledger.cancel]
    split
    · rename_i hp
      exact Move.cancelMiss hc hp
    · rename_i p hp
      exact Move.cancelHit hc hp
  | shutdown =>
    cases h
    exact ⟨hl ▸ Move.shutdown hc ho, ⟨rfl, rfl, rfl, rfl⟩, rfl, rfl⟩

/-- One intake iteration: it stops, aborts, or moves the ledger by one message. -/
theorem intake_cases (c : Params) (w : Answers) (s : Shard) (base : Nat) (order : List Nat)
    (ho : order.Perm s.pending.keys) :
    s.SameControl (s.intake c base order) ∧
      ((s.budget.canTakeMessage = false ∧
          s.intake c base order = { s with phase := .submitBefore }) ∨
       (s.budget.canTakeMessage = true ∧ s.chan = [] ∧ s.intake c base order =
          { s with shuttingDown := s.shuttingDown || s.disconnected, phase := .submitBefore }) ∨
       s.intake c base order = { s with phase := .aborted } ∨
       (s.budget.canTakeMessage = true ∧ s.chan ≠ [] ∧
          Move c w s.toLedger .intake (s.intake c base order).toLedger ∧
          (s.intake c base order).phase = s.phase)) := by
  unfold intake
  split
  · rename_i hb
    split
    · rename_i hc
      exact ⟨⟨rfl, rfl, rfl, rfl⟩, Or.inr (Or.inl ⟨hb, hc, rfl⟩)⟩
    · rename_i m rest hc
      simp only
      cases ht : ({ s with
          chan := rest
          budget := { s.budget with messages := s.budget.messages + 1 }
        } : Shard).intakeMsg c m base order with
      | none => exact ⟨⟨rfl, rfl, rfl, rfl⟩, Or.inr (Or.inr (Or.inl rfl))⟩
      | some t' =>
        obtain ⟨hm, hctl, hp, _⟩ := intakeMsg_move (l := s.toLedger) ht hc ho rfl
        refine ⟨⟨hctl.semClosed, hctl.joined, hctl.disconnected, hctl.wake⟩,
          Or.inr (Or.inr (Or.inr ⟨hb, ?_, hm, hp⟩))⟩
        rw [hc]
        exact List.cons_ne_nil _ _
  · rename_i hb
    exact ⟨⟨rfl, rfl, rfl, rfl⟩, Or.inl ⟨Bool.eq_false_iff.mpr hb, rfl⟩⟩

/-- `submit_ring` flushes and consumes, and on the error threshold also sweeps. -/
theorem submitRing_cases {c : Params} {w : Answers} {s s' : Shard} {kernelWork : Bool}
    {r : Except IoError Nat} {order : List Nat} {n : Nat} (ho : order.Perm s.pending.keys)
    (h : s.submitRing c kernelWork r order = some (s', n)) :
    Move c w s.toLedger .submit s'.toLedger ∧ s.SameControl s' ∧ s'.phase = s.phase ∧
      s'.budget = s.budget := by
  have hconsume (l : Ledger) : l.consume 0 = l := by
    simp [Ledger.consume]
  unfold submitRing at h
  simp only at h
  split at h
  · cases h
    refine ⟨?_, ⟨rfl, rfl, rfl, rfl⟩, rfl, rfl⟩
    have hm := Move.submit (c := c) (w := w) (l := s.toLedger) 0 s.stats.submitErrors
    rw [hconsume] at hm
    exact hm
  · simp only [Option.bind_eq_bind, Option.bind_eq_some_iff] at h
    obtain ⟨t, ht, h⟩ := h
    cases r with
    | ok k =>
      simp only [enter] at ht
      split at ht
      · cases ht
      · cases ht
        simp only [handleSubmitResult, Bool.false_eq_true, if_false, Option.pure_def,
          Option.some.injEq, Prod.mk.injEq] at h
        obtain ⟨rfl, rfl⟩ := h
        exact ⟨Move.submit k s.stats.submitErrors, ⟨rfl, rfl, rfl, rfl⟩, rfl, rfl⟩
    | error e =>
      simp only [enter, Option.some.injEq] at ht
      subst ht
      simp only [handleSubmitResult] at h
      split at h
      · simp only [Bool.false_eq_true, if_false, Option.pure_def,
          Option.some.injEq, Prod.mk.injEq] at h
        obtain ⟨rfl, rfl⟩ := h
        refine ⟨?_, ⟨rfl, rfl, rfl, rfl⟩, rfl, rfl⟩
        have hm := Move.submit (c := c) (w := w) (l := s.toLedger) 0 s.stats.submitErrors
        rw [hconsume] at hm
        exact hm
      · split at h
        · rename_i hthreshold
          simp only [if_true, Option.pure_def, Option.some.injEq, Prod.mk.injEq] at h
          obtain ⟨rfl, rfl⟩ := h
          refine ⟨?_, ⟨rfl, rfl, rfl, rfl⟩, rfl, rfl⟩
          have hd : s.shuttingDown = false := by
            simp only [Bool.and_eq_true, Bool.not_eq_true'] at hthreshold
            exact hthreshold.1
          exact Move.submitSweep (fetchAdd s.stats.submitErrors) hd ho
        · simp only [Bool.false_eq_true, if_false, Option.pure_def,
            Option.some.injEq, Prod.mk.injEq] at h
          obtain ⟨rfl, rfl⟩ := h
          refine ⟨?_, ⟨rfl, rfl, rfl, rfl⟩, rfl, rfl⟩
          have hm := Move.submit (c := c) (w := w) (l := s.toLedger) 0
            (fetchAdd s.stats.submitErrors)
          rw [hconsume] at hm
          exact hm

/-- A kernel completion is one of the two posting moves. -/
theorem post_move {c : Params} {w : Answers} {l l' : Ledger} {k : Nat} {res : Int}
    {data : List UInt8} (ha : ∀ e, l.held[k]? = some e → w.read e res data)
    (h : l.post k res data = some l') : Move c w l .kernel l' := by
  unfold Ledger.post at h
  split at h
  · cases h
  · rename_i e he
    simp only at h
    split at h
    · split at h
      · cases h
      · rename_i hd
        cases h
        exact Move.postRead res he (not_lt.mp hd) (ha _ he)
    · split at h
      · cases h
        exact Move.postCancel res he
      · cases h

/-- A consumed completion is a cancel's, a stale one, a resubmission or a finish. -/
theorem reapCqe_move {c : Params} {w : Answers} {l l' : Ledger} {q : Cqe} {rest : List Cqe}
    {fileLen : Except IoError Nat} {late : Bool} (hq : l.cq = q :: rest)
    (hf : ∀ p, l.pending.lookup q.userData = some p → w.fileLen p.file fileLen)
    (h : { l with cq := rest }.reapCqe c.usizeMax q fileLen late = some l') :
    Move c w l .reap l' := by
  rcases Ledger.reapCqe_cases h with ⟨hb, rfl⟩ | ⟨hb, hp, rfl⟩ | ⟨hb, p, p', sqe, hp, hr, rfl⟩ |
    ⟨hb, p, p', outcome, tx, hp, hr, ht, rfl⟩
  · exact .reapCancel hq hb
  · exact .reapStale hq hb hp
  · exact .resubmit hq hb hp (hf p hp) hr
  · exact .finish late hq hb hp (hf p hp) hr ht

/-- One reap iteration: it stops, aborts, or consumes one completion. -/
theorem reap_cases (c : Params) (s : Shard) (fileLen : Except IoError Nat) (late : Bool) :
    s.SameControl (s.reap c fileLen late) ∧
      ((s.budget.canReap = false ∧ s.reap c fileLen late = { s with phase := .submitAfter }) ∨
       (s.budget.canReap = true ∧ s.cq = [] ∧
          s.reap c fileLen late = { s with phase := .submitAfter }) ∨
       s.reap c fileLen late = { s with phase := .aborted } ∨
       (s.budget.canReap = true ∧ ∃ q rest l, s.cq = q :: rest ∧
          { s.toLedger with cq := rest }.reapCqe c.usizeMax q fileLen late = some l ∧
          s.reap c fileLen late = { s with
            toLedger := l
            budget := { s.budget with completions := s.budget.completions + 1 } })) := by
  unfold reap
  split
  · rename_i hb
    split
    · rename_i hq
      exact ⟨⟨rfl, rfl, rfl, rfl⟩, Or.inr (Or.inl ⟨hb, hq, rfl⟩)⟩
    · rename_i q rest hq
      split
      · exact ⟨⟨rfl, rfl, rfl, rfl⟩, Or.inr (Or.inr (Or.inl rfl))⟩
      · rename_i l hl
        exact ⟨⟨rfl, rfl, rfl, rfl⟩, Or.inr (Or.inr (Or.inr ⟨hb, q, rest, l, hq, hl, rfl⟩))⟩
  · rename_i hb
    exact ⟨⟨rfl, rfl, rfl, rfl⟩, Or.inl ⟨Bool.eq_false_iff.mpr hb, rfl⟩⟩

/-- The end of a turn: a clean exit, a leak, or the next turn. -/
theorem finishTurn_cases (c : Params) (s : Shard) (now now' : Nat) :
    (s.shuttingDown = true ∧ s.pending.entries = [] ∧ s.backlog = [] ∧
        s.finishTurn c now now' = { s with phase := .closing false }) ∨
      (s.shuttingDown = true ∧ ∃ deadline, s.finishTurn c now now' = { s with
        toLedger := s.leak, drainDeadline := some deadline, phase := .closing true }) ∨
      (∃ deadline, s.finishTurn c now now' = { s with drainDeadline := deadline }.nextTurn c) := by
  unfold finishTurn
  split
  · rename_i hd
    split
    · rename_i he
      simp only [Bool.and_eq_true, List.isEmpty_iff] at he
      exact Or.inl ⟨hd, he.1, he.2, rfl⟩
    · simp only
      split
      · exact Or.inr (Or.inl ⟨hd, _, rfl⟩)
      · exact Or.inr (Or.inr ⟨_, rfl⟩)
  · exact Or.inr (Or.inr ⟨s.drainDeadline, rfl⟩)

/-- Facts about a thread's control state: the channel disconnects only after the
shutdown request of `join`, and a thread exits only once shutting down. -/
structure Control (s : Shard) : Prop where
  disconnected : s.disconnected = true → s.joined = true
  joined : s.joined = true → s.shuttingDown = true ∨ .shutdown ∈ s.chan
  closing : ∀ leaked, s.phase = .closing leaked → s.shuttingDown = true
  exited : ∀ leaked, s.phase = .exited leaked → s.shuttingDown = true

theorem control_init : init.Control := by
  constructor <;> simp [init]

/-- The thread is shutting down, or will take a request to. -/
def Stopping (s : Shard) : Prop := s.shuttingDown = true ∨ .shutdown ∈ s.chan

end Shard

/-- Shutdown is never revoked, and a queued shutdown request is kept until taken. -/
theorem Move.shutdown_mono {c : Params} {w : Answers} {l l' : Ledger} {a : Actor}
    (h : Move c w l a l') :
    (l.shuttingDown = true → l'.shuttingDown = true) ∧
      (.shutdown ∈ l.chan → l'.shuttingDown = true ∨ .shutdown ∈ l'.chan) := by
  cases h with
  | idle => exact ⟨id, Or.inr⟩
  | overflow n => exact ⟨id, Or.inr⟩
  | send m hm => exact ⟨id, fun h => Or.inr (List.mem_append_left _ h)⟩
  | closeRx id => exact ⟨fun h => h, Or.inr⟩
  | postRead res hk hd ha =>
    obtain ⟨t, ht⟩ := l.postRead_frame _ ⟨_, res⟩ _ _
    rw [ht]
    exact ⟨id, Or.inr⟩
  | postCancel res hk => exact ⟨id, Or.inr⟩
  | @reject m rest e hc =>
    have hr : .shutdown ∈ l.chan → .shutdown ∈ rest := by simp [hc]
    exact ⟨fun h => h, fun h => Or.inr (hr h)⟩
  | @accept m rest p sqe hc hd hp hs =>
    have hr : .shutdown ∈ l.chan → .shutdown ∈ rest := by simp [hc]
    exact ⟨fun h => h, fun h => Or.inr (hr h)⟩
  | @cancelMiss id rest hc hp =>
    have hr : .shutdown ∈ l.chan → .shutdown ∈ rest := by simp [hc]
    exact ⟨fun h => h, fun h => Or.inr (hr h)⟩
  | @cancelHit id rest p hc hp =>
    have hf := Ledger.queueCancel_frame { l with
      chan := rest
      pending := l.pending.insert id { p with cancelRequested := true } } id
    have hr : .shutdown ∈ l.chan → .shutdown ∈ rest := by simp [hc]
    exact ⟨fun h => hf.shuttingDown.trans h, fun h => Or.inr (hf.chan ▸ hr h)⟩
  | shutdown hc ho => exact ⟨fun _ => (Ledger.queueCancels_frame _ _).shuttingDown,
      fun _ => Or.inl (Ledger.queueCancels_frame _ _).shuttingDown⟩
  | submit n errors => exact ⟨id, Or.inr⟩
  | submitSweep errors hd ho => exact ⟨fun _ => (Ledger.queueCancels_frame _ _).shuttingDown,
      fun _ => Or.inl (Ledger.queueCancels_frame _ _).shuttingDown⟩
  | reapCancel hq hb => exact ⟨id, Or.inr⟩
  | reapStale hq hb hp => exact ⟨id, Or.inr⟩
  | resubmit hq hb hp hf hr => exact ⟨id, Or.inr⟩
  | finish late hq hb hp hf hr ht => exact ⟨id, Or.inr⟩
  | leak n hd => exact ⟨id, Or.inr⟩
  | dropChan hd => exact ⟨id, fun _ => Or.inl hd⟩

namespace Shard

theorem sendMsg_eq_some {s s' : Shard} {p : Nat} {m : Msg} (h : s.sendMsg p m = some s') :
    s.disconnected = false ∧ s.phase.receiving = true ∧
      (∀ id ∈ readIds [m], id ∉ s.hist.issued ∧ id < cancelBit) ∧
      s' = { s with
        toLedger := s.send m
        wake := { s.wake with
          owing := if p ∈ s.wake.owing then s.wake.owing else p :: s.wake.owing } } := by
  unfold sendMsg at h
  split at h
  · cases h
  · rename_i hbad
    simp only [not_or, not_exists, not_and, Bool.not_eq_true, Bool.not_eq_false, not_le] at hbad
    exact ⟨hbad.1, hbad.2.1, hbad.2.2, (Option.some.inj h).symm⟩

/-- The transitions of a loop by label: when each is taken and what it leaves. -/
inductive Transition (c : Params) (s : Shard) : Event → Shard → Prop
  | send {p : Nat} {m : Msg} {t : Shard} (ht : s.sendMsg p m = some t) :
      Transition c s (.send p m) t
  | join {p : Nat} {t : Shard} (hj : s.joined = false) (ht : s.sendMsg p .shutdown = some t) :
      Transition c s (.join p) { t with joined := true }
  | signal {p : Nat} : Transition c s (.signal p) { s with
      wake := { s.wake with
        wakeEfd := signalEfd s.wake.wakeEfd
        owing := s.wake.owing.erase p } }
  | hangup (hj : s.joined = true) : Transition c s .hangup { s with disconnected := true }
  | closeRx {id : Nat} : Transition c s (.closeRx id) { s with mail := s.mail.close id }
  | post {k : Nat} {res : Int} {data : List UInt8} {l : Ledger}
      (hl : s.toLedger.post k res data = some l) : Transition c s (.post k res data) { s with
        toLedger := l
        wake := { s.wake with cqOwing := s.wake.cqOwing + 1 } }
  | cqSignal (hpos : 0 < s.wake.cqOwing) : Transition c s .cqSignal { s with
      wake := { s.wake with
        cqEfd := signalEfd s.wake.cqEfd
        cqOwing := s.wake.cqOwing - 1 } }
  | wake (hp : s.phase = .wait) : Transition c s .wake { s with phase := .drainCq }
  | drainCq (hp : s.phase = .drainCq) : Transition c s .drainCq { s with
      wake := { s.wake with cqEfd := 0 }
      phase := .drainWake }
  | drainWake (hp : s.phase = .drainWake) : Transition c s .drainWake { s with
      wake := { s.wake with wakeEfd := 0 }
      budget := .fresh
      phase := .intake }
  | intake {base : Nat} {order : List Nat} (hp : s.phase = .intake)
      (ho : order.Perm s.pending.keys) :
      Transition c s (.intake base order) (s.intake c base order)
  | submitBefore {kernelWork : Bool} {r : Except IoError Nat} {order : List Nat} {t : Shard}
      {n : Nat} (hp : s.phase = .submitBefore) (ho : order.Perm s.pending.keys)
      (ht : s.submitRing c kernelWork r order = some (t, n)) :
      Transition c s (.submit kernelWork r order) { t with
        submittedBeforeReap := n
        phase := .reap }
  | submitAfter {kernelWork : Bool} {r : Except IoError Nat} {order : List Nat} {t : Shard}
      {n : Nat} (hp : s.phase = .submitAfter) (ho : order.Perm s.pending.keys)
      (ht : s.submitRing c kernelWork r order = some (t, n)) :
      Transition c s (.submit kernelWork r order) { t with
        submittedAfterReap := n
        phase := .endTurn }
  | reap {fileLen : Except IoError Nat} {late : Bool} (hp : s.phase = .reap) :
      Transition c s (.reap fileLen late) (s.reap c fileLen late)
  | endTurn {overflow now now' : Nat} (hp : s.phase = .endTurn) :
      Transition c s (.endTurn overflow now now')
        ((s.updateCqOverflow overflow).finishTurn c now now')
  | closeSem {leaked : Bool} (hp : s.phase = .closing leaked) (hs : s.semClosed = false) :
      Transition c s .closeSem { s with semClosed := true }
  | dropRx {leaked : Bool} (hp : s.phase = .closing leaked) (hs : s.semClosed = true) :
      Transition c s .dropRx { s with toLedger := s.dropChan, phase := .exited leaked }

/-- A loop that has not panicked takes the transitions and no others. -/
theorem step_transition {c : Params} {s s' : Shard} {e : Event} (h : step c s e = some s') :
    s.phase ≠ .aborted ∧ Transition c s e s' := by
  unfold step at h
  split at h
  · cases h
  rename_i hrun
  refine ⟨hrun, ?_⟩
  cases e with
  | send p m => exact .send h
  | join p =>
    simp only at h
    split at h
    · cases h
    · rename_i hj
      obtain ⟨t, ht, rfl⟩ := Option.map_eq_some_iff.mp h
      exact .join (Bool.eq_false_iff.mpr hj) ht
  | signal p =>
    cases h
    exact .signal
  | hangup =>
    simp only at h
    split at h <;> cases h
    exact .hangup ‹_›
  | closeRx id =>
    cases h
    exact .closeRx
  | post k res data =>
    obtain ⟨l, hl, rfl⟩ := Option.map_eq_some_iff.mp h
    exact .post hl
  | cqSignal =>
    simp only at h
    split at h <;> cases h
    exact .cqSignal ‹_›
  | wake =>
    simp only at h
    split at h <;> cases h
    exact .wake ‹_›
  | drainCq =>
    simp only at h
    split at h <;> cases h
    exact .drainCq ‹_›
  | drainWake =>
    simp only at h
    split at h <;> cases h
    exact .drainWake ‹_›
  | intake base order =>
    simp only at h
    split at h
    · rename_i hg
      cases h
      exact .intake hg.1 hg.2
    · cases h
  | submit kernelWork r order =>
    simp only at h
    split at h
    · rename_i ho
      split at h
      · rename_i hp
        obtain ⟨⟨t, n⟩, ht, rfl⟩ := Option.map_eq_some_iff.mp h
        exact .submitBefore hp ho ht
      · rename_i hp
        obtain ⟨⟨t, n⟩, ht, rfl⟩ := Option.map_eq_some_iff.mp h
        exact .submitAfter hp ho ht
      · cases h
    · cases h
  | reap fileLen late =>
    simp only at h
    split at h <;> cases h
    exact .reap ‹_›
  | endTurn overflow now now' =>
    simp only at h
    split at h <;> cases h
    exact .endTurn ‹_›
  | closeSem =>
    simp only at h
    split at h
    · rename_i hp
      split at h
      · cases h
      · rename_i hs
        cases h
        exact .closeSem hp (Bool.eq_false_iff.mpr hs)
    · cases h
  | dropRx =>
    simp only at h
    split at h
    · rename_i hp
      split at h
      · rename_i hs
        cases h
        exact .dropRx hp hs
      · cases h
    · cases h

/-- The overflow count goes into the stats. -/
theorem updateCqOverflow_eq (s : Shard) (observed : Nat) : ∃ m n, s.updateCqOverflow observed =
    { s with previousCqOverflow := m, stats := { s.stats with cqOverflow := n } } := by
  unfold updateCqOverflow
  split
  · exact ⟨s.previousCqOverflow, s.stats.cqOverflow, rfl⟩
  · exact ⟨observed, observed, rfl⟩

/-- The control facts survive a transition that keeps the control state and moves
the ledger, provided its new phase is not an exit. -/
theorem Control.of_move {c : Params} {w : Answers} {s s' : Shard} {a : Actor} (hc : s.Control)
    (hm : Move c w s.toLedger a s'.toLedger) (hj : s'.joined = s.joined)
    (hd : s'.disconnected = s.disconnected)
    (hp : (∀ b, s'.phase ≠ .closing b ∧ s'.phase ≠ .exited b) ∨ s'.phase = s.phase) :
    s'.Control := by
  obtain ⟨hdown, hchan⟩ := hm.shutdown_mono
  refine ⟨fun h => ?_, fun h => ?_, fun b h => ?_, fun b h => ?_⟩
  · rw [hj]
    exact hc.disconnected (hd ▸ h)
  · rw [hj] at h
    exact (hc.joined h).elim (fun h => Or.inl (hdown h)) hchan
  · rcases hp with hp | hp
    · exact absurd h (hp b).1
    · exact hdown (hc.closing b (hp ▸ h))
  · rcases hp with hp | hp
    · exact absurd h (hp b).2
    · exact hdown (hc.exited b (hp ▸ h))

/-- The control facts survive what leaves the ledger alone and is no exit. -/
theorem Control.idle {c : Params} {w : Answers} {s s' : Shard} {a : Actor} (hc : s.Control)
    (hl : s'.toLedger = s.toLedger) (hj : s'.joined = s.joined)
    (hd : s'.disconnected = s.disconnected)
    (hp : (∀ b, s'.phase ≠ .closing b ∧ s'.phase ≠ .exited b) ∨ s'.phase = s.phase) :
    Move c w s.toLedger a s'.toLedger ∧ s'.Control := by
  have hmove : Move c w s.toLedger a s'.toLedger := hl ▸ Move.idle
  exact ⟨hmove, hc.of_move hmove hj hd hp⟩

/-- With the control facts, a disconnected channel adds nothing: shutdown was
requested before the last sender went. -/
theorem Control.hangup {s : Shard} (hc : s.Control) (hchan : s.chan = []) :
    (s.shuttingDown || s.disconnected) = s.shuttingDown := by
  cases hd : s.disconnected with
  | false => simp
  | true =>
    rcases hc.joined (hc.disconnected hd) with h | h
    · simp [h]
    · rw [hchan] at h
      simp at h

/-- A transition moves the ledger once and keeps the control facts. -/
theorem step_move {c : Params} {w : Answers} {s s' : Shard} {e : Event} (hc : s.Control)
    (ha : w.Allows s e) (h : step c s e = some s') :
    Move c w s.toLedger e.actor s'.toLedger ∧ s'.Control := by
  cases (step_transition h).2 with
  | send ht =>
    obtain ⟨_, _, hm, rfl⟩ := sendMsg_eq_some ht
    have hmove := Move.send (c := c) (w := w) _ hm
    exact ⟨hmove, hc.of_move hmove rfl rfl (Or.inr rfl)⟩
  | join hj ht =>
    obtain ⟨hconn, _, hm, rfl⟩ := sendMsg_eq_some ht
    have hmove := Move.send (c := c) (w := w) (l := s.toLedger) .shutdown hm
    refine ⟨hmove, ⟨fun hd => ?_, fun _ => Or.inr ?_, hc.closing, hc.exited⟩⟩
    · rfl
    · exact List.mem_append_right _ (List.mem_singleton_self _)
  | signal | cqSignal | closeSem => exact hc.idle rfl rfl rfl (Or.inr rfl)
  | hangup hj => exact ⟨.idle, fun _ => hj, hc.joined, hc.closing, hc.exited⟩
  | closeRx => exact ⟨.closeRx _, hc.of_move (c := c) (w := w) (.closeRx _) rfl rfl (Or.inr rfl)⟩
  | post hl =>
    have hmove := post_move (c := c) (w := w) ha hl
    exact ⟨hmove, hc.of_move hmove rfl rfl (Or.inr rfl)⟩
  | wake | drainCq | drainWake => exact hc.idle rfl rfl rfl (Or.inl fun _ => ⟨nofun, nofun⟩)
  | @intake base order hp ho =>
    obtain ⟨hctl, hcase⟩ := intake_cases c w s base order ho
    rcases hcase with ⟨_, heq⟩ | ⟨_, hchan, heq⟩ | heq | ⟨_, _, hmove, hphase⟩
    · rw [heq]
      exact hc.idle rfl rfl rfl (Or.inl fun _ => ⟨nofun, nofun⟩)
    · rw [heq, hc.hangup hchan]
      exact hc.idle rfl rfl rfl (Or.inl fun _ => ⟨nofun, nofun⟩)
    · rw [heq]
      exact hc.idle rfl rfl rfl (Or.inl fun _ => ⟨nofun, nofun⟩)
    · exact ⟨hmove, hc.of_move hmove hctl.joined hctl.disconnected (Or.inr hphase)⟩
  | submitBefore hp ho ht | submitAfter hp ho ht =>
    obtain ⟨hmove, hctl, _⟩ := submitRing_cases (w := w) ho ht
    exact ⟨hmove, hc.of_move hmove hctl.joined hctl.disconnected (Or.inl fun _ => ⟨nofun, nofun⟩)⟩
  | @reap fileLen late hp =>
    obtain ⟨_, hcase⟩ := reap_cases c s fileLen late
    rcases hcase with ⟨_, heq⟩ | ⟨_, _, heq⟩ | heq | ⟨_, q, rest, l, hq, hl, heq⟩
    · rw [heq]
      exact hc.idle rfl rfl rfl (Or.inl fun _ => ⟨nofun, nofun⟩)
    · rw [heq]
      exact hc.idle rfl rfl rfl (Or.inl fun _ => ⟨nofun, nofun⟩)
    · rw [heq]
      exact hc.idle rfl rfl rfl (Or.inl fun _ => ⟨nofun, nofun⟩)
    · have hmove := reapCqe_move (w := w) hq (fun p hp => ha q rest p hq hp) hl
      rw [heq]
      exact ⟨hmove, hc.of_move hmove rfl rfl (Or.inr rfl)⟩
  | @endTurn overflow now now' hp =>
    obtain ⟨m, n, hover⟩ := s.updateCqOverflow_eq overflow
    have hmove := Move.overflow (c := c) (w := w) (l := s.toLedger) n
    rcases finishTurn_cases c (s.updateCqOverflow overflow) now now' with ⟨hd, _, _, heq⟩ |
      ⟨hd, deadline, heq⟩ | ⟨deadline, heq⟩
    · rw [heq]
      rw [hover] at hd ⊢
      exact ⟨hmove, hc.disconnected, fun _ => Or.inl hd, fun _ _ => hd, fun _ _ => hd⟩
    · rw [heq]
      rw [hover] at hd ⊢
      exact ⟨Move.leak n hd, hc.disconnected, fun _ => Or.inl hd, fun _ _ => hd, fun _ _ => hd⟩
    · rw [heq, hover]
      exact ⟨hmove, hc.of_move (c := c) hmove rfl rfl (Or.inl fun _ => ⟨nofun, nofun⟩)⟩
  | dropRx hp hs =>
    have hd := hc.closing _ hp
    exact ⟨.dropChan hd, hc.disconnected, fun _ => Or.inl hd, fun _ _ => hd, fun _ _ => hd⟩

/-- The phases after the exit was decided. -/
def Exiting (s : Shard) (leaked : Bool) : Prop :=
  s.phase = .closing leaked ∨ s.phase = .exited leaked

/-- Before the exit the phase is none of its own. -/
theorem Exiting.not_running {s : Shard} {leaked : Bool} (he : s.Exiting leaked) {p : Phase}
    (hp : s.phase = p) (hrun : ∀ b, p ≠ .closing b ∧ p ≠ .exited b) : False := by
  rcases he with he | he
  · exact (hrun leaked).1 (hp.symm.trans he)
  · exact (hrun leaked).2 (hp.symm.trans he)

/-- The loop's own parts run only before the exit was decided. -/
theorem exiting_actor {c : Params} {s s' : Shard} {e : Event} {leaked : Bool}
    (he : s.Exiting leaked) (h : step c s e = some s') :
    e.actor ≠ .intake ∧ e.actor ≠ .submit ∧ e.actor ≠ .reap := by
  cases (step_transition h).2 with
  | intake hp | submitBefore hp | submitAfter hp | reap hp =>
    exact (he.not_running hp fun _ => ⟨nofun, nofun⟩).elim
  | _ => exact ⟨nofun, nofun, nofun⟩

/-- The exit is decided at the end of a turn, by a drained ledger or by the leak. -/
theorem exiting_cases {c : Params} {s s' : Shard} {e : Event} {leaked : Bool}
    (he : s'.Exiting leaked) (h : step c s e = some s') :
    s.Exiting leaked ∨ (e.actor = .turn ∧ s'.phase = .closing leaked ∧
      (leaked = false → s'.pending.entries = [] ∧ s'.backlog = []) ∧
      (leaked = true → ∃ l : Ledger, s'.toLedger = l.leak)) := by
  cases (step_transition h).2 with
  | send ht =>
    obtain ⟨_, _, _, rfl⟩ := sendMsg_eq_some ht
    exact Or.inl he
  | join hj ht =>
    obtain ⟨_, _, _, rfl⟩ := sendMsg_eq_some ht
    exact Or.inl he
  | signal | hangup | closeRx | post | cqSignal | closeSem => exact Or.inl he
  | wake | drainCq | drainWake | submitBefore | submitAfter =>
    exact (he.not_running rfl fun _ => ⟨nofun, nofun⟩).elim
  | @intake base order hp ho =>
    rcases (intake_cases c .any s base order ho).2 with ⟨_, heq⟩ | ⟨_, _, heq⟩ | heq |
      ⟨_, _, _, hphase⟩
    · exact (he.not_running (congrArg phase heq) fun _ => ⟨nofun, nofun⟩).elim
    · exact (he.not_running (congrArg phase heq) fun _ => ⟨nofun, nofun⟩).elim
    · exact (he.not_running (congrArg phase heq) fun _ => ⟨nofun, nofun⟩).elim
    · exact (he.not_running (hphase.trans hp) fun _ => ⟨nofun, nofun⟩).elim
  | @reap fileLen late hp =>
    rcases (reap_cases c s fileLen late).2 with ⟨_, heq⟩ | ⟨_, _, heq⟩ | heq |
      ⟨_, q, rest, l, hq, hl, heq⟩
    · exact (he.not_running (congrArg phase heq) fun _ => ⟨nofun, nofun⟩).elim
    · exact (he.not_running (congrArg phase heq) fun _ => ⟨nofun, nofun⟩).elim
    · exact (he.not_running (congrArg phase heq) fun _ => ⟨nofun, nofun⟩).elim
    · exact (he.not_running ((congrArg phase heq).trans hp) fun _ => ⟨nofun, nofun⟩).elim
  | @endTurn overflow now now' hp =>
    right
    rcases finishTurn_cases c (s.updateCqOverflow overflow) now now' with
      ⟨_, hp, hb, heq⟩ | ⟨_, deadline, heq⟩ | ⟨deadline, heq⟩
    · rw [heq] at he ⊢
      rcases he with he | he <;> cases he
      exact ⟨rfl, rfl, fun _ => ⟨hp, hb⟩, nofun⟩
    · rw [heq] at he ⊢
      rcases he with he | he <;> cases he
      exact ⟨rfl, rfl, nofun, fun _ => ⟨_, rfl⟩⟩
    · rw [heq] at he
      exact (he.not_running rfl fun _ => ⟨nofun, nofun⟩).elim
  | dropRx hp hs =>
    rcases he with he | he <;> cases he
    exact Or.inl (Or.inl hp)

/-- Every label is permitted when every answer is. -/
theorem any_allows (s : Shard) (e : Event) : Answers.any.Allows s e := by
  cases e <;> simp [Answers.Allows, Answers.any]

/-- The control facts hold in every reachable state. -/
theorem Reach.control {c : Params} {ok : Shard → Event → Prop} {s : Shard}
    (h : Reachable (step c) ok init s) : s.Control :=
  h.invariant control_init fun s e _ _ hc _ hs => (step_move hc (any_allows s e) hs).2

/-- Ledger invariants under permitted answers: what holds of the empty ledger and
survives every move holds along every run of the shard. -/
theorem ledger_invariant_of {c : Params} {w : Answers} {ok : Shard → Event → Prop}
    {I : Ledger → Prop} (hok : ∀ s e, ok s e → w.Allows s e) (hinit : I .init)
    (hmove : ∀ l a l', I l → Move c w l a l' → I l') {s : Shard}
    (h : Reachable (step c) ok init s) : I s.toLedger :=
  h.invariant (I := fun s => I s.toLedger) hinit fun s e _ hr hi ha hs =>
    hmove _ _ _ hi (step_move (Reach.control hr) (hok s e ha) hs).1

/-- Ledger invariants whatever the kernel answers. -/
theorem ledger_invariant {c : Params} {ok : Shard → Event → Prop} {I : Ledger → Prop}
    (hinit : I .init) (hmove : ∀ l a l', I l → Move c .any l a l' → I l') {s : Shard}
    (h : Reachable (step c) ok init s) : I s.toLedger :=
  ledger_invariant_of (fun s e _ => any_allows s e) hinit hmove h

end Shard

end Uring
