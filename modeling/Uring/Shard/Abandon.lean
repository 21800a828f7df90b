import Mathlib.Data.Option.Basic
import Uring.Shard.Drain

/-!
# Closing a receiver only abandons the result

Two runs take the same messages, the same kernel results and the same file metadata, and
differ only in when some result receivers are closed. Everything the loop owns then stays
the same after every step: only the outcome of the affected reads differs, in whether it
was delivered and in its payload.
-/

namespace Uring

open Uring.Core

/-- The same error, or success in both. -/
def SameStatus : IoResult → IoResult → Prop
  | .ok _, .ok _ => True
  | .error e, .error e' => e = e'
  | _, _ => False

theorem SameStatus.refl (r : IoResult) : SameStatus r r := by
  cases r
  · rfl
  · trivial

/-- Two decisions on one completion that continue alike or finish with the same status. -/
inductive ReapAlike : Option (Pending × ReapStep) → Option (Pending × ReapStep) → Prop
  | panic : ReapAlike none none
  | resubmit (q : Pending) (sqe : Sqe) :
      ReapAlike (some (q, .resubmit sqe)) (some (q, .resubmit sqe))
  | finish {q q' : Pending} {r r' : IoResult} (hd : q'.done = q.done)
      (hp : q'.permit = q.permit) (hr : SameStatus r r') :
      ReapAlike (some (q, .finish r)) (some (q', .finish r'))

theorem ReapAlike.refl (x : Option (Pending × ReapStep)) : ReapAlike x x := by
  rcases x with _ | ⟨q, r | sqe⟩
  · exact .panic
  · exact .finish rfl rfl (.refl r)
  · exact .resubmit q sqe

section Closed

variable {usizeMax : Nat} {p : Pending}

/-- On an entry that fits, `deliver` succeeds whatever it sees of the receiver. -/
theorem Pending.Fits.deliver_pair (h : p.Fits usizeMax) (n retries : Nat) (closed closed' : Bool) :
    ∃ q q' b b', deliver usizeMax { p with nread := n, transientRetries := retries } closed =
        some (q, b) ∧
      deliver usizeMax { p with nread := n, transientRetries := retries } closed' = some (q', b') ∧
      q'.done = q.done ∧ q'.permit = q.permit := by
  have hsmall := h.small
  have hle : p.buf.bytes.length ≤ usizeMax := by omega
  obtain ⟨q, b, hd⟩ := deliver_isSome
    (p := { p with nread := n, transientRetries := retries }) closed h.range h.room hle
  obtain ⟨q', b', hd'⟩ := deliver_isSome
    (p := { p with nread := n, transientRetries := retries }) closed' h.range h.room hle
  have hs := (deliver_spec hd).1
  have hs' := (deliver_spec hd').1
  exact ⟨q, q', b, b', hd, hd', hs'.done.trans hs.done.symm, hs'.permit.trans hs.permit.symm⟩

theorem Pending.Fits.finishOk_pair (h : p.Fits usizeMax) (n retries : Nat) (closed closed' : Bool) :
    ReapAlike (finishOk usizeMax { p with nread := n, transientRetries := retries } closed)
      (finishOk usizeMax { p with nread := n, transientRetries := retries } closed') := by
  obtain ⟨q, q', b, b', hd, hd', hdone, hpermit⟩ := h.deliver_pair n retries closed closed'
  simp only [finishOk, hd, hd', Option.bind_eq_bind, Option.bind_some, Option.pure_def]
  exact .finish hdone hpermit trivial

/-- The receiver is looked at only to cut out the result: it decides neither continuation
nor retry nor the question for the file's length. -/
theorem Pending.Fits.reapRead_pair (h : p.Fits usizeMax) (id : Nat) (res : Int)
    (down closed closed' : Bool) (fileLen : Except IoError Nat) :
    ReapAlike (reapRead usizeMax p id res down closed fileLen)
      (reapRead usizeMax p id res down closed' fileLen) := by
  unfold reapRead
  simp only
  split
  · exact .refl _
  · split
    · exact h.finishOk_pair p.nread p.transientRetries closed closed'
    · cases hsum : checkedAdd usizeMax p.nread res.toNat with
      | none => exact .panic
      | some n =>
        simp only [Option.bind_eq_bind, Option.bind_some]
        unfold reapProgress
        cases hrange : checkedAdd usizeMax p.head p.want with
        | none =>
          simp only [Option.bind_eq_bind, Option.bind_none]
          exact .panic
        | some last =>
          simp only [Option.bind_eq_bind, Option.bind_some]
          split
          · exact h.finishOk_pair n 0 closed closed'
          · split
            · exact .refl _
            · split
              · -- an unaligned tail
                cases fileLen with
                | error e => exact .refl _
                | ok m =>
                  obtain ⟨q, q', b, b', hd, hd', hdone, hpermit⟩ :=
                    h.deliver_pair n 0 closed closed'
                  simp only [finishDirectShortRead]
                  cases hreached : checkedAdd u64Max p.offset n with
                  | none =>
                    simp only [Option.bind_eq_bind, Option.bind_none]
                    exact .panic
                  | some reached =>
                    simp only [Option.bind_eq_bind, Option.bind_some, hd, hd', Option.pure_def]
                    split
                    · exact .refl _
                    · exact .finish hdone hpermit trivial
              · exact .refl _

end Closed

/-- What is known to the callers of a shard: the result channels and how many reads were
delivered or reclaimed. -/
structure Results where
  mail : Mail
  deliveredCount : Nat
  orphanCount : Nat
  delivered : List Nat
  orphaned : List Nat

/-- The results of a ledger. -/
def Ledger.results (l : Ledger) : Results :=
  ⟨l.mail, l.stats.delivered, l.stats.orphanReclaimed, l.hist.delivered, l.hist.orphaned⟩

/-- The same ledger with other results. -/
def Ledger.withResults (l : Ledger) (r : Results) : Ledger :=
  { l with
    mail := r.mail
    stats := { l.stats with delivered := r.deliveredCount, orphanReclaimed := r.orphanCount }
    hist := { l.hist with delivered := r.delivered, orphaned := r.orphaned } }

/-- The same shard with other results. -/
def Shard.withResults (s : Shard) (r : Results) : Shard :=
  { s with toLedger := s.toLedger.withResults r }

/-- Two sends on the same channel with the same status, equal unless the read is affected. -/
def SentAlike (A : Nat → Prop) (x y : Sent) : Prop :=
  x.id = y.id ∧ SameStatus x.outcome y.outcome ∧ (¬ A x.id → x = y)

/-- Results that differ only for the affected reads, and there only in who got what. -/
structure Results.Alike (A : Nat → Prop) (r r' : Results) : Prop where
  closed : ∀ id, ¬ A id → (id ∈ r.mail.closed ↔ id ∈ r'.mail.closed)
  sends : List.Forall₂ (SentAlike A) r.mail.sends r'.mail.sends
  lost : r'.mail.lost = r.mail.lost
  /-- The same reads have finished. -/
  finished : (r.delivered ++ r.orphaned).Perm (r'.delivered ++ r'.orphaned)
  others : ∀ id, ¬ A id → (id ∈ r.delivered ↔ id ∈ r'.delivered) ∧
    (id ∈ r.orphaned ↔ id ∈ r'.orphaned)
  /-- As many were counted. -/
  counted : (r.deliveredCount + r.orphanCount) % 2 ^ 64 =
    (r'.deliveredCount + r'.orphanCount) % 2 ^ 64

namespace Results

variable {A : Nat → Prop} {r r' : Results}

theorem Alike.refl (r : Results) : r.Alike A r where
  closed _ _ := Iff.rfl
  sends := List.forall₂_same.mpr fun _ _ => ⟨rfl, .refl _, fun _ => rfl⟩
  lost := rfl
  finished := List.Perm.refl _
  others _ _ := ⟨Iff.rfl, Iff.rfl⟩
  counted := rfl

/-- The receiver of one read is closed in one run. -/
theorem Alike.close_left (h : r.Alike A r') {id : Nat} (hid : A id) :
    Alike A { r with mail := r.mail.close id } r' where
  closed j hj := by
    have hne : j ≠ id := fun heq => hj (heq ▸ hid)
    simp only [Mail.close, Finset.mem_insert, hne, false_or]
    exact h.closed j hj
  sends := h.sends
  lost := h.lost
  finished := h.finished
  others := h.others
  counted := h.counted

/-- The receiver of one read is closed in the other run. -/
theorem Alike.close_right (h : r.Alike A r') {id : Nat} (hid : A id) :
    r.Alike A { r' with mail := r'.mail.close id } where
  closed j hj := by
    have hne : j ≠ id := fun heq => hj (heq ▸ hid)
    simp only [Mail.close, Finset.mem_insert, hne, false_or]
    exact h.closed j hj
  sends := h.sends
  lost := h.lost
  finished := h.finished
  others := h.others
  counted := h.counted

/-- A receiver is closed in both runs. -/
theorem Alike.close (h : r.Alike A r') (id : Nat) :
    Alike A { r with mail := r.mail.close id } { r' with mail := r'.mail.close id } where
  closed j hj := by
    simp only [Mail.close, Finset.mem_insert]
    rw [h.closed j hj]
  sends := h.sends
  lost := h.lost
  finished := h.finished
  others := h.others
  counted := h.counted

/-- Sends appended in both runs. -/
theorem Alike.sendAll (h : r.Alike A r')
    {xs ys : List Sent} (hs : List.Forall₂ (SentAlike A) xs ys) :
    Alike A { r with mail := { r.mail with sends := r.mail.sends ++ xs } }
      { r' with mail := { r'.mail with sends := r'.mail.sends ++ ys } } where
  closed := h.closed
  sends := List.rel_append h.sends hs
  lost := h.lost
  finished := h.finished
  others := h.others
  counted := h.counted

/-- One send in both runs: what it says about the receiver is the same unless affected. -/
theorem Alike.sentAlike (h : r.Alike A r') (id : Nat) {x y : IoResult} (hs : SameStatus x y)
    (heq : ¬ A id → x = y) : SentAlike A ⟨id, x, decide (id ∉ r.mail.closed)⟩
      ⟨id, y, decide (id ∉ r'.mail.closed)⟩ := by
  refine ⟨rfl, hs, fun hid => ?_⟩
  obtain rfl := heq hid
  simp only [Sent.mk.injEq, true_and, decide_eq_decide]
  exact not_congr (h.closed id hid)

theorem Alike.send (h : r.Alike A r') (id : Nat) {x y : IoResult} (hs : SameStatus x y)
    (heq : ¬ A id → x = y) :
    Alike A { r with mail := r.mail.send id x } { r' with mail := r'.mail.send id y } :=
  h.sendAll (.cons (h.sentAlike id hs heq) .nil)

/-- Senders dropped in both runs. -/
theorem Alike.lose (h : r.Alike A r') (ids : List Nat) :
    Alike A { r with mail := { r.mail with lost := r.mail.lost ++ ids } }
      { r' with mail := { r'.mail with lost := r'.mail.lost ++ ids } } where
  closed := h.closed
  sends := h.sends
  lost := by rw [h.lost]
  finished := h.finished
  others := h.others
  counted := h.counted

/-- Count one finished read as delivered or as reclaimed. -/
def finish (r : Results) (id : Nat) (arrived : Bool) : Results :=
  { r with
    deliveredCount := if arrived then fetchAdd r.deliveredCount else r.deliveredCount
    orphanCount := if arrived then r.orphanCount else fetchAdd r.orphanCount
    delivered := if arrived then r.delivered ++ [id] else r.delivered
    orphaned := if arrived then r.orphaned else r.orphaned ++ [id] }

theorem counted_finish (r : Results) (id : Nat) (arrived : Bool) :
    ((r.finish id arrived).deliveredCount + (r.finish id arrived).orphanCount) % 2 ^ 64 =
      (r.deliveredCount + r.orphanCount + 1) % 2 ^ 64 := by
  cases arrived <;> simp only [finish, fetchAdd, Bool.false_eq_true, if_true, if_false] <;> omega

theorem finished_finish (r : Results) (id : Nat) (arrived : Bool) :
    ((r.finish id arrived).delivered ++ (r.finish id arrived).orphaned).Perm
      (id :: (r.delivered ++ r.orphaned)) := by
  cases arrived with
  | true =>
    simp only [finish, if_true, List.append_assoc, List.singleton_append]
    exact List.perm_middle
  | false =>
    simp only [finish, Bool.false_eq_true, if_false, ← List.append_assoc]
    exact List.perm_append_singleton _ _

/-- One read finishes in both runs: it is counted alike unless affected. -/
theorem Alike.finish (h : r.Alike A r') (id : Nat) {b b' : Bool} (heq : ¬ A id → b' = b) :
    (r.finish id b).Alike A (r'.finish id b') where
  closed := h.closed
  sends := h.sends
  lost := h.lost
  finished := (r.finished_finish id b).trans
    ((h.finished.cons id).trans (r'.finished_finish id b').symm)
  others j hj := by
    obtain ⟨hdel, horph⟩ := h.others j hj
    by_cases hid : j = id
    · subst hid
      rw [heq hj]
      cases b <;> simp [Results.finish, hdel, horph]
    · cases b <;> cases b' <;> simp [Results.finish, hdel, horph, hid]
  counted := by
    have hc := h.counted
    rw [r.counted_finish, r'.counted_finish]
    omega

end Results

namespace Ledger

variable (l : Ledger) (r : Results)

@[simp] theorem withResults_pending : (l.withResults r).pending = l.pending := rfl

@[simp] theorem withResults_held : (l.withResults r).held = l.held := rfl

@[simp] theorem withResults_queuedCancels : (l.withResults r).queuedCancels = l.queuedCancels := rfl

theorem queueCancel_withResults (id : Nat) :
    (l.withResults r).queueCancel id = (l.queueCancel id).withResults r := by
  by_cases hid : id ∈ l.queuedCancels
  · simp only [queueCancel, withResults_queuedCancels, hid, if_true]
  · simp only [queueCancel, withResults_queuedCancels, hid, if_false]
    rfl

theorem queueCancels_withResults (order : List Nat) :
    (l.withResults r).queueCancels order = (l.queueCancels order).withResults r := by
  induction order generalizing l with
  | nil => rfl
  | cons id order ih =>
    rw [queueCancels_cons, queueCancels_cons, queueCancel_withResults, ih]

theorem cancel_withResults (id : Nat) :
    (l.withResults r).cancel id = (l.cancel id).withResults r := by
  simp only [cancel, withResults_pending]
  cases l.pending.lookup id with
  | none => rfl
  | some p =>
    exact queueCancel_withResults
      { l with pending := l.pending.insert id { p with cancelRequested := true } } r id

theorem shutdown_withResults (order : List Nat) :
    (l.withResults r).shutdown order = (l.shutdown order).withResults r :=
  queueCancels_withResults { l with shuttingDown := true } r order

theorem writeBlock_withResults (ptr : Ptr) (data : List UInt8) :
    (l.withResults r).writeBlock ptr data = (l.writeBlock ptr data).withResults r := by
  simp only [writeBlock, withResults_pending]
  cases l.pending.lookup ptr.block <;> rfl

theorem post_withResults (k : Nat) (res : Int) (data : List UInt8) :
    (l.withResults r).post k res data = (l.post k res data).map (Ledger.withResults · r) := by
  simp only [post, withResults_held]
  cases l.held[k]? with
  | none => rfl
  | some e =>
    cases e with
    | read ud file ptr len off =>
      simp only
      split
      · rfl
      · exact congrArg some (writeBlock_withResults { l with
          held := l.held.eraseIdx k
          cq := l.cq ++ [Cqe.mk (.read ud file ptr len off) res] } r ptr data)
    | asyncCancel target ud =>
      simp only
      split <;> rfl

end Ledger

/-- A choice between two results that a map turns into each other. -/
theorem ite_map {α β : Type} {f : α → β} {P : Prop} [Decidable P] {a a' : Option β}
    {b b' : Option α} (h : a = b.map f) (h' : a' = b'.map f) :
    (if P then a else a') = (if P then b else b').map f := by
  split
  · exact h
  · exact h'

namespace Shard

variable {A : Nat → Prop}

/-- The second shard is the first but for the results of the affected reads. -/
def Alike (A : Nat → Prop) (s t : Shard) : Prop :=
  ∃ r, t = s.withResults r ∧ s.results.Alike A r

/-- A partial operation that neither reads nor changes the results. -/
def Blind (f : Shard → Option Shard) : Prop :=
  ∀ s r, f (s.withResults r) = (f s).map (Shard.withResults · r)

/-- Blind operations keep two shards alike. -/
theorem Blind.alike {f : Shard → Option Shard} (hf : Blind f) {s t : Shard} (h : s.Alike A t) :
    Option.Rel (Alike A) (f s) (f t) := by
  obtain ⟨r, rfl, hr⟩ := h
  have hself := hf s s.results
  rw [hf s r]
  cases hs : f s with
  | none => exact .none
  | some s' =>
    have hsame : s'.results = s.results := by
      change f s = _ at hself
      rw [hs] at hself
      rw [Option.some.inj hself]
      rfl
    exact .some ⟨r, rfl, hsame ▸ hr⟩

theorem blind_sendMsg (p : Nat) (m : Msg) : Blind fun s => s.sendMsg p m := by
  intro s r
  exact ite_map (P := s.disconnected ∨ s.phase.receiving = false ∨
    (∃ id ∈ readIds [m], id ∈ s.hist.issued ∨ cancelBit ≤ id)) rfl rfl

theorem enter_withResults (s : Shard) (r : Results) (x : Except IoError Nat) :
    (s.withResults r).enter x = (s.enter x).map (Shard.withResults · r) := by
  cases x with
  | error e => rfl
  | ok n => exact ite_map (P := s.sq.length < n) rfl rfl

theorem submitRing_withResults (c : Params) (s : Shard) (r : Results) (kernelWork : Bool)
    (x : Except IoError Nat) (order : List Nat) :
    (s.withResults r).submitRing c kernelWork x order =
      (s.submitRing c kernelWork x order).map fun p => (p.1.withResults r, p.2) := by
  refine ite_map (P := ((s.flush c.sqCapacity).sq.isEmpty && !kernelWork) = true) rfl ?_
  change ((Shard.withResults { s with toLedger := s.flush c.sqCapacity } r).enter x).bind _ = _
  rw [enter_withResults]
  cases ({ s with toLedger := s.flush c.sqCapacity } : Shard).enter x with
  | none => rfl
  | some t =>
    have hstate : (t.withResults r).submitState = t.submitState := rfl
    simp only [Option.map_some, Option.bind_eq_bind, Option.bind_some, hstate]
    rcases handleSubmitResult x t.submitState with ⟨st, n, callback⟩
    cases callback with
    | false => rfl
    | true =>
      exact congrArg (fun l => some (({ t.withSubmitState st with toLedger := l } : Shard), n))
        ((t.withSubmitState st).queueCancels_withResults r order)

/-- The labels that neither close a receiver, take a message, consume a completion, end a
turn nor drop the channel. -/
def keepsResults : Event → Bool
  | .closeRx _ | .intake .. | .reap .. | .endTurn .. | .dropRx => false
  | _ => true

theorem blind_step (c : Params) {e : Event} (h : keepsResults e = true) :
    Blind fun s => step c s e := by
  intro s r
  by_cases hp : s.phase = .aborted
  · have hp' : (s.withResults r).phase = .aborted := hp
    simp [step, hp, hp']
  have hp' : (s.withResults r).phase ≠ .aborted := hp
  simp only [step, hp, hp', if_false]
  cases e with
  | send p m => exact blind_sendMsg p m s r
  | join p =>
    have hsend : (s.withResults r).sendMsg p .shutdown =
        (s.sendMsg p .shutdown).map (Shard.withResults · r) := blind_sendMsg p .shutdown s r
    simp only [hsend]
    refine ite_map (P := s.joined = true) ?_ ?_
    · rfl
    · cases s.sendMsg p .shutdown <;> rfl
  | signal p => rfl
  | hangup => exact ite_map (P := s.joined = true) rfl rfl
  | post k res data =>
    simp only
    rw [show (s.withResults r).toLedger.post k res data = _ from s.post_withResults r k res data]
    cases s.toLedger.post k res data <;> rfl
  | cqSignal => exact ite_map (P := 0 < s.wake.cqOwing) rfl rfl
  | wake => exact ite_map (P := s.phase = .wait) rfl rfl
  | drainCq => exact ite_map (P := s.phase = .drainCq) rfl rfl
  | drainWake => exact ite_map (P := s.phase = .drainWake) rfl rfl
  | submit kernelWork x order =>
    simp only
    have hphase : (s.withResults r).phase = s.phase := rfl
    simp only [hphase, submitRing_withResults, Option.map_map]
    refine ite_map (P := order.Perm s.pending.keys) ?_ ?_
    · cases s.phase with
      | submitBefore | submitAfter => cases s.submitRing c kernelWork x order <;> rfl
      | _ => rfl
    · rfl
  | closeSem =>
    have hphase : (s.withResults r).phase = s.phase := rfl
    simp only [hphase]
    cases s.phase with
    | closing leaked => exact ite_map (P := s.semClosed = true) rfl rfl
    | _ => rfl
  | closeRx | intake | reap | endTurn | dropRx => cases h

end Shard

namespace Ledger

variable {A : Nat → Prop} {l l' : Ledger}

/-- The second ledger is the first but for the results of the affected reads. -/
def Alike (A : Nat → Prop) (l l' : Ledger) : Prop :=
  ∃ r, l' = l.withResults r ∧ l.results.Alike A r

theorem cancelDone_withResults (l : Ledger) (r : Results) (q : Cqe) :
    (l.withResults r).cancelDone q = (l.cancelDone q).withResults r := by
  simp only [cancelDone, DriverStats.cancelResult]
  split
  · rfl
  · split
    · rfl
    · split <;> rfl

theorem Alike.cancelDone (h : l.Alike A l') (q : Cqe) :
    (l.cancelDone q).Alike A (l'.cancelDone q) := by
  obtain ⟨r, rfl, hr⟩ := h
  have hself : l.cancelDone q = (l.cancelDone q).withResults l.results :=
    cancelDone_withResults l l.results q
  have hsame : (l.cancelDone q).results = l.results := by
    rw [hself]
    rfl
  exact ⟨r, cancelDone_withResults l r q, hsame ▸ hr⟩

theorem Alike.leak (h : l.Alike A l') : l.leak.Alike A l'.leak := by
  obtain ⟨r, rfl, hr⟩ := h
  refine ⟨_, rfl, hr.sendAll ?_⟩
  rw [List.forall₂_map_left_iff, List.forall₂_map_right_iff, withResults_pending, List.forall₂_same]
  exact fun tx _ => hr.sentAlike tx (.refl _) fun _ => rfl

/-- A finished read is counted and answered alike unless it is affected. -/
theorem Alike.finish (h : l.Alike A l') {id : Nat} {p p' : Pending} {o o' : IoResult}
    {late late' : Bool} (hp : p'.permit = p.permit) (ho : SameStatus o o')
    (heq : ¬ A id → o = o' ∧ late = late') :
    (l.finish id id p o late).Alike A (l'.finish id id p' o' late') := by
  obtain ⟨r, rfl, hr⟩ := h
  have hlate : Results.Alike A
      { l.results with mail := if late then l.mail.close id else l.mail }
      { r with mail := if late' then r.mail.close id else r.mail } := by
    by_cases hA : A id
    · cases late <;> cases late'
      · exact hr
      · exact hr.close_right hA
      · exact hr.close_left hA
      · exact hr.close id
    · rw [← (heq hA).2]
      cases late
      · exact hr
      · exact hr.close id
  have hsent := hlate.send id ho fun hA => (heq hA).1
  have harrived (hA : ¬ A id) :
      decide (id ∉ (if late' then r.mail.close id else r.mail).closed) =
        decide (id ∉ (if late then l.mail.close id else l.mail).closed) := by
    simp only [decide_eq_decide]
    exact not_congr (hlate.closed id hA).symm
  have hdone := hsent.finish id harrived
  refine ⟨_, ?_, hdone⟩
  simp only [Ledger.finish, hp]
  rfl

/-- One completion is handled alike in both runs. -/
theorem Alike.reapCqe {usizeMax : Nat} (h : l.Alike A l')
    (hfit : l.pending.All fun _ p => p.Fits usizeMax)
    (hown : l.pending.All fun id p => p.done = some id ∨ p.done = none) (q : Cqe)
    (fileLen : Except IoError Nat) {late late' : Bool} (hlate : ¬ A q.userData → late = late') :
    Option.Rel (Alike A) (l.reapCqe usizeMax q fileLen late)
      (l'.reapCqe usizeMax q fileLen late') := by
  by_cases hb : q.userData &&& cancelBit ≠ 0
  · simp only [Ledger.reapCqe, if_pos hb]
    exact .some (h.cancelDone q)
  · simp only [Ledger.reapCqe, if_neg hb]
    have hpend : l'.pending = l.pending := by
      obtain ⟨r, rfl, _⟩ := h
      rfl
    have hdown : l'.shuttingDown = l.shuttingDown := by
      obtain ⟨r, rfl, _⟩ := h
      rfl
    rw [hpend]
    cases hp : l.pending.lookup q.userData with
    | none => exact .some h
    | some p =>
      have hclosed : ¬ A q.userData → l'.doneClosed p = l.doneClosed p := by
        intro hA
        obtain ⟨r, rfl, hr⟩ := h
        rcases hown _ p hp with hd | hd
        · simp only [doneClosed, hd, decide_eq_decide]
          exact (hr.closed _ hA).symm
        · simp only [doneClosed, hd]
      have hpair := (hfit _ p hp).reapRead_pair q.userData q.res l.shuttingDown (l.doneClosed p)
        (l'.doneClosed p) fileLen
      have hsame : ¬ A q.userData →
          reapRead usizeMax p q.userData q.res l.shuttingDown (l'.doneClosed p) fileLen =
            reapRead usizeMax p q.userData q.res l.shuttingDown (l.doneClosed p) fileLen := by
        intro hA
        rw [hclosed hA]
      simp only [Option.bind_eq_bind, hdown]
      generalize hx : reapRead usizeMax p q.userData q.res l.shuttingDown (l.doneClosed p) fileLen =
        x at hpair hsame ⊢
      generalize reapRead usizeMax p q.userData q.res l.shuttingDown (l'.doneClosed p) fileLen =
        y at hpair hsame ⊢
      cases hpair with
      | panic => exact .none
      | resubmit p' sqe =>
        obtain ⟨r, rfl, hr⟩ := h
        exact .some ⟨r, rfl, hr⟩
      | @finish p' p'' o o' hd hpermit ho =>
        have hdone : p'.done = p.done := (reapRead_finish hx).1.done
        simp only [Option.bind_some, hd, hdone]
        rcases hown _ p hp with hd | hd
        · rw [hd]
          refine .some (h.finish hpermit ho fun hA => ⟨?_, hlate hA⟩)
          have heq := hsame hA
          simp only [Option.some.injEq, Prod.mk.injEq, ReapStep.finish.injEq] at heq
          exact heq.2.symm
        · rw [hd]
          exact .none

end Ledger

/-- Two guarded results are related when both branches are. -/
theorem rel_ite {α β : Type} {R : α → β → Prop} {P : Prop} [Decidable P] {a a' : Option α}
    {b b' : Option β} (h : Option.Rel R a b) (h' : Option.Rel R a' b') :
    Option.Rel R (if P then a else a') (if P then b else b') := by
  split
  · exact h
  · exact h'

namespace Shard

variable {A : Nat → Prop} {s t : Shard}

/-- Intake of a read is the same in both runs. -/
theorem Alike.intakeRead (c : Params) (h : s.Alike A t) (m : ReadMsg) (base : Nat) :
    Option.Rel (Alike A) (s.intakeRead c m base) (t.intakeRead c m base) := by
  obtain ⟨r, rfl, hr⟩ := h
  have hreject (e : IoError) : s.results.Alike A r → Results.Alike A
      { s.results with mail := s.mail.send m.id (.error e) }
      { r with mail := r.mail.send m.id (.error e) } :=
    fun h => h.send m.id (.refl _) fun _ => rfl
  unfold Shard.intakeRead
  refine rel_ite (P := s.shuttingDown = true) ?_ ?_
  · exact .some ⟨_, rfl, hreject _ hr⟩
  · cases alignedGeometry c.usizeMax m.offset m.len m.align with
    | none => exact .none
    | some g =>
      obtain ⟨k, hd, region⟩ := g
      simp only [Option.bind_eq_bind, Option.bind_some]
      cases checkedAdd c.usizeMax region (m.align - 1) with
      | none => exact .some ⟨_, rfl, hreject _ hr⟩
      | some cap =>
        simp only
        refine rel_ite .none (rel_ite ?_ ?_)
        · exact .some ⟨_, rfl, hreject _ hr⟩
        · cases (newPending m base k hd region cap).readSqe c.usizeMax m.id with
          | none => exact .none
          | some sqe => exact .some ⟨r, rfl, hr⟩

/-- Taking one message is the same in both runs. -/
theorem Alike.intakeMsg (c : Params) (h : s.Alike A t) (m : Msg) (base : Nat) (order : List Nat) :
    Option.Rel (Alike A) (s.intakeMsg c m base order) (t.intakeMsg c m base order) := by
  cases m with
  | read m => exact h.intakeRead c m base
  | cancel id =>
    refine Blind.alike (f := fun s => some { s with toLedger := s.cancel id }) (fun s r => ?_) h
    exact congrArg (fun l => some ({ s with toLedger := l } : Shard)) (s.cancel_withResults r id)
  | shutdown =>
    refine Blind.alike (f := fun s => some { s with toLedger := s.shutdown order })
      (fun s r => ?_) h
    exact congrArg (fun l => some ({ s with toLedger := l } : Shard))
      (s.shutdown_withResults r order)

/-- One iteration of the intake loop is the same in both runs. -/
theorem Alike.intake (c : Params) (h : s.Alike A t) (base : Nat) (order : List Nat) :
    (s.intake c base order).Alike A (t.intake c base order) := by
  obtain ⟨r, rfl, hr⟩ := h
  have hchan : (s.withResults r).chan = s.chan := rfl
  have hbudget : (s.withResults r).budget = s.budget := rfl
  simp only [Shard.intake, hchan, hbudget]
  split
  · cases s.chan with
    | nil => exact ⟨r, rfl, hr⟩
    | cons m rest =>
      have htaken : Alike A
          { s with chan := rest, budget := { s.budget with messages := s.budget.messages + 1 } }
          { s.withResults r with
            chan := rest
            budget := { s.budget with messages := s.budget.messages + 1 } } := ⟨r, rfl, hr⟩
      have hrel := htaken.intakeMsg c m base order
      simp only
      generalize Shard.intakeMsg c { s with
        chan := rest
        budget := { s.budget with messages := s.budget.messages + 1 } } m base order = x at hrel ⊢
      generalize Shard.intakeMsg c { s.withResults r with
        chan := rest
        budget := { s.budget with messages := s.budget.messages + 1 } } m base order = y at hrel ⊢
      cases hrel with
      | some hab => exact hab
      | none => exact ⟨r, rfl, hr⟩
  · exact ⟨r, rfl, hr⟩

/-- One iteration of the reap loop is the same in both runs. -/
theorem Alike.reap {c : Params} (h : s.Alike A t) (hfit : s.toLedger.Fitting c)
    (hown : s.pending.All fun id p => p.done = some id ∨ p.done = none)
    (fileLen : Except IoError Nat) {late late' : Bool}
    (hlate : ∀ q rest, s.cq = q :: rest → ¬ A q.userData → late = late') :
    (s.reap c fileLen late).Alike A (t.reap c fileLen late') := by
  obtain ⟨r, rfl, hr⟩ := h
  have hcq : (s.withResults r).cq = s.cq := rfl
  have hbudget : (s.withResults r).budget = s.budget := rfl
  simp only [Shard.reap, hcq, hbudget]
  split
  · cases hq : s.cq with
    | nil => exact ⟨r, rfl, hr⟩
    | cons q rest =>
      have hl : Ledger.Alike A { s.toLedger with cq := rest }
          { (s.withResults r).toLedger with cq := rest } := ⟨r, rfl, hr⟩
      have hrel := hl.reapCqe hfit hown q fileLen (hlate q rest hq)
      simp only
      generalize Ledger.reapCqe c.usizeMax { s.toLedger with cq := rest } q fileLen late =
        x at hrel ⊢
      generalize Ledger.reapCqe c.usizeMax { (s.withResults r).toLedger with cq := rest } q fileLen
        late' = y at hrel ⊢
      cases hrel with
      | some hab =>
        obtain ⟨r', rfl, hr'⟩ := hab
        exact ⟨r', rfl, hr'⟩
      | none => exact ⟨r, rfl, hr⟩
  · exact ⟨r, rfl, hr⟩

/-- The end of a turn is the same in both runs. -/
theorem Alike.endTurn (c : Params) (h : s.Alike A t) (overflow now now' : Nat) :
    ((s.updateCqOverflow overflow).finishTurn c now now').Alike A
      ((t.updateCqOverflow overflow).finishTurn c now now') := by
  have hover : (s.updateCqOverflow overflow).Alike A (t.updateCqOverflow overflow) := by
    obtain ⟨r, rfl, hr⟩ := h
    have hprev : (s.withResults r).previousCqOverflow = s.previousCqOverflow := rfl
    simp only [updateCqOverflow, hprev]
    split <;> exact ⟨r, rfl, hr⟩
  generalize s.updateCqOverflow overflow = s at hover ⊢
  generalize t.updateCqOverflow overflow = t at hover ⊢
  have hleak : s.leak.Alike A t.leak := by
    obtain ⟨r, rfl, hr⟩ := hover
    exact Ledger.Alike.leak ⟨r, rfl, hr⟩
  obtain ⟨r, rfl, hr⟩ := hover
  have hdown : (s.withResults r).shuttingDown = s.shuttingDown := rfl
  have hpend : (s.withResults r).pending = s.pending := rfl
  have hback : (s.withResults r).backlog = s.backlog := rfl
  have hdead : (s.withResults r).drainDeadline = s.drainDeadline := rfl
  simp only [finishTurn, hdown, hpend, hback, hdead]
  split
  · split
    · exact ⟨r, rfl, hr⟩
    · split
      · obtain ⟨r', heq, hr'⟩ := hleak
        refine ⟨r', ?_, hr'⟩
        rw [heq]
        rfl
      · exact ⟨r, rfl, hr⟩
  · exact ⟨r, rfl, hr⟩

/-- The same label, up to a closure of an affected receiver between the look at it and the
send to it. -/
def SameLabel (A : Nat → Prop) (s : Shard) (e e' : Event) : Prop :=
  e = e' ∨ ∃ fileLen late late', e = .reap fileLen late ∧ e' = .reap fileLen late' ∧
    ∀ q rest, s.cq = q :: rest → A q.userData

/-- Shards that are alike take the same labels to shards that are alike. -/
theorem Alike.step {c : Params} (h : s.Alike A t) (hs : Reach c s) {e e' : Event}
    (hl : SameLabel A s e e') : Option.Rel (Alike A) (step c s e) (step c t e') := by
  have hreap (fileLen : Except IoError Nat) {late late' : Bool}
      (hlate : ∀ q rest, s.cq = q :: rest → ¬ A q.userData → late = late') :
      Option.Rel (Alike A) (Shard.step c s (.reap fileLen late))
        (Shard.step c t (.reap fileLen late')) := by
    have hnext := h.reap (c := c) (Reach.fitting hs) (Reach.accounted hs).senders.own fileLen hlate
    obtain ⟨r, rfl, hr⟩ := h
    exact rel_ite .none (rel_ite (.some hnext) .none)
  rcases hl with rfl | ⟨fileLen, late, late', rfl, rfl, hA⟩
  · cases e with
    | closeRx id =>
      obtain ⟨r, rfl, hr⟩ := h
      exact rel_ite .none (.some ⟨_, rfl, hr.close id⟩)
    | intake base order =>
      have hnext := h.intake c base order
      obtain ⟨r, rfl, hr⟩ := h
      exact rel_ite .none (rel_ite (.some hnext) .none)
    | reap fileLen late => exact hreap fileLen fun _ _ _ _ => rfl
    | endTurn overflow now now' =>
      have hnext := h.endTurn c overflow now now'
      obtain ⟨r, rfl, hr⟩ := h
      exact rel_ite .none (rel_ite (.some hnext) .none)
    | dropRx =>
      obtain ⟨r, rfl, hr⟩ := h
      refine rel_ite .none ?_
      have hphase : (s.withResults r).phase = s.phase := rfl
      simp only [hphase]
      cases s.phase with
      | closing leaked =>
        refine rel_ite (.some ?_) .none
        exact ⟨_, rfl, hr.lose (readIds s.chan)⟩
      | _ => exact .none
    | _ => exact Blind.alike (blind_step c rfl) h
  · exact hreap fileLen fun q rest hq hn => absurd (hA q rest hq) hn

/-- States reached by two runs that differ only in when the affected receivers are closed. -/
inductive Paired (c : Params) (A : Nat → Prop) : Shard → Shard → Prop
  | start : Paired c A init init
  | both {s t s' t' : Shard} {e e' : Event} : Paired c A s t → SameLabel A s e e' →
      step c s e = some s' → step c t e' = some t' → Paired c A s' t'
  | closeLeft {s t s' : Shard} {id : Nat} : Paired c A s t → A id →
      step c s (.closeRx id) = some s' → Paired c A s' t
  | closeRight {s t t' : Shard} {id : Nat} : Paired c A s t → A id →
      step c t (.closeRx id) = some t' → Paired c A s t'

namespace Paired

variable {c : Params}

theorem left (h : Paired c A s t) : Reach c s := by
  induction h with
  | start => exact .start
  | both _ _ hs _ ih => exact ih.next trivial hs
  | closeLeft _ _ hs ih => exact ih.next trivial hs
  | closeRight _ _ _ ih => exact ih

/-- Closing a receiver changes the set of closed receivers only. -/
theorem step_closeRx {s s' : Shard} {id : Nat} (h : step c s (.closeRx id) = some s') :
    s' = s.withResults { s.results with mail := s.mail.close id } := by
  cases (step_transition h).2
  rfl

/-- Paired states are alike. -/
theorem alike (h : Paired c A s t) : s.Alike A t := by
  induction h with
  | start => exact ⟨init.results, rfl, .refl _⟩
  | both hp hl hs ht ih =>
    have hrel := ih.step hp.left hl
    rw [hs, ht] at hrel
    cases hrel with
    | some hab => exact hab
  | closeLeft _ hA hs ih =>
    obtain ⟨r, rfl, hr⟩ := ih
    rw [step_closeRx hs]
    exact ⟨r, rfl, hr.close_left hA⟩
  | closeRight _ hA hs ih =>
    obtain ⟨r, rfl, hr⟩ := ih
    rw [step_closeRx hs]
    exact ⟨_, rfl, hr.close_right hA⟩

/-- The same labels lead from paired states to paired states. -/
theorem run {s' t' : Shard} {es : List Event} (h : Paired c A s t)
    (hs : Core.run (step c) s es = some s') (ht : Core.run (step c) t es = some t') :
    Paired c A s' t' := by
  induction es generalizing s t with
  | nil =>
    obtain rfl : s = s' := Option.some.inj hs
    obtain rfl : t = t' := Option.some.inj ht
    exact h
  | cons e es ih =>
    simp only [Core.run, Option.bind_eq_some_iff] at hs ht
    obtain ⟨s₁, hs₁, hs⟩ := hs
    obtain ⟨t₁, ht₁, ht⟩ := ht
    exact ih (h.both (Or.inl rfl) hs₁ ht₁) hs ht

end Paired

/-- Two runs with the same messages and the same answers that differ only in when the
receivers of some reads are closed: at every point both have queued the same entries, have
the same table and have released the same permits, and they go on alike; they differ only
in the results of those reads. -/
theorem abandoned_result_only (c : Params) (A : Nat → Prop) (s t : Shard) (h : Paired c A s t) :
    t.hist.queued = s.hist.queued ∧ t.pending = s.pending ∧ t.hist.released = s.hist.released ∧
      t.cq = s.cq ∧ s.Alike A t ∧
      ∀ e e', SameLabel A s e e' → Option.Rel (Alike A) (step c s e) (step c t e') := by
  have hab := h.alike
  have hnext (e e' : Event) (hl : SameLabel A s e e') := hab.step h.left hl
  obtain ⟨r, rfl, hr⟩ := hab
  exact ⟨rfl, rfl, rfl, rfl, ⟨r, rfl, hr⟩, hnext⟩

/-- A read of three bytes has completed. -/
def completedRead : List Event :=
  [.send 0 (.read ⟨1, 0, 1, 3, 1, ⟨0, none, none⟩⟩), .signal 0, .wake, .drainCq, .drainWake,
    .intake 64 [], .intake 64 [1], .submit false (.ok 1) [1], .post 0 3 [20, 30, 40]]

theorem completedRead_runs : (Core.run (step oneSlot) init completedRead).isSome = true := by
  decide +kernel

/-- The state after the completion, and the same state with its receiver closed. -/
def completed : Shard := (Core.run (step oneSlot) init completedRead).get completedRead_runs

def abandoned : Shard := completed.withResults
  { completed.results with mail := completed.mail.close 1 }

theorem completed_reaps :
    (Core.run (step oneSlot) completed [.reap (.ok 5) false]).isSome = true ∧
      (Core.run (step oneSlot) abandoned [.reap (.ok 5) false]).isSome = true := by
  decide +kernel

/-- The result of a completed read is delivered in one run and reclaimed in the other; its
permit is released in both. -/
theorem abandoned_result_completed : ∃ s t, Paired oneSlot (fun id => id = 1) s t ∧
    s.hist.delivered = [1] ∧ t.hist.orphaned = [1] ∧ t.hist.delivered = [] ∧
    t.pending = s.pending ∧ s.hist.released.length = 1 ∧ t.hist.released = s.hist.released := by
  have hstart : Paired oneSlot (fun id => id = 1) completed completed :=
    Paired.start.run (Option.some_get completedRead_runs).symm
      (Option.some_get completedRead_runs).symm
  have hclose : step oneSlot completed (.closeRx 1) = some abandoned := by
    have hlive : completed.phase ≠ .aborted := by
      decide +kernel
    exact if_neg hlive
  have hpair := (hstart.closeRight rfl hclose).run (Option.some_get completed_reaps.1).symm
    (Option.some_get completed_reaps.2).symm
  have hsame := abandoned_result_only oneSlot _ _ _ hpair
  refine ⟨_, _, hpair, ?_, ?_, ?_, hsame.2.1, ?_, hsame.2.2.1⟩ <;> decide +kernel

end Shard

end Uring
