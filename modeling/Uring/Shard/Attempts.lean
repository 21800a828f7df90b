import Uring.Shard.Retry
import Uring.Shard.Turn

/-!
# The attempts of a read

A loop asks the kernel for a read once at intake and again for what a completion leaves
open. The completions it reaps for a read, in order, are the read's attempts: they determine
the progress of the table entry, and why the last of them can end the read with an error.
-/

namespace Uring

open Uring.Core

/-- A completion as `reap_read` sees it: the result and the answer of `metadata()`. -/
structure Attempt where
  res : Int
  fileLen : Except IoError Nat

/-- A completion of an entry of the read `id`. -/
def Cqe.answers (id : Nat) (q : Cqe) : Bool := q.sqe.isRead && decide (q.userData = id)

theorem Cqe.answers_iff {id : Nat} {q : Cqe} :
    q.answers id = true ↔ q.sqe.isRead = true ∧ q.userData = id := by
  simp [answers]

/-- What a reaped completion is to the read `id`. -/
def Cqe.attempt (q : Cqe) (fileLen : Except IoError Nat) (id : Nat) : List Attempt :=
  if q.answers id then [⟨q.res, fileLen⟩] else []

theorem Cqe.attempt_self {q : Cqe} (h : q.sqe.isRead = true) (fileLen : Except IoError Nat) :
    q.attempt fileLen q.userData = [⟨q.res, fileLen⟩] := if_pos (answers_iff.mpr ⟨h, rfl⟩)

theorem Cqe.attempt_eq_nil {q : Cqe} {id : Nat} (h : q.sqe.isRead = true → q.userData ≠ id)
    (fileLen : Except IoError Nat) : q.attempt fileLen id = [] :=
  if_neg fun hq => h (answers_iff.mp hq).1 (answers_iff.mp hq).2

/-- The bytes that the attempts have read. -/
def gained (as : List Attempt) : Nat := (as.map fun a => a.res.toNat).sum

/-- The failed attempts since the last progress. -/
def streak (as : List Attempt) : Nat :=
  (as.reverse.takeWhile fun a => decide (a.res < 0)).length

theorem gained_concat (as : List Attempt) (a : Attempt) :
    gained (as ++ [a]) = gained as + a.res.toNat := by
  simp [gained]

theorem streak_concat (as : List Attempt) (a : Attempt) :
    streak (as ++ [a]) = if a.res < 0 then streak as + 1 else 0 := by
  unfold streak
  rw [List.reverse_append, List.reverse_singleton, List.singleton_append, List.takeWhile_cons]
  by_cases h : a.res < 0
  · simp [h]
  · simp [h]

/-- The error of a direct read that stopped inside a block before the end of the file. -/
def shortReadError : IoError :=
  .other "io_uring O_DIRECT: non-block-aligned short read before EOF"

/-- Why the attempt `last`, after the attempts `before`, ends the read `m` with an error. The
region of the read starts at `k` in the file and `hd` bytes before the logical range. -/
inductive Ends (m : ReadMsg) (k hd : Nat) (cancelled : Prop) (before : List Attempt)
    (last : Attempt) : IoError → Prop
  /-- The kernel's errno; of a positioned read an `EINTR` or `EAGAIN` only after all retries. -/
  | errno (n : Nat) (hn : 0 < n) (hres : last.res = -n)
      (hretry : n = eIntr ∨ n = eAgain → m.offset = currentPosition ∨ m.len = 0 ∨
        streak before = maxTransientRetries) : Ends m k hd cancelled before last (.os n)
  /-- A cancelled read is not asked for again. -/
  | cancelled (hc : cancelled)
      (hleft : last.res = -eIntr ∨ last.res = -eAgain ∨
        (0 < last.res ∧ gained (before ++ [last]) < hd + m.len)) :
      Ends m k hd cancelled before last (.os eCanceled)
  /-- A direct read stopped inside a block, and the file's length is not known. -/
  | metadata {err : IoError} (halign : 1 < m.align)
      (htail : gained (before ++ [last]) % m.align ≠ 0) (hlen : last.fileLen = .error err) :
      Ends m k hd cancelled before last err
  /-- A direct read stopped inside a block and before the end of the file. -/
  | short {len : Nat} (halign : 1 < m.align) (htail : gained (before ++ [last]) % m.align ≠ 0)
      (hlen : last.fileLen = .ok len) (hend : k + gained (before ++ [last]) < len) :
      Ends m k hd cancelled before last shortReadError

theorem Ends.mono {m : ReadMsg} {k hd : Nat} {P Q : Prop} {before : List Attempt}
    {last : Attempt} {err : IoError} (h : Ends m k hd P before last err) (hpq : P → Q) :
    Ends m k hd Q before last err := by
  cases h with
  | errno n hn hres hretry => exact .errno n hn hres hretry
  | cancelled hc hleft => exact .cancelled (hpq hc) hleft
  | metadata halign htail hlen => exact .metadata halign htail hlen
  | short halign htail hlen hend => exact .short halign htail hlen hend

/-- The progress of a table entry is that of its attempts, and leaves a part of the region
unread. -/
structure Pending.Tracks (p : Pending) (as : List Attempt) : Prop where
  nread : p.nread = gained as
  retries : p.transientRetries = streak as
  retries_le : p.transientRetries ≤ maxTransientRetries
  unread : p.nread < p.regionLen ∨ p.regionLen = 0

namespace Pending.Tracks

variable {p p' : Pending} {as : List Attempt} {usizeMax id : Nat} {res : Int} {down closed : Bool}
    {fileLen : Except IoError Nat}

/-- An entry with the same progress tracks the same attempts. -/
theorem congr (h : p.Tracks as) (hn : p'.nread = p.nread)
    (ht : p'.transientRetries = p.transientRetries) (hr : p'.regionLen = p.regionLen) :
    p'.Tracks as where
  nread := hn.trans h.nread
  retries := ht.trans h.retries
  retries_le := ht ▸ h.retries_le
  unread := by
    rw [hn, hr]
    exact h.unread

/-- A resubmitted entry tracks one more attempt. -/
theorem resubmit (h : p.Tracks as) {sqe : Sqe}
    (hr : reapRead usizeMax p id res down closed fileLen = some (p', .resubmit sqe)) :
    p'.Tracks (as ++ [⟨res, fileLen⟩]) := by
  obtain ⟨_, hsame, _, _, _, _, hnread, hlt, _⟩ := reapRead_resubmit hr
  have hretries : p'.transientRetries = streak (as ++ [⟨res, fileLen⟩]) ∧
      p'.transientRetries ≤ maxTransientRetries := by
    rw [streak_concat]
    rcases reapRead_retries hr with ⟨hpos, hzero⟩ | ⟨herr, hone, hle⟩
    · rw [if_neg (show ¬ res < 0 by omega), hzero]
      exact ⟨rfl, Nat.zero_le _⟩
    · have hneg : res < 0 := by
        unfold eIntr eAgain at herr
        omega
      rw [if_pos hneg, ← h.retries]
      exact ⟨hone, hle⟩
  refine ⟨?_, hretries.1, hretries.2, Or.inl ?_⟩
  · rw [gained_concat, ← h.nread]
    exact hnread
  · rw [hsame.regionLen]
    exact hlt

variable {c : Params} {m : ReadMsg}

/-- The errno of a read that ends with one. -/
theorem reapError_ends (h : p.Tracks as)
    (hb : Bounds m.offset m.len m.align p.offset p.head p.regionLen) {stop : Bool}
    (hneg : res < 0) {err : IoError}
    (hr : reapError usizeMax p id (-res).toNat stop = some (p', .finish (.error err))) :
    Ends m p.offset p.head (stop = true) as ⟨res, fileLen⟩ err := by
  have hpos : 0 < (-res).toNat := by omega
  have hres : res = -((-res).toNat : Int) := by omega
  unfold reapError at hr
  split at hr
  · rename_i hcond
    split at hr
    · rename_i hstop
      cases hr
      refine .cancelled hstop ?_
      rcases hcond.1 with herr | herr
      · exact Or.inl (herr ▸ hres)
      · exact Or.inr (Or.inl (herr ▸ hres))
    · split at hr
      · simp only [Option.bind_eq_bind, Option.bind_eq_some_iff, Option.pure_def,
          Option.some.injEq, Prod.mk.injEq, reduceCtorEq, and_false, exists_false] at hr
      · rename_i hspent
        cases hr
        refine .errno _ hpos hres fun _ => Or.inr (Or.inr ?_)
        rw [← h.retries]
        exact le_antisymm h.retries_le (not_lt.mp hspent)
  · rename_i hcond
    cases hr
    refine .errno _ hpos hres fun herr => ?_
    by_cases hcur : m.offset = currentPosition
    · exact Or.inl hcur
    · -- a positioned entry asks again while a part of its region is unread
      right
      left
      have hoff : p.offset ≠ currentPosition := by
        rcases hb.place with ⟨_, hend⟩ | ⟨hstream, _⟩
        · unfold currentPosition u64Max
          unfold i64Max at hend
          omega
        · exact absurd hstream hcur
      rcases h.unread with hlt | hzero
      · exact absurd ⟨herr, hoff, hlt⟩ hcond
      · have hcovers := hb.covers
        omega

/-- A read that ends with an error ends for one of the reasons. -/
theorem ends (h : p.Tracks as) (hs : p.Sound usizeMax m.offset m.len m.align)
    (hb : Bounds m.offset m.len m.align p.offset p.head p.regionLen) {err : IoError}
    (hr : reapRead usizeMax p id res down closed fileLen = some (p', .finish (.error err))) :
    Ends m p.offset p.head ((p.cancelRequested || down) = true) as ⟨res, fileLen⟩ err := by
  unfold reapRead at hr
  simp only at hr
  split at hr
  · rename_i hneg
    exact h.reapError_ends hb hneg hr
  · split at hr
    · simp only [finishOk, Option.bind_eq_bind, Option.bind_eq_some_iff, Option.pure_def,
        Option.some.injEq, Prod.mk.injEq, ReapStep.finish.injEq, reduceCtorEq, and_false,
        exists_false] at hr
    · rename_i hzero
      have hpos : 0 < res := by omega
      simp only [Option.bind_eq_bind, Option.bind_eq_some_iff, checkedAdd_eq_some] at hr
      obtain ⟨n, ⟨rfl, _⟩, hr⟩ := hr
      have hgained : gained (as ++ [⟨res, fileLen⟩]) = p.nread + res.toNat := by
        rw [gained_concat, h.nread]
      unfold reapProgress at hr
      simp only [Option.bind_eq_bind, Option.bind_eq_some_iff, checkedAdd_eq_some] at hr
      obtain ⟨range, ⟨rfl, _⟩, hr⟩ := hr
      split at hr
      · simp only [finishOk, Option.bind_eq_bind, Option.bind_eq_some_iff, Option.pure_def,
          Option.some.injEq, Prod.mk.injEq, ReapStep.finish.injEq, reduceCtorEq, and_false,
          exists_false] at hr
      · rename_i hmore
        simp only [not_or, not_le] at hmore
        split at hr
        · rename_i hstop
          cases hr
          refine .cancelled hstop (Or.inr (Or.inr ⟨hpos, ?_⟩))
          rw [hgained, ← hs.want]
          exact hmore.2.1
        · split at hr
          · rename_i htail
            have halign : 1 < m.align ∧ gained (as ++ [⟨res, fileLen⟩]) % m.align ≠ 0 := by
              rw [hgained, ← hs.align_eq]
              exact htail
            simp only [Option.bind_eq_some_iff, Option.pure_def, Option.some.injEq,
              Prod.mk.injEq, ReapStep.finish.injEq] at hr
            obtain ⟨⟨q, outcome⟩, hq, rfl, rfl⟩ := hr
            unfold finishDirectShortRead at hq
            cases fileLen with
            | error e =>
              cases hq
              exact .metadata halign.1 halign.2 rfl
            | ok len =>
              simp only [Option.bind_eq_bind, Option.bind_eq_some_iff, checkedAdd_eq_some] at hq
              obtain ⟨reached, ⟨rfl, _⟩, hq⟩ := hq
              split at hq
              · rename_i hend
                cases hq
                refine .short halign.1 halign.2 rfl ?_
                rw [hgained]
                exact hend
              · simp only [Option.bind_eq_some_iff, Option.pure_def, Option.some.injEq,
                  Prod.mk.injEq, reduceCtorEq, and_false, exists_false] at hq
          · simp only [Option.bind_eq_some_iff, Option.pure_def, Option.some.injEq,
              Prod.mk.injEq, reduceCtorEq, and_false, exists_false] at hr

end Pending.Tracks

namespace Ledger

/-- The table follows from the attempts of each read, and a read that is to be cancelled has
its cancel queued. -/
structure Tracked (l : Ledger) (as : Nat → List Attempt) : Prop where
  entries : l.pending.All fun id p => p.Tracks (as id)
  asked : l.pending.All fun id p => p.cancelRequested = true → cancelSqe id ∈ l.hist.queued
  fresh : ∀ id, id ∉ l.hist.accepted → as id = []

namespace Tracked

variable {l l' : Ledger} {as : Nat → List Attempt} {c : Params} {w : Answers} {a : Actor}

theorem init : Ledger.init.Tracked fun _ => [] :=
  ⟨AList.all_empty, AList.all_empty, fun _ _ => rfl⟩

/-- Changes that accept nothing and keep the progress of every entry. -/
theorem frame (h : l.Tracked as) (hq : l.hist.queued <+: l'.hist.queued)
    (ha : l'.hist.accepted = l.hist.accepted)
    (hp : l'.pending.All fun id q => ∃ p, l.pending.lookup id = some p ∧ q.nread = p.nread ∧
      q.transientRetries = p.transientRetries ∧ q.regionLen = p.regionLen ∧
      (q.cancelRequested = true → p.cancelRequested = true ∨ cancelSqe id ∈ l'.hist.queued)) :
    l'.Tracked as where
  entries := by
    intro id q hq'
    obtain ⟨p, hlook, hn, ht, hr, _⟩ := hp id q hq'
    exact (h.entries id p hlook).congr hn ht hr
  asked := by
    intro id q hq' hc
    obtain ⟨p, hlook, _, _, _, hcancel⟩ := hp id q hq'
    rcases hcancel hc with hold | hnew
    · exact hq.subset (h.asked id p hlook hold)
    · exact hnew
  fresh := fun id hid => h.fresh id (ha ▸ hid)

/-- Changes that leave the table alone. -/
theorem keep (h : l.Tracked as) (hq : l.hist.queued <+: l'.hist.queued)
    (ha : l'.hist.accepted = l.hist.accepted) (hp : l'.pending = l.pending) : l'.Tracked as := by
  refine h.frame hq ha ?_
  rw [hp]
  exact fun id p hlook => ⟨p, hlook, rfl, rfl, rfl, Or.inl⟩

/-- A newly accepted read has no attempt yet. -/
theorem accept (h : l.Tracked as) {m : ReadMsg} {rest : List Msg} {p : Pending} {sqe : Sqe}
    (hnew : m.id ∉ l.hist.accepted) (hp : NewEntry c m p) :
    ({ l with chan := rest }.accept m.id p sqe).Tracked as := by
  obtain ⟨base, k, hd, region, cap, rfl, _⟩ := hp.built
  have hnone := h.fresh m.id hnew
  refine ⟨h.entries.insert ?_, ?_, ?_⟩
  · rw [hnone]
    refine ⟨rfl, rfl, Nat.zero_le _, ?_⟩
    exact (Nat.eq_zero_or_pos region).symm
  · have hgrow : l.pending.All fun id p => p.cancelRequested = true →
        cancelSqe id ∈ l.hist.queued ++ [sqe] :=
      fun id p hlook hc => List.mem_append_left _ (h.asked id p hlook hc)
    exact AList.All.insert hgrow fun hc => by cases hc
  · intro id hid
    exact h.fresh id fun hin => hid (List.mem_append_left _ hin)

/-- Whatever is not a completion leaves the attempts as they are. -/
theorem move (h : l.Tracked as) (hown : l.Ownership) (hbook : l.CancelBook)
    (hm : Move c w l a l') (ha : a ≠ .reap) : l'.Tracked as := by
  have hq := (grows_of_move hm).1
  cases hm with
  | idle => exact h
  | overflow | send | closeRx | postCancel | reject | cancelMiss | submit | dropChan =>
    exact ⟨h.entries, h.asked, h.fresh⟩
  | @postRead k ud file len off ptr data res hk hd hw =>
    unfold writeBlock at hq ⊢
    split
    · exact ⟨h.entries, h.asked, h.fresh⟩
    · rename_i p hp
      refine ⟨h.entries.insert ?_, h.asked.insert (h.asked _ p hp), h.fresh⟩
      exact (h.entries _ p hp).congr rfl rfl rfl
  | accept hc hd hp hs =>
    refine h.accept ?_ hp
    have hfresh := hown.fresh
    rw [hc, readIds_read, List.cons_append] at hfresh
    exact fun hin => (List.nodup_cons.mp hfresh).1 (List.mem_append_right _ hin)
  | @cancelHit id rest p hc hp =>
    have hf := queueCancel_frame { l with
      chan := rest
      pending := l.pending.insert id { p with cancelRequested := true } } id
    have hin : cancelSqe id ∈ ({ l with
        chan := rest
        pending := l.pending.insert id { p with cancelRequested := true } }.queueCancel
          id).hist.queued := by
      unfold queueCancel
      split
      · rename_i hdup
        exact (mem_cancels.mp ((hbook.dedup id (AList.mem_of_lookup hp)).mpr hdup)).1
      · exact List.mem_append_right _ (List.mem_singleton_self _)
    refine h.frame hq hf.accepted ?_
    rw [hf.pending]
    refine AList.All.insert (fun id q hlook => ⟨q, hlook, rfl, rfl, rfl, Or.inl⟩) ?_
    exact ⟨p, hp, rfl, rfl, rfl, fun _ => Or.inr hin⟩
  | @shutdown rest order hc ho =>
    have hf := queueCancels_frame { l with chan := rest, shuttingDown := true } order
    exact h.keep hq hf.accepted hf.pending
  | @submitSweep order errors hd ho =>
    have hf := queueCancels_frame { ({ l with stats := { l.stats with
      submitErrors := errors } }.flush c.sqCapacity) with shuttingDown := true } order
    exact h.keep hq hf.accepted hf.pending
  | leak n hd =>
    refine ⟨AList.All.mapVal fun id p hp => ?_, AList.All.mapVal fun id p hp => ?_, h.fresh⟩
    · exact (h.entries id p hp).congr rfl rfl rfl
    · exact h.asked id p hp
  | reapCancel | reapStale | resubmit | finish => exact absurd rfl ha

/-- A completion is one attempt more of its read. -/
theorem reap (h : l.Tracked as) (hown : l.Ownership) {q : Cqe} {rest : List Cqe}
    {fileLen : Except IoError Nat} {late : Bool} (hq : l.cq = q :: rest)
    (hl : { l with cq := rest }.reapCqe c.usizeMax q fileLen late = some l') :
    l'.Tracked fun id => as id ++ q.attempt fileLen id := by
  have hread := hown.isRead_iff (Ownership.reap_mem hq)
  -- the other reads have made no attempt
  have hother {id : Nat} (hne : id ≠ q.userData) : as id ++ q.attempt fileLen id = as id := by
    rw [Cqe.attempt_eq_nil fun _ => Ne.symm hne, List.append_nil]
  have hfresh {id : Nat} (hid : id ∉ l.hist.accepted) : as id ++ q.attempt fileLen id = [] := by
    rw [h.fresh id hid, List.nil_append]
    refine Cqe.attempt_eq_nil (fun hr heq => hid ?_) fileLen
    rw [← heq]
    exact hown.table _ (hown.mem_pending (Ownership.reap_mem hq) hr)
  rcases reapCqe_cases hl with ⟨hb, rfl⟩ | ⟨hb, hnone, _⟩ | ⟨hb, p, p', sqe, hp, hr, rfl⟩ |
    ⟨hb, p, p', outcome, tx, hp, hr, _, rfl⟩
  · have hnone (id : Nat) : as id ++ q.attempt fileLen id = as id := by
      rw [Cqe.attempt_eq_nil fun hr => absurd (hread.mp hr) hb, List.append_nil]
    simp only [hnone]
    exact ⟨h.entries, h.asked, h.fresh⟩
  · exact absurd (hown.not_stale hq hb) (AList.lookup_eq_none.mp hnone)
  · have hself := Cqe.attempt_self (hread.mpr hb) fileLen
    have hsame := (reapRead_resubmit hr).2.1
    refine ⟨?_, ?_, fun id hid => hfresh hid⟩
    · intro id x hx
      by_cases hid : id = q.userData
      · subst hid
        rw [hself]
        obtain rfl : p' = x := Option.some.inj ((AList.lookup_insert _).symm.trans hx)
        exact (h.entries _ p hp).resubmit hr
      · rw [hother hid]
        exact h.entries id x ((AList.lookup_insert_ne hid).symm.trans hx)
    · have hgrow : l.pending.All fun id p => p.cancelRequested = true →
          cancelSqe id ∈ l.hist.queued ++ [sqe] :=
        fun id p hlook hc => List.mem_append_left _ (h.asked id p hlook hc)
      exact hgrow.insert fun hc => hgrow _ p hp (hsame.cancelRequested ▸ hc)
  · refine ⟨?_, h.asked.erase _, fun id hid => hfresh hid⟩
    intro id x hx
    have hid : id ≠ q.userData := by
      rintro rfl
      cases (AList.lookup_erase q.userData l.pending).symm.trans hx
    rw [hother hid]
    exact h.entries.erase _ id x hx

/-- A pending read that must not be asked for again has its cancel queued. -/
theorem cancelled (h : l.Tracked as) (hbook : l.CancelBook) {id : Nat} {p : Pending}
    (hp : l.pending.lookup id = some p) (hstop : (p.cancelRequested || l.shuttingDown) = true) :
    cancelSqe id ∈ l.hist.queued := by
  rcases Bool.or_eq_true_iff.mp hstop with hasked | hd
  · exact h.asked id p hp hasked
  · have hmem := AList.mem_of_lookup hp
    exact (mem_cancels.mp ((hbook.dedup id hmem).mpr (hbook.down hd id hmem))).1

end Tracked

end Ledger

namespace Shard

/-- The attempt that a label makes for the read `id`. -/
def tries (id : Nat) (s : Shard) : Event → List Attempt
  | .reap fileLen late => (s.reaps (.reap fileLen late)).flatMap fun q => q.attempt fileLen id
  | _ => []

/-- The attempts that a run of a loop has made for the read `id`. -/
def attempts (c : Params) (es : List Event) (id : Nat) : List Attempt :=
  outputs (step c) (tries id) init es

variable {c : Params} {s s' : Shard} {e : Event} {as : Nat → List Attempt}

/-- A label that reaps nothing makes no attempt. -/
theorem tries_nil (id : Nat) (h : s.reaps e = []) : s.tries id e = [] := by
  cases e with
  | reap fileLen late =>
    simp only [tries, h]
    rfl
  | _ => rfl

theorem tries_reap (id : Nat) {fileLen : Except IoError Nat} {late : Bool} {q : Cqe}
    (h : s.reaps (.reap fileLen late) = [q]) :
    s.tries id (.reap fileLen late) = q.attempt fileLen id := by
  simp only [tries, h]
  exact List.append_nil _

/-- Every step makes its attempts and leaves the table that they determine. -/
theorem tracked_step (h : s.toLedger.Tracked as) (hown : s.toLedger.Ownership)
    (hbook : s.toLedger.CancelBook) (hc : s.Control) (hs : step c s e = some s')
    (halive : s'.phase ≠ .aborted) : s'.toLedger.Tracked fun id => as id ++ s.tries id e := by
  have hm := (step_move (w := .any) hc (any_allows s e) hs).1
  have hquiet (hr : s.reaps e = []) (ht : s'.toLedger.Tracked as) :
      s'.toLedger.Tracked fun id => as id ++ s.tries id e := by
    simp only [tries_nil _ hr, List.append_nil]
    exact ht
  cases e with
  | reap fileLen late =>
    cases (step_transition hs).2 with
    | reap hp =>
      obtain ⟨_, ⟨hb, ht⟩ | ⟨hb, hq, ht⟩ | ht | ⟨hb, q, rest, l, hq, hl, ht⟩⟩ :=
        reap_cases c s fileLen late
      · refine hquiet ?_ ?_
        · rw [reaps, if_neg (Bool.eq_false_iff.mp hb)]
        · rw [ht]
          exact h
      · refine hquiet ?_ ?_
        · rw [reaps, if_pos hb, hq]
          rfl
        · rw [ht]
          exact h
      · rw [ht] at halive
        exact absurd rfl halive
      · have hreaps : s.reaps (.reap fileLen late) = [q] := by
          rw [reaps, if_pos hb, hq]
          rfl
        simp only [tries_reap _ hreaps]
        rw [ht]
        exact h.reap hown hq hl
  | _ => exact hquiet rfl (h.move hown hbook hm (by simp [Event.actor]))

/-- The attempts of a read are what was reaped for it. -/
theorem attempts_res (c : Params) (es : List Event) (id : Nat) :
    (attempts c es id).map Attempt.res =
      ((reapedCqes c init es).filter (Cqe.answers id)).map Cqe.res := by
  have hone (q : Cqe) (fileLen : Except IoError Nat) :
      (q.attempt fileLen id).map Attempt.res = ([q].filter (Cqe.answers id)).map Cqe.res := by
    unfold Cqe.attempt
    cases h : q.answers id <;> simp [h]
  have htries (s : Shard) (e : Event) :
      (s.tries id e).map Attempt.res = ((s.reaps e).filter (Cqe.answers id)).map Cqe.res := by
    cases e with
    | reap fileLen late =>
      simp only [tries]
      induction s.reaps (.reap fileLen late) with
      | nil => rfl
      | cons q qs ih =>
        rw [List.flatMap_cons, List.map_append, ih, hone, ← List.singleton_append (l := qs),
          List.filter_append, List.map_append]
    | _ => rfl
  have hall (s : Shard) : (outputs (step c) (tries id) s es).map Attempt.res =
      ((outputs (step c) reaps s es).filter (Cqe.answers id)).map Cqe.res := by
    induction es generalizing s with
    | nil => rfl
    | cons e es ih =>
      simp only [outputs, List.map_append, List.filter_append, htries]
      cases step c s e with
      | none => rfl
      | some s' => rw [ih s']
  exact hall init

/-- Only the kernel and the loop's reaping touch the completion queue. -/
theorem cq_of_move {w : Answers} {l l' : Ledger} {a : Actor} (h : Move c w l a l')
    (hk : a ≠ .kernel) (hr : a ≠ .reap) : l'.cq = l.cq := by
  cases h with
  | idle | overflow | send | closeRx | reject | accept | cancelMiss | submit | leak | dropChan =>
    rfl
  | cancelHit => exact (Ledger.queueCancel_frame _ _).cq
  | shutdown => exact (Ledger.queueCancels_frame _ _).cq
  | submitSweep => exact (Ledger.queueCancels_frame _ _).cq
  | postRead | postCancel => exact absurd rfl hk
  | reapCancel | reapStale | resubmit | finish => exact absurd rfl hr

/-- Completions are posted at the end of the queue and reaped from its front. -/
theorem cqFifo_step (hc : s.Control) (hs : step c s e = some s') (halive : s'.phase ≠ .aborted) :
    s.cq ++ s.posts e = s.reaps e ++ s'.cq := by
  have hm := (step_move (w := .any) hc (any_allows s e) hs).1
  have hquiet (hk : e.actor ≠ .kernel) (hr : e.actor ≠ .reap) (hp : s.posts e = [])
      (hn : s.reaps e = []) : s.cq ++ s.posts e = s.reaps e ++ s'.cq := by
    rw [hp, hn, List.append_nil, List.nil_append, cq_of_move hm hk hr]
  cases e with
  | reap fileLen late =>
    cases (step_transition hs).2 with
    | reap hp =>
      obtain ⟨_, ⟨hb, ht⟩ | ⟨hb, hq, ht⟩ | ht | ⟨hb, q, rest, l, hq, hl, ht⟩⟩ :=
        reap_cases c s fileLen late
      · rw [ht]
        simp [reaps, posts, hb]
      · rw [ht]
        simp [reaps, posts, hq]
      · rw [ht] at halive
        exact absurd rfl halive
      · rw [ht]
        simp [reaps, posts, hb, hq, (Ledger.reapCqe_frame hl).cq]
  | post k res data =>
    cases (step_transition hs).2 with
    | post hl =>
      obtain ⟨_, _, hheld, rfl⟩ := Ledger.post_eq_some hl
      simp [posts, reaps, hheld]
  | cqSignal =>
    cases (step_transition hs).2 with
    | cqSignal => simp [posts, reaps]
  | _ => exact hquiet (by simp [Event.actor]) (by simp [Event.actor]) rfl rfl

end Shard

end Uring
