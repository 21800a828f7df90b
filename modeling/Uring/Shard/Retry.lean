import Uring.Shard.Range

/-!
# Termination of a logical read

A completion either finishes its read, or leaves more of the region covered, or spends one
of the retries that progress restores. The blocks not yet covered and the retries not yet
spent bound the completions of one logical read, whatever the kernel answers.
-/

namespace Uring

/-- One completion of a read: the kernel's `i32` result, the flags raised since the last
one, and the receiver and the file as `reap_read` finds them. -/
structure Answer where
  res : Int32
  res_ne : res ≠ Int32.minValue
  cancel : Bool
  shuttingDown : Bool
  closed : Bool
  fileLen : Except IoError Nat

/-- `reap_read` of one answer. -/
def Pending.reap (usizeMax id : Nat) (p : Pending) (a : Answer) : Option (Pending × ReapStep) :=
  reapRead usizeMax { p with cancelRequested := p.cancelRequested || a.cancel } id a.res.toInt
    a.shuttingDown a.closed a.fileLen

/-- Where a logical read stands: its entry is pending, or its outcome is known. -/
inductive Reading
  | pending (p : Pending)
  | finished (outcome : IoResult)

/-- What `reap_read` makes of a read. -/
def Reading.ofStep : Pending × ReapStep → Reading
  | (_, .finish outcome) => .finished outcome
  | (p, .resubmit _) => .pending p

/-- A read after the first `n` answers to its successive entries; `none` is a panic. -/
def Pending.reading (usizeMax id : Nat) (p : Pending) (answers : Nat → Answer) :
    Nat → Option Reading
  | 0 => some (.pending p)
  | n + 1 => do
    match ← p.reading usizeMax id answers n with
    | .pending q => (q.reap usizeMax id (answers n)).map Reading.ofStep
    | .finished outcome => some (.finished outcome)

/-- A resubmission covers more of the region and restores the retries, or spends one. -/
def Continued (p q : Pending) (res : Int) : Prop :=
  (p.nread + p.align ≤ q.nread ∧ q.transientRetries = 0) ∨
    ((res = -eIntr ∨ res = -eAgain) ∧ q.nread = p.nread ∧
      q.transientRetries = p.transientRetries + 1 ∧ q.transientRetries ≤ maxTransientRetries)

/-- The retries of a resubmitted entry. -/
theorem reapRead_retries {usizeMax : Nat} {p q : Pending} {id : Nat} {res : Int}
    {down closed : Bool} {fileLen : Except IoError Nat} {sqe : Sqe}
    (h : reapRead usizeMax p id res down closed fileLen = some (q, .resubmit sqe)) :
    (0 < res ∧ q.transientRetries = 0) ∨
      ((res = -eIntr ∨ res = -eAgain) ∧ q.transientRetries = p.transientRetries + 1 ∧
        q.transientRetries ≤ maxTransientRetries) := by
  unfold reapRead at h
  simp only at h
  by_cases hneg : res < 0
  · right
    rw [if_pos hneg] at h
    unfold reapError at h
    split at h
    · rename_i hcond
      split at h
      · cases h
      · split at h
        · rename_i hleft
          simp only [Option.bind_eq_bind, Option.bind_eq_some_iff, Option.pure_def,
            Option.some.injEq, Prod.mk.injEq, ReapStep.resubmit.injEq] at h
          obtain ⟨_, _, rfl, rfl⟩ := h
          refine ⟨?_, rfl, hleft⟩
          rcases hcond.1 with hi | ha
          · left
            omega
          · right
            omega
        · cases h
    · cases h
  · left
    rw [if_neg hneg] at h
    by_cases hzero : res = 0
    · rw [if_pos hzero] at h
      simp only [finishOk, Option.bind_eq_bind, Option.bind_eq_some_iff, Option.pure_def,
        Option.some.injEq, Prod.mk.injEq, reduceCtorEq, and_false, exists_false] at h
    · rw [if_neg hzero] at h
      refine ⟨by omega, ?_⟩
      simp only [Option.bind_eq_bind, Option.bind_eq_some_iff] at h
      obtain ⟨n, _, hp⟩ := h
      unfold reapProgress finishOk at hp
      simp only [Option.bind_eq_bind, Option.bind_eq_some_iff] at hp
      obtain ⟨_, _, hp⟩ := hp
      split at hp
      · simp only [Option.bind_eq_some_iff, Option.pure_def, Option.some.injEq, Prod.mk.injEq,
          reduceCtorEq, and_false, exists_false] at hp
      · split at hp
        · cases hp
        · split at hp
          · simp only [Option.bind_eq_some_iff, Option.pure_def, Option.some.injEq,
              Prod.mk.injEq, reduceCtorEq, and_false, exists_false] at hp
          · simp only [Option.bind_eq_some_iff, Option.pure_def, Option.some.injEq,
              Prod.mk.injEq, ReapStep.resubmit.injEq] at hp
            obtain ⟨_, _, rfl, rfl⟩ := hp
            rfl

section Step

variable {usizeMax offset len align : Nat} {p q : Pending}

/-- `reap_read` does not fail on a sound entry, whatever the kernel answers. -/
theorem reapRead_total (id : Nat) {res : Int} (down closed : Bool) (fileLen : Except IoError Nat)
    (h : p.Sound usizeMax offset len align)
    (hb : Bounds offset len align p.offset p.head p.regionLen) (hu : WideUsize usizeMax)
    (hres : res < 2 ^ 31) :
    ∃ q next, reapRead usizeMax p id res down closed fileLen = some (q, next) := by
  by_cases hfit : p.nread + res.toNat ≤ p.regionLen
  · exact reapRead_isSome id down closed fileLen h hb hu fun _ => hfit
  · -- more than was asked: the read is complete
    have hpos : 0 < res := by
      by_contra hneg
      have hnread := h.nread_le
      exact hfit (by omega)
    have hregion := hb.region_le
    have hnread := h.nread_le
    have hcovers := hb.covers
    have hwant := h.want
    unfold WideUsize at hu
    unfold maxReadLen at hregion
    have hsum : checkedAdd usizeMax p.nread res.toNat = some (p.nread + res.toNat) :=
      checkedAdd_eq_some.mpr ⟨rfl, by omega⟩
    have hrange : checkedAdd usizeMax p.head p.want = some (p.head + p.want) :=
      checkedAdd_eq_some.mpr ⟨rfl, by omega⟩
    obtain ⟨q, bytes, hd⟩ := h.deliver_isSome hb hu closed (p.nread + res.toNat) 0
    unfold reapRead
    simp only [if_neg hpos.not_gt, if_neg hpos.ne', hsum, Option.bind_eq_bind, Option.bind_some]
    unfold reapProgress
    simp only [hrange, Option.bind_eq_bind, Option.bind_some]
    rw [if_pos (Or.inr (Or.inr (not_le.mp hfit).le))]
    simp only [finishOk, hd, Option.bind_eq_bind, Option.bind_some, Option.pure_def]
    exact ⟨_, _, rfl⟩

/-- The cancel intent of a sound entry may be raised. -/
theorem Pending.Sound.cancel (h : p.Sound usizeMax offset len align) (b : Bool) :
    ({ p with cancelRequested := b } : Pending).Sound usizeMax offset len align :=
  h.congr (by constructor <;> rfl) rfl rfl

/-- An answer finishes a sound read, or leaves it sound and continued. -/
theorem Pending.Sound.reap (id : Nat) (h : p.Sound usizeMax offset len align)
    (hb : Bounds offset len align p.offset p.head p.regionLen) (hu : WideUsize usizeMax)
    (a : Answer) : ∃ q next, p.reap usizeMax id a = some (q, next) ∧ ∀ sqe, next = .resubmit sqe →
      q.Sound usizeMax offset len align ∧ p.SameRegion q ∧ p.offset ≠ currentPosition ∧
        q.nread < p.regionLen ∧ Continued p q a.res.toInt := by
  have hc := h.cancel (p.cancelRequested || a.cancel)
  obtain ⟨q, next, hr⟩ := reapRead_total id a.shuttingDown a.closed a.fileLen hc hb hu
    a.res.toInt_lt
  refine ⟨q, next, hr, ?_⟩
  rintro sqe rfl
  obtain ⟨_, hsame, _, _, _, hpos, hnread, hlt, _⟩ := reapRead_resubmit hr
  have hq := hc.resubmit hb hr
  have hregion : p.SameRegion { p with cancelRequested := p.cancelRequested || a.cancel } := by
    constructor <;> rfl
  refine ⟨hq, hregion.trans hsame.toSameRegion, hpos, hlt, ?_⟩
  rcases reapRead_retries hr with ⟨hres, hzero⟩ | ⟨herr, hretry, hle⟩
  · -- progress moves from one block boundary to a later one
    left
    refine ⟨?_, hzero⟩
    have hmore : p.nread < q.nread := by
      rw [hnread]
      exact Nat.lt_add_of_pos_right (by omega)
    obtain ⟨i, hi⟩ := h.nread_dvd
    obtain ⟨j, hj⟩ := hq.nread_dvd
    have hij : i < j := by
      rw [hi, hj] at hmore
      exact Nat.lt_of_mul_lt_mul_left hmore
    rw [h.align_eq, hi, hj]
    calc align * i + align = align * (i + 1) := by ring
      _ ≤ align * j := Nat.mul_le_mul_left _ hij
  · right
    refine ⟨herr, ?_, hretry, hle⟩
    have hnat : a.res.toInt.toNat = 0 := by
      unfold eIntr eAgain at herr
      omega
    rw [hnread, hnat, Nat.add_zero]

/-- The completions an entry can still use up: a fresh budget of retries for each block
not covered, less the retries spent since the last progress. -/
def Pending.left (p : Pending) : Nat :=
  (maxTransientRetries + 1) * ((p.regionLen - p.nread) / p.align) - p.transientRetries

/-- A region that is not covered has a block left. -/
theorem Pending.Sound.left_pos (h : p.Sound usizeMax offset len align) (hpos : 0 < align)
    (hdvd : align ∣ p.regionLen) (hlt : p.nread < p.regionLen)
    (hr : p.transientRetries ≤ maxTransientRetries) : 0 < p.left := by
  have hblock : 1 ≤ (p.regionLen - p.nread) / p.align := by
    rw [h.align_eq]
    apply Nat.div_pos _ hpos
    exact Nat.le_of_dvd (Nat.sub_pos_of_lt hlt) (Nat.dvd_sub hdvd h.nread_dvd)
  unfold left maxTransientRetries at *
  omega

/-- A resubmission uses up what is left. -/
theorem Continued.left_lt {res : Int} (h : Continued p q res)
    (hp : p.Sound usizeMax offset len align) (hpos : 0 < align) (hs : p.SameRegion q)
    (hq : q.nread < p.regionLen) (hdvd : align ∣ p.regionLen)
    (hr : p.transientRetries ≤ maxTransientRetries) : q.left < p.left := by
  have hleft := hp.left_pos hpos hdvd
  rcases h with ⟨hblock, hzero⟩ | ⟨_, hsame, hretry, hle⟩
  · have hstep : (p.regionLen - q.nread) / align + 1 ≤ (p.regionLen - p.nread) / align := by
      rw [← Nat.add_div_right _ hpos]
      apply Nat.div_le_div_right
      rw [hp.align_eq] at hblock
      omega
    unfold Pending.left
    rw [hs.regionLen, hs.align, hp.align_eq, hzero]
    unfold maxTransientRetries at *
    omega
  · rw [hsame] at hq
    have hp := hleft hq hr
    unfold Pending.left at *
    rw [hs.regionLen, hs.align, hsame, hretry]
    omega

end Step

/-- An entry that is still pending after `n` answers to `p`. -/
structure Pending.Underway (usizeMax offset len align : Nat) (p : Pending) (n : Nat) (q : Pending) :
    Prop extends q.Sound usizeMax offset len align where
  region : p.SameRegion q
  retries : q.transientRetries ≤ maxTransientRetries
  left : q.left + n ≤ p.left
  open_of_pos : 0 < n → q.nread < p.regionLen ∧ p.offset ≠ currentPosition

section Run

variable {usizeMax offset len align id : Nat} {p q : Pending} {answers : Nat → Answer}

/-- Every answer to an entry underway is decided, and one that stays is underway again. -/
theorem Pending.Underway.reap (id : Nat) {n : Nat} (h : p.Underway usizeMax offset len align n q)
    (hb : Bounds offset len align p.offset p.head p.regionLen) (hu : WideUsize usizeMax)
    (a : Answer) : ∃ r next, q.reap usizeMax id a = some (r, next) ∧ ∀ sqe, next = .resubmit sqe →
      p.Underway usizeMax offset len align (n + 1) r ∧ Continued q r a.res.toInt := by
  have hpos := Nat.pos_of_isPowerOfTwo hb.pow
  have hbq : Bounds offset len align q.offset q.head q.regionLen := by
    rw [h.region.offset, h.region.head, h.region.regionLen]
    exact hb
  obtain ⟨r, next, hr, hnext⟩ := h.toSound.reap id hbq hu a
  refine ⟨r, next, hr, ?_⟩
  intro sqe hsqe
  obtain ⟨hsound, hregion, hoff, hlt, hcont⟩ := hnext sqe hsqe
  have hleft := hcont.left_lt h.toSound hpos hregion hlt hbq.dvd_region h.retries
  have hretries : r.transientRetries ≤ maxTransientRetries := by
    rcases hcont with ⟨_, hzero⟩ | ⟨_, _, _, hle⟩
    · rw [hzero]
      exact Nat.zero_le _
    · exact hle
  have hbudget := h.left
  rw [h.region.regionLen] at hlt
  rw [h.region.offset] at hoff
  exact ⟨{ hsound with
    region := h.region.trans hregion
    retries := hretries
    left := by omega
    open_of_pos := fun _ => ⟨hlt, hoff⟩ }, hcont⟩

/-- No answer makes the loop panic, and what is pending is underway. -/
theorem Pending.Sound.reading (id : Nat) (answers : Nat → Answer)
    (h : p.Sound usizeMax offset len align)
    (hb : Bounds offset len align p.offset p.head p.regionLen) (hu : WideUsize usizeMax)
    (hr : p.transientRetries ≤ maxTransientRetries) (n : Nat) :
    ∃ r, p.reading usizeMax id answers n = some r ∧
      ∀ q, r = .pending q → p.Underway usizeMax offset len align n q := by
  induction n with
  | zero =>
    refine ⟨.pending p, rfl, ?_⟩
    rintro _ ⟨rfl⟩
    exact { h with
      region := .refl p
      retries := hr
      left := le_refl _
      open_of_pos := nofun }
  | succ n ih =>
    obtain ⟨r, hread, hunder⟩ := ih
    rw [Pending.reading, hread]
    cases r with
    | finished outcome => exact ⟨_, rfl, nofun⟩
    | pending q =>
      obtain ⟨q', next, hreap, hnext⟩ := (hunder q rfl).reap id hb hu (answers n)
      refine ⟨.ofStep (q', next), by simp [hreap], ?_⟩
      intro q'' hq''
      cases next with
      | finish outcome => cases hq''
      | resubmit sqe =>
        cases hq''
        exact (hnext sqe rfl).1

/-- A read pending after one more answer was resubmitted. -/
theorem Pending.Sound.reading_succ (h : p.Sound usizeMax offset len align)
    (hb : Bounds offset len align p.offset p.head p.regionLen) (hu : WideUsize usizeMax)
    (hr : p.transientRetries ≤ maxTransientRetries) {n : Nat}
    (hq : p.reading usizeMax id answers (n + 1) = some (.pending q)) :
    ∃ r, p.reading usizeMax id answers n = some (.pending r) ∧
      Continued r q (answers n).res.toInt := by
  obtain ⟨r, hread, hunder⟩ := h.reading id answers hb hu hr n
  rw [Pending.reading, hread] at hq
  cases r with
  | finished outcome => cases hq
  | pending r =>
    refine ⟨r, hread, ?_⟩
    obtain ⟨q', next, hreap, hnext⟩ := (hunder r rfl).reap id hb hu (answers n)
    simp only [Option.bind_eq_bind, Option.bind_some, hreap, Option.map_some,
      Option.some.injEq] at hq
    cases next with
    | finish outcome => cases hq
    | resubmit sqe =>
      cases hq
      exact (hnext sqe rfl).2

/-- Without progress, every answer in between has spent one retry. -/
theorem Pending.Sound.reading_add (h : p.Sound usizeMax offset len align)
    (hb : Bounds offset len align p.offset p.head p.regionLen) (hu : WideUsize usizeMax)
    (hr : p.transientRetries ≤ maxTransientRetries) {n : Nat} {r : Pending}
    (hread : p.reading usizeMax id answers n = some (.pending r)) (j : Nat)
    (hq : p.reading usizeMax id answers (n + j) = some (.pending q)) :
    r.nread ≤ q.nread ∧
      (q.nread = r.nread → q.transientRetries = r.transientRetries + j) := by
  induction j generalizing q with
  | zero =>
    rw [Nat.add_zero, hread] at hq
    cases hq
    exact ⟨le_refl _, fun _ => rfl⟩
  | succ j ih =>
    obtain ⟨q', hq', hcont⟩ := h.reading_succ (n := n + j) hb hu hr hq
    obtain ⟨hle, hspent⟩ := ih hq'
    rcases hcont with ⟨hmore, _⟩ | ⟨_, hsame, hretry, _⟩
    · obtain ⟨q'', hread', hunder⟩ := h.reading id answers hb hu hr (n + j)
      rw [hq'] at hread'
      cases hread'
      have hpos := Nat.pos_of_isPowerOfTwo hb.pow
      rw [(hunder q' rfl).align_eq] at hmore
      exact ⟨by omega, fun heq => by omega⟩
    · refine ⟨hsame ▸ hle, fun heq => ?_⟩
      rw [hretry, hspent (hsame ▸ heq)]
      ring

end Run

/-- Every logical read terminates, whatever the kernel answers and whenever the flags rise:
within the blocks of its region, each with its retries. Each resubmission either covers
another block or is one of a bounded number of retries in a row, and a read at the current
position finishes at once. -/
theorem logical_read_terminates (c : Params) (hu : WideUsize c.usizeMax) (m : ReadMsg)
    (hm : Sendable c m) (base k hd r : Nat)
    (hg : alignedGeometry c.usizeMax m.offset m.len m.align = some (k, hd, r))
    (answers : Nat → Answer) :
    let p := newPending m base k hd r (r + (m.align - 1))
    (∃ n outcome, n ≤ max 1 (17 * (r / m.align)) ∧
      p.reading c.usizeMax m.id answers n = some (.finished outcome)) ∧
    (∀ n q q', p.reading c.usizeMax m.id answers n = some (.pending q) →
      p.reading c.usizeMax m.id answers (n + 1) = some (.pending q') →
      q.nread + m.align ≤ q'.nread ∨ q'.nread = q.nread ∧
        ((answers n).res.toInt = -eIntr ∨ (answers n).res.toInt = -eAgain)) ∧
    (∀ n j q q', p.reading c.usizeMax m.id answers n = some (.pending q) →
      p.reading c.usizeMax m.id answers (n + j) = some (.pending q') →
      q'.nread = q.nread → j ≤ maxTransientRetries) ∧
    (m.offset = currentPosition → ∃ outcome,
      p.reading c.usizeMax m.id answers 1 = some (.finished outcome)) := by
  intro p
  have hp := newPending_sound hg base
  have hb : Bounds m.offset m.len m.align p.offset p.head p.regionLen := by
    obtain ⟨k', hd', r', hg', hb'⟩ := hm.bounds
    rw [hg] at hg'
    cases hg'
    exact hb'
  have hr : p.transientRetries ≤ maxTransientRetries := Nat.zero_le _
  have hunder := hp.reading m.id answers hb hu hr
  refine ⟨?_, ?_, ?_, ?_⟩
  · -- at the bound nothing is left for an entry that is still pending
    obtain ⟨reading, hread, hpending⟩ := hunder (max 1 (17 * (r / m.align)))
    cases reading with
    | finished outcome => exact ⟨_, outcome, le_refl _, hread⟩
    | pending q =>
      exfalso
      have hq := hpending q rfl
      have hopen := (hq.open_of_pos (by omega)).1
      rw [← hq.region.regionLen] at hopen
      have hdvd : m.align ∣ q.regionLen := by
        rw [hq.region.regionLen]
        exact hb.dvd_region
      have hpos := hq.toSound.left_pos (Nat.pos_of_isPowerOfTwo hb.pow) hdvd hopen hq.retries
      have hleft : q.left + max 1 (17 * (r / m.align)) ≤ 17 * (r / m.align) := hq.left
      omega
  · intro n q q' hq hq'
    obtain ⟨q'', hq'', hcont⟩ := hp.reading_succ hb hu hr hq'
    rw [hq] at hq''
    cases hq''
    obtain ⟨reading, hread, hpending⟩ := hunder n
    rw [hq] at hread
    cases hread
    rcases hcont with ⟨hmore, _⟩ | ⟨herr, hsame, _⟩
    · left
      rw [← (hpending q rfl).align_eq]
      exact hmore
    · exact Or.inr ⟨hsame, herr⟩
  · intro n j q q' hq hq' hsame
    have hspent := (hp.reading_add hb hu hr hq j hq').2 hsame
    obtain ⟨reading, hread, hpending⟩ := hunder (n + j)
    rw [hq'] at hread
    cases hread
    have hle := (hpending q' rfl).retries
    omega
  · intro hoff
    obtain ⟨reading, hread, hpending⟩ := hunder 1
    cases reading with
    | finished outcome => exact ⟨outcome, hread⟩
    | pending q =>
      exfalso
      have hplace := ((hpending q rfl).open_of_pos Nat.one_pos).2
      rcases hb.place with ⟨hne, _⟩ | ⟨_, _, hk⟩
      · exact hne hoff
      · exact hplace hk

/-- A direct read of two blocks gets one block, a transient errno and the other block. -/
theorem logical_read_terminates_retried :
    let m : ReadMsg := ⟨0, 0, 0, 1024, 512, ⟨0, none, none⟩⟩
    let answers : Nat → Answer := fun n =>
      ⟨if n = 1 then -4 else 512, by split <;> decide, false, false, false, .ok 1024⟩
    ∃ n outcome, n ≤ 34 ∧
      (newPending m 0 0 0 1024 1535).reading (2 ^ 32 - 1) 0 answers n = some (.finished outcome) :=
  (logical_read_terminates ⟨1, 1, 2 ^ 32 - 1, 0⟩ (Nat.le_refl _)
    ⟨0, 0, 0, 1024, 512, ⟨0, none, none⟩⟩
    ⟨⟨none, none⟩, 1535, Or.inl (by decide)⟩ 0 0 0 1024 (by decide)
    fun n => ⟨if n = 1 then -4 else 512, by split <;> decide, false, false, false, .ok 1024⟩).1

end Uring
