import Uring.Read.Validation
import Uring.Shard.Permits

/-!
# The range of every read entry

Validation runs in the caller's thread, the arithmetic it protects many completions
later in the loop. In runs whose messages passed validation and whose kernel answers
stay within the requested lengths, every pending entry keeps to its region, every read
entry built from it is in range and aligned, and neither the arithmetic nor the
allocation of the loop can fail.
-/

namespace Uring

open Uring.Core

/-- What `submit` and `poll` send: a positioned request or a stream request that passed
validation under some limits. -/
def Sendable (c : Params) (m : ReadMsg) : Prop :=
  ∃ limits n, validateRead c.usizeMax limits m.offset m.len m.align false = .ok n ∨
    (m.offset = currentPosition ∧ m.align = 1 ∧
      validateRead c.usizeMax limits m.offset m.len m.align true = .ok n)

/-- The kernel's contract: an errno, or at most the requested length. -/
def kernelAnswers : Answers where
  read
    | .read _ _ _ len _, res, _ => (res < 0 ∧ -4095 ≤ res) ∨ (0 ≤ res ∧ res.toNat ≤ len)
    | .asyncCancel .., _, _ => True
  fileLen _ answer := ∀ n, answer = .ok n → n ≤ u64Max

/-- The labels of a loop behind `submit` and in front of a conforming kernel. -/
def Contract (c : Params) (s : Shard) (e : Event) : Prop :=
  kernelAnswers.Allows s e ∧ ∀ p m, e = .send p (.read m) → Sendable c m

/-- What validation guarantees about a request: its geometry, a region within the read cap,
and an end within the signed positions unless it reads at the current position. -/
structure Bounds (offset len align k hd r : Nat) :
    Prop extends Geometry offset len align k hd r where
  region_le : r ≤ maxReadLen
  place : (offset ≠ currentPosition ∧ k + r ≤ i64Max) ∨
    (offset = currentPosition ∧ align = 1 ∧ k = currentPosition)

theorem Sendable.bounds {c : Params} {m : ReadMsg} (h : Sendable c m) : ∃ k hd r,
    alignedGeometry c.usizeMax m.offset m.len m.align = some (k, hd, r) ∧
      Bounds m.offset m.len m.align k hd r := by
  obtain ⟨limits, n, h | ⟨hoff, halign, h⟩⟩ := h
  · obtain ⟨hoff, _, k, hd, r, hg, hr, hend, _⟩ := validateRead_ok h
    have ho : m.offset < 2 ^ 64 := by
      unfold i64Max at hoff
      omega
    refine ⟨k, hd, r, hg, alignedGeometry_spec ho hg, hr, Or.inl ⟨?_, hend⟩⟩
    unfold currentPosition u64Max
    unfold i64Max at hoff
    omega
  · have hg := alignedGeometry_one c.usizeMax m.offset m.len
    rw [← halign] at hg
    have ho : m.offset < 2 ^ 64 := by
      rw [hoff]
      decide
    exact ⟨_, _, _, hg, alignedGeometry_spec ho hg, (validateRead_len h).1,
      Or.inr ⟨hoff, halign, hoff⟩⟩

theorem alignOffset_lt {align : Nat} (ha : 0 < align) (base : Nat) :
    alignOffset base align < align :=
  Nat.mod_lt _ ha

/-- The region starts at an aligned address. -/
theorem dvd_add_alignOffset {align : Nat} (ha : 0 < align) (base : Nat) :
    align ∣ base + alignOffset base align := by
  have hmod := Nat.mod_lt base ha
  have hdiv := Nat.div_add_mod base align
  unfold alignOffset
  by_cases hz : base % align = 0
  · rw [hz, Nat.sub_zero, Nat.mod_self, Nat.add_zero]
    exact Nat.dvd_of_mod_eq_zero hz
  · rw [Nat.mod_eq_of_lt (by omega)]
    refine ⟨base / align + 1, ?_⟩
    rw [Nat.mul_add]
    omega

/-- An entry of a request: its geometry, its buffer and its progress in whole blocks. -/
structure Pending.Sound (usizeMax offset len align : Nat) (p : Pending) : Prop where
  geometry : alignedGeometry usizeMax offset len align = some (p.offset, p.head, p.regionLen)
  want : p.want = len
  align_eq : p.align = align
  pad : p.pad = alignOffset p.buf.base align
  length : p.buf.bytes.length = p.regionLen + (align - 1)
  nread_le : p.nread ≤ p.regionLen
  nread_dvd : align ∣ p.nread
  stream : offset = currentPosition → p.nread = 0

namespace Pending.Sound

variable {usizeMax offset len align : Nat} {p q : Pending}

/-- An entry that differs in its sender, its permits or its flags is as sound. -/
theorem congr (h : p.Sound usizeMax offset len align) (hs : p.SameRegion q)
    (hl : q.buf.bytes.length = p.buf.bytes.length) (hn : q.nread = p.nread) :
    q.Sound usizeMax offset len align where
  geometry := by
    rw [hs.offset, hs.head, hs.regionLen]
    exact h.geometry
  want := hs.want.trans h.want
  align_eq := hs.align.trans h.align_eq
  pad := by
    rw [hs.pad, hs.base]
    exact h.pad
  length := by
    rw [hl, hs.regionLen]
    exact h.length
  nread_le := by
    rw [hn, hs.regionLen]
    exact h.nread_le
  nread_dvd := hn ▸ h.nread_dvd
  stream := fun ho => hn.trans (h.stream ho)

/-- The room of a sound entry's region in its buffer. -/
theorem room (h : p.Sound usizeMax offset len align) (ha : 0 < align) :
    p.pad + p.regionLen ≤ p.buf.bytes.length := by
  have hpad := alignOffset_lt ha p.buf.base
  have hlen := h.length
  rw [← h.pad] at hpad
  omega

theorem bounds (h : p.Sound usizeMax offset len align) {k hd r : Nat}
    (hg : alignedGeometry usizeMax offset len align = some (k, hd, r))
    (hb : Bounds offset len align k hd r) :
    Bounds offset len align p.offset p.head p.regionLen := by
  rw [h.geometry] at hg
  cases hg
  exact hb

/-- The allocation stays below `2 ^ 31`. -/
theorem length_lt (h : p.Sound usizeMax offset len align)
    (hb : Bounds offset len align p.offset p.head p.regionLen) : p.buf.bytes.length < 2 ^ 31 := by
  have halloc := allocation_lt hb.pow hb.le_cap hb.dvd_region hb.region_le
  have hpos := Nat.pos_of_isPowerOfTwo hb.pow
  rw [h.length]
  omega

/-- The next file position does not wrap. -/
theorem position_le (h : p.Sound usizeMax offset len align)
    (hb : Bounds offset len align p.offset p.head p.regionLen) : p.offset + p.nread ≤ u64Max := by
  have hn := h.nread_le
  rcases hb.place with ⟨_, hend⟩ | ⟨ho, _, hk⟩
  · unfold i64Max at hend
    unfold u64Max
    omega
  · rw [h.stream ho, hk]
    exact le_refl _

/-- The entry for the remainder of a sound read is built without overflow or truncation. -/
theorem readSqe_eq (h : p.Sound usizeMax offset len align)
    (hb : Bounds offset len align p.offset p.head p.regionLen) (hu : WideUsize usizeMax)
    (ud : Nat) :
    p.readSqe usizeMax ud = some (.read ud p.file ⟨p.buf.block, p.buf.base, p.pad + p.nread⟩
      (p.regionLen - p.nread) (p.offset + p.nread)) := by
  have hpos := Nat.pos_of_isPowerOfTwo hb.pow
  have hroom := h.room hpos
  have hlen := h.length_lt hb
  have hn := h.nread_le
  unfold WideUsize at hu
  have hoff : checkedAdd usizeMax p.pad p.nread = some (p.pad + p.nread) :=
    checkedAdd_eq_some.mpr ⟨rfl, by omega⟩
  have hnext : checkedAdd u64Max p.offset p.nread = some (p.offset + p.nread) :=
    checkedAdd_eq_some.mpr ⟨rfl, h.position_le hb⟩
  have hcast : (p.regionLen - p.nread) % 2 ^ 32 = p.regionLen - p.nread :=
    Nat.mod_eq_of_lt (by omega)
  simp only [Pending.readSqe, if_neg (not_lt.mpr hn), hoff, hnext, hcast, Option.bind_eq_bind,
    Option.bind_some, Option.pure_def]

/-- Progress in whole blocks inside the region of a positioned read. -/
theorem progress (h : p.Sound usizeMax offset len align)
    (hb : Bounds offset len align p.offset p.head p.regionLen) (hs : p.SameRegion q)
    (hl : q.buf.bytes.length = p.buf.bytes.length) (hn : q.nread ≤ p.regionLen)
    (hd : align ∣ q.nread) (hp : p.offset ≠ currentPosition) :
    q.Sound usizeMax offset len align where
  geometry := by
    rw [hs.offset, hs.head, hs.regionLen]
    exact h.geometry
  want := hs.want.trans h.want
  align_eq := hs.align.trans h.align_eq
  pad := by
    rw [hs.pad, hs.base]
    exact h.pad
  length := by
    rw [hl, hs.regionLen]
    exact h.length
  nread_le := by
    rw [hs.regionLen]
    exact hn
  nread_dvd := hd
  stream := by
    intro ho
    rcases hb.place with ⟨hne, _⟩ | ⟨_, _, hk⟩
    · exact absurd ho hne
    · exact absurd hk hp

end Pending.Sound

/-- `deliver` cannot fail on an entry whose region lies in its buffer. -/
theorem deliver_isSome {usizeMax : Nat} {p : Pending} (closed : Bool)
    (hrange : p.head + p.want ≤ p.regionLen)
    (hroom : p.pad + p.regionLen ≤ p.buf.bytes.length)
    (hlen : p.buf.bytes.length ≤ usizeMax) :
    ∃ q bytes, deliver usizeMax p closed = some (q, bytes) := by
  unfold deliver
  split
  · exact ⟨_, _, rfl⟩
  · have hstart : checkedAdd usizeMax p.pad p.head = some (p.pad + p.head) :=
      checkedAdd_eq_some.mpr ⟨rfl, by omega⟩
    simp only [hstart, Option.bind_eq_bind, Option.bind_some]
    split
    · have hstop : checkedAdd usizeMax (p.pad + p.head) (min (p.nread - p.head) p.want) =
          some (p.pad + p.head + min (p.nread - p.head) p.want) :=
        checkedAdd_eq_some.mpr ⟨rfl, by omega⟩
      simp only [hstop, Option.bind_some, copyWithin]
      rw [if_neg (by omega)]
      exact ⟨_, _, rfl⟩
    · exact ⟨_, _, rfl⟩

section Totality

variable {usizeMax offset len align : Nat} {p : Pending}

/-- The region of a sound entry and its buffer are within `usize`. -/
theorem Pending.Sound.deliver_isSome (h : p.Sound usizeMax offset len align)
    (hb : Bounds offset len align p.offset p.head p.regionLen) (hu : WideUsize usizeMax)
    (closed : Bool) (n retries : Nat) : ∃ q bytes,
      deliver usizeMax { p with nread := n, transientRetries := retries } closed =
        some (q, bytes) := by
  have hroom := h.room (Nat.pos_of_isPowerOfTwo hb.pow)
  have hlen := h.length_lt hb
  have hrange : p.head + p.want ≤ p.regionLen := h.want ▸ hb.covers
  refine Uring.deliver_isSome closed hrange hroom ?_
  unfold WideUsize at hu
  exact (show p.buf.bytes.length ≤ usizeMax by omega)

/-- A transient errno rebuilds the same entry. -/
theorem reapError_isSome (id err : Nat) (stop : Bool) (h : p.Sound usizeMax offset len align)
    (hb : Bounds offset len align p.offset p.head p.regionLen) (hu : WideUsize usizeMax) :
    ∃ q next, reapError usizeMax p id err stop = some (q, next) := by
  unfold reapError
  split
  · split
    · exact ⟨_, _, rfl⟩
    · split
      · have hsame := Pending.SameRead.of_progress p p.nread (p.transientRetries + 1)
        have hsqe := (h.congr hsame.toSameRegion rfl rfl).readSqe_eq hb hu id
        simp only [hsqe, Option.bind_eq_bind, Option.bind_some, Option.pure_def]
        exact ⟨_, _, rfl⟩
      · exact ⟨_, _, rfl⟩
  · exact ⟨_, _, rfl⟩

/-- A continued read has made progress in whole blocks. -/
theorem dvd_of_continue {n : Nat} (h : p.Sound usizeMax offset len align)
    (hb : Bounds offset len align p.offset p.head p.regionLen)
    (ht : ¬ (1 < p.align ∧ n % p.align ≠ 0)) : align ∣ n := by
  have hpos := Nat.pos_of_isPowerOfTwo hb.pow
  rw [h.align_eq] at ht
  by_cases hone : align = 1
  · rw [hone]
    exact one_dvd _
  · refine Nat.dvd_of_mod_eq_zero ?_
    by_contra hne
    exact ht ⟨by omega, hne⟩

/-- New progress inside the region is settled or continued without failing. -/
theorem reapProgress_isSome (id : Nat) {n : Nat} (stop closed : Bool)
    (fileLen : Except IoError Nat) (h : p.Sound usizeMax offset len align)
    (hb : Bounds offset len align p.offset p.head p.regionLen) (hu : WideUsize usizeMax)
    (hn : n ≤ p.regionLen) : ∃ q next,
      reapProgress usizeMax { p with nread := n, transientRetries := 0 } id stop closed fileLen =
        some (q, next) := by
  have hlen := h.length_lt hb
  have hroom := h.room (Nat.pos_of_isPowerOfTwo hb.pow)
  have hcovers := hb.covers
  have hwant := h.want
  have hrange : checkedAdd usizeMax p.head p.want = some (p.head + p.want) := by
    refine checkedAdd_eq_some.mpr ⟨rfl, ?_⟩
    unfold WideUsize at hu
    omega
  obtain ⟨q, bytes, hd⟩ := h.deliver_isSome hb hu closed n 0
  unfold reapProgress
  simp only [hrange, Option.bind_eq_bind, Option.bind_some]
  split
  · simp only [finishOk, hd, Option.bind_eq_bind, Option.bind_some, Option.pure_def]
    exact ⟨_, _, rfl⟩
  · rename_i hmore
    simp only [not_or] at hmore
    split
    · exact ⟨_, _, rfl⟩
    · split
      · -- an unaligned tail asks for the file's length
        have hreached : checkedAdd u64Max p.offset n = some (p.offset + n) := by
          refine checkedAdd_eq_some.mpr ⟨rfl, ?_⟩
          rcases hb.place with ⟨_, hend⟩ | ⟨_, _, hk⟩
          · unfold i64Max at hend
            unfold u64Max
            omega
          · exact absurd hk hmore.1
        cases fileLen with
        | error e => exact ⟨_, _, rfl⟩
        | ok m =>
          simp only [finishDirectShortRead, hreached, hd, Option.bind_eq_bind, Option.bind_some,
            Option.pure_def]
          split <;> exact ⟨_, _, rfl⟩
      · rename_i htail
        have hsame := Pending.SameRead.of_progress p n 0
        have hnext := h.progress hb hsame.toSameRegion rfl hn (dvd_of_continue h hb htail) hmore.1
        have hsqe := hnext.readSqe_eq hb hu id
        simp only [hsqe, Option.bind_some, Option.pure_def]
        exact ⟨_, _, rfl⟩

/-- `reap_read` cannot fail on a sound entry and a conforming answer. -/
theorem reapRead_isSome (id : Nat) {res : Int} (down closed : Bool) (fileLen : Except IoError Nat)
    (h : p.Sound usizeMax offset len align)
    (hb : Bounds offset len align p.offset p.head p.regionLen) (hu : WideUsize usizeMax)
    (hres : 0 ≤ res → p.nread + res.toNat ≤ p.regionLen) :
    ∃ q next, reapRead usizeMax p id res down closed fileLen = some (q, next) := by
  unfold reapRead
  simp only
  split
  · exact reapError_isSome id _ _ h hb hu
  · rename_i hneg
    have hfit := hres (by omega)
    split
    · obtain ⟨q, bytes, hd⟩ := h.deliver_isSome hb hu closed p.nread p.transientRetries
      have hd : deliver usizeMax p closed = some (q, bytes) := hd
      simp only [finishOk, hd, Option.bind_eq_bind, Option.bind_some, Option.pure_def]
      exact ⟨_, _, rfl⟩
    · have hlen := h.length_lt hb
      have hroom := h.room (Nat.pos_of_isPowerOfTwo hb.pow)
      have hsum : checkedAdd usizeMax p.nread res.toNat = some (p.nread + res.toNat) := by
        refine checkedAdd_eq_some.mpr ⟨rfl, ?_⟩
        unfold WideUsize at hu
        omega
      simp only [hsum, Option.bind_eq_bind, Option.bind_some]
      exact reapProgress_isSome id _ closed fileLen h hb hu hfit

/-- A resubmitted entry is sound again. -/
theorem Pending.Sound.resubmit (h : p.Sound usizeMax offset len align)
    (hb : Bounds offset len align p.offset p.head p.regionLen) {id : Nat} {res : Int}
    {down closed : Bool} {fileLen : Except IoError Nat} {q : Pending} {sqe : Sqe}
    (hr : reapRead usizeMax p id res down closed fileLen = some (q, .resubmit sqe)) :
    q.Sound usizeMax offset len align := by
  obtain ⟨_, hsame, hbuf, _, _, hpos, _, hlt, hdvd⟩ := reapRead_resubmit hr
  have hblock : align ∣ q.nread := by
    by_cases hone : align = 1
    · rw [hone]
      exact one_dvd _
    · have hbig := Nat.pos_of_isPowerOfTwo hb.pow
      rw [h.align_eq] at hdvd
      rcases hdvd (by omega) with hmod | heq
      · exact Nat.dvd_of_mod_eq_zero hmod
      · rw [heq]
        exact h.nread_dvd
  exact h.progress hb hsame.toSameRegion (by rw [hbuf]) hlt.le hblock hpos

end Totality

/-- A fresh entry of a sendable request is sound. -/
theorem newPending_sound {c : Params} {m : ReadMsg} {k hd r : Nat}
    (hg : alignedGeometry c.usizeMax m.offset m.len m.align = some (k, hd, r)) (base : Nat) :
    (newPending m base k hd r (r + (m.align - 1))).Sound c.usizeMax m.offset m.len m.align where
  geometry := hg
  want := rfl
  align_eq := rfl
  pad := rfl
  length := List.length_replicate
  nread_le := Nat.zero_le _
  nread_dvd := Nat.dvd_zero _
  stream := fun _ => rfl

/-- Intake of a sendable read reaches neither a panic nor one of its two defensive branches:
the read is accepted. -/
theorem Shard.intakeRead_accepts {c : Params} {s : Shard} {m : ReadMsg} (hm : Sendable c m)
    (hu : WideUsize c.usizeMax) (hd : s.shuttingDown = false) (base : Nat) :
    ∃ k hd r sqe budget, alignedGeometry c.usizeMax m.offset m.len m.align = some (k, hd, r) ∧
      s.intakeRead c m base = some { s with
        budget := budget
        toLedger := s.accept m.id (newPending m base k hd r (r + (m.align - 1))) sqe } := by
  obtain ⟨k, hd', r, hg, hb⟩ := hm.bounds
  have hpos := Nat.pos_of_isPowerOfTwo hb.pow
  have halloc := allocation_lt hb.pow hb.le_cap hb.dvd_region hb.region_le
  have hpad := alignOffset_lt hpos base
  have hwide := hu
  unfold WideUsize at hwide
  have hcap : checkedAdd c.usizeMax r (m.align - 1) = some (r + (m.align - 1)) :=
    checkedAdd_eq_some.mpr ⟨rfl, by omega⟩
  have hstop : checkedAdd c.usizeMax (alignOffset base m.align) r =
      some (alignOffset base m.align + r) :=
    checkedAdd_eq_some.mpr ⟨rfl, by omega⟩
  have hfit : ¬ (alignOffset base m.align = c.usizeMax ∨
      ¬ (checkedAdd c.usizeMax (alignOffset base m.align) r).any
        (fun stop => decide (stop ≤ r + (m.align - 1))) = true) := by
    rw [hstop]
    simp only [Option.any_some, decide_eq_true_eq, not_or, not_not]
    omega
  obtain ⟨sqe, hsqe⟩ : ∃ sqe, (newPending m base k hd' r (r + (m.align - 1))).readSqe c.usizeMax
      m.id = some sqe := ⟨_, (newPending_sound hg base).readSqe_eq hb hu m.id⟩
  refine ⟨k, hd', r, sqe, { s.budget with
    allocationBytes := min c.usizeMax (s.budget.allocationBytes + (r + (m.align - 1))) }, hg, ?_⟩
  unfold Shard.intakeRead
  simp only [hd, Bool.false_eq_true, if_false, hg, hcap, Option.bind_eq_bind, Option.bind_some,
    if_neg (show ¬ c.usizeMax / 2 < r + (m.align - 1) by omega), if_neg hfit, hsqe, Option.pure_def]

end Uring
