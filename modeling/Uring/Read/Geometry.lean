import Mathlib.Data.Nat.Bitwise
import Mathlib.Tactic

/-!
# Machine words, errors and block-aligned read geometry

Offsets are `u64` and lengths are `usize`; the width of `usize` stays a parameter
because the driver also targets 32-bit Linux. Checked arithmetic returns `none`
exactly where the corresponding Rust operation does. The superset geometry is
translated with its bit mask and then identified with the arithmetic rounding.
-/

namespace Uring

/-- `u64::MAX`. -/
def u64Max : Nat := 2 ^ 64 - 1

/-- `i64::MAX as u64`, the largest signed file position. -/
def i64Max : Nat := 2 ^ 63 - 1

/-- `CURRENT_POSITION`: the offset that selects `read(2)` semantics. -/
def currentPosition : Nat := u64Max

/-- `MAX_READ_LEN`, the kernel's single-read cap. -/
def maxReadLen : Nat := 0x7ffff000

/-- An `io::Error`: an errno, or an error kind with its message. -/
inductive IoError
  | os (errno : Nat)
  | other (msg : String)
  | invalidInput (msg : String)
  | wouldBlock (msg : String)
  | invalidData (msg : String)
  deriving DecidableEq, Repr

/-- The payload type of a read's result channel. -/
abbrev IoResult := Except IoError (List UInt8)

/-- `usize::checked_add` at the given maximum. -/
def checkedAdd (max a b : Nat) : Option Nat :=
  if a + b ≤ max then some (a + b) else none

/-- A checked sum is the sum whenever it is returned. -/
theorem checkedAdd_eq_some {max a b c : Nat} :
    checkedAdd max a b = some c ↔ a + b = c ∧ c ≤ max := by
  unfold checkedAdd
  split
  · simp only [Option.some.injEq]
    omega
  · simp only [reduceCtorEq, false_iff]
    omega

/-- `usize::checked_next_multiple_of` at the given maximum. -/
def checkedNextMultipleOf (max a m : Nat) : Option Nat :=
  if m = 0 then none
  else if a % m = 0 then some a
  else checkedAdd max a (m - a % m)

/-- `aligned_geometry`: kernel offset, bytes before the logical range, and the
length asked of the kernel. -/
def alignedGeometry (usizeMax offset len align : Nat) : Option (Nat × Nat × Nat) :=
  if align = 0 ∨ ¬ align.isPowerOfTwo ∨ maxReadLen < align then none
  else if align = 1 then some (offset, 0, len)
  else
    let mask := align - 1
    let kernelOffset := offset &&& (u64Max - mask)
    let head := offset - kernelOffset
    if usizeMax < head then none
    else do
      let covered ← checkedAdd usizeMax head len
      let regionLen ← checkedNextMultipleOf usizeMax covered align
      return (kernelOffset, head, regionLen)

/-- Clearing the low bits with the complement of a block mask rounds down. -/
theorem and_not_mask {offset k : Nat} (ho : offset < 2 ^ 64) (hk : k ≤ 64) :
    offset &&& (2 ^ 64 - 1 - (2 ^ k - 1)) = offset / 2 ^ k * 2 ^ k := by
  have hpos := Nat.two_pow_pos k
  have hle : 2 ^ k ≤ 2 ^ 64 := Nat.pow_le_pow_right (by decide) hk
  have hmask : 2 ^ 64 - 1 - (2 ^ k - 1) = 2 ^ 64 - ((2 ^ k - 1) + 1) := by omega
  apply Nat.eq_of_testBit_eq
  intro i
  rw [hmask, Nat.testBit_and, Nat.testBit_two_pow_sub_succ (by omega), Nat.testBit_two_pow_sub_one,
    Nat.testBit_mul_two_pow, Nat.testBit_div_two_pow]
  by_cases hi : k ≤ i
  · have hik : i - k + k = i := by omega
    by_cases hi64 : i < 64
    · simp [hi, hi64, hik]
    · have hbit : offset.testBit i = false :=
        Nat.testBit_lt_two_pow (ho.trans_le (Nat.pow_le_pow_right (by decide) (by omega)))
      simp [hi, hik, hbit]
  · simp [hi]
    omega

/-- The checked rounding is the least multiple at or above its argument. -/
theorem checkedNextMultipleOf_spec {max a m r : Nat} (h : checkedNextMultipleOf max a m = some r) :
    m ∣ r ∧ a ≤ r ∧ r < a + m := by
  unfold checkedNextMultipleOf at h
  split at h
  · cases h
  · rename_i hm
    split at h
    · rename_i ha
      cases h
      exact ⟨Nat.dvd_of_mod_eq_zero ha, le_rfl, by omega⟩
    · rename_i ha
      unfold checkedAdd at h
      split at h
      · cases h
        have hlt := Nat.mod_lt a (Nat.pos_of_ne_zero hm)
        refine ⟨?_, by omega, by omega⟩
        have hsum : a + (m - a % m) = m * (a / m + 1) := by
          have hdiv := Nat.div_add_mod a m
          rw [Nat.mul_add]
          omega
        exact hsum ▸ Nat.dvd_mul_right m _
      · cases h

/-- What a returned geometry guarantees: the aligned region starts at or before
the logical range, covers it, and exceeds it by less than one block on each side. -/
structure Geometry (offset len align kernelOffset head regionLen : Nat) : Prop where
  /-- The block size is a power of two within the read cap. -/
  pow : align.isPowerOfTwo
  le_cap : align ≤ maxReadLen
  /-- The logical range starts `head` bytes into the region. -/
  start : kernelOffset + head = offset
  head_lt : head < align
  covers : head + len ≤ regionLen
  tight : regionLen < head + len + align
  /-- The region consists of whole blocks. -/
  dvd_offset : align ∣ kernelOffset
  dvd_region : align ∣ regionLen

/-- Every accepted geometry is the block-aligned superset of its request. -/
theorem alignedGeometry_spec {usizeMax offset len align k h r : Nat} (ho : offset < 2 ^ 64)
    (hg : alignedGeometry usizeMax offset len align = some (k, h, r)) :
    Geometry offset len align k h r := by
  unfold alignedGeometry at hg
  split at hg
  · cases hg
  · rename_i hbad
    have hpow : align.isPowerOfTwo := by
      by_contra hp
      exact hbad (Or.inr (Or.inl hp))
    have hcap : align ≤ maxReadLen := by
      by_contra hc
      exact hbad (Or.inr (Or.inr (not_le.mp hc)))
    split at hg
    · rename_i hone
      cases hg
      exact ⟨hpow, hcap, rfl, by omega, by omega, by omega, hone ▸ one_dvd _, hone ▸ one_dvd _⟩
    · obtain ⟨e, rfl⟩ := hpow
      have he : e ≤ 64 := by
        by_contra hlt
        have := Nat.pow_le_pow_right (show 0 < 2 by decide) (show 64 ≤ e by omega)
        unfold maxReadLen at hcap
        omega
      simp only [u64Max, and_not_mask ho he] at hg
      split at hg
      · cases hg
      · simp only [Option.bind_eq_bind, Option.bind_eq_some_iff, Option.pure_def,
          Option.some.injEq, Prod.mk.injEq] at hg
        obtain ⟨covered, hc, region, hr, rfl, rfl, rfl⟩ := hg
        unfold checkedAdd at hc
        split at hc
        · cases hc
          obtain ⟨hd, hlo, hhi⟩ := checkedNextMultipleOf_spec hr
          have hdiv := Nat.div_add_mod offset (2 ^ e)
          have hmod := Nat.mod_lt offset (Nat.two_pow_pos e)
          rw [Nat.mul_comm] at hdiv
          exact ⟨⟨e, rfl⟩, hcap, by omega, by omega, hlo, hhi, Nat.dvd_mul_left _ _, hd⟩
        · cases hc

/-- `ReadLimits`: the optional resource limits of one driver. -/
structure ReadLimits where
  /-- Maximum logical length of one read. -/
  maxReadLen : Option Nat
  /-- Maximum sum of reserved read-buffer bytes across all shards. -/
  maxInFlightBytes : Option Nat
  deriving DecidableEq, Repr

/-- An optional limit is exceeded only when it is configured. -/
def exceeds (n : Nat) : Option Nat → Bool
  | none => false
  | some max => decide (max < n)

/-- The validation prefix of `submit`: the five sequential guards, each with its
own message, and the allocation length of an accepted request. -/
def validateRead (usizeMax : Nat) (limits : ReadLimits) (offset len align : Nat)
    (allowCurrentPosition : Bool) : Except IoError Nat :=
  if !allowCurrentPosition && offset == currentPosition then
    .error (.invalidInput "offset u64::MAX is reserved for read_current")
  else if offset != currentPosition && decide (i64Max < offset) then
    .error (.invalidInput "offset exceeds i64::MAX (kernel loff_t is signed)")
  else if decide (maxReadLen < len) || exceeds len limits.maxReadLen then
    .error (.invalidInput
      "read length exceeds MAX_RW_COUNT or configured logical read limit; caller must chunk")
  else
    match alignedGeometry usizeMax offset len align with
    | some (kernelOffset, _, regionLen) =>
      if decide (regionLen ≤ maxReadLen) &&
          (allowCurrentPosition && offset == currentPosition ||
            (checkedAdd u64Max kernelOffset regionLen).any (fun last =>
              decide (last ≤ i64Max))) then
        if exceeds (regionLen + align - 1) limits.maxInFlightBytes then
          .error (.invalidInput "aligned allocation exceeds byte budget")
        else .ok (regionLen + align - 1)
      else
        .error (.invalidInput ("alignment must be a power of two, and the block-aligned range " ++
          "must fit MAX_RW_COUNT and end within i64::MAX"))
    | none =>
      .error (.invalidInput ("alignment must be a power of two, and the block-aligned range " ++
        "must fit MAX_RW_COUNT and end within i64::MAX"))

/-- What a validated positioned request guarantees: its geometry, and a region that
fits the read cap and ends within the signed position range. -/
theorem validateRead_ok {usizeMax : Nat} {limits : ReadLimits} {offset len align n : Nat}
    (h : validateRead usizeMax limits offset len align false = .ok n) :
    offset ≤ i64Max ∧ len ≤ maxReadLen ∧ ∃ k hd r,
      alignedGeometry usizeMax offset len align = some (k, hd, r) ∧ r ≤ maxReadLen ∧
      k + r ≤ i64Max ∧ n = r + align - 1 ∧ exceeds n limits.maxInFlightBytes = false := by
  unfold validateRead at h
  simp only [Bool.not_false, Bool.true_and] at h
  split at h
  · cases h
  · rename_i hcur
    split at h
    · cases h
    · rename_i hoff
      split at h
      · cases h
      · rename_i hlen
        simp only [beq_iff_eq] at hcur
        simp only [Bool.and_eq_true, bne_iff_ne, ne_eq, hcur, not_false_eq_true, true_and,
          decide_eq_true_eq, not_lt] at hoff
        simp only [Bool.or_eq_true, decide_eq_true_eq, not_or, not_lt, Bool.not_eq_true] at hlen
        refine ⟨hoff, hlen.1, ?_⟩
        split at h
        · rename_i k hd r hg
          split at h
          · rename_i hfit
            simp only [Bool.false_and, Bool.false_or, Bool.and_eq_true, decide_eq_true_eq,
              Option.any_eq_true] at hfit
            obtain ⟨hr, last, hlast, hle⟩ := hfit
            have hsum : k + r = last := by
              unfold checkedAdd at hlast
              split at hlast
              · exact Option.some.inj hlast
              · cases hlast
            split at h
            · cases h
            · rename_i hbudget
              cases h
              exact ⟨k, hd, r, hg, hr, hsum ▸ hle, rfl, Bool.eq_false_iff.mpr hbudget⟩
          · cases h
        · cases h

/-- The charge taken from the byte budget: the allocation length cast to `u32`. -/
def chargeOf (allocationBytes : Nat) : Nat := allocationBytes % 2 ^ 32

/-- Every rejected request is answered with `InvalidInput`. -/
theorem validateRead_error {usizeMax : Nat} {limits : ReadLimits} {offset len align : Nat}
    {allowCurrentPosition : Bool} {e : IoError}
    (h : validateRead usizeMax limits offset len align allowCurrentPosition = .error e) :
    ∃ msg, e = .invalidInput msg := by
  unfold validateRead at h
  split at h
  · exact ⟨_, (Except.error.inj h).symm⟩
  split at h
  · exact ⟨_, (Except.error.inj h).symm⟩
  split at h
  · exact ⟨_, (Except.error.inj h).symm⟩
  split at h
  · split at h
    · split at h
      · exact ⟨_, (Except.error.inj h).symm⟩
      · cases h
    · exact ⟨_, (Except.error.inj h).symm⟩
  · exact ⟨_, (Except.error.inj h).symm⟩

/-- A validated request is charged the exact length of the allocation that its geometry
prescribes; the cast loses nothing. -/
theorem validateRead_charge {usizeMax : Nat} {limits : ReadLimits} {offset len align n : Nat}
    {allowCurrentPosition : Bool}
    (h : validateRead usizeMax limits offset len align allowCurrentPosition = .ok n) :
    ∃ k hd r, alignedGeometry usizeMax offset len align = some (k, hd, r) ∧
      r + (align - 1) = chargeOf n := by
  unfold validateRead at h
  split at h
  · cases h
  split at h
  · cases h
  split at h
  · cases h
  split at h
  · rename_i k hd r hg
    split at h
    · rename_i hfit
      simp only [Bool.and_eq_true, decide_eq_true_eq] at hfit
      split at h
      · cases h
      · cases h
        refine ⟨k, hd, r, hg, ?_⟩
        have halign : align ≠ 0 ∧ align ≤ maxReadLen := by
          unfold alignedGeometry at hg
          split at hg
          · cases hg
          · rename_i hbad
            simp only [not_or, not_lt] at hbad
            exact ⟨hbad.1, hbad.2.2⟩
        have hr := hfit.1
        unfold maxReadLen at halign hr
        unfold chargeOf
        rw [Nat.mod_eq_of_lt (by omega)]
        omega
    · cases h
  · cases h

end Uring
