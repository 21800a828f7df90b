import Uring.Core.Round
import Uring.Read.Geometry

/-!
# Which requests are accepted

The guards of `submit` in terms of unbounded arithmetic. A positioned request is
accepted exactly when its block-aligned superset is representable and fits the
limits, and the geometry is then that superset; a stream request only has its lengths
checked. No accepted allocation reaches `2 ^ 31`.
-/

namespace Uring

open Uring.Core

/-- `usize` has at least 32 bits. -/
def WideUsize (usizeMax : Nat) : Prop := 2 ^ 32 - 1 ≤ usizeMax

/-- The bytes of the smallest aligned superset of a range. -/
def spanOf (offset len align : Nat) : Nat := roundUp align (offset + len) - roundDown align offset

/-- What `submit` accepts of a positioned request. -/
structure Representable (limits : ReadLimits) (offset len align : Nat) : Prop where
  pow : align.isPowerOfTwo
  align_le : align ≤ maxReadLen
  offset_le : offset ≤ i64Max
  len_le : len ≤ maxReadLen
  len_limit : ∀ max, limits.maxReadLen = some max → len ≤ max
  span_le : spanOf offset len align ≤ maxReadLen
  end_le : roundUp align (offset + len) ≤ i64Max
  bytes_limit : ∀ max, limits.maxInFlightBytes = some max →
    spanOf offset len align + align - 1 ≤ max

theorem exceeds_eq_false {n : Nat} {limit : Option Nat} :
    exceeds n limit = false ↔ ∀ max, limit = some max → n ≤ max := by
  cases limit with
  | none => simp [exceeds]
  | some max => simp [exceeds]

/-- A superset reaches from the rounded start to the rounded end. -/
theorem roundDown_add_spanOf {align : Nat} (ha : 0 < align) (offset len : Nat) :
    roundDown align offset + spanOf offset len align = roundUp align (offset + len) := by
  have hlo := roundDown_le align offset
  have hhi := le_roundUp ha (offset + len)
  unfold spanOf
  omega

theorem checkedNextMultipleOf_isSome {max a m : Nat} (hm : 0 < m) (h : a + m ≤ max) :
    ∃ r, checkedNextMultipleOf max a m = some r := by
  unfold checkedNextMultipleOf
  rw [if_neg (by omega)]
  split
  · exact ⟨_, rfl⟩
  · unfold checkedAdd
    rw [if_pos (by omega)]
    exact ⟨_, rfl⟩

/-- A returned geometry is the smallest aligned superset. -/
theorem Geometry.eq_span {offset len align k h r : Nat} (hg : Geometry offset len align k h r) :
    k = roundDown align offset ∧ h = offset - k ∧ r = spanOf offset len align := by
  have hpos : 0 < align := Nat.pos_of_isPowerOfTwo hg.pow
  have hstart := hg.start
  have hhead := hg.head_lt
  have hcovers := hg.covers
  have htight := hg.tight
  have hlo := roundDown_le align offset
  have hlo' := lt_roundDown_add hpos offset
  have hk : k = roundDown align offset :=
    eq_of_dvd_window (n := offset + 1 - align) hg.dvd_offset (dvd_roundDown align offset)
      (by omega) (by omega) (by omega) (by omega)
  have hend : k + r = roundUp align (offset + len) :=
    eq_of_dvd_window (n := offset + len) (dvd_add hg.dvd_offset hg.dvd_region) (dvd_roundUp _ _)
      (by omega) (le_roundUp hpos _) (by omega) (roundUp_lt hpos _)
  refine ⟨hk, by omega, ?_⟩
  unfold spanOf
  omega

/-- Power-of-two blocks within the read cap are at most `2 ^ 30`. -/
theorem exponent_le {e : Nat} (h : 2 ^ e ≤ maxReadLen) : e ≤ 30 := by
  by_contra hlt
  have := Nat.pow_le_pow_right (show 0 < 2 by decide) (show 31 ≤ e by omega)
  unfold maxReadLen at h
  omega

/-- Whole blocks within the read cap leave room for one more block below `2 ^ 31`. -/
theorem allocation_lt {align r : Nat} (hp : align.isPowerOfTwo) (ha : align ≤ maxReadLen)
    (hd : align ∣ r) (hr : r ≤ maxReadLen) : r + align - 1 < 2 ^ 31 := by
  obtain ⟨e, rfl⟩ := hp
  have he := exponent_le ha
  have hdvd : 2 ^ e ∣ 2 ^ 31 := Nat.pow_dvd_pow 2 (by omega)
  have hlt : r < 2 ^ 31 := by
    unfold maxReadLen at hr
    omega
  have hgap : 2 ^ e ≤ 2 ^ 31 - r := Nat.le_of_dvd (by omega) (Nat.dvd_sub hdvd hd)
  omega

/-- On a wide enough target the geometry of a request within the caps is total. -/
theorem alignedGeometry_isSome {usizeMax offset len align : Nat} (hu : WideUsize usizeMax)
    (hp : align.isPowerOfTwo) (ha : align ≤ maxReadLen) (ho : offset < 2 ^ 64)
    (hl : len ≤ maxReadLen) :
    ∃ k h r, alignedGeometry usizeMax offset len align = some (k, h, r) := by
  have hpos : 0 < align := Nat.pos_of_isPowerOfTwo hp
  obtain ⟨e, rfl⟩ := hp
  have he := exponent_le ha
  have hblock : 2 ^ e ≤ 2 ^ 30 := Nat.pow_le_pow_right (by decide) he
  have hcap : len ≤ 0x7ffff000 := hl
  unfold WideUsize at hu
  unfold alignedGeometry
  rw [if_neg (by push Not; exact ⟨hpos.ne', ⟨e, rfl⟩, ha⟩)]
  split
  · exact ⟨_, _, _, rfl⟩
  · have hdiv := Nat.div_add_mod' offset (2 ^ e)
    have hmod := Nat.mod_lt offset hpos
    simp only [u64Max, and_not_mask ho (show e ≤ 64 by omega)]
    rw [if_neg (by omega)]
    have hcov : checkedAdd usizeMax (offset - offset / 2 ^ e * 2 ^ e) len =
        some (offset - offset / 2 ^ e * 2 ^ e + len) := by
      unfold checkedAdd
      rw [if_pos (by omega)]
    have hroom : offset - offset / 2 ^ e * 2 ^ e + len + 2 ^ e ≤ usizeMax := by omega
    obtain ⟨r, hr⟩ := checkedNextMultipleOf_isSome hpos hroom
    simp only [hcov, hr, Option.bind_eq_bind, Option.bind_some, Option.pure_def]
    exact ⟨_, _, _, rfl⟩

/-- Within the caps the geometry is the smallest aligned superset. -/
theorem alignedGeometry_eq {usizeMax offset len align : Nat} (hu : WideUsize usizeMax)
    (hp : align.isPowerOfTwo) (ha : align ≤ maxReadLen) (ho : offset < 2 ^ 64)
    (hl : len ≤ maxReadLen) : alignedGeometry usizeMax offset len align =
      some (roundDown align offset, offset - roundDown align offset, spanOf offset len align) := by
  obtain ⟨k, h, r, hg⟩ := alignedGeometry_isSome hu hp ha ho hl
  obtain ⟨rfl, rfl, rfl⟩ := (alignedGeometry_spec ho hg).eq_span
  exact hg

/-- The configured length limit of an accepted request. -/
theorem validateRead_len {usizeMax : Nat} {limits : ReadLimits} {offset len align n : Nat}
    {allowCurrentPosition : Bool}
    (h : validateRead usizeMax limits offset len align allowCurrentPosition = .ok n) :
    len ≤ maxReadLen ∧ exceeds len limits.maxReadLen = false := by
  unfold validateRead at h
  split at h
  · cases h
  split at h
  · cases h
  split at h
  · cases h
  · rename_i hlen
    simpa using hlen

/-- The allocation of an accepted request fits the byte limit. -/
theorem validateRead_bytes {usizeMax : Nat} {limits : ReadLimits} {offset len align n : Nat}
    {allowCurrentPosition : Bool}
    (h : validateRead usizeMax limits offset len align allowCurrentPosition = .ok n) :
    exceeds n limits.maxInFlightBytes = false := by
  unfold validateRead at h
  split at h
  · cases h
  split at h
  · cases h
  split at h
  · cases h
  split at h
  · split at h
    · split at h
      · cases h
      · rename_i hbytes
        cases h
        exact Bool.eq_false_iff.mpr hbytes
    · cases h
  · cases h

/-- A positioned request passes exactly when its aligned superset is representable and fits
every limit; its allocation is the superset and one block less a byte. -/
theorem validateRead_positioned_iff {usizeMax : Nat} {limits : ReadLimits}
    {offset len align n : Nat}
    (hu : WideUsize usizeMax) :
    validateRead usizeMax limits offset len align false = .ok n ↔
      Representable limits offset len align ∧ n = spanOf offset len align + align - 1 := by
  constructor
  · intro h
    obtain ⟨hoff, hlen, k, hd, r, hg, hr, hend, hn, hbytes⟩ := validateRead_ok h
    have ho : offset < 2 ^ 64 := by
      unfold i64Max at hoff
      omega
    have hgeo := alignedGeometry_spec ho hg
    have hpos : 0 < align := Nat.pos_of_isPowerOfTwo hgeo.pow
    obtain ⟨rfl, _, rfl⟩ := hgeo.eq_span
    rw [roundDown_add_spanOf hpos] at hend
    refine ⟨⟨hgeo.pow, hgeo.le_cap, hoff, hlen, ?_, hr, hend, ?_⟩, hn⟩
    · exact exceeds_eq_false.mp (validateRead_len h).2
    · rw [← hn]
      exact exceeds_eq_false.mp hbytes
  · rintro ⟨h, rfl⟩
    have hoff := h.offset_le
    have hpos : 0 < align := Nat.pos_of_isPowerOfTwo h.pow
    have hne : offset ≠ currentPosition := by
      unfold currentPosition u64Max
      unfold i64Max at hoff
      omega
    have ho : offset < 2 ^ 64 := by
      unfold i64Max at hoff
      omega
    have hg := alignedGeometry_eq hu h.pow h.align_le ho h.len_le
    have hlen := exceeds_eq_false.mpr h.len_limit
    have hbytes := exceeds_eq_false.mpr h.bytes_limit
    have hlast : checkedAdd u64Max (roundDown align offset) (spanOf offset len align) =
        some (roundUp align (offset + len)) := by
      have hend := h.end_le
      unfold checkedAdd
      rw [roundDown_add_spanOf hpos, if_pos]
      unfold i64Max at hend
      unfold u64Max
      omega
    simp [validateRead, hne, not_lt.mpr hoff, not_lt.mpr h.len_le, hlen, hg, h.span_le, hlast,
      h.end_le, hbytes]

/-- Unaligned geometry passes its range through. -/
theorem alignedGeometry_one (usizeMax offset len : Nat) :
    alignedGeometry usizeMax offset len 1 = some (offset, 0, len) := by
  have hone : (1 : Nat).isPowerOfTwo := ⟨0, rfl⟩
  simp [alignedGeometry, hone, maxReadLen]

/-- A stream request passes exactly when its length fits the limits. -/
theorem validateRead_stream_iff {usizeMax : Nat} {limits : ReadLimits} {len n : Nat} :
    validateRead usizeMax limits currentPosition len 1 true = .ok n ↔
      (len ≤ maxReadLen ∧ (∀ max, limits.maxReadLen = some max → len ≤ max) ∧
        ∀ max, limits.maxInFlightBytes = some max → len ≤ max) ∧ n = len := by
  have hg := alignedGeometry_one usizeMax currentPosition len
  constructor
  · intro h
    obtain ⟨hlen, hlimit⟩ := validateRead_len h
    cases hbytes : exceeds len limits.maxInFlightBytes with
    | true => simp [validateRead, not_lt.mpr hlen, hlimit, hg, hlen, hbytes] at h
    | false =>
      simp [validateRead, not_lt.mpr hlen, hlimit, hg, hlen, hbytes] at h
      exact ⟨⟨hlen, exceeds_eq_false.mp hlimit, exceeds_eq_false.mp hbytes⟩, h.symm⟩
  · rintro ⟨⟨hlen, hlimit, hbytes⟩, rfl⟩
    simp [validateRead, not_lt.mpr hlen, hlen, exceeds_eq_false.mpr hlimit, hg,
      exceeds_eq_false.mpr hbytes]

end Uring
