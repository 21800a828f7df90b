import Uring.Core.Bytes
import Uring.Read.Pending

/-!
# What one positioned read has fetched

The region of a pending read holds the file's bytes up to its progress, whatever mix
of short reads and transient errors produced that progress. When a read finishes
with a live receiver, what it yields is the whole logical range, clamped at the end
of the file.
-/

namespace Uring

open Uring.Core

/-- What the kernel may answer to a positioned read of a file with fixed content: an
errno, or a count of bytes that it stores, zero only for an empty request or at the
end of the file. -/
def ReadAnswer (content : List UInt8) (off len : Nat) (res : Int) (data : List UInt8) : Prop :=
  res < 0 ∨ (data.length = res.toNat ∧ data = window content off res.toNat ∧ res.toNat ≤ len ∧
    (res = 0 → len = 0 ∨ content.length ≤ off))

/-- The entry reads the aligned superset of its logical range, and the first `nread`
bytes of its region are the file's. -/
structure Filled (content : List UInt8) (offset len align : Nat) (p : Pending) : Prop where
  geometry : Geometry offset len align p.offset p.head p.regionLen
  want : p.want = len
  cap : p.regionLen ≤ maxReadLen
  last : p.offset + p.regionLen ≤ i64Max
  /-- The region lies inside the buffer. -/
  room : p.pad + p.regionLen ≤ p.buf.bytes.length
  nread_le : p.nread ≤ p.regionLen
  bytes : window p.buf.bytes p.pad p.nread = window content p.offset p.nread

/-- A completion of `r` bytes beyond the recorded progress: the buffer already holds
them, and zero bytes mean a full region or the end of the file. -/
structure Arrived (content : List UInt8) (p : Pending) (r : Nat) : Prop where
  fits : p.nread + r ≤ p.regionLen
  bytes : window p.buf.bytes (p.pad + p.nread) r = window content (p.offset + p.nread) r
  zero : r = 0 → p.regionLen ≤ p.nread ∨ content.length ≤ p.offset + p.nread

theorem Arrived.congr {content : List UInt8} {p q : Pending} {r : Nat} (h : Arrived content p r)
    (hs : p.SameRegion q) (hb : q.buf = p.buf) (hn : q.nread = p.nread) : Arrived content q r where
  fits := by
    rw [hn, hs.regionLen]
    exact h.fits
  bytes := by
    rw [hb, hs.pad, hn, hs.offset]
    exact h.bytes
  zero := by
    rw [hs.regionLen, hn, hs.offset]
    exact h.zero

namespace Filled

variable {content : List UInt8} {offset len align : Nat} {p q : Pending}

/-- A positioned entry never carries the stream sentinel. -/
theorem offset_ne (h : Filled content offset len align p) : p.offset ≠ currentPosition := by
  have hlast := h.last
  unfold i64Max at hlast
  unfold currentPosition u64Max
  omega

/-- The remainder asked of the kernel is not truncated by the SQE's `u32` length. -/
theorem remaining (h : Filled content offset len align p) :
    (p.regionLen - p.nread) % 2 ^ 32 = p.regionLen - p.nread := by
  have hcap := h.cap
  unfold maxReadLen at hcap
  exact Nat.mod_eq_of_lt (by omega)

/-- An entry that differs in nothing the read depends on is filled alike. -/
theorem congr (h : Filled content offset len align p) (hs : p.SameRegion q) (hb : q.buf = p.buf)
    (hn : q.nread = p.nread) : Filled content offset len align q where
  geometry := by
    rw [hs.offset, hs.head, hs.regionLen]
    exact h.geometry
  want := hs.want.trans h.want
  cap := hs.regionLen ▸ h.cap
  last := by
    rw [hs.offset, hs.regionLen]
    exact h.last
  room := by
    rw [hs.pad, hs.regionLen, hb]
    exact h.room
  nread_le := by
    rw [hn, hs.regionLen]
    exact h.nread_le
  bytes := by
    rw [hb, hs.pad, hn, hs.offset]
    exact h.bytes

/-- Recording an arrived completion extends the progress. -/
theorem progress (h : Filled content offset len align p) {r : Nat} (ha : Arrived content p r)
    (hs : p.SameRegion q) (hb : q.buf = p.buf) (hn : q.nread = p.nread + r) :
    Filled content offset len align q := by
  refine ⟨?_, hs.want.trans h.want, hs.regionLen ▸ h.cap, ?_, ?_, ?_, ?_⟩
  · rw [hs.offset, hs.head, hs.regionLen]
    exact h.geometry
  · rw [hs.offset, hs.regionLen]
    exact h.last
  · rw [hs.pad, hs.regionLen, hb]
    exact h.room
  · rw [hn, hs.regionLen]
    exact ha.fits
  · rw [hb, hs.pad, hn, hs.offset, window_add, window_add, h.bytes, ha.bytes]

/-- A store at the first unread byte keeps what was fetched before it. -/
theorem store (h : Filled content offset len align p) (data : List UInt8) :
    Filled content offset len align { p with
      buf := { p.buf with bytes := overwrite p.buf.bytes (p.pad + p.nread) data } } := by
  refine ⟨h.geometry, h.want, h.cap, h.last, ?_, h.nread_le, ?_⟩
  · simp only [length_overwrite]
    exact h.room
  · simp only
    rw [window_overwrite_before _ _ le_rfl]
    exact h.bytes

/-- The store of a permitted answer is the arrival of its bytes. -/
theorem store_arrived (h : Filled content offset len align p) {res : Int} {data : List UInt8}
    (ha : ReadAnswer content (p.offset + p.nread) (p.regionLen - p.nread) res data)
    (hres : 0 ≤ res) :
    Arrived content { p with
      buf := { p.buf with bytes := overwrite p.buf.bytes (p.pad + p.nread) data } } res.toNat := by
  have hnread := h.nread_le
  have hroom := h.room
  rcases ha with hneg | ⟨hlen, hdata, hle, hzero⟩
  · omega
  · refine ⟨?_, ?_, ?_⟩
    · simp only
      omega
    · simp only
      rw [← hlen, window_overwrite _ _ (by omega), hlen]
      exact hdata
    · intro hr
      rcases hzero (by omega) with hfull | heof
      · left
        simp only
        omega
      · exact Or.inr heof

/-- Completeness of the progress: the logical range is covered, or the file ends. -/
theorem deliver_range (h : Filled content offset len align p)
    (hc : p.head + p.want ≤ p.nread ∨ p.regionLen ≤ p.nread ∨
      content.length ≤ p.offset + p.nread) :
    window p.buf.bytes (p.pad + p.head) (min (p.nread - p.head) p.want) =
      window content offset len := by
  have hstart := h.geometry.start
  have hcovers := h.geometry.covers
  have hwant := h.want
  by_cases hhead : p.head ≤ p.nread
  · rw [window_congr h.bytes (by omega), hstart]
    apply window_clamp
    rcases hc with hc | hc | hc <;> omega
  · -- the file ends before the logical range begins
    have hempty : min (p.nread - p.head) p.want = 0 := by omega
    rw [hempty, window_zero, ← window_zero content offset]
    apply window_clamp
    rcases hc with hc | hc | hc <;> omega

/-- A resubmission keeps the region filled up to the new progress. -/
theorem resubmit (h : Filled content offset len align p) {usizeMax id : Nat} {res : Int}
    {down closed : Bool} {fileLen : Except IoError Nat} {sqe : Sqe}
    (ha : 0 ≤ res → Arrived content p res.toNat)
    (hr : reapRead usizeMax p id res down closed fileLen = some (q, .resubmit sqe)) :
    Filled content offset len align q := by
  obtain ⟨_, hs, hb, _, _, _, hn, _, _⟩ := reapRead_resubmit hr
  by_cases hres : 0 ≤ res
  · exact h.progress (ha hres) hs.toSameRegion hb hn
  · refine h.congr hs.toSameRegion hb ?_
    rw [hn, Int.toNat_of_nonpos (by omega), Nat.add_zero]

/-- A successful finish with a live receiver yields exactly the logical range. -/
theorem finish (h : Filled content offset len align p) {usizeMax id : Nat} {res : Int}
    {down : Bool} {fileLen : Except IoError Nat} {bytes : List UInt8}
    (ha : 0 ≤ res → Arrived content p res.toNat)
    (hf : ∀ n, fileLen = .ok n → n = content.length) (hd : p.done.isSome = true)
    (hr : reapRead usizeMax p id res down false fileLen = some (q, .finish (.ok bytes))) :
    bytes = window content offset len := by
  obtain ⟨hres, r, hs, hb, hn, hdel, hdone⟩ := (reapRead_finish hr).2 bytes rfl
  have harrived := ha hres
  have hfilled := h.progress harrived hs.toSameRegion hb hn
  rw [(deliver_spec hdel).2 (hs.done ▸ hd) rfl]
  refine hfilled.deliver_range ?_
  rcases hdone with hzero | hstream | hrange | hregion | ⟨n, hlen, hle⟩
  · have hr0 : res.toNat = 0 := by omega
    rw [hs.regionLen, hs.offset, hn, hr0, Nat.add_zero]
    exact Or.inr (harrived.zero hr0)
  · exact absurd hstream h.offset_ne
  · left
    rw [hs.head, hs.want]
    exact hrange
  · right
    left
    rw [hs.regionLen]
    exact hregion
  · right
    right
    rw [hs.offset, ← hf n hlen]
    exact hle

end Filled

end Uring
