import Mathlib.Data.List.Basic
import Mathlib.Tactic.Common

/-!
# Windows into lists and stores into buffers

A window is the part of a list that starts at an offset and has at most a given
length; it is clamped at the end. A store writes into a buffer without changing its
length. Windows before a store are untouched and the stored window reads back.
-/

namespace Uring.Core

variable {α : Type}

/-- The at most `n` elements of `l` from offset `a` on. -/
def window (l : List α) (a n : Nat) : List α := (l.drop a).take n

/-- Write `data` into `bytes` at `off`, inside the existing length. -/
def overwrite : List α → Nat → List α → List α
  | [], _, _ => []
  | b :: bs, 0, [] => b :: bs
  | _ :: bs, 0, d :: ds => d :: overwrite bs 0 ds
  | b :: bs, off + 1, ds => b :: overwrite bs off ds

@[simp] theorem window_zero (l : List α) (a : Nat) : window l a 0 = [] := by
  simp [window]

/-- Adjacent windows concatenate. -/
theorem window_add (l : List α) (a n r : Nat) :
    window l a (n + r) = window l a n ++ window l (a + n) r := by
  simp only [window, List.take_add, List.drop_drop]

/-- A window inside a window is a window. -/
theorem window_inside (l : List α) {a n h k : Nat} (hk : h + k ≤ n) :
    window l (a + h) k = window (window l a n) h k := by
  simp only [window, List.drop_take, List.take_take, List.drop_drop]
  rw [Nat.min_eq_left (by omega)]

/-- Equal windows agree on every part. -/
theorem window_congr {l m : List α} {a b n : Nat} (h : window l a n = window m b n) {d k : Nat}
    (hk : d + k ≤ n) : window l (a + d) k = window m (b + d) k := by
  rw [window_inside l hk, window_inside m hk, h]

/-- Beyond the end of the list the requested length does not matter. -/
theorem window_clamp (l : List α) (a : Nat)
    {n m : Nat} (h : min n (l.length - a) = min m (l.length - a)) :
    window l a n = window l a m := by
  simp only [window]
  rw [List.take_eq_take_iff, List.length_drop]
  exact h

theorem window_eq_nil {l : List α} {a n : Nat} (hn : 0 < n) :
    window l a n = [] ↔ l.length ≤ a := by
  rw [window, List.take_eq_nil_iff, List.drop_eq_nil_iff]
  omega

theorem length_window_le (l : List α) (a n : Nat) : (window l a n).length ≤ n := by
  rw [window, List.length_take]
  exact Nat.min_le_left _ _

/-- A window is the window of its own length. -/
theorem window_self (l : List α) (a n : Nat) :
    window l a (window l a n).length = window l a n := by
  refine window_clamp l a ?_
  rw [window, List.length_take, List.length_drop]
  omega

@[simp] theorem length_overwrite (bytes : List α) (off : Nat) (data : List α) :
    (overwrite bytes off data).length = bytes.length := by
  fun_induction overwrite bytes off data <;> simp_all

/-- A store changes nothing before its offset. -/
theorem take_overwrite (bytes : List α) (off : Nat) (data : List α) :
    (overwrite bytes off data).take off = bytes.take off := by
  fun_induction overwrite bytes off data <;> simp_all

/-- A window that ends at or before the stored offset is untouched. -/
theorem window_overwrite_before (bytes data : List α) {off a n : Nat} (h : a + n ≤ off) :
    window (overwrite bytes off data) a n = window bytes a n := by
  have htake (l : List α) : window l a n = window (l.take off) a n := by
    simp only [window, List.drop_take, List.take_take]
    rw [Nat.min_eq_left (by omega)]
  rw [htake, take_overwrite, ← htake]

/-- The stored window reads back what was stored. -/
theorem window_overwrite (bytes data : List α) {off : Nat} (h : off + data.length ≤ bytes.length) :
    window (overwrite bytes off data) off data.length = data := by
  fun_induction overwrite bytes off data with
  | case1 off data =>
    simp only [List.length_nil, Nat.le_zero_eq, Nat.add_eq_zero_iff, List.length_eq_zero_iff] at h
    simp [h.2]
  | case2 b bs => simp
  | case3 b bs d ds ih =>
    have hlen : 0 + ds.length ≤ bs.length := by
      simp only [List.length_cons] at h
      omega
    simpa [window] using ih hlen
  | case4 b bs off ds ih =>
    have hlen : off + ds.length ≤ bs.length := by
      simp only [List.length_cons] at h
      omega
    simpa [window] using ih hlen

end Uring.Core
