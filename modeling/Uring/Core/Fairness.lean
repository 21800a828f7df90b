import Mathlib.Algebra.Order.BigOperators.Group.List
import Uring.Core.Semaphore

/-!
# First-come service

Permits given back go to the waiters in order, so an open semaphore has free permits only
while no waiter lacks any, and behind a waiter that lacks some nobody was granted any.
Hence a queue whose permits are all free or granted always has a waiter that lacks none.
-/

namespace Uring.Core

theorem grant_fst_le (n : Nat) (ws : List Waiter) : (grant n ws).1 ≤ n := by
  induction ws generalizing n with
  | nil => exact Nat.le_refl n
  | cons w ws ih => exact Nat.le_trans (ih _) (Nat.sub_le _ _)

/-- Permits are left over only when no waiter lacks any. -/
theorem grant_exhausts (n : Nat) (ws : List Waiter) :
    (grant n ws).1 = 0 ∨ ∀ w ∈ (grant n ws).2, w.want ≤ w.got := by
  induction ws generalizing n with
  | nil => exact Or.inr fun _ hw => by cases hw
  | cons w ws ih =>
    simp only [grant]
    rcases ih (n - min n (w.want - w.got)) with hz | hall
    · exact Or.inl hz
    · by_cases hleft : n - min n (w.want - w.got) = 0
      · left
        rw [hleft]
        exact Nat.le_zero.mp (grant_fst_le 0 ws)
      · right
        intro v hv
        rcases List.mem_cons.mp hv with rfl | hv
        · simp only
          omega
        · exact hall v hv

/-- Waiters that lack nothing are granted nothing. -/
theorem grant_of_satisfied (n : Nat) {ws : List Waiter} (h : ∀ w ∈ ws, w.want ≤ w.got) :
    grant n ws = (n, ws) := by
  induction ws with
  | nil => rfl
  | cons w ws ih =>
    have hw := h w List.mem_cons_self
    have hk : min n (w.want - w.got) = 0 := by omega
    simp only [grant, hk, Nat.sub_zero, ih fun v hv => h v (List.mem_cons_of_mem _ hv),
      Nat.add_zero]

/-- Without permits nothing is handed out. -/
theorem grant_zero (ws : List Waiter) : grant 0 ws = (0, ws) := by
  induction ws with
  | nil => rfl
  | cons w ws ih =>
    simp only [grant, Nat.zero_min, Nat.sub_zero, ih, Nat.add_zero]

/-- Behind a waiter that lacks permits nobody was granted any. -/
def Lined (ws : List Waiter) : Prop := ws.Pairwise fun u w => u.got < u.want → w.got = 0

namespace Lined

theorem grant {ws : List Waiter} (h : Lined ws) (n : Nat) : Lined (grant n ws).2 := by
  induction ws generalizing n with
  | nil => exact h
  | cons w ws ih =>
    obtain ⟨hw, hrest⟩ := List.pairwise_cons.mp h
    refine List.pairwise_cons.mpr ⟨fun u hu hlt => ?_, ih hrest _⟩
    simp only at hlt
    -- what is left after a waiter that still lacks permits is nothing
    have hleft : n - min n (w.want - w.got) = 0 := by omega
    rw [hleft, grant_zero] at hu
    exact hw u hu (by omega)

theorem dropWaiter {ws : List Waiter} (h : Lined ws) (key : Nat) : Lined (dropWaiter key ws) :=
  h.sublist List.eraseP_sublist

/-- A new waiter is granted something only where nobody lacks any. -/
theorem join {ws : List Waiter} (h : Lined ws) {w : Waiter}
    (hw : w.got = 0 ∨ ∀ u ∈ ws, u.want ≤ u.got) : Lined (ws ++ [w]) := by
  refine List.pairwise_append.mpr ⟨h, List.pairwise_singleton _ _, fun u hu v hv hlt => ?_⟩
  rw [List.mem_singleton.mp hv]
  rcases hw with hw | hall
  · exact hw
  · exact absurd (hall u hu) (not_le.mpr hlt)

/-- In a queue where everybody lacks permits at most the first was granted some. -/
theorem granted_eq {w : Waiter} {ws : List Waiter} (h : Lined (w :: ws)) (hw : w.got < w.want) :
    granted (w :: ws) = w.got := by
  have hzero : granted ws = 0 := by
    refine List.sum_eq_zero fun n hn => ?_
    obtain ⟨u, hu, rfl⟩ := List.mem_map.mp hn
    exact (List.pairwise_cons.mp h).1 u hu hw
  simp only [granted, List.map_cons, List.sum_cons] at hzero ⊢
  omega

end Lined

theorem credit_zero (key : Nat) (ws : List Waiter) : credit key 0 ws = ws := by
  induction ws with
  | nil => rfl
  | cons w ws ih =>
    unfold credit
    split
    · rfl
    · rw [ih]

namespace Semaphore

/-- An open semaphore has free permits only while no queued waiter lacks any. -/
def Fair (s : Semaphore) : Prop :=
  s.closed = false → s.permits = 0 ∨ ∀ w ∈ s.waiters, w.want ≤ w.got

theorem fair_new (n : Nat) : (new n).Fair := fun _ => Or.inr fun _ hw => by cases hw

theorem fair_close (s : Semaphore) : s.close.Fair := nofun

theorem Fair.tryAcquire {s s' : Semaphore} {n : Nat} (h : s.Fair) (ha : s.tryAcquire n = .ok s') :
    s'.Fair := by
  unfold Semaphore.tryAcquire at ha
  split at ha
  · cases ha
  · rename_i hopen
    split at ha
    · cases ha
      intro _
      rcases h (Bool.eq_false_iff.mpr hopen) with hz | hall
      · left
        simp only
        omega
      · exact Or.inr hall
    · cases ha

/-- Permits given back go to the waiters first. -/
theorem Fair.release {s : Semaphore} (h : s.Fair) (n : Nat) : (s.release n).Fair := by
  intro hopen
  rw [closed_release] at hopen
  have hclosed : ¬ s.closed = true := by simp [hopen]
  simp only [Semaphore.release, if_neg hclosed]
  rcases h hopen with hz | hall
  · rw [hz, Nat.zero_add]
    exact grant_exhausts n s.waiters
  · rw [grant_of_satisfied n hall]
    exact Or.inr hall

/-- A queued poll takes what is free. -/
theorem Fair.pollAcquire {s : Semaphore} (h : s.Fair) (key n : Nat) :
    (s.pollAcquire key n).2.Fair := by
  intro hopen
  rw [closed_pollAcquire] at hopen
  have hclosed : ¬ s.closed = true := by simp [hopen]
  have hstill {m : Nat} {ws : List Waiter} (hws : ∀ w ∈ ws, w ∈ s.waiters) :
      s.permits - m = 0 ∨ ∀ w ∈ ws, w.want ≤ w.got := by
    rcases h hopen with hz | hall
    · exact Or.inl (by omega)
    · exact Or.inr fun w hw => hall w (hws w hw)
  unfold Semaphore.pollAcquire
  rw [if_neg hclosed]
  split
  · split
    · exact hstill fun _ hw => hw
    · exact Or.inl rfl
  · split
    · exact hstill fun _ hw => List.mem_of_mem_eraseP hw
    · exact Or.inl rfl

theorem Fair.cancel {s : Semaphore} (h : s.Fair) (key : Nat) : (s.cancel key).Fair := by
  unfold Semaphore.cancel
  split
  · exact h
  · refine Fair.release (fun hopen => ?_) _
    exact (h hopen).imp_right fun hall w hw => hall w (List.mem_of_mem_eraseP hw)

/-- Taking free permits and giving them back changes nothing. -/
theorem Fair.release_tryAcquire {s s' : Semaphore} {n : Nat} (h : s.Fair) (hn : 0 < n)
    (ha : s.tryAcquire n = .ok s') : s'.release n = s := by
  unfold Semaphore.tryAcquire at ha
  split at ha
  · cases ha
  · rename_i hopen
    split at ha
    · rename_i hle
      cases ha
      have hall := (h (Bool.eq_false_iff.mpr hopen)).resolve_left (by omega)
      simp only [Semaphore.release, if_neg hopen, grant_of_satisfied n hall]
      congr 1
      omega
    · cases ha

/-- A semaphore that serves its waiters in order. -/
structure Served (s : Semaphore) : Prop where
  fair : s.Fair
  lined : Lined s.waiters

namespace Served

theorem new (n : Nat) : (new n).Served := ⟨fair_new n, List.Pairwise.nil⟩

theorem close {s : Semaphore} (h : s.Served) : s.close.Served := ⟨fair_close s, h.lined⟩

theorem tryAcquire {s s' : Semaphore} {n : Nat} (h : s.Served) (ha : s.tryAcquire n = .ok s') :
    s'.Served := by
  refine ⟨h.fair.tryAcquire ha, ?_⟩
  unfold Semaphore.tryAcquire at ha
  split at ha
  · cases ha
  · split at ha <;> cases ha
    exact h.lined

theorem release {s : Semaphore} (h : s.Served) (n : Nat) : (s.release n).Served := by
  refine ⟨h.fair.release n, ?_⟩
  unfold Semaphore.release
  split
  · exact h.lined
  · exact h.lined.grant n

theorem cancel {s : Semaphore} (h : s.Served) (key : Nat) : (s.cancel key).Served := by
  refine ⟨h.fair.cancel key, ?_⟩
  unfold Semaphore.cancel
  split
  · exact h.lined
  · unfold Semaphore.release
    split
    · exact h.lined.dropWaiter key
    · exact (h.lined.dropWaiter key).grant _

theorem pollAcquire {s : Semaphore} (h : s.Served) (key n : Nat) :
    (s.pollAcquire key n).2.Served := by
  refine ⟨h.fair.pollAcquire key n, ?_⟩
  unfold Semaphore.pollAcquire
  split
  · exact h.lined
  rename_i hopen
  have hfair := h.fair (Bool.eq_false_iff.mpr hopen)
  split
  · split
    · exact h.lined
    · exact h.lined.join hfair
  · rename_i w hw
    split
    · exact h.lined.dropWaiter key
    · rename_i hn
      -- a waiter that still lacks permits finds none free
      have hzero : s.permits = 0 := by
        refine hfair.resolve_right fun hall => hn ?_
        have := hall w (List.mem_of_find?_eq_some hw)
        omega
      simp only [hzero, credit_zero]
      exact h.lined

/-- A queue in which nobody wants more than there is has a waiter that lacks nothing. -/
theorem exists_satisfied {s : Semaphore} (h : s.Served) (hopen : s.closed = false)
    (hq : s.waiters ≠ []) (hwant : ∀ w ∈ s.waiters, w.want ≤ s.value) :
    ∃ w ∈ s.waiters, w.want ≤ w.got := by
  by_contra hno
  simp only [not_exists, not_and, not_le] at hno
  have hzero : s.permits = 0 := (h.fair hopen).resolve_right fun hall => by
    obtain ⟨w, hw⟩ := List.exists_mem_of_ne_nil _ hq
    exact absurd (hall w hw) (not_le.mpr (hno w hw))
  have hlined := h.lined
  simp only [value, hzero, Nat.zero_add] at hwant
  cases hws : s.waiters with
  | nil => exact hq hws
  | cons w ws =>
    rw [hws] at hno hwant hlined
    have hlt := hno w List.mem_cons_self
    have hle := hwant w List.mem_cons_self
    rw [hlined.granted_eq hlt] at hle
    omega

end Served

/-- A poll by a waiter that lacks nothing succeeds. -/
theorem pollAcquire_satisfied {s : Semaphore} {w : Waiter} (hopen : s.closed = false)
    (hw : w ∈ s.waiters) (hsat : w.want ≤ w.got) (n : Nat) :
    (s.pollAcquire w.key n).1 = .ready := by
  have hclosed : ¬ s.closed = true := by simp [hopen]
  have hkey := waiterOf_of_mem s.orderly.distinct hw
  unfold pollAcquire
  rw [if_neg hclosed]
  split
  · rename_i hnone
    rw [hkey] at hnone
    cases hnone
  · rename_i u hu
    obtain rfl := Option.some.inj (hkey.symm.trans hu)
    rw [dif_pos (by omega)]

/-- A first poll succeeds where enough is free. -/
theorem pollAcquire_free {s : Semaphore} {key n : Nat} (hopen : s.closed = false)
    (hq : s.waiters = []) (hn : n ≤ s.permits) : (s.pollAcquire key n).1 = .ready := by
  have hclosed : ¬ s.closed = true := by simp [hopen]
  unfold pollAcquire
  rw [if_neg hclosed]
  split
  · rw [dif_pos hn]
  · rename_i w hw
    rw [hq] at hw
    cases hw

end Semaphore

end Uring.Core
