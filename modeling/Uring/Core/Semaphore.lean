import Mathlib.Algebra.GroupWithZero.Nat
import Mathlib.Data.List.Basic
import Mathlib.Data.List.Nodup
import Mathlib.Tactic.Common

/-!
# Counting semaphores with first-come waiters

A semaphore holds free permits and a queue of waiters. A waiter may be granted part
of what it wants, or all of it, before it is polled again; what it was granted
returns to the semaphore when the waiter goes away. Closing fails every later
attempt, also that of a waiter whose grant is complete. Free permits and grants
together change only when permits are taken out or given back.
-/

namespace Uring.Core

/-- One queued acquire: its owner, the permits it wants and those already granted. -/
structure Waiter where
  key : Nat
  want : Nat
  got : Nat
  deriving DecidableEq, Repr

/-- Why an immediate attempt failed. -/
inductive TryAcquireError
  | closed
  | noPermits
  deriving DecidableEq, Repr

/-- What one poll of an acquire found. -/
inductive Acquired
  | ready
  | pending
  | closed
  deriving DecidableEq, Repr

/-- Hand `n` permits to the waiters, oldest first; the rest is left over. -/
def grant : Nat → List Waiter → Nat × List Waiter
  | n, [] => (n, [])
  | n, w :: ws =>
    let k := min n (w.want - w.got)
    let rest := grant (n - k) ws
    (rest.1, { w with got := w.got + k } :: rest.2)

/-- Add `n` permits to the grant of one waiter. -/
def credit (key n : Nat) : List Waiter → List Waiter
  | [] => []
  | w :: ws => if w.key = key then { w with got := w.got + n } :: ws else w :: credit key n ws

/-- The waiter of one owner. -/
def waiterOf (key : Nat) (ws : List Waiter) : Option Waiter :=
  ws.find? fun w => decide (w.key = key)

/-- The queue without the waiter of one owner. -/
def dropWaiter (key : Nat) (ws : List Waiter) : List Waiter :=
  ws.eraseP fun w => decide (w.key = key)

/-- The permits granted to the waiters of a queue. -/
def granted (ws : List Waiter) : Nat := (ws.map Waiter.got).sum

theorem keys_grant (n : Nat) (ws : List Waiter) :
    (grant n ws).2.map Waiter.key = ws.map Waiter.key := by
  induction ws generalizing n with
  | nil => rfl
  | cons w ws ih =>
    simp only [grant, List.map_cons]
    rw [ih]

theorem keys_credit (key n : Nat) (ws : List Waiter) :
    (credit key n ws).map Waiter.key = ws.map Waiter.key := by
  induction ws with
  | nil => rfl
  | cons w ws ih =>
    unfold credit
    split
    · rfl
    · rw [List.map_cons, List.map_cons, ih]

theorem waiterOf_eq_none {key : Nat} {ws : List Waiter} :
    waiterOf key ws = none ↔ key ∉ ws.map Waiter.key := by
  unfold waiterOf
  rw [List.find?_eq_none]
  constructor
  · intro h hk
    obtain ⟨w, hw, rfl⟩ := List.mem_map.mp hk
    exact h w hw (decide_eq_true rfl)
  · intro h w hw hd
    exact h (List.mem_map.mpr ⟨w, hw, of_decide_eq_true hd⟩)

/-- Where no owner waits twice, a queued waiter is the one its owner has. -/
theorem waiterOf_of_mem {ws : List Waiter} {w : Waiter} (hd : (ws.map Waiter.key).Nodup)
    (h : w ∈ ws) : waiterOf w.key ws = some w := by
  induction ws with
  | nil => cases h
  | cons v ws ih =>
    rw [List.map_cons, List.nodup_cons] at hd
    rw [waiterOf, List.find?_cons]
    rcases List.mem_cons.mp h with rfl | h
    · simp
    · have hne : v.key ≠ w.key := fun heq => hd.1 (heq ▸ List.mem_map_of_mem h)
      rw [decide_eq_false hne]
      exact ih hd.2 h

/-- Permits handed out are granted or left over. -/
theorem granted_grant (n : Nat) (ws : List Waiter) :
    (grant n ws).1 + granted (grant n ws).2 = n + granted ws := by
  induction ws generalizing n with
  | nil => rfl
  | cons w ws ih =>
    have hrest := ih (n - min n (w.want - w.got))
    simp only [granted] at hrest
    simp only [grant, granted, List.map_cons, List.sum_cons]
    omega

theorem granted_credit {key n : Nat} {ws : List Waiter} (h : key ∈ ws.map Waiter.key) :
    granted (credit key n ws) = granted ws + n := by
  induction ws with
  | nil => simp at h
  | cons w ws ih =>
    unfold credit
    split
    · simp only [granted, List.map_cons, List.sum_cons]
      omega
    · rename_i hne
      have hin : key ∈ ws.map Waiter.key := by
        rcases List.mem_cons.mp (List.map_cons ▸ h) with heq | hin
        · exact absurd heq.symm hne
        · exact hin
      have hrest := ih hin
      simp only [granted] at hrest
      simp only [granted, List.map_cons, List.sum_cons, hrest]
      omega

/-- Removing a waiter takes exactly its grant out of the queue. -/
theorem granted_dropWaiter {key : Nat} {ws : List Waiter} {w : Waiter}
    (h : waiterOf key ws = some w) : granted (dropWaiter key ws) + w.got = granted ws := by
  induction ws with
  | nil => cases h
  | cons v ws ih =>
    unfold waiterOf at h
    unfold dropWaiter
    rw [List.find?_cons] at h
    rw [List.eraseP_cons]
    split at h
    · rename_i hv
      cases h
      rw [hv]
      simp only [cond_true, granted, List.map_cons, List.sum_cons]
      omega
    · rename_i hv
      have hrest := ih h
      rw [hv]
      simp only [granted, dropWaiter] at hrest
      simp only [cond_false, granted, List.map_cons, List.sum_cons]
      omega

/-- Removing one owner's waiter leaves no other waiter of that owner. -/
theorem waiterOf_dropWaiter_self {key : Nat} {ws : List Waiter}
    (h : (ws.map Waiter.key).Nodup) : waiterOf key (dropWaiter key ws) = none := by
  rw [waiterOf_eq_none]
  induction ws with
  | nil => simp [dropWaiter]
  | cons w ws ih =>
    rw [List.map_cons, List.nodup_cons] at h
    unfold dropWaiter
    rw [List.eraseP_cons]
    by_cases hk : w.key = key
    · rw [decide_eq_true hk, cond_true]
      exact hk ▸ h.1
    · rw [decide_eq_false hk, cond_false, List.map_cons, List.mem_cons, not_or]
      exact ⟨Ne.symm hk, ih h.2⟩

/-- What one owner is queued for. -/
def claimOf (key : Nat) (ws : List Waiter) : Option Nat := (waiterOf key ws).map Waiter.want

theorem claimOf_cons (key : Nat) (w : Waiter) (ws : List Waiter) :
    claimOf key (w :: ws) = if w.key = key then some w.want else claimOf key ws := by
  unfold claimOf waiterOf
  rw [List.find?_cons]
  by_cases hk : w.key = key
  · simp [hk]
  · simp [hk]

theorem claimOf_grant (key n : Nat) (ws : List Waiter) :
    claimOf key (grant n ws).2 = claimOf key ws := by
  induction ws generalizing n with
  | nil => rfl
  | cons w ws ih =>
    simp only [grant, claimOf_cons]
    rw [ih]

theorem claimOf_credit (key other n : Nat) (ws : List Waiter) :
    claimOf key (credit other n ws) = claimOf key ws := by
  induction ws with
  | nil => rfl
  | cons w ws ih =>
    unfold credit
    split
    · simp only [claimOf_cons]
    · simp only [claimOf_cons]
      rw [ih]

theorem claimOf_append (key : Nat) (ws : List Waiter) (w : Waiter) :
    claimOf key (ws ++ [w]) =
      (claimOf key ws).or (if w.key = key then some w.want else none) := by
  induction ws with
  | nil =>
    rw [List.nil_append, claimOf_cons]
    rfl
  | cons v ws ih =>
    rw [List.cons_append, claimOf_cons, claimOf_cons, ih]
    split <;> rfl

theorem claimOf_dropWaiter_of_ne {key other : Nat} (h : key ≠ other) (ws : List Waiter) :
    claimOf key (dropWaiter other ws) = claimOf key ws := by
  induction ws with
  | nil => rfl
  | cons w ws ih =>
    unfold dropWaiter
    rw [List.eraseP_cons]
    by_cases hk : w.key = other
    · rw [decide_eq_true hk, cond_true, claimOf_cons, if_neg]
      rw [hk]
      exact Ne.symm h
    · rw [decide_eq_false hk, cond_false, claimOf_cons, claimOf_cons]
      exact congrArg (fun rest => if w.key = key then some w.want else rest) ih

/-- A queue in which no owner waits twice and no waiter was granted more than it wants. -/
structure Orderly (ws : List Waiter) : Prop where
  distinct : (ws.map Waiter.key).Nodup
  fits : ∀ w ∈ ws, w.got ≤ w.want

namespace Orderly

theorem nil : Orderly [] := ⟨List.nodup_nil, fun _ h => absurd h List.not_mem_nil⟩

theorem grant {ws : List Waiter} (h : Orderly ws) (n : Nat) : Orderly (grant n ws).2 := by
  refine ⟨by rw [keys_grant]; exact h.distinct, ?_⟩
  have hfits := h.fits
  clear h
  induction ws generalizing n with
  | nil => exact hfits
  | cons w ws ih =>
    intro v hv
    rcases List.mem_cons.mp hv with rfl | hv
    · have hw := hfits w List.mem_cons_self
      simp only
      omega
    · exact ih _ (fun u hu => hfits u (List.mem_cons_of_mem _ hu)) v hv

/-- A waiter that is short by more than `n` may be granted `n` more. -/
theorem credit {ws : List Waiter} (h : Orderly ws) {key n : Nat} {w : Waiter}
    (hw : waiterOf key ws = some w) (hn : n ≤ w.want - w.got) : Orderly (credit key n ws) := by
  refine ⟨by rw [keys_credit]; exact h.distinct, ?_⟩
  have hfits := h.fits
  clear h
  induction ws with
  | nil => cases hw
  | cons v ws ih =>
    have hv := hfits v List.mem_cons_self
    have htail (u : Waiter) (hu : u ∈ ws) := hfits u (List.mem_cons_of_mem _ hu)
    unfold waiterOf at hw
    rw [List.find?_cons] at hw
    intro u hu
    unfold Core.credit at hu
    by_cases hk : v.key = key
    · rw [decide_eq_true hk] at hw
      cases hw
      rw [if_pos hk] at hu
      rcases List.mem_cons.mp hu with rfl | hu
      · simp only
        omega
      · exact htail u hu
    · rw [decide_eq_false hk] at hw
      rw [if_neg hk] at hu
      rcases List.mem_cons.mp hu with rfl | hu
      · exact hv
      · exact ih hw htail u hu

theorem dropWaiter {ws : List Waiter} (h : Orderly ws) (key : Nat) :
    Orderly (dropWaiter key ws) where
  distinct := ((List.eraseP_sublist (l := ws)).map Waiter.key).nodup h.distinct
  fits := fun w hw => h.fits w (List.mem_of_mem_eraseP hw)

/-- A new owner joins the end of the queue with a partial grant. -/
theorem join {ws : List Waiter} (h : Orderly ws) {key want got : Nat}
    (hw : waiterOf key ws = none) (hg : got ≤ want) : Orderly (ws ++ [⟨key, want, got⟩]) := by
  refine ⟨?_, ?_⟩
  · rw [List.map_append]
    exact List.nodup_append'.mpr ⟨h.distinct, List.nodup_singleton _,
      List.disjoint_singleton.mpr (waiterOf_eq_none.mp hw)⟩
  · intro w hw
    rcases List.mem_append.mp hw with hw | hw
    · exact h.fits w hw
    · rw [List.mem_singleton.mp hw]
      exact hg

end Orderly

/-- A semaphore with an orderly queue. -/
structure Semaphore where
  closed : Bool
  permits : Nat
  waiters : List Waiter
  orderly : Orderly waiters

namespace Semaphore

/-- An open semaphore with `n` free permits. -/
def new (n : Nat) : Semaphore := ⟨false, n, [], .nil⟩

/-- Take `n` permits at once, or report why not. -/
def tryAcquire (s : Semaphore) (n : Nat) : Except TryAcquireError Semaphore :=
  if s.closed then .error .closed
  else if n ≤ s.permits then .ok { s with permits := s.permits - n }
  else .error .noPermits

/-- Give `n` permits back: to the waiters in order, what is left becomes free. A closed
semaphore has no queue to serve. -/
def release (s : Semaphore) (n : Nat) : Semaphore :=
  if s.closed then { s with permits := s.permits + n }
  else
    { s with
      permits := s.permits + (grant n s.waiters).1
      waiters := (grant n s.waiters).2
      orderly := s.orderly.grant n }

/-- Take the owner out of the queue. -/
def forget (s : Semaphore) (key : Nat) : Semaphore :=
  { s with waiters := dropWaiter key s.waiters, orderly := s.orderly.dropWaiter key }

/-- One poll of an acquire of `n` permits. A first poll that finds too few takes them
all and queues; a later one takes what is still missing. -/
def pollAcquire (s : Semaphore) (key n : Nat) : Acquired × Semaphore :=
  if s.closed then (.closed, s)
  else
    match hw : waiterOf key s.waiters with
    | none =>
      if hn : n ≤ s.permits then (.ready, { s with permits := s.permits - n })
      else (.pending, { s with
        permits := 0
        waiters := s.waiters ++ [⟨key, n, s.permits⟩]
        orderly := s.orderly.join hw (Nat.le_of_not_le hn) })
    | some w =>
      if hn : w.want - w.got ≤ s.permits then
        (.ready, { s.forget key with permits := s.permits - (w.want - w.got) })
      else (.pending, { s with
        permits := 0
        waiters := credit key s.permits s.waiters
        orderly := s.orderly.credit hw (Nat.le_of_not_le hn) })

/-- Drop an acquire: its waiter leaves the queue and its grant is given back. -/
def cancel (s : Semaphore) (key : Nat) : Semaphore :=
  match waiterOf key s.waiters with
  | none => s
  | some w => (s.forget key).release w.got

/-- Close the semaphore: every queued waiter is woken, none is granted more. -/
def close (s : Semaphore) : Semaphore := { s with closed := true }

/-- Free permits and grants together. -/
def value (s : Semaphore) : Nat := s.permits + granted s.waiters

/-- What one owner is queued for. -/
def claim (s : Semaphore) (key : Nat) : Option Nat := claimOf key s.waiters

/-- A queued waiter is what its owner claims. -/
theorem claim_of_mem {s : Semaphore} {w : Waiter} (h : w ∈ s.waiters) :
    s.claim w.key = some w.want := by
  rw [claim, claimOf, waiterOf_of_mem s.orderly.distinct h]
  rfl

@[simp] theorem closed_close (s : Semaphore) : s.close.closed = true := rfl

@[simp] theorem closed_release (s : Semaphore) (n : Nat) : (s.release n).closed = s.closed := by
  unfold release
  split <;> rfl

/-- Permits given back are free or granted. -/
@[simp] theorem value_release (s : Semaphore) (n : Nat) : (s.release n).value = s.value + n := by
  unfold release
  split
  · simp only [value]
    omega
  · have h := granted_grant n s.waiters
    simp only [value]
    omega

/-- Giving permits back queues nobody and serves nobody out of the queue. -/
@[simp] theorem claim_release (s : Semaphore) (n key : Nat) :
    (s.release n).claim key = s.claim key := by
  unfold release
  split
  · rfl
  · exact claimOf_grant key n s.waiters

/-- An attempt on a closed semaphore fails. -/
theorem tryAcquire_closed {s : Semaphore} (h : s.closed = true) (n : Nat) :
    s.tryAcquire n = .error .closed := by
  simp [tryAcquire, h]

/-- Only a closed semaphore refuses an attempt as closed. -/
theorem closed_of_tryAcquire {s : Semaphore} {n : Nat} (h : s.tryAcquire n = .error .closed) :
    s.closed = true := by
  unfold tryAcquire at h
  split at h
  · assumption
  · split at h <;> cases h

/-- A successful attempt takes its permits out of an open semaphore. -/
theorem tryAcquire_ok {s s' : Semaphore} {n : Nat} (h : s.tryAcquire n = .ok s') :
    s.closed = false ∧ s'.closed = false ∧ s'.value + n = s.value ∧ s'.claim = s.claim := by
  unfold tryAcquire at h
  split at h
  · cases h
  · rename_i hopen
    split at h
    · rename_i hn
      cases h
      have hopen := Bool.eq_false_iff.mpr hopen
      refine ⟨hopen, hopen, ?_, rfl⟩
      simp only [value]
      omega
    · cases h

/-- A poll of a closed semaphore fails, whatever was granted before. -/
theorem pollAcquire_closed {s : Semaphore} (h : s.closed = true) (key n : Nat) :
    s.pollAcquire key n = (.closed, s) := by
  simp [pollAcquire, h]

/-- Only a closed semaphore fails a poll. -/
theorem closed_of_pollAcquire {s s' : Semaphore} {key n : Nat}
    (h : s.pollAcquire key n = (.closed, s')) : s.closed = true := by
  unfold pollAcquire at h
  split at h
  · assumption
  · split at h <;> split at h <;> cases h

/-- A poll neither opens nor closes. -/
@[simp] theorem closed_pollAcquire (s : Semaphore) (key n : Nat) :
    (s.pollAcquire key n).2.closed = s.closed := by
  unfold pollAcquire
  split
  · rfl
  · split <;> split <;> rfl

/-- What a poll of `n` permits by an owner queued for `n` or not queued does. -/
theorem pollAcquire_cases {s : Semaphore} {key n : Nat}
    (hc : s.claim key = none ∨ s.claim key = some n) :
    (s.closed = true ∧ s.pollAcquire key n = (.closed, s)) ∨
      (s.closed = false ∧ ∃ s', s.pollAcquire key n = (.pending, s') ∧ s'.closed = false ∧
        s'.value = s.value ∧ ∀ k, s'.claim k = if k = key then some n else s.claim k) ∨
      (s.closed = false ∧ ∃ s', s.pollAcquire key n = (.ready, s') ∧ s'.closed = false ∧
        s'.value + n = s.value ∧ ∀ k, s'.claim k = if k = key then none else s.claim k) := by
  by_cases hclosed : s.closed = true
  · exact Or.inl ⟨hclosed, pollAcquire_closed hclosed key n⟩
  have hopen := Bool.eq_false_iff.mpr hclosed
  right
  unfold pollAcquire
  rw [if_neg hclosed]
  split
  · rename_i hw
    have hnone : claimOf key s.waiters = none := by rw [claimOf, hw]; rfl
    split
    · rename_i hn
      refine Or.inr ⟨hopen, _, rfl, hopen, ?_, fun k => ?_⟩
      · simp only [value]
        omega
      · by_cases hk : k = key
        · rw [if_pos hk, hk]
          exact hnone
        · rw [if_neg hk]
          rfl
    · refine Or.inl ⟨hopen, _, rfl, hopen, ?_, fun k => ?_⟩
      · simp only [value, granted, List.map_append, List.map_cons, List.map_nil, List.sum_append,
          List.sum_cons, List.sum_nil]
        omega
      · rw [claim, claimOf_append]
        by_cases hk : k = key
        · subst hk
          rw [hnone, if_pos rfl, if_pos rfl]
          rfl
        · rw [if_neg (Ne.symm hk), if_neg hk, Option.or_none]
          rfl
  · rename_i w hw
    have hwant : w.want = n := by
      rcases hc with hc | hc
      · rw [claim, claimOf, hw] at hc
        cases hc
      · rw [claim, claimOf, hw] at hc
        exact Option.some.inj hc
    have hdrop := granted_dropWaiter hw
    have hmem : w ∈ s.waiters := List.mem_of_find?_eq_some hw
    have hfits := s.orderly.fits w hmem
    split
    · rename_i hn
      refine Or.inr ⟨hopen, _, rfl, hopen, ?_, fun k => ?_⟩
      · simp only [value, forget]
        omega
      · by_cases hk : k = key
        · rw [if_pos hk, hk]
          simp only [claim, forget, claimOf, waiterOf_dropWaiter_self s.orderly.distinct]
          rfl
        · rw [if_neg hk]
          exact claimOf_dropWaiter_of_ne hk s.waiters
    · have hkey : key ∈ s.waiters.map Waiter.key := by
        by_contra hno
        rw [waiterOf_eq_none.mpr hno] at hw
        cases hw
      refine Or.inl ⟨hopen, _, rfl, hopen, ?_, fun k => ?_⟩
      · simp only [value, granted_credit hkey]
        omega
      · rw [claim, claimOf_credit]
        by_cases hk : k = key
        · rw [if_pos hk, hk, claimOf, hw, ← hwant]
          rfl
        · rw [if_neg hk]
          rfl

@[simp] theorem closed_cancel (s : Semaphore) (key : Nat) : (s.cancel key).closed = s.closed := by
  unfold cancel
  split
  · rfl
  · rw [closed_release]
    rfl

/-- Dropping an acquire gives back exactly what it was granted. -/
@[simp] theorem value_cancel (s : Semaphore) (key : Nat) : (s.cancel key).value = s.value := by
  unfold cancel
  split
  · rfl
  · rename_i w hw
    have h := granted_dropWaiter hw
    rw [value_release]
    simp only [value, forget]
    omega

/-- Dropping an acquire removes its own claim alone. -/
theorem claim_cancel (s : Semaphore) (key k : Nat) :
    (s.cancel key).claim k = if k = key then none else s.claim k := by
  unfold cancel
  split
  · rename_i hw
    by_cases hk : k = key
    · rw [if_pos hk, hk, claim, claimOf, hw]
      rfl
    · rw [if_neg hk]
  · rw [claim_release]
    by_cases hk : k = key
    · rw [if_pos hk, hk]
      simp only [claim, forget, claimOf, waiterOf_dropWaiter_self s.orderly.distinct]
      rfl
    · rw [if_neg hk]
      exact claimOf_dropWaiter_of_ne hk s.waiters

end Semaphore

end Uring.Core
