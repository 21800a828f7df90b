import Mathlib.Algebra.GroupWithZero.Nat
import Uring.Core.Cells

/-!
# A pool shared by receipts

A receipt stands for a part of a pool's capacity and is shared by any number of owners.
The part returns to the pool when the last of them lets go, and a receipt without owners
has nobody left to share it again.
-/

namespace Uring.Core

/-- A part of a pool and the number of its owners. -/
structure Receipt where
  weight : Nat
  owners : Nat
  deriving DecidableEq, Repr

/-- What a receipt keeps from its pool. -/
def Receipt.kept (r : Receipt) : Nat := if r.owners = 0 then 0 else r.weight

/-- What receipts keep together. -/
def outstanding (rs : List Receipt) : Nat := (rs.map Receipt.kept).sum

/-- A pool whose receipts fit into it. -/
structure Pool where
  capacity : Nat
  receipts : List Receipt
  fits : outstanding receipts ≤ capacity

theorem outstanding_concat (rs : List Receipt) (r : Receipt) :
    outstanding (rs ++ [r]) = outstanding rs + r.kept := by
  simp [outstanding]

/-- Recounting one receipt changes what it keeps and nothing else. -/
theorem outstanding_modify {rs : List Receipt} {i : Nat} {r : Receipt} (f : Receipt → Receipt)
    (h : rs[i]? = some r) : outstanding (rs.modify i f) + r.kept = outstanding rs + (f r).kept :=
  sum_modify Receipt.kept f h

namespace Pool

/-- The part of the pool that no receipt keeps. -/
def free (p : Pool) : Nat := p.capacity - outstanding p.receipts

theorem free_add_outstanding (p : Pool) : p.free + outstanding p.receipts = p.capacity :=
  Nat.sub_add_cancel p.fits

/-- Hand out a new receipt to its first owner. -/
def reserve (p : Pool) (w : Nat) (h : w ≤ p.free) : Pool where
  capacity := p.capacity
  receipts := p.receipts ++ [⟨w, 1⟩]
  fits := by
    have hsum := p.free_add_outstanding
    rw [outstanding_concat]
    simp only [Receipt.kept, if_neg Nat.one_ne_zero]
    omega

/-- The owners of receipt `i` become `n`. -/
def recount (p : Pool) (i n : Nat) (h : ∀ r, p.receipts[i]? = some r → r.owners = 0 → n = 0) :
    Pool where
  capacity := p.capacity
  receipts := p.receipts.modify i fun r => { r with owners := n }
  fits := by
    cases hr : p.receipts[i]? with
    | none => rw [List.modify_eq_self (List.getElem?_eq_none_iff.mp hr)]; exact p.fits
    | some r =>
      have hsum := outstanding_modify (fun r => { r with owners := n }) hr
      have hfits := p.fits
      have hless : ({ r with owners := n } : Receipt).kept ≤ r.kept := by
        simp only [Receipt.kept]
        have := h r hr
        split_ifs <;> omega
      omega

@[simp] theorem reserve_capacity (p : Pool) (w : Nat) (h : w ≤ p.free) :
    (p.reserve w h).capacity = p.capacity := rfl

@[simp] theorem reserve_receipts (p : Pool) (w : Nat) (h : w ≤ p.free) :
    (p.reserve w h).receipts = p.receipts ++ [⟨w, 1⟩] := rfl

/-- A new receipt takes its weight from what was free. -/
theorem free_reserve (p : Pool) (w : Nat) (h : w ≤ p.free) : (p.reserve w h).free + w = p.free := by
  have hsum := p.free_add_outstanding
  have hsum' := (p.reserve w h).free_add_outstanding
  rw [reserve_receipts, reserve_capacity, outstanding_concat] at hsum'
  simp only [Receipt.kept, if_neg Nat.one_ne_zero] at hsum'
  omega

variable {p : Pool} {i n : Nat} {h : ∀ r, p.receipts[i]? = some r → r.owners = 0 → n = 0}

@[simp] theorem recount_capacity : (p.recount i n h).capacity = p.capacity := rfl

@[simp] theorem recount_receipts :
    (p.recount i n h).receipts = p.receipts.modify i fun r => { r with owners := n } := rfl

/-- The last owner gives the receipt's whole weight back, and any other owner nothing. -/
theorem free_recount {r : Receipt} (hr : p.receipts[i]? = some r) :
    (p.recount i n h).free = p.free + (if 0 < r.owners ∧ n = 0 then r.weight else 0) := by
  have hsum := p.free_add_outstanding
  have hsum' := (p.recount i n h).free_add_outstanding
  have hmod := outstanding_modify (fun r => { r with owners := n }) hr
  have hdead := h r hr
  rw [recount_receipts, recount_capacity] at hsum'
  simp only [Receipt.kept] at hmod
  split_ifs at hmod ⊢ <;> omega

/-- A receipt is handed out or recounted, or the pool stays as it is. -/
inductive Step (p : Pool) : Pool → Prop
  | idle : Step p p
  | reserve (w : Nat) (h : w ≤ p.free) : Step p (p.reserve w h)
  | recount (i n : Nat) (h : ∀ r, p.receipts[i]? = some r → r.owners = 0 → n = 0) :
      Step p (p.recount i n h)

end Pool

end Uring.Core
