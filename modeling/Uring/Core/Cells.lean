import Mathlib.Algebra.BigOperators.Group.List.Basic
import Mathlib.Algebra.GroupWithZero.Nat
import Mathlib.Algebra.Order.Group.Nat
import Mathlib.Data.List.Forall2
import Mathlib.Tactic.Common

/-!
# Updating one cell of a list

A system with a fixed row of components changes one of them at a time. Reading a cell
back gives the changed one or an untouched one, a sum over the cells changes by the
changed cell alone, and a relation that holds of each cell holds of the row.
-/

namespace Uring.Core

variable {α β : Type}

/-- A cell after the update of cell `k` is the changed cell `k` or another cell as it was. -/
theorem getElem?_modify_cases {l : List α} {k j : Nat} {f : α → α} {b : α}
    (h : (l.modify k f)[j]? = some b) :
    (j = k ∧ ∃ a, l[k]? = some a ∧ b = f a) ∨ (j ≠ k ∧ l[j]? = some b) := by
  rw [List.getElem?_modify] at h
  obtain ⟨a, ha, hb⟩ := Option.map_eq_some_iff.mp h
  by_cases hk : k = j
  · subst hk
    rw [if_pos rfl] at hb
    exact Or.inl ⟨rfl, a, ha, hb.symm⟩
  · rw [if_neg hk] at hb
    exact Or.inr ⟨Ne.symm hk, hb ▸ ha⟩

/-- Every cell of an updated row is the changed one or was there before. -/
theorem mem_modify_cases {l : List α} {k : Nat} {f : α → α} {b : α} (h : b ∈ l.modify k f) :
    (∃ a, l[k]? = some a ∧ b = f a) ∨ b ∈ l := by
  obtain ⟨j, hj⟩ := List.mem_iff_getElem?.mp h
  rcases getElem?_modify_cases hj with ⟨_, hk⟩ | ⟨_, hj⟩
  · exact Or.inl hk
  · exact Or.inr (List.mem_of_getElem? hj)

/-- A cell of a row with one more is the new last one or was there before. -/
theorem getElem?_concat_cases {l : List α} {a b : α} {k : Nat} (h : (l ++ [a])[k]? = some b) :
    l[k]? = some b ∨ (k = l.length ∧ b = a) := by
  by_cases hk : k < l.length
  · rw [List.getElem?_append_left hk] at h
    exact Or.inl h
  · rw [List.getElem?_append_right (not_lt.mp hk), List.getElem?_singleton] at h
    split at h
    · rename_i hz
      exact Or.inr ⟨by omega, (Option.some.inj h).symm⟩
    · cases h

/-- A sum over the cells exchanges the weight of the changed one. -/
theorem sum_modify (g : α → Nat) {l : List α} {k : Nat} {a : α} (f : α → α)
    (h : l[k]? = some a) :
    ((l.modify k f).map g).sum + g a = (l.map g).sum + g (f a) := by
  induction l generalizing k with
  | nil => cases h
  | cons x l ih =>
    cases k with
    | zero =>
      cases h
      simp only [List.modify_zero_cons, List.map_cons, List.sum_cons]
      omega
    | succ k =>
      have hrest := ih h
      simp only [List.modify_succ_cons, List.map_cons, List.sum_cons]
      omega

/-- What the change of a cell keeps is kept along the row. -/
theorem map_modify_of_eq {g : α → β} {f : α → α} (h : ∀ a, g (f a) = g a) (l : List α) (k : Nat) :
    (l.modify k f).map g = l.map g := by
  induction l generalizing k with
  | nil => rw [List.modify_nil]
  | cons x l ih =>
    cases k with
    | zero => rw [List.modify_zero_cons, List.map_cons, List.map_cons, h]
    | succ k => rw [List.modify_succ_cons, List.map_cons, List.map_cons, ih]

/-- A change of a cell that a map carries over is the change of the mapped cell. -/
theorem map_modify_comm {g : α → β} {f : α → α} {f' : β → β} (h : ∀ a, g (f a) = f' (g a))
    (l : List α) (k : Nat) : (l.modify k f).map g = (l.map g).modify k f' := by
  induction l generalizing k with
  | nil => rw [List.modify_nil, List.map_nil, List.modify_nil]
  | cons x l ih =>
    cases k with
    | zero =>
      rw [List.modify_zero_cons, List.map_cons, List.map_cons, List.modify_zero_cons, h]
    | succ k =>
      rw [List.modify_succ_cons, List.map_cons, List.map_cons, List.modify_succ_cons, ih]

/-- A reflexive relation kept by the changed cell is kept by the row. -/
theorem forall₂_modify {R : α → α → Prop} (hrefl : ∀ a, R a a) {l : List α} {k : Nat} {f : α → α}
    (h : ∀ a, l[k]? = some a → R a (f a)) : List.Forall₂ R l (l.modify k f) := by
  induction l generalizing k with
  | nil =>
    rw [List.modify_nil]
    exact .nil
  | cons x l ih =>
    cases k with
    | zero => exact .cons (h x rfl) (List.forall₂_same.mpr fun a _ => hrefl a)
    | succ k => exact .cons (hrefl x) (ih h)

/-- Related rows stay related when the cell at `k` changes to a related one. -/
theorem forall₂_modify_at {R : α → β → Prop} {l : List α} {l' : List β}
    (h : List.Forall₂ R l l') {k : Nat} {f : β → β}
    (hf : ∀ a b, l[k]? = some a → l'[k]? = some b → R a b → R a (f b)) :
    List.Forall₂ R l (l'.modify k f) := by
  induction h generalizing k with
  | nil =>
    rw [List.modify_nil]
    exact .nil
  | cons hr hrest ih =>
    cases k with
    | zero => exact .cons (hf _ _ rfl rfl hr) hrest
    | succ k => exact .cons hr (ih fun a b ha hb => hf a b ha hb)

/-- Related rows stay related when one cell changes within the relation. -/
theorem forall₂_modify_right {R : α → β → Prop} {l : List α} {l' : List β}
    (h : List.Forall₂ R l l') {k : Nat} {f : β → β} (hf : ∀ a b, R a b → R a (f b)) :
    List.Forall₂ R l (l'.modify k f) :=
  forall₂_modify_at h fun a b _ _ => hf a b

/-- Related rows have related cells at each position. -/
theorem forall₂_getElem? {R : α → β → Prop} {l : List α} {l' : List β} (h : List.Forall₂ R l l')
    {k : Nat} {b : β} (hb : l'[k]? = some b) : ∃ a, l[k]? = some a ∧ R a b := by
  induction h generalizing k with
  | nil => cases hb
  | cons hr _ ih =>
    cases k with
    | zero =>
      cases hb
      exact ⟨_, rfl, hr⟩
    | succ k => exact ih hb

/-- A weight kept by every cell keeps its sum. -/
theorem sum_forall₂ {R : α → β → Prop} {f : α → Nat} {g : β → Nat} {l : List α} {l' : List β}
    (h : List.Forall₂ R l l') (hfg : ∀ a b, R a b → g b = f a) :
    (l'.map g).sum = (l.map f).sum := by
  induction h with
  | nil => rfl
  | cons hr _ ih =>
    rw [List.map_cons, List.map_cons, List.sum_cons, List.sum_cons, ih, hfg _ _ hr]

/-- Rows related cell by cell read the same where related cells do. -/
theorem map_eq_of_forall₂ {γ : Type} {R : α → β → Prop} {f : α → γ} {g : β → γ} {l : List α}
    {l' : List β} (h : List.Forall₂ R l l') (hfg : ∀ a b, R a b → g b = f a) :
    l'.map g = l.map f := by
  induction h with
  | nil => rfl
  | cons hab _ ih => rw [List.map_cons, List.map_cons, ih, hfg _ _ hab]

end Uring.Core
