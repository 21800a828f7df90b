import Mathlib.Data.List.AList
import Mathlib.Algebra.GroupWithZero.Nat
import Mathlib.Algebra.Order.BigOperators.Group.List
import Mathlib.Algebra.Order.Group.Nat
import Mathlib.Tactic.Common

/-!
# Finite tables keyed by numbers

A hash map is modelled by an association list with distinct keys. Iteration
order carries no meaning, so overwriting may move an entry. Weighted totals of
the stored values follow every insertion, overwrite and removal exactly.
-/

/-- A finite map from numbers to `α`; distinctness of keys is part of the type. -/
abbrev Uring.Core.Table (α : Type) := AList fun _ : Nat => α

namespace AList

open Uring.Core (Table)

variable {α : Type}

/-- The sum of one weight per stored value. -/
def total (f : α → Nat) (t : Table α) : Nat := (t.entries.map fun e => f e.2).sum

/-- Number of stored entries. -/
def size (t : Table α) : Nat := t.keys.length

/-- Apply `f` to every stored value. -/
def mapVal (f : α → α) (t : Table α) : Table α where
  entries := t.entries.map fun e => ⟨e.1, f e.2⟩
  nodupKeys := by
    have h := t.nodupKeys
    simp only [List.NodupKeys, List.keys, List.map_map] at h ⊢
    exact h

@[simp] theorem total_empty (f : α → Nat) : total f (∅ : Table α) = 0 := rfl

theorem size_eq_total (t : Table α) : t.size = t.total fun _ => 1 := by
  simp [size, total, AList.keys, List.keys]

theorem mem_iff_lookup {t : Table α} {k : Nat} : k ∈ t ↔ ∃ v, t.lookup k = some v := by
  rw [← AList.lookup_isSome, Option.isSome_iff_exists]

theorem mem_of_lookup {t : Table α} {k : Nat} {v : α} (h : t.lookup k = some v) : k ∈ t :=
  mem_iff_lookup.mpr ⟨v, h⟩

theorem entries_erase (t : Table α) (k : Nat) : (t.erase k).entries = t.entries.kerase k := rfl

/-- A stored entry is one entry of the table beside the erased remainder. -/
theorem entries_perm_erase {t : Table α} {k : Nat} {v : α} (h : t.lookup k = some v) :
    t.entries.Perm (⟨k, v⟩ :: (t.erase k).entries) := by
  have hk : k ∈ t.entries.keys := mem_of_lookup h
  obtain ⟨w, before, after, hb, he, her⟩ := List.exists_of_kerase hk
  have hw : w = v := by
    have hl : List.dlookup k t.entries = some v := h
    have hm : (⟨k, w⟩ : Sigma fun _ : Nat => α) ∈ t.entries := by rw [he]; simp
    exact Option.some.inj ((List.mem_dlookup t.nodupKeys hm).symm.trans hl)
  subst hw
  rw [entries_erase, her]
  rw [he]
  exact List.perm_middle

/-- Overwriting adds no key. -/
theorem mem_overwrite {t : Table α} {k : Nat} (v : α) (h : k ∈ t) (j : Nat) :
    j ∈ t.insert k v ↔ j ∈ t := by
  refine (AList.mem_insert _).trans ⟨?_, Or.inr⟩
  rintro (rfl | hj)
  · exact h
  · exact hj

/-- Overwriting keeps the keys, possibly in another order. -/
theorem keys_overwrite {t : Table α} {k : Nat} (v : α) (h : k ∈ t) :
    (t.insert k v).keys.Perm t.keys := by
  rw [AList.keys_insert]
  exact (List.perm_cons_erase (AList.mem_keys.mp h)).symm

/-- Removing a stored entry splits exactly its weight off the total. -/
theorem total_erase (f : α → Nat) {t : Table α} {k : Nat} {v : α} (h : t.lookup k = some v) :
    t.total f = f v + (t.erase k).total f := by
  have hp := ((entries_perm_erase h).map fun e => f e.2).sum_eq
  simpa only [total, List.map_cons, List.sum_cons] using hp

/-- A fresh entry adds exactly its weight. -/
theorem total_insert_of_notMem (f : α → Nat) {t : Table α} {k : Nat} (v : α) (h : k ∉ t) :
    (t.insert k v).total f = f v + t.total f := by
  simp only [total, AList.entries_insert_of_notMem h, List.map_cons, List.sum_cons]

/-- Inserting always leaves the new weight beside the erased remainder. -/
theorem total_insert (f : α → Nat) (t : Table α) (k : Nat) (v : α) :
    (t.insert k v).total f = f v + (t.erase k).total f := by
  simp only [total, AList.entries_insert, entries_erase, List.map_cons, List.sum_cons]

/-- Overwriting a stored entry exchanges the old weight for the new one. -/
theorem total_overwrite (f : α → Nat) {t : Table α} {k : Nat} {v : α} (w : α)
    (h : t.lookup k = some v) : (t.insert k w).total f + f v = t.total f + f w := by
  have he := total_erase f h
  rw [total_insert]
  omega

/-- Replacing or removing an entry exchanges its weight. -/
theorem total_put (f : α → Nat) {t : Table α} {k : Nat} {v : α} (h : t.lookup k = some v)
    (w : Option α) :
    (match w with
      | none => t.erase k
      | some w => t.insert k w).total f + f v = t.total f + w.elim 0 f := by
  cases w with
  | none =>
    have := total_erase f h
    simp only [Option.elim_none]
    omega
  | some w => exact total_overwrite f w h

theorem size_insert_of_notMem {t : Table α} {k : Nat} (v : α) (h : k ∉ t) :
    (t.insert k v).size = t.size + 1 := by
  simp only [size_eq_total, total_insert_of_notMem _ v h]
  omega

theorem size_erase {t : Table α} {k : Nat} {v : α} (h : t.lookup k = some v) :
    t.size = (t.erase k).size + 1 := by
  simp only [size_eq_total, total_erase _ h]
  omega

@[simp] theorem keys_mapVal (f : α → α) (t : Table α) : (t.mapVal f).keys = t.keys := by
  simp [mapVal, AList.keys, List.keys]

@[simp] theorem mem_mapVal (f : α → α) (t : Table α) (k : Nat) : k ∈ t.mapVal f ↔ k ∈ t := by
  simp only [AList.mem_keys, keys_mapVal]

/-- Looking up a mapped table maps the stored value. -/
@[simp] theorem lookup_mapVal (f : α → α) (t : Table α) (k : Nat) :
    (t.mapVal f).lookup k = (t.lookup k).map f := by
  have h := List.dlookup_map₂ (l := t.entries) (f := fun _ : Nat => f) k
  exact h

/-- Every stored weight is bounded by the total. -/
theorem le_total (f : α → Nat) {t : Table α} {k : Nat} {v : α} (h : t.lookup k = some v) :
    f v ≤ t.total f := by
  rw [total_erase f h]
  omega

/-- Pointwise bounds on the stored values bound the totals. -/
theorem total_le_total {f g : α → Nat} (t : Table α)
    (h : ∀ k v, t.lookup k = some v → f v ≤ g v) : t.total f ≤ t.total g := by
  apply List.sum_le_sum
  intro e he
  apply h e.1 e.2
  exact List.mem_dlookup t.nodupKeys he

/-- A total vanishes when every stored value contributes nothing. -/
theorem total_eq_zero_iff {f : α → Nat} {t : Table α} :
    t.total f = 0 ↔ ∀ k v, t.lookup k = some v → f v = 0 := by
  constructor
  · intro h k v hv
    exact Nat.le_zero.mp (h ▸ le_total f hv)
  · intro h
    refine List.sum_eq_zero fun n hn => ?_
    obtain ⟨e, he, rfl⟩ := List.mem_map.mp hn
    exact h e.1 e.2 (List.mem_dlookup t.nodupKeys he)

/-- What `f` reads off the stored values. -/
def collect {β : Type} (f : α → Option β) (t : Table α) : List β :=
  t.entries.filterMap fun e => f e.2

section Collect

variable {β : Type} {f : α → Option β} {t : Table α} {k : Nat} {v : α}

theorem collect_insert (w : α) (h : k ∉ t) :
    (t.insert k w).collect f = (f w).toList ++ t.collect f := by
  simp only [collect, AList.entries_insert_of_notMem h, List.filterMap_cons]
  cases f w <;> rfl

/-- Removing an entry takes out what was read off it. -/
theorem collect_erase (h : t.lookup k = some v) :
    (t.collect f).Perm ((f v).toList ++ (t.erase k).collect f) := by
  have hp := (entries_perm_erase h).filterMap fun e => f e.2
  simp only [List.filterMap_cons] at hp
  refine hp.trans (List.Perm.of_eq ?_)
  cases f v <;> rfl

/-- Overwriting an entry by one that reads the same keeps the collection. -/
theorem collect_overwrite (w : α) (h : t.lookup k = some v) (hf : f w = f v) :
    ((t.insert k w).collect f).Perm (t.collect f) := by
  have hw : (t.insert k w).lookup k = some w := AList.lookup_insert t
  have herase : (t.insert k w).erase k = t.erase k := by
    apply AList.ext
    simp only [entries_erase, AList.entries_insert]
    exact List.kerase_cons_eq rfl
  have hnew := collect_erase (f := f) hw
  rw [herase, hf] at hnew
  exact hnew.trans (collect_erase h).symm

end Collect

theorem size_eq_zero_iff {t : Table α} : t.size = 0 ↔ ∀ k, k ∉ t := by
  simp only [size, List.length_eq_zero_iff, AList.mem_keys, List.eq_nil_iff_forall_not_mem]

/-- Every stored entry satisfies `P`. -/
def All (P : Nat → α → Prop) (t : Table α) : Prop := ∀ k v, t.lookup k = some v → P k v

variable {P : Nat → α → Prop} {t : Table α}

theorem all_empty : (∅ : Table α).All P := by
  intro k v h
  simp at h

/-- Inserting adds one obligation. -/
theorem All.insert (h : t.All P) {k : Nat} {v : α} (hv : P k v) : (t.insert k v).All P := by
  intro j w hw
  by_cases hj : j = k
  · subst hj
    rw [AList.lookup_insert] at hw
    exact Option.some.inj hw ▸ hv
  · rw [AList.lookup_insert_ne hj] at hw
    exact h j w hw

theorem All.erase (h : t.All P) (k : Nat) : (t.erase k).All P := by
  intro j w hw
  by_cases hj : j = k
  · subst hj
    rw [AList.lookup_erase] at hw
    cases hw
  · rw [AList.lookup_erase_ne hj] at hw
    exact h j w hw

/-- Mapping replaces every obligation by one about the mapped value. -/
theorem All.mapVal {f : α → α} (h : ∀ k v, t.lookup k = some v → P k (f v)) :
    (t.mapVal f).All P := by
  intro k w hw
  rw [lookup_mapVal] at hw
  obtain ⟨v, hv, rfl⟩ := Option.map_eq_some_iff.mp hw
  exact h k v hv

end AList
