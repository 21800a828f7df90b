import Mathlib.Order.WellFounded
import Uring.Core.Run

/-!
# What infinite runs lead to

An execution is an infinite run with its states. One predicate leads to another along a
sequence of states if the second holds at or after every moment at which the first does. A
predicate that is left only for its goal and does not hold forever without it leads to the
goal, and so does a family of predicates that leads to smaller members of itself. Executions
of a system that reaches a cycle are built from the two finite runs.
-/

namespace Uring.Core

variable {σ ε : Type} {step : σ → ε → Option σ} {ok : σ → ε → Prop} {init : σ}

/-- An infinite run of admitted labels, with its states. -/
structure Execution (step : σ → ε → Option σ) (ok : σ → ε → Prop) (init : σ) where
  state : Nat → σ
  label : Nat → ε
  start : state 0 = init
  admitted (n : Nat) : ok (state n) (label n)
  next (n : Nat) : step (state n) (label n) = some (state (n + 1))

/-- Every state of an execution is reachable. -/
theorem Execution.reachable (x : Execution step ok init) (n : Nat) :
    Reachable step ok init (x.state n) := by
  induction n with
  | zero =>
    rw [x.start]
    exact .start
  | succ n ih => exact ih.next (x.admitted n) (x.next n)

/-- A later state is reached from an earlier one. -/
theorem Execution.reaches (x : Execution step ok init) {n m : Nat} (hnm : n ≤ m) :
    Reachable step ok (x.state n) (x.state m) := by
  induction m, hnm using Nat.le_induction with
  | base => exact .start
  | succ m _ ih => exact ih.next (x.admitted m) (x.next m)

/-- An execution under a weaker condition. -/
def Execution.mono {ok' : σ → ε → Prop} (x : Execution step ok init)
    (hok : ∀ s e, ok s e → ok' s e) : Execution step ok' init where
  state := x.state
  label := x.label
  start := x.start
  admitted n := hok _ _ (x.admitted n)
  next := x.next

/-- At or after every moment at which `P` holds, `Q` holds. -/
def LeadsTo (x : Nat → σ) (P Q : σ → Prop) : Prop := ∀ n, P (x n) → ∃ m, n ≤ m ∧ Q (x m)

namespace LeadsTo

variable {x : Nat → σ} {P Q R : σ → Prop}

theorem trans (h : LeadsTo x P Q) (h' : LeadsTo x Q R) : LeadsTo x P R := by
  intro n hn
  obtain ⟨m, hm, hq⟩ := h n hn
  obtain ⟨k, hk, hr⟩ := h' m hq
  exact ⟨k, hm.trans hk, hr⟩

/-- Where one of two goals leads to the other, the other is reached. -/
theorem or_trans (h : LeadsTo x P fun s => Q s ∨ R s) (h' : LeadsTo x R Q) : LeadsTo x P Q := by
  intro n hn
  obtain ⟨m, hm, hq | hr⟩ := h n hn
  · exact ⟨m, hm, hq⟩
  · obtain ⟨k, hk, hq⟩ := h' m hr
    exact ⟨k, hm.trans hk, hq⟩

theorem of_exists {α : Type} {P : α → σ → Prop} (h : ∀ a, LeadsTo x (P a) Q) :
    LeadsTo x (fun s => ∃ a, P a s) Q := fun n ⟨a, hn⟩ => h a n hn

/-- The progress rule: a predicate that is left only for its goal, and does not hold forever
without the goal, leads to it. -/
theorem of_unless (hstep : ∀ n, P (x n) → Q (x (n + 1)) ∨ P (x (n + 1)))
    (hhelp : ∀ n, (∀ m, n ≤ m → P (x m)) → ∃ m, n ≤ m ∧ Q (x m)) : LeadsTo x P Q := by
  intro n hn
  by_contra hnever
  have hno : ∀ m, n ≤ m → ¬ Q (x m) := fun m hm hq => hnever ⟨m, hm, hq⟩
  have hstays : ∀ m, n ≤ m → P (x m) := by
    intro m hm
    induction m, hm using Nat.le_induction with
    | base => exact hn
    | succ m hm ih => exact (hstep m ih).resolve_left (hno (m + 1) (Nat.le_succ_of_le hm))
  exact hnever (hhelp n hstays)

/-- The variant rule: a family of predicates that leads to the goal or to a smaller member of
itself leads to the goal. -/
theorem of_variant {α : Type} [LT α] [WellFoundedLT α] {P : α → σ → Prop}
    (h : ∀ a, LeadsTo x (P a) fun s => Q s ∨ ∃ b, b < a ∧ P b s) (a : α) : LeadsTo x (P a) Q := by
  induction a using WellFoundedLT.induction with
  | ind a ih =>
    intro n hn
    obtain ⟨m, hm, hq | ⟨b, hb, hp⟩⟩ := h a n hn
    · exact ⟨m, hm, hq⟩
    · obtain ⟨k, hk, hq⟩ := ih b hb m hp
      exact ⟨k, hm.trans hk, hq⟩

end LeadsTo

/-- The rule of one fair action: what every other action keeps, and this one ends with the goal,
leads to the goal. -/
theorem Execution.leadsTo (x : Execution step ok init) {P Q : σ → Prop} {A : ε → Prop}
    (hother : ∀ n, P (x.state n) → ¬ A (x.label n) → P (x.state (n + 1)))
    (hmine : ∀ n, P (x.state n) → A (x.label n) → Q (x.state (n + 1)))
    (hfair : ∀ n, (∀ m, n ≤ m → P (x.state m)) → ∃ m, n ≤ m ∧ A (x.label m)) :
    LeadsTo x.state P Q := by
  refine LeadsTo.of_unless (fun n hn => ?_) fun n hforever => ?_
  · by_cases hm : A (x.label n)
    · exact Or.inl (hmine n hn hm)
    · exact Or.inr (hother n hn hm)
  · obtain ⟨m, hm, hlabel⟩ := hfair n hforever
    exact ⟨m + 1, by omega, hmine m (hforever m hm) hlabel⟩

/-- A measure that no step increases does not go down forever. -/
theorem not_always_drops {α : Type} [Preorder α] [WellFoundedLT α] (μ : Nat → α) {n : Nat}
    (hle : ∀ m, n ≤ m → μ (m + 1) ≤ μ m)
    (hdrop : ∀ k, n ≤ k → ∃ m, k ≤ m ∧ μ (m + 1) < μ m) : False := by
  have hmono (k : Nat) (hk : n ≤ k) : ∀ m, k ≤ m → μ m ≤ μ k := by
    intro m hm
    induction m, hm using Nat.le_induction with
    | base => exact le_refl _
    | succ m hm ih => exact (hle m (hk.trans hm)).trans ih
  -- induction on the value of the measure
  suffices h : ∀ a k, n ≤ k → μ k = a → False from h (μ n) n (le_refl n) rfl
  intro a
  induction a using WellFoundedLT.induction with
  | ind a ih =>
    rintro k hk rfl
    obtain ⟨m, hm, hlt⟩ := hdrop k hk
    exact ih (μ (m + 1)) (hlt.trans_le (hmono k hk m hm)) (m + 1) (by omega) rfl

section Lasso

/-- The position of moment `n` in a run of `p` labels followed by a cycle of `c`. -/
def lassoIndex (p c n : Nat) : Nat := if n < p then n else p + (n - p) % c

variable {p c n : Nat}

theorem lassoIndex_lt (hc : 0 < c) : lassoIndex p c n < p + c := by
  unfold lassoIndex
  split
  · omega
  · have := Nat.mod_lt (n - p) hc
    omega

/-- Behind the run every position is in the cycle. -/
theorem le_lassoIndex (hn : p ≤ n) : p ≤ lassoIndex p c n := by
  unfold lassoIndex
  split <;> omega

/-- The next position follows, or the cycle starts again. -/
theorem lassoIndex_succ (hc : 0 < c) : lassoIndex p c (n + 1) = lassoIndex p c n + 1 ∨
    lassoIndex p c n + 1 = p + c ∧ lassoIndex p c (n + 1) = p := by
  unfold lassoIndex
  by_cases hn : n + 1 < p
  · rw [if_pos hn, if_pos (by omega)]
    exact Or.inl rfl
  · rw [if_neg hn]
    by_cases hlt : n < p
    · rw [if_pos hlt, show n + 1 - p = 0 by omega, Nat.zero_mod]
      exact Or.inl (by omega)
    · rw [if_neg hlt, show n + 1 - p = n - p + 1 by omega]
      have hmod := Nat.mod_lt (n - p) hc
      rw [← Nat.mod_add_mod]
      by_cases hlast : (n - p) % c + 1 = c
      · rw [hlast, Nat.mod_self]
        exact Or.inr ⟨by omega, rfl⟩
      · rw [Nat.mod_eq_of_lt (by omega)]
        exact Or.inl rfl

/-- Every position of the cycle comes up again and again. -/
theorem lassoIndex_recurs {k : Nat} (hk : k < c) (n : Nat) :
    ∃ m, n ≤ m ∧ lassoIndex p c m = p + k := by
  refine ⟨p + c * n + k, ?_, ?_⟩
  · have : n ≤ c * n := Nat.le_mul_of_pos_left n (by omega)
    omega
  · rw [lassoIndex, if_neg (by omega), show p + c * n + k - p = c * n + k by omega,
      Nat.mul_add_mod, Nat.mod_eq_of_lt hk]

variable {s t u : σ} {es pre cyc : List ε}

theorem run_take (h : run step s es = some t) (k : Nat) : ∃ u, run step s (es.take k) = some u := by
  rw [← List.take_append_drop k es, run_append, Option.bind_eq_some_iff] at h
  obtain ⟨u, hu, _⟩ := h
  exact ⟨u, hu⟩

/-- A run goes on with its next label. -/
theorem run_take_succ {k : Nat} (hk : k < es.length) (h : run step s (es.take k) = some u) :
    run step s (es.take (k + 1)) = step u es[k] := by
  rw [List.take_succ_eq_append_getElem hk, run_append, h, Option.bind_some, run]
  cases step u es[k] <;> rfl

theorem Admitted.getElem (ha : Admitted step ok s es) {k : Nat} (hk : k < es.length)
    (h : run step s (es.take k) = some u) : ok u es[k] := by
  induction es generalizing s k with
  | nil => cases hk
  | cons e es ih =>
    cases k with
    | zero =>
      obtain rfl : s = u := Option.some.inj h
      exact ha.1
    | succ k =>
      simp only [List.take_succ_cons, run, Option.bind_eq_some_iff] at h
      obtain ⟨s', hs, hrest⟩ := h
      exact ih (ha.2 s' hs) (Nat.lt_of_succ_lt_succ hk) hrest

theorem admitted_any (es : List ε) : Admitted step anyLabel s es := by
  induction es generalizing s with
  | nil => trivial
  | cons e es ih => exact ⟨trivial, fun _ _ => ih⟩

/-- The execution of a run that ends in a cycle. -/
def Execution.lasso (hcyc : 0 < cyc.length) (hpre : run step s pre = some t)
    (hloop : run step t cyc = some t) (ha : Admitted step ok s (pre ++ cyc)) :
    Execution step ok s where
  state n := (run step s ((pre ++ cyc).take (lassoIndex pre.length cyc.length n))).getD s
  label n := (pre ++ cyc).get ⟨lassoIndex pre.length cyc.length n, by
    rw [List.length_append]
    exact lassoIndex_lt hcyc⟩
  start := by
    have hzero : lassoIndex pre.length cyc.length 0 = 0 := by
      unfold lassoIndex
      split
      · rfl
      · rw [Nat.zero_sub, Nat.zero_mod]
        omega
    rw [hzero]
    rfl
  admitted n := by
    have hword : run step s (pre ++ cyc) = some t := by rw [run_append, hpre]; exact hloop
    obtain ⟨u, hu⟩ := run_take hword (lassoIndex pre.length cyc.length n)
    rw [hu]
    exact ha.getElem _ hu
  next n := by
    have hword : run step s (pre ++ cyc) = some t := by rw [run_append, hpre]; exact hloop
    have hlt : lassoIndex pre.length cyc.length n < (pre ++ cyc).length := by
      rw [List.length_append]
      exact lassoIndex_lt hcyc
    obtain ⟨u, hu⟩ := run_take hword (lassoIndex pre.length cyc.length n)
    have hnext := run_take_succ hlt hu
    obtain ⟨u', hu'⟩ := run_take hword (lassoIndex pre.length cyc.length n + 1)
    rw [hu', eq_comm] at hnext
    have hstate : (run step s ((pre ++ cyc).take
        (lassoIndex pre.length cyc.length (n + 1)))).getD s = u' := by
      rcases lassoIndex_succ hcyc (p := pre.length) (n := n) with heq | ⟨hlast, heq⟩
      · rw [heq, hu']
        rfl
      · rw [heq, List.take_left, hpre]
        rw [hlast, ← List.length_append, List.take_length, hword] at hu'
        exact Option.some.inj hu'
    rw [hu, hstate]
    exact hnext

/-- A lasso starts with its run. -/
theorem Execution.lasso_prefix (hcyc : 0 < cyc.length) (hpre : run step s pre = some t)
    (hloop : run step t cyc = some t) (ha : Admitted step ok s (pre ++ cyc)) {n : Nat}
    (hn : n < pre.length) :
    run step s (pre.take n) = some ((lasso hcyc hpre hloop ha).state n) := by
  obtain ⟨u, hu⟩ := run_take hpre n
  have hindex : lassoIndex pre.length cyc.length n = n := by rw [lassoIndex, if_pos hn]
  change _ = some ((run step s _).getD s)
  rw [hindex, List.take_append_of_le_length hn.le, hu]
  rfl

/-- Behind its run a lasso is in its cycle. -/
theorem Execution.lasso_tail (hcyc : 0 < cyc.length) (hpre : run step s pre = some t)
    (hloop : run step t cyc = some t) (ha : Admitted step ok s (pre ++ cyc)) {n : Nat}
    (hn : pre.length ≤ n) : ∃ k, k < cyc.length ∧
      run step t (cyc.take k) = some ((lasso hcyc hpre hloop ha).state n) := by
  have hlow := le_lassoIndex (c := cyc.length) hn
  have hhigh := lassoIndex_lt (p := pre.length) (n := n) hcyc
  obtain ⟨u, hu⟩ := run_take hloop (lassoIndex pre.length cyc.length n - pre.length)
  refine ⟨lassoIndex pre.length cyc.length n - pre.length, by omega, ?_⟩
  have hstate : run step s ((pre ++ cyc).take (lassoIndex pre.length cyc.length n)) = some u := by
    rw [List.take_append, List.take_of_length_le hlow, run_append, hpre]
    exact hu
  change _ = some ((run step s _).getD s)
  rw [hu, hstate]
  rfl

/-- Behind its run a lasso takes the labels of its cycle. -/
theorem Execution.lasso_label (hcyc : 0 < cyc.length) (hpre : run step s pre = some t)
    (hloop : run step t cyc = some t) (ha : Admitted step ok s (pre ++ cyc)) {n : Nat}
    (hn : pre.length ≤ n) : (lasso hcyc hpre hloop ha).label n ∈ cyc := by
  have hlow := le_lassoIndex (c := cyc.length) hn
  change (pre ++ cyc).get _ ∈ cyc
  rw [List.get_eq_getElem, List.getElem_append_right hlow]
  exact List.getElem_mem _

/-- Every label of the cycle comes up again and again. -/
theorem Execution.lasso_recurs (hcyc : 0 < cyc.length) (hpre : run step s pre = some t)
    (hloop : run step t cyc = some t) (ha : Admitted step ok s (pre ++ cyc)) {e : ε}
    (he : e ∈ cyc) (n : Nat) : ∃ m, n ≤ m ∧ (lasso hcyc hpre hloop ha).label m = e := by
  obtain ⟨k, hk, rfl⟩ := List.mem_iff_getElem.mp he
  obtain ⟨m, hm, hindex⟩ := lassoIndex_recurs (p := pre.length) hk n
  refine ⟨m, hm, ?_⟩
  change (pre ++ cyc).get _ = _
  simp only [List.get_eq_getElem, hindex]
  rw [List.getElem_append_right (Nat.le_add_right _ _)]
  simp only [Nat.add_sub_cancel_left]

end Lasso

end Uring.Core
