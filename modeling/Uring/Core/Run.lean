import Mathlib.Data.List.Basic
import Mathlib.Data.List.Induction
import Mathlib.Logic.Function.Basic

/-!
# Runs of labelled partial steps

A system is an executable partial step function over explicit labels: every
choice of the environment is a label, so a run is a finite label list. An
admissibility predicate restricts which labels may be taken in which states.
Reachability is closed under exactly the admitted steps.
-/

namespace Uring.Core

variable {σ ε : Type}

/-- Execute every label in order; one refused label refuses the whole run. -/
def run (step : σ → ε → Option σ) : σ → List ε → Option σ
  | s, [] => some s
  | s, e :: es => (step s e).bind fun s' => run step s' es

/-- Every label of a run is admitted in the state in which it is taken. -/
def Admitted (step : σ → ε → Option σ) (ok : σ → ε → Prop) : σ → List ε → Prop
  | _, [] => True
  | s, e :: es => ok s e ∧ ∀ s', step s e = some s' → Admitted step ok s' es

/-- A concrete run is checked by evaluating its labels one at a time. -/
def admittedBool (step : σ → ε → Option σ) (ok : σ → ε → Bool) : σ → List ε → Bool
  | _, [] => true
  | s, e :: es => ok s e && (match step s e with
    | none => true
    | some s' => admittedBool step ok s' es)

/-- States reached from `init` by admitted successful steps. -/
inductive Reachable (step : σ → ε → Option σ) (ok : σ → ε → Prop) (init : σ) : σ → Prop
  | start : Reachable step ok init init
  | next {s s' : σ} {e : ε} : Reachable step ok init s → ok s e → step s e = some s' →
      Reachable step ok init s'

/-- The run that admits every label. -/
def anyLabel : σ → ε → Prop := fun _ _ => True

variable {step : σ → ε → Option σ} {ok ok' : σ → ε → Prop} {init : σ}

/-- The executable admissibility test decides the predicate it evaluates. -/
theorem admitted_of_admittedBool {test : σ → ε → Bool} (hok : ∀ s e, test s e = true → ok s e)
    {s : σ} {es : List ε} (h : admittedBool step test s es = true) : Admitted step ok s es := by
  induction es generalizing s with
  | nil => trivial
  | cons e es ih =>
    simp only [admittedBool, Bool.and_eq_true] at h
    refine ⟨hok s e h.1, ?_⟩
    intro s' hs
    rw [hs] at h
    exact ih h.2

/-- Weaker admissibility reaches at least the same states. -/
theorem Reachable.mono {s : σ} (h : Reachable step ok init s) (hok : ∀ s e, ok s e → ok' s e) :
    Reachable step ok' init s := by
  induction h with
  | start => exact .start
  | next _ ha hs ih => exact ih.next (hok _ _ ha) hs

/-- Reachability composes along successive runs. -/
theorem Reachable.trans {mid s : σ} (h : Reachable step ok init mid)
    (h' : Reachable step ok mid s) : Reachable step ok init s := by
  induction h' with
  | start => exact h
  | next _ ha hs ih => exact ih.next ha hs

/-- A successful concrete run with admitted labels ends in a reachable state. -/
theorem reachable_of_run {s t : σ} {es : List ε} (h : run step s es = some t)
    (ha : Admitted step ok s es) : Reachable step ok s t := by
  induction es generalizing s with
  | nil =>
    obtain rfl : s = t := Option.some.inj h
    exact .start
  | cons e es ih =>
    simp only [run, Option.bind_eq_some_iff] at h
    obtain ⟨s', hs, hrest⟩ := h
    exact (Reachable.next .start ha.1 hs).trans (ih hrest (ha.2 s' hs))

/-- Reachability with every label admitted needs only a successful run. -/
theorem reachable_of_run_any {s t : σ} {es : List ε} (h : run step s es = some t) :
    Reachable step anyLabel s t := by
  apply reachable_of_run h
  clear h
  induction es generalizing s with
  | nil => trivial
  | cons e es ih => exact ⟨trivial, fun _ _ => ih⟩

/-- The state a successful concrete run ends in is reachable. -/
theorem reachable_get {s : σ} {es : List ε} (h : (run step s es).isSome = true) :
    Reachable step anyLabel s ((run step s es).get h) :=
  reachable_of_run_any (Option.some_get h).symm

/-- The invariant rule: what holds initially and survives every admitted step
from a reachable state holds of every reachable state. -/
theorem Reachable.invariant {I : σ → Prop} (hinit : I init)
    (hstep : ∀ s e s', Reachable step ok init s → I s → ok s e → step s e = some s' → I s')
    {s : σ} (h : Reachable step ok init s) : I s := by
  induction h with
  | start => exact hinit
  | next hr ha hs ih => exact hstep _ _ _ hr ih ha hs

theorem run_append {s : σ} {es es' : List ε} :
    run step s (es ++ es') = (run step s es).bind fun t => run step t es' := by
  induction es generalizing s with
  | nil => rfl
  | cons e es ih =>
    simp only [List.cons_append, run, Option.bind_assoc]
    exact congrArg _ (funext fun t => ih)

/-- The first labels of an infinite schedule, and those after them. -/
theorem run_range_add {s : σ} (schedule : Nat → ε) (n m : Nat) :
    run step s ((List.range (n + m)).map schedule) =
      (run step s ((List.range n).map schedule)).bind fun t =>
        run step t ((List.range m).map fun i => schedule (n + i)) := by
  rw [List.range_add, List.map_append, run_append, List.map_map]
  rfl

/-- The history rule: what holds of the empty run and survives every further step of a run
holds of every run and the state it ends in. -/
theorem run_history {P : List ε → σ → Prop} {s : σ} (hinit : P [] s)
    (hstep : ∀ es t e t', run step s es = some t → P es t → step t e = some t' → P (es ++ [e]) t')
    {t : σ} {es : List ε} (h : run step s es = some t) : P es t := by
  induction es using List.reverseRecOn generalizing t with
  | nil =>
    obtain rfl : s = t := Option.some.inj h
    exact hinit
  | append_singleton es e ih =>
    rw [run_append, Option.bind_eq_some_iff] at h
    obtain ⟨m, hm, hlast⟩ := h
    obtain ⟨t', ht, hnil⟩ := Option.bind_eq_some_iff.mp hlast
    obtain rfl : t' = t := Option.some.inj hnil
    exact hstep es m e t' hm (ih hm) ht

/-- A run with one more label is admitted step by step. -/
theorem admitted_concat {s t : σ} {es : List ε} {e : ε} (h : run step s es = some t) :
    Admitted step ok s (es ++ [e]) ↔ Admitted step ok s es ∧ ok t e := by
  induction es generalizing s with
  | nil =>
    obtain rfl : s = t := Option.some.inj h
    constructor
    · exact fun ha => ⟨trivial, ha.1⟩
    · exact fun ha => ⟨ha.2, fun _ _ => trivial⟩
  | cons e' es ih =>
    simp only [run, Option.bind_eq_some_iff] at h
    obtain ⟨s', hs, hrest⟩ := h
    constructor
    · rintro ⟨hok, ha⟩
      obtain ⟨hes, he⟩ := (ih hrest).mp (ha s' hs)
      refine ⟨⟨hok, fun s'' hs'' => ?_⟩, he⟩
      obtain rfl : s' = s'' := Option.some.inj (hs.symm.trans hs'')
      exact hes
    · rintro ⟨⟨hok, hes⟩, he⟩
      refine ⟨hok, fun s'' hs'' => ?_⟩
      obtain rfl : s' = s'' := Option.some.inj (hs.symm.trans hs'')
      exact (ih hrest).mpr ⟨hes s' hs, he⟩

theorem Admitted.append {s t : σ} {es es' : List ε} (ha : Admitted step ok s es)
    (hrun : run step s es = some t) (ha' : Admitted step ok t es') :
    Admitted step ok s (es ++ es') := by
  induction es generalizing s with
  | nil =>
    obtain rfl : s = t := Option.some.inj hrun
    exact ha'
  | cons e es ih =>
    refine ⟨ha.1, fun u hu => ih (ha.2 u hu) ?_⟩
    simp only [run, hu, Option.bind_some] at hrun
    exact hrun

theorem Admitted.mono {s : σ} {es : List ε} (ha : Admitted step ok s es)
    (hok : ∀ s e, ok s e → ok' s e) : Admitted step ok' s es := by
  induction es generalizing s with
  | nil => trivial
  | cons e es ih => exact ⟨hok s e ha.1, fun u hu => ih (ha.2 u hu)⟩

/-- What admission says of the labels alone. -/
theorem Admitted.labels {s t : σ} {es : List ε} {P : ε → Prop} (hok : ∀ s e, ok s e → P e)
    (ha : Admitted step ok s es) (hrun : run step s es = some t) : ∀ e ∈ es, P e := by
  induction es generalizing s with
  | nil => exact fun e he => absurd he List.not_mem_nil
  | cons e es ih =>
    simp only [run, Option.bind_eq_some_iff] at hrun
    obtain ⟨u, hu, hrest⟩ := hrun
    intro a hmem
    rcases List.mem_cons.mp hmem with rfl | hmem
    · exact hok s a ha.1
    · exact ih (ha.2 u hu) hrest a hmem

/-- Reachable states are the ends of admitted runs. -/
theorem Reachable.exists_run {s t : σ} (h : Reachable step ok s t) :
    ∃ es, run step s es = some t ∧ Admitted step ok s es := by
  induction h with
  | start => exact ⟨[], rfl, trivial⟩
  | @next u v e _ ha hs ih =>
    obtain ⟨es, hrun, hadm⟩ := ih
    refine ⟨es ++ [e], ?_, hadm.append hrun ⟨ha, fun _ _ => trivial⟩⟩
    rw [run_append, hrun, Option.bind_some, run, hs]
    rfl

/-- The history rule for the runs that are admitted. -/
theorem admitted_history {P : List ε → σ → Prop} {s : σ} (hinit : P [] s)
    (hstep : ∀ es t e t', run step s es = some t → Admitted step ok s es → P es t → ok t e →
      step t e = some t' → P (es ++ [e]) t')
    {t : σ} {es : List ε} (h : run step s es = some t) (ha : Admitted step ok s es) : P es t := by
  have hboth : Admitted step ok s es → P es t :=
    run_history (P := fun es t => Admitted step ok s es → P es t) (fun _ => hinit)
      (fun es t e t' hrun hP hs ha => by
        obtain ⟨hes, he⟩ := (admitted_concat hrun).mp ha
        exact hstep es t e t' hrun hes (hP hes) he hs) h
  exact hboth ha

/-- What the steps of a run put out, in order. -/
def outputs {τ : Type} (step : σ → ε → Option σ) (out : σ → ε → List τ) : σ → List ε → List τ
  | _, [] => []
  | s, e :: es => out s e ++ (match step s e with
    | none => []
    | some s' => outputs step out s' es)

/-- One more step of a run adds its own output. -/
theorem outputs_concat {τ : Type} {out : σ → ε → List τ} {s t : σ} {es : List ε}
    (h : run step s es = some t) (e : ε) :
    outputs step out s (es ++ [e]) = outputs step out s es ++ out t e := by
  induction es generalizing s with
  | nil =>
    obtain rfl : s = t := Option.some.inj h
    simp only [List.nil_append, outputs]
    cases step s e <;> exact List.append_nil _
  | cons e' es ih =>
    simp only [run, Option.bind_eq_some_iff] at h
    obtain ⟨s', hs, hrest⟩ := h
    simp only [List.cons_append, outputs, hs, ih hrest, List.append_assoc]

/-- Labels that put out nothing. -/
theorem outputs_eq_nil {τ : Type} {out : σ → ε → List τ} {es : List ε}
    (h : ∀ e ∈ es, ∀ s, out s e = []) (s : σ) : outputs step out s es = [] := by
  induction es generalizing s with
  | nil => rfl
  | cons e es ih =>
    have hrest := ih fun e he => h e (List.mem_cons_of_mem _ he)
    rw [outputs, h e List.mem_cons_self, List.nil_append]
    cases step s e with
    | none => rfl
    | some s' => exact hrest s'

/-- The output of a run and its continuation. -/
theorem outputs_append {τ : Type} {out : σ → ε → List τ} {s t : σ} {es : List ε}
    (h : run step s es = some t) (es' : List ε) :
    outputs step out s (es ++ es') = outputs step out s es ++ outputs step out t es' := by
  induction es generalizing s with
  | nil =>
    obtain rfl : s = t := Option.some.inj h
    rfl
  | cons e es ih =>
    simp only [run, Option.bind_eq_some_iff] at h
    obtain ⟨s', hs, hrest⟩ := h
    simp only [List.cons_append, outputs, hs, ih hrest, List.append_assoc]

/-- The budget rule: if every step keeps the invariant, spends a unit for each counted
label and never earns one, a run holds no more counted labels than its first state has
units. -/
theorem countP_le_of_run {I : σ → Prop} {units : σ → Nat} {p : ε → Bool}
    (hstep : ∀ s e s', I s → step s e = some s' →
      I s' ∧ units s' + (if p e then 1 else 0) ≤ units s)
    {s t : σ} {es : List ε} (hs : I s) (h : run step s es = some t) :
    units t + es.countP p ≤ units s := by
  induction es generalizing s with
  | nil =>
    obtain rfl : s = t := Option.some.inj h
    simp
  | cons e es ih =>
    simp only [run, Option.bind_eq_some_iff] at h
    obtain ⟨s', hs', hrest⟩ := h
    obtain ⟨hI, hunits⟩ := hstep s e s' hs hs'
    have := ih hI hrest
    rw [List.countP_cons]
    omega

/-- How many labels of a run satisfy `p` in the state in which they are taken. -/
def countRun (step : σ → ε → Option σ) (p : σ → ε → Bool) : σ → List ε → Nat
  | _, [] => 0
  | s, e :: es => (if p s e then 1 else 0) + (match step s e with
    | none => 0
    | some s' => countRun step p s' es)

/-- The exact form of the budget rule: if every admitted step keeps the invariant and
spends a unit exactly when its label is counted, so does every admitted run. -/
theorem add_countRun_of_run {I : σ → Prop} {u : σ → Nat} {p : σ → ε → Bool}
    (hstep : ∀ s e s', I s → ok s e → step s e = some s' →
      I s' ∧ u s' + (if p s e then 1 else 0) = u s)
    {s t : σ} {es : List ε} (hs : I s) (ha : Admitted step ok s es)
    (h : run step s es = some t) : I t ∧ u t + countRun step p s es = u s := by
  induction es generalizing s with
  | nil =>
    obtain rfl : s = t := Option.some.inj h
    exact ⟨hs, rfl⟩
  | cons e es ih =>
    simp only [run, Option.bind_eq_some_iff] at h
    obtain ⟨s', hs', hrest⟩ := h
    obtain ⟨hI, hunits⟩ := hstep s e s' hs ha.1 hs'
    obtain ⟨ht, hcount⟩ := ih hI (ha.2 s' hs') hrest
    refine ⟨ht, ?_⟩
    simp only [countRun, hs']
    omega

end Uring.Core
