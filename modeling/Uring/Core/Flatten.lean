import Uring.Core.Eventually
import Mathlib.Data.Nat.Find

/-!
# Executions in pieces

A part of a larger system makes no step, one step or several while the larger system makes one.
What the part does in an infinite run of the whole is then an infinite sequence of finite runs;
as long as they do not stay empty they make up one execution, and what holds of every execution
of the part holds of it.
-/

namespace Uring.Core

variable {σ ε : Type} {step : σ → ε → Option σ} {ok : σ → ε → Prop}

/-- States that finite runs lead through, without end. -/
structure Pieces (step : σ → ε → Option σ) (ok : σ → ε → Prop) where
  state : Nat → σ
  word : Nat → List ε
  runs (n : Nat) : run step (state n) (word n) = some (state (n + 1))
  admitted (n : Nat) : Admitted step ok (state n) (word n)
  endless (n : Nat) : ∃ m, n ≤ m ∧ word m ≠ []

namespace Pieces

variable (g : Pieces step ok)

/-- The number of labels before the `n`-th piece. -/
def offset : Nat → Nat
  | 0 => 0
  | n + 1 => offset n + (g.word n).length

theorem offset_mono : Monotone g.offset :=
  monotone_nat_of_le_succ fun _ => Nat.le_add_right _ _

/-- Every label is in some piece. -/
theorem exists_lt_offset (k : Nat) : ∃ n, k < g.offset (n + 1) := by
  induction k with
  | zero =>
    obtain ⟨m, _, hm⟩ := g.endless 0
    exact ⟨m, Nat.lt_add_left _ (List.length_pos_of_ne_nil hm)⟩
  | succ k ih =>
    obtain ⟨n, hn⟩ := ih
    obtain ⟨m, hle, hm⟩ := g.endless (n + 1)
    refine ⟨m, ?_⟩
    have hpos := List.length_pos_of_ne_nil hm
    have hmono := g.offset_mono hle
    change k + 1 < g.offset m + (g.word m).length
    omega

/-- The piece of a label. -/
def piece (k : Nat) : Nat := Nat.find (g.exists_lt_offset k)

theorem offset_piece_le (k : Nat) : g.offset (g.piece k) ≤ k := by
  rcases h : g.piece k with - | n
  · exact Nat.zero_le k
  · have hlt : n < g.piece k := by rw [h]; exact n.lt_succ_self
    exact not_lt.mp (Nat.find_min (g.exists_lt_offset k) hlt)

theorem lt_offset_piece (k : Nat) : k < g.offset (g.piece k + 1) :=
  Nat.find_spec (g.exists_lt_offset k)

/-- The place of a label in its piece. -/
theorem place_lt (k : Nat) : k - g.offset (g.piece k) < (g.word (g.piece k)).length := by
  have hlt : k < g.offset (g.piece k) + (g.word (g.piece k)).length := g.lt_offset_piece k
  have hle := g.offset_piece_le k
  omega

/-- A label and its place determine each other. -/
theorem piece_eq {n j : Nat} (hj : j < (g.word n).length) : g.piece (g.offset n + j) = n := by
  have hlow := g.offset_piece_le (g.offset n + j)
  have hhigh := g.lt_offset_piece (g.offset n + j)
  rcases Nat.lt_trichotomy (g.piece (g.offset n + j)) n with hlt | heq | hlt
  · have hmono : g.offset (g.piece (g.offset n + j) + 1) ≤ g.offset n := g.offset_mono hlt
    omega
  · exact heq
  · have hmono : g.offset n + (g.word n).length ≤ g.offset (g.piece (g.offset n + j)) :=
      g.offset_mono hlt
    omega

/-- The label with the number `k`. -/
def labelAt (k : Nat) : ε := (g.word (g.piece k)).get ⟨k - g.offset (g.piece k), g.place_lt k⟩

/-- The state before the label with the number `k`. -/
def stateAt (k : Nat) : σ :=
  (run step (g.state (g.piece k)) ((g.word (g.piece k)).take (k - g.offset (g.piece k)))).getD
    (g.state (g.piece k))

/-- Inside a piece the states are its run's. -/
theorem run_take_stateAt {n j : Nat} (hj : j < (g.word n).length) :
    run step (g.state n) ((g.word n).take j) = some (g.stateAt (g.offset n + j)) := by
  obtain ⟨u, hu⟩ := run_take (g.runs n) j
  rw [stateAt, g.piece_eq hj, Nat.add_sub_cancel_left, hu]
  rfl

theorem labelAt_eq {n j : Nat} (hj : j < (g.word n).length) :
    g.labelAt (g.offset n + j) = (g.word n)[j] := by
  have h (b i : Nat) (hi : i < (g.word b).length) (hb : b = n) (hij : i = j) :
      (g.word b).get ⟨i, hi⟩ = (g.word n)[j] := by
    subst hb
    subst hij
    rfl
  exact h _ _ _ (g.piece_eq hj) (by rw [g.piece_eq hj, Nat.add_sub_cancel_left])

/-- A state stays while the pieces are empty. -/
theorem state_eq_of_offset {n m : Nat} (hnm : n ≤ m) (h : g.offset m = g.offset n) :
    g.state m = g.state n := by
  induction m, hnm using Nat.le_induction with
  | base => rfl
  | succ m hm ih =>
    have hmono := g.offset_mono hm
    have hsucc : g.offset m + (g.word m).length = g.offset n := h
    have hnil : g.word m = [] := List.eq_nil_of_length_eq_zero (by omega)
    have hrun := g.runs m
    rw [hnil] at hrun
    rw [← Option.some.inj hrun]
    exact ih (by omega)

/-- Between two pieces the state is the one that both share. -/
theorem stateAt_offset (n : Nat) : g.stateAt (g.offset n) = g.state n := by
  have hlow := g.offset_piece_le (g.offset n)
  have hhigh := g.lt_offset_piece (g.offset n)
  have hle : n ≤ g.piece (g.offset n) := by
    by_contra hlt
    exact absurd (hhigh.trans_le (g.offset_mono (Nat.lt_of_not_le hlt))) (lt_irrefl _)
  have heq : g.offset (g.piece (g.offset n)) = g.offset n := le_antisymm hlow (g.offset_mono hle)
  rw [stateAt, heq, Nat.sub_self, List.take_zero, ← g.state_eq_of_offset hle heq]
  rfl

/-- Every number is a place in a piece. -/
theorem exists_place (k : Nat) : ∃ n j, j < (g.word n).length ∧ k = g.offset n + j :=
  ⟨g.piece k, _, g.place_lt k, (Nat.add_sub_of_le (g.offset_piece_le k)).symm⟩

/-- The execution that the pieces make up. -/
def execution {s : σ} (hs : g.state 0 = s) : Execution step ok s where
  state := g.stateAt
  label := g.labelAt
  start := (g.stateAt_offset 0).trans hs
  admitted k := by
    obtain ⟨n, j, hj, rfl⟩ := g.exists_place k
    rw [g.labelAt_eq hj]
    exact (g.admitted n).getElem hj (g.run_take_stateAt hj)
  next k := by
    obtain ⟨n, j, hj, rfl⟩ := g.exists_place k
    have hnext := run_take_succ hj (g.run_take_stateAt hj)
    rw [g.labelAt_eq hj, ← hnext]
    rcases Nat.lt_or_eq_of_le (Nat.succ_le_of_lt hj) with hlt | hlast
    · exact g.run_take_stateAt hlt
    · have hoffset : g.offset n + j + 1 = g.offset (n + 1) := by
        change _ = g.offset n + (g.word n).length
        omega
      rw [hoffset, g.stateAt_offset, ← g.runs n]
      congr 1
      exact List.take_of_length_le hlast.ge

variable {s : σ} (hs : g.state 0 = s)

theorem execution_offset (n : Nat) : (g.execution hs).state (g.offset n) = g.state n :=
  g.stateAt_offset n

/-- The only label of a piece. -/
theorem execution_single {n : Nat} {e : ε} (h : g.word n = [e]) :
    (g.execution hs).label (g.offset n) = e := by
  have hlt : 0 < (g.word n).length := by rw [h]; exact Nat.one_pos
  have heq := g.labelAt_eq hlt
  simp only [h, List.getElem_singleton] at heq
  exact heq

/-- A label is one of its piece. -/
theorem execution_mem (k : Nat) : ∃ n, g.offset n ≤ k ∧ k < g.offset (n + 1) ∧
    (g.execution hs).label k ∈ g.word n :=
  ⟨g.piece k, g.offset_piece_le k, g.lt_offset_piece k, List.get_mem _ _⟩

/-- A label behind the `n`-th piece belongs to a later one. -/
theorem le_of_offset_le {n m k : Nat} (hn : g.offset n ≤ k) (hk : k < g.offset (m + 1)) :
    n ≤ m := by
  by_contra hlt
  have hmono : g.offset (m + 1) ≤ g.offset n := g.offset_mono (Nat.lt_of_not_le hlt)
  omega

/-- Every number lies before a later piece. -/
theorem exists_offset (k n : Nat) : ∃ m, n ≤ m ∧ k ≤ g.offset m := by
  obtain ⟨m, hm⟩ := g.exists_lt_offset k
  exact ⟨max n (m + 1), le_max_left _ _, hm.le.trans (g.offset_mono (le_max_right _ _))⟩

end Pieces

end Uring.Core
