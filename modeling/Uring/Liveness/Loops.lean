import Uring.Core.Flatten
import Uring.Driver.Loops
import Uring.Driver.Retire
import Uring.Liveness.Shutdown

/-!
# The loops of a running driver

In an infinite run of a driver each of its loops makes a run of its own, in pieces: one label
of its thread at a time, and between them what callers send and close. So what holds of every
execution of one loop holds of each loop of the driver.
-/

namespace Uring

open Uring.Core

namespace Driver

variable {cfg : Config} {r : Option Nat} {d d' : Driver} {e : DriverEvent}
  {ok : Shard → Event → Prop} {asks : Request → Prop}

theorem cell_stays {may : Driver → DriverEvent → Prop} (x : Execution (step cfg) may (init cfg r))
    {n m : Nat} (hnm : n ≤ m) {k : Nat} {a : Cell} (ha : (x.state n).cells[k]? = some a) :
    ∃ b, (x.state m).cells[k]? = some b ∧ a.Later cfg.params b := by
  induction m, hnm using Nat.le_induction with
  | base => exact ⟨a, ha, .start, id⟩
  | succ m _ ih =>
    obtain ⟨b, hb, hab⟩ := ih
    obtain ⟨b', hb', hbb⟩ :=
      cell_later ((x.reachable m).mono fun _ _ _ => trivial) (x.next m) hb
    exact ⟨b', hb', hab.loop.trans hbb.loop, fun hg => hbb.guard (hab.guard hg)⟩

section Run

/-- The thread of shard `k` runs on as long as it has its receiver. -/
def Scheduled {may : Driver → DriverEvent → Prop} (x : Execution (step cfg) may (init cfg r))
    (k : Nat) : Prop :=
  ∀ n a, (x.state n).cells[k]? = some a → a.loop.phase.receiving = true →
    ∃ m, n ≤ m ∧ ∃ ev, x.label m = .turn k ev ∧ ev.ofLoop = true

/-- The clock that it reads at the end of its turns passes every time. -/
def ClockRuns {may : Driver → DriverEvent → Prop} (x : Execution (step cfg) may (init cfg r))
    (k : Nat) : Prop :=
  ∀ t, ∃ n, ∀ m, n ≤ m → ∀ overflow now now',
    x.label m = .turn k (.endTurn overflow now now') → t ≤ now'

variable {x : Execution (step cfg) (Within ok asks) (init cfg r)} {k : Nat}

/-- The pieces are what the loop of shard `k` does. -/
structure Follows (x : Execution (step cfg) (Within ok asks) (init cfg r)) (k : Nat)
    (g : Pieces (Shard.step cfg.params) ok) : Prop where
  state (n : Nat) : g.state n = (x.state n).loopOf k
  own {n : Nat} {ev : Event} : x.label n = .turn k ev → g.word n = [ev]
  other {n : Nat} : (∀ ev, x.label n ≠ .turn k ev) → ∀ ev ∈ g.word n, ev.ofThread = false

theorem exists_pieces (hout : ∀ s e, Outside (Asked cfg asks) s e → ok s e)
    (x : Execution (step cfg) (Within ok asks) (init cfg r)) (k : Nat)
    (hturns : ∀ n, ∃ m, n ≤ m ∧ ∃ ev, x.label m = .turn k ev) :
    ∃ g : Pieces (Shard.step cfg.params) ok, Follows x k g := by
  have hword (n : Nat) := loopOf_run hout (x.reachable n) (x.admitted n) (x.next n) k
  choose w hruns hadmitted hown hother using hword
  refine ⟨⟨fun n => (x.state n).loopOf k, w, hruns, hadmitted, fun n => ?_⟩, ⟨fun _ => rfl,
    fun h => hown _ _ h, fun h => hother _ h⟩⟩
  obtain ⟨m, hm, ev, hev⟩ := hturns n
  refine ⟨m, hm, ?_⟩
  rw [hown m ev hev]
  exact List.cons_ne_nil _ _

namespace Follows

variable {g : Pieces (Shard.step cfg.params) ok}

theorem start (h : Follows x k g) : g.state 0 = .init := by
  rw [h.state, x.start]
  rfl

/-- The execution of the loop. -/
def loop (h : Follows x k g) : Execution (Shard.step cfg.params) ok .init := g.execution h.start

/-- Where the driver stands when the loop has come to the end of a piece. -/
theorem loop_offset (h : Follows x k g) (n : Nat) :
    h.loop.state (g.offset n) = (x.state n).loopOf k :=
  (g.execution_offset h.start n).trans (h.state n)

/-- A label of the thread is one of the driver's. -/
theorem loop_own (h : Follows x k g) {n : Nat} {ev : Event} (hn : x.label n = .turn k ev) :
    h.loop.label (g.offset n) = ev :=
  g.execution_single h.start (h.own hn)

/-- Where a label of the thread comes from. -/
theorem own_label (h : Follows x k g) {i : Nat} {ev : Event} (hi : h.loop.label i = ev)
    (hev : ev.ofThread = true) : ∃ n, i = g.offset n ∧ x.label n = .turn k ev := by
  obtain ⟨n, hlow, hhigh, hmem⟩ := g.execution_mem h.start i
  change h.loop.label i ∈ g.word n at hmem
  rw [hi] at hmem
  by_cases hown : ∃ ev', x.label n = .turn k ev'
  · obtain ⟨ev', hn⟩ := hown
    have hword := h.own hn
    rw [hword, List.mem_singleton] at hmem
    subst hmem
    have hlen : g.offset (n + 1) = g.offset n + 1 := by
      change g.offset n + (g.word n).length = _
      rw [hword]
      rfl
    exact ⟨n, by omega, hn⟩
  · push Not at hown
    rw [h.other hown ev hmem] at hev
    cases hev

theorem scheduled (h : Follows x k g)
    (hruns : ∀ n, ∃ m, n ≤ m ∧ ∃ ev, x.label m = .turn k ev ∧ ev.ofLoop = true) :
    Shard.Scheduled h.loop := by
  intro i _
  obtain ⟨n, -, hn⟩ := g.exists_offset i 0
  obtain ⟨m, hm, ev, hlabel, hloop⟩ := hruns n
  refine ⟨g.offset m, hn.trans (g.offset_mono hm), ?_⟩
  rw [h.loop_own hlabel]
  exact hloop

theorem clock (h : Follows x k g) (hclock : ClockRuns x k) : Shard.ClockRuns h.loop := by
  intro t
  obtain ⟨n, hn⟩ := hclock t
  refine ⟨g.offset n, fun i hi overflow now now' hlabel => ?_⟩
  obtain ⟨m, rfl, hm⟩ := h.own_label hlabel rfl
  have hlen : g.offset (m + 1) = g.offset m + 1 := by
    change g.offset m + (g.word m).length = _
    rw [h.own hm]
    rfl
  exact hn m (g.le_of_offset_le hi (by omega)) overflow now now' hm

end Follows

/-- A thread that was asked to shut down exits. -/
theorem Scheduled.exits (hout : ∀ s e, Outside (Asked cfg asks) s e → ok s e)
    (hs : Scheduled x k) (hclock : ClockRuns x k) {n : Nat} {a : Cell}
    (ha : (x.state n).cells[k]? = some a) (hreq : a.loop.Stopping) :
    ∃ m, n ≤ m ∧ ∃ b leaked, (x.state m).cells[k]? = some b ∧ b.loop.phase = .exited leaked := by
  by_contra hno
  push Not at hno
  -- a thread that does not exit runs on
  have hruns (m : Nat) : ∃ j, m ≤ j ∧ ∃ ev, x.label j = .turn k ev ∧ ev.ofLoop = true := by
    obtain ⟨b, hb, _⟩ := cell_stays x (le_max_right m n) ha
    have hrecv : b.loop.phase.receiving = true := by
      cases hp : b.loop.phase with
      | exited leaked => exact absurd hp (hno _ (le_max_right m n) b leaked hb)
      | aborted => exact absurd hp (live_of_step (x.next _) b (List.mem_of_getElem? hb))
      | _ => rfl
    obtain ⟨j, hj, hlabel⟩ := hs _ b hb hrecv
    exact ⟨j, (le_max_left m n).trans hj, hlabel⟩
  obtain ⟨g, hg⟩ := exists_pieces hout x k fun m => by
    obtain ⟨j, hj, ev, hlabel, _⟩ := hruns m
    exact ⟨j, hj, ev, hlabel⟩
  have hstate (m : Nat) {b : Cell} (hb : (x.state m).cells[k]? = some b) :
      hg.loop.state (g.offset m) = b.loop := by
    rw [hg.loop_offset, loopOf_eq hb]
  obtain ⟨i, leaked, hi, hp⟩ := (hg.scheduled hruns).asked (hg.clock hclock)
    (n := g.offset n) (by rw [hstate n ha]; exact hreq)
  -- at the end of the piece the thread has exited as well
  obtain ⟨m, hm, him⟩ := g.exists_offset i n
  obtain ⟨b, hb, _⟩ := cell_stays x hm ha
  have hexited : (hg.loop.state (g.offset m)).phase = .exited leaked :=
    Shard.Moves.exited ((hg.loop.reaches him).mono fun _ _ _ => trivial) hp
  rw [hstate m hb] at hexited
  exact hno m hm b leaked hb hexited

end Run

end Driver

end Uring
