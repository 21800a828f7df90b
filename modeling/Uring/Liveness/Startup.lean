import Uring.Startup.Launch

/-!
# Starting ends

The calling thread waits for the kernel in the probe only, and there its deadline passes with
the clock. So `start_with_limits` returns a driver or fails, also when the kernel never completes
the probe. Without `EXT_ARG` the wait has no timeout: there a completion or a signal must end it.
-/

namespace Uring

open Uring.Core

/-- How far a start is from its end; waiting for the probe is one action. -/
def StartPhase.rank : StartPhase → Nat
  | .ring => 10
  | .openFile => 9
  | .push => 8
  | .arm => 7
  | .clock | .wait | .next => 6
  | .call .cqEventfd => 5
  | .call .registerEventfd => 4
  | .iowq => 3
  | .call .wakeEventfd => 2
  | .call .spawn => 1
  | .done _ => 0

/-- The start waits for the probe. -/
def StartPhase.waiting : StartPhase → Bool
  | .clock | .wait | .next => true
  | _ => false

/-- The actions before the clock is read again. -/
def StartPhase.untilClock : StartPhase → Nat
  | .wait => 2
  | .next => 1
  | _ => 0

/-- The kernel's two actions. -/
def StartEvent.ofKernel : StartEvent → Bool
  | .consume | .post .. => true
  | _ => false

namespace Starting

variable {probe : Bool} {s s' : Starting} {e : StartEvent}

theorem Transition.kernel (h : Transition probe s e s') (he : e.ofKernel = true) :
    s'.phase = s.phase ∧ s'.deadline = s.deadline := by
  cases h with
  | consume | post => exact ⟨rfl, rfl⟩
  | _ => cases he

/-- The thread's next action brings its end nearer, or it waits before its deadline. -/
theorem Transition.thread (h : Transition probe s e s') (he : e.ofKernel = false) :
    s'.phase.rank < s.phase.rank ∨
      (s.phase.waiting = true ∧ s'.phase.waiting = true ∧ s'.phase.rank = s.phase.rank ∧
        s'.deadline = s.deadline ∧ (s'.phase.untilClock < s.phase.untilClock ∨
          ∃ now, e = .clock now ∧ now < s.deadline)) := by
  cases h with
  | ring hp =>
    left
    cases probe <;> simp [StartPhase.rank, hp]
  | waited hp | empty hp =>
    right
    simp [StartPhase.rank, StartPhase.waiting, StartPhase.untilClock, hp]
  | clock hp hearly =>
    right
    simp [StartPhase.rank, StartPhase.waiting, hp, hearly]
  | @callFailed k _ hp | @called k hp =>
    left
    cases k <;> simp [StartPhase.rank, fail, afterCall, hp]
  | ringFailed hp | ringDrops hp | openFailed hp | openFile hp | queueFull hp | push hp | arm hp
    | expired hp | waitFailed hp | refused hp | answered hp | iowq hp =>
    left
    simp [StartPhase.rank, fail, forget, hp]
  | consume | post => cases he

/-- Only the new ring tells whether it has `EXT_ARG`, and a start that goes on has asked it. -/
theorem Transition.extArg (h : Transition probe s e s') (hp : ∀ r, s'.phase ≠ .done r) :
    (∃ features, e = .ring (.ok features) ∧ s'.extArg = features.extArg) ∨
      s'.extArg = s.extArg ∧ (s.phase = .ring → s'.phase = .ring) := by
  cases h with
  | ring => exact Or.inl ⟨_, rfl, rfl⟩
  | ringFailed | ringDrops => exact absurd rfl (hp _)
  | post => exact Or.inr ⟨rfl, id⟩
  | @called k hphase => cases k <;> exact Or.inr ⟨rfl, fun hring => by simp [hphase] at hring⟩
  | openFailed hphase | openFile hphase | queueFull hphase | push hphase | arm hphase
    | expired hphase | clock hphase | waited hphase | waitFailed hphase | empty hphase
    | refused hphase | answered hphase | callFailed hphase | iowq hphase | consume hphase =>
    exact Or.inr ⟨rfl, fun hring => by simp [hphase] at hring⟩

end Starting

/-- The labels of the thread that called `start_with_limits`. -/
def LaunchEvent.ofCaller : LaunchEvent → Bool
  | .begin | .driver .started => true
  | .start e => !e.ofKernel
  | _ => false

namespace Launch

/-- How far a launch is from its end. -/
def remaining (cfg : Config) (l : Launch) : Nat :=
  (cfg.shardCount - l.driver.cells.length) * 12 + (l.current.map fun s => s.phase.rank).getD 11

/-- The current start waits for its probe, until `d`. -/
def WaitsUntil (l : Launch) (d : Nat) : Prop :=
  ∃ s, l.current = some s ∧ s.phase.waiting = true ∧ s.deadline = d

/-- The actions before the current start reads the clock. -/
def untilClock (l : Launch) : Nat := (l.current.map fun s => s.phase.untilClock).getD 0

variable {cfg : Config} {r : Option Nat} {l l' : Launch} {e : LaunchEvent}

theorem WaitsUntil.eq {d d' : Nat} (h : l.WaitsUntil d) (h' : l.WaitsUntil d') : d = d' := by
  obtain ⟨s, hs, -, rfl⟩ := h
  obtain ⟨s', hs', -, rfl⟩ := h'
  obtain rfl : s = s' := Option.some.inj (hs.symm.trans hs')
  rfl

/-- A step while the launch is starting brings its end nearer, or leaves the current start
where it is; the caller's own step then belongs to the wait for the probe. -/
structure Stays (cfg : Config) (l : Launch) (e : LaunchEvent) (l' : Launch) : Prop where
  remaining : l'.remaining cfg = l.remaining cfg
  waits (d : Nat) : l.WaitsUntil d → l'.WaitsUntil d
  caller : e.ofCaller = true → ∃ d, l.WaitsUntil d ∧
    (l'.untilClock < l.untilClock ∨ ∃ now, e = .start (.clock now) ∧ now < d)
  other : e.ofCaller = false → l'.untilClock = l.untilClock

theorem Transition.stays (h : Transition cfg l e l')
    (hl : l'.driver.life = .starting) : l'.remaining cfg < l.remaining cfg ∨ Stays cfg l e l' := by
  cases h with
  | begin hc =>
    left
    simp [Launch.remaining, hc, Starting.init, StartPhase.rank]
  | @going e s s' hc hstep =>
    have ht := Starting.step_transition hstep
    cases he : e.ofKernel with
    | true =>
      obtain ⟨hphase, hdeadline⟩ := ht.kernel he
      refine Or.inr ⟨?_, ?_, ?_, ?_⟩
      · simp only [Launch.remaining, hc, Option.map_some, hphase]
      · rintro d ⟨u, hu, hw, rfl⟩
        obtain rfl : u = s := Option.some.inj (hu.symm.trans hc)
        exact ⟨s', rfl, hphase ▸ hw, hdeadline⟩
      · intro hcaller
        simp only [LaunchEvent.ofCaller, he] at hcaller
        cases hcaller
      · intro _
        simp only [Launch.untilClock, hc, Option.map_some, hphase]
    | false =>
      rcases ht.thread he with hlt | ⟨hw, hw', hrank, hdeadline, hclock⟩
      · left
        simpa only [Launch.remaining, hc, Option.map_some, Option.getD_some,
          Nat.add_lt_add_iff_left] using hlt
      · refine Or.inr ⟨?_, ?_, ?_, ?_⟩
        · simp only [Launch.remaining, hc, Option.map_some, hrank]
        · rintro d ⟨u, hu, -, rfl⟩
          obtain rfl : u = s := Option.some.inj (hu.symm.trans hc)
          exact ⟨s', rfl, hw', hdeadline⟩
        · intro _
          refine ⟨s.deadline, ⟨s, hc, hw, rfl⟩, ?_⟩
          rcases hclock with hlt | ⟨now, rfl, hearly⟩
          · left
            simpa only [Launch.untilClock, hc, Option.map_some, Option.getD_some] using hlt
          · exact Or.inr ⟨now, rfl, hearly⟩
        · intro hcaller
          simp only [LaunchEvent.ofCaller, he] at hcaller
          cases hcaller
  | @ready _ s s' d hc _ _ hd =>
    left
    cases (Driver.step_transition hd).2 with
    | startShard _ hn =>
      simp only [Launch.remaining, Driver.startShard, List.length_append, List.length_singleton, hc,
        Option.map_none, Option.getD_none, Option.map_some, Option.getD_some]
      omega
  | failed _ _ _ hd =>
    cases (Driver.step_transition hd).2 with
    | failStart => cases hl
  | late | elsewhere =>
    refine Or.inr ⟨rfl, fun _ h => h, ?_, fun _ => rfl⟩
    intro hcaller
    cases hcaller
  | @driver e d hstart hfail _ hd =>
    have hlen := Driver.length_cells hd hstart
    refine Or.inr ⟨?_, fun _ h => h, ?_, fun _ => rfl⟩
    · simp only [Launch.remaining, hlen]
    · intro hcaller
      cases e with
      | started =>
        cases (Driver.step_transition hd).2 with
        | started => cases hl
      | _ => cases hcaller

/-- The calling thread waits in the kernel without a timeout, and no completion has come. -/
def Parked (l : Launch) : Prop :=
  ∃ s, l.current = some s ∧ s.phase = .wait ∧ s.extArg = false ∧ s.cq = []

/-- The caller goes on until its launch is over, unless it is parked. A wait with `EXT_ARG` does
not stop it: the kernel ends it when the time that remained is over. -/
def CallerRuns (x : Execution (step cfg) anyLabel (init cfg r)) : Prop :=
  ∀ n, (x.state n).driver.life = .starting → ¬ (x.state n).Parked →
    ∃ m, n ≤ m ∧ (x.label m).ofCaller = true

/-- What is needed of kernels without `EXT_ARG`: the caller does not stay parked, a completion
or a signal ends its wait. -/
def OldWaitsEnd (x : Execution (step cfg) anyLabel (init cfg r)) : Prop :=
  ∀ n, (x.state n).Parked → ∃ m, n ≤ m ∧ ¬ (x.state m).Parked

/-- With `EXT_ARG` nothing is needed of the kernel. -/
theorem oldWaitsEnd_of_extArg (x : Execution (step cfg) anyLabel (init cfg r))
    (hring : ∀ n features, x.label n = .start (.ring (.ok features)) → features.extArg = true) :
    OldWaitsEnd x := by
  have hasked (n : Nat) (s : Starting) (hs : (x.state n).current = some s) :
      s.phase = .ring ∨ s.extArg = true := by
    induction n generalizing s with
    | zero =>
      rw [x.start] at hs
      cases hs
    | succ n ih =>
      generalize hl' : x.state (n + 1) = l' at hs
      generalize hlabel : x.label n = e
      have hnext := (step_transition (x.next n)).2
      rw [hl', hlabel] at hnext
      cases hnext with
      | begin =>
        cases hs
        exact Or.inl rfl
      | @going _ u s' hu hstep hp =>
        cases hs
        rcases (Starting.step_transition hstep).extArg hp with ⟨features, rfl, hext⟩ | ⟨hext, hstay⟩
        · exact Or.inr (hext.trans (hring n features hlabel))
        · rw [hext]
          exact (ih u hu).imp_left hstay
      | ready | failed => cases hs
      | late | driver | elsewhere => exact ih s hs
  rintro n ⟨s, hs, hwait, hext, _⟩
  rcases hasked n s hs with hp | hp
  · rw [hwait] at hp
    cases hp
  · rw [hext] at hp
    cases hp

/-- A caller whose waits end comes to its next action. -/
theorem CallerRuns.next {x : Execution (step cfg) anyLabel (init cfg r)} (h : CallerRuns x)
    (hold : OldWaitsEnd x) (hall : ∀ n, (x.state n).driver.life = .starting) (n : Nat) :
    ∃ m, n ≤ m ∧ (x.label m).ofCaller = true := by
  by_cases hparked : (x.state n).Parked
  · obtain ⟨k, hk, hfree⟩ := hold n hparked
    obtain ⟨m, hm, hof⟩ := h k (hall k) hfree
    exact ⟨m, hk.trans hm, hof⟩
  · exact h n (hall n) hparked

/-- The clock that a probe reads passes every time. -/
def ClockPasses (x : Execution (step cfg) anyLabel (init cfg r)) : Prop :=
  ∀ t, ∃ n, ∀ m, n ≤ m → ∀ now, x.label m = .start (.clock now) → t ≤ now

/-- The step that ends a launch. -/
theorem Transition.over (h : Transition cfg l e l') (hl : l.driver.life = .starting)
    (hl' : l'.driver.life ≠ .starting) :
    l'.driver.life = .running ∨ l'.driver.life.failing = true := by
  cases h with
  | begin | going | late | elsewhere => exact absurd hl hl'
  | ready _ _ _ hd =>
    cases (Driver.step_transition hd).2 with
    | startShard => exact absurd hl hl'
  | failed _ _ _ hd =>
    cases (Driver.step_transition hd).2 with
    | failStart => exact Or.inr rfl
  | driver _ hfail _ hd =>
    rcases Driver.starting_step hd hl with h | ⟨-, -, h⟩ | ⟨registered, h, -⟩
    · exact absurd h hl'
    · exact Or.inl h
    · exact absurd h (hfail registered)

/-- A launch does not go on forever: first it stops coming nearer to its end, in the wait for
the probe; then the clock passes the deadline. -/
theorem not_always_starting (x : Execution (step cfg) anyLabel (init cfg r))
    (hcaller : CallerRuns x) (hold : OldWaitsEnd x) (hclock : ClockPasses x)
    (hall : ∀ n, (x.state n).driver.life = .starting) : False := by
  have hstep (n : Nat) : (x.state (n + 1)).remaining cfg < (x.state n).remaining cfg ∨
      Stays cfg (x.state n) (x.label n) (x.state (n + 1)) :=
    (step_transition (x.next n)).2.stays (hall (n + 1))
  have hle (n : Nat) : (x.state (n + 1)).remaining cfg ≤ (x.state n).remaining cfg := by
    rcases hstep n with hlt | hs
    · exact hlt.le
    · exact hs.remaining.le
  obtain ⟨n, hn⟩ : ∃ n, ∀ m, n ≤ m →
      Stays cfg (x.state m) (x.label m) (x.state (m + 1)) := by
    by_contra hno
    push Not at hno
    refine not_always_drops (fun m => (x.state m).remaining cfg) (n := 0)
      (fun m _ => hle m) fun k _ => ?_
    obtain ⟨m, hm, hmoves⟩ := hno k
    exact ⟨m, hm, (hstep m).resolve_right hmoves⟩
  obtain ⟨m, hm, hof⟩ := hcaller.next hold hall n
  obtain ⟨d, hwaits, -⟩ := (hn m hm).caller hof
  have hwait (k : Nat) (hk : m ≤ k) : (x.state k).WaitsUntil d := by
    induction k, hk using Nat.le_induction with
    | base => exact hwaits
    | succ k hk ih => exact (hn k (hm.trans hk)).waits d ih
  obtain ⟨c, hc⟩ := hclock d
  have hdrop (k : Nat) (hk : max m c ≤ k) (hof : (x.label k).ofCaller = true) :
      (x.state (k + 1)).untilClock < (x.state k).untilClock := by
    have hmk := (le_max_left m c).trans hk
    obtain ⟨d', hw, hlt | ⟨now, hlabel, hearly⟩⟩ := (hn k (hm.trans hmk)).caller hof
    · exact hlt
    · obtain rfl := hw.eq (hwait k hmk)
      exact absurd (hc k ((le_max_right m c).trans hk) now hlabel) (not_le.mpr hearly)
  refine not_always_drops (fun k => (x.state k).untilClock) (n := max m c) ?_ ?_
  · intro k hk
    cases hof : (x.label k).ofCaller with
    | true => exact (hdrop k hk hof).le
    | false => exact ((hn k (hm.trans ((le_max_left m c).trans hk))).other hof).le
  · intro k hk
    obtain ⟨j, hj, hof⟩ := hcaller.next hold hall k
    exact ⟨j, hj, hdrop j (hk.trans hj) hof⟩

/-- A launch ends, with a driver that has all its shards or with a failure: the kernel may
withhold every completion, and only a kernel without `EXT_ARG` must then interrupt the wait. -/
theorem launch_returns (x : Execution (step cfg) anyLabel (init cfg r)) (hcaller : CallerRuns x)
    (hold : OldWaitsEnd x) (hclock : ClockPasses x) : ∃ n, ((x.state n).driver.life = .running ∧
      (x.state n).started.length = cfg.shardCount) ∨ (x.state n).driver.life.failing = true := by
  have hover : ∃ n, (x.state n).driver.life ≠ .starting := by
    by_contra hno
    push Not at hno
    exact not_always_starting x hcaller hold hclock hno
  -- the first state that is not starting
  classical
  obtain ⟨n, hn, hfirst⟩ : ∃ n, (x.state n).driver.life ≠ .starting ∧
      ∀ m < n, (x.state m).driver.life = .starting :=
    ⟨Nat.find hover, Nat.find_spec hover, fun m hm => not_not.mp (Nat.find_min hover hm)⟩
  refine ⟨n, ?_⟩
  cases n with
  | zero =>
    rw [x.start] at hn
    exact absurd rfl hn
  | succ n =>
    refine ((step_transition (x.next n)).2.over (hfirst n n.lt_succ_self) hn).imp_left ?_
    intro hrun
    have hs := Reach.sound (x.reachable (n + 1))
    have hnone : (x.state (n + 1)).failed = none := by
      rw [← Option.not_isSome_iff_eq_none, ← hs.failing, hrun]
      decide
    exact ⟨hrun, hs.length.trans (hs.complete hn hnone)⟩

/-- The kernel takes the first shard's probe and never completes it: the wait expires, and then
the deadline has passed. -/
def withheld : List LaunchEvent :=
  [.begin, .start (.ring (.ok ⟨true, true⟩)), .start (.openFile (.ok 7)),
    .start (.push 4096 false), .start (.arm 0), .start (.clock 1), .start .consume,
    .start (.waited (.error (.os eTime))), .start .next, .start (.clock probeTimeout)]

theorem withheld_runs : (run (step twoShards) (init twoShards none) withheld).isSome = true := by
  decide +kernel

/-- The launch that has given up its probe. -/
def givenUp : Launch := (run (step twoShards) (init twoShards none) withheld).get withheld_runs

theorem givenUp_elsewhere : run (step twoShards) givenUp [.elsewhere] = some givenUp := by
  have hlive : givenUp.driver.aborted = false := by decide +kernel
  simp [run, step, hlive]

/-- The start fails, and nothing else ever happens to it. -/
def withheldForever : Execution (step twoShards) anyLabel (init twoShards none) :=
  .lasso (by decide) (Option.some_get withheld_runs).symm givenUp_elsewhere (admitted_any _)

/-- From the end of `withheld` on nothing changes. -/
theorem withheldForever_tail {n : Nat} (hn : withheld.length ≤ n) :
    withheldForever.state n = givenUp ∧ withheldForever.label n = .elsewhere := by
  obtain ⟨k, hk, hrun⟩ := Execution.lasso_tail (by decide) (Option.some_get withheld_runs).symm
    givenUp_elsewhere (admitted_any _) hn
  have hlabel := Execution.lasso_label (by decide) (Option.some_get withheld_runs).symm
    givenUp_elsewhere (admitted_any _) hn
  obtain rfl : k = 0 := Nat.lt_one_iff.mp hk
  exact ⟨(Option.some.inj hrun).symm, List.mem_singleton.mp hlabel⟩

theorem withheldForever_caller : CallerRuns withheldForever := by
  intro n hn _
  have hfailing : givenUp.driver.life ≠ .starting := by decide +kernel
  have hlt : n < withheld.length := by
    by_contra hle
    rw [(withheldForever_tail (not_lt.mp hle)).1] at hn
    exact hfailing hn
  exact ⟨9, Nat.le_of_lt_succ hlt, by decide +kernel⟩

/-- A label of the run is one of those of `withheld`, or comes from elsewhere. -/
theorem withheldForever_label (n : Nat) :
    withheldForever.label n ∈ withheld ∨ withheldForever.label n = .elsewhere := by
  rcases Nat.lt_or_ge n withheld.length with hlt | hle
  · left
    have hget : withheldForever.label n = withheld[n] := by
      change (withheld ++ [LaunchEvent.elsewhere]).get _ = _
      simp only [lassoIndex, if_pos hlt, List.get_eq_getElem]
      exact List.getElem_append_left hlt
    rw [hget]
    exact List.getElem_mem hlt
  · exact Or.inr (withheldForever_tail hle).2

/-- A kernel that never completes the probe: the launch ends by the deadline, and the buffer that
the kernel still holds is leaked. -/
theorem launch_returns_withheld :
    (∃ n, ((withheldForever.state n).driver.life = .running ∧
      (withheldForever.state n).started.length = twoShards.shardCount) ∨
        (withheldForever.state n).driver.life.failing = true) ∧
      (∀ n res data, withheldForever.label n ≠ .start (.post res data) ∧
        withheldForever.label n ≠ .late res data) ∧
      ∀ n, withheld.length ≤ n → ∃ s, (withheldForever.state n).failed = some s ∧
        s.held = [probeSqe 7 4096] ∧ s.memory = .leaked ∧
        s.phase = .done (.error (.readOp (.other "probe: no CQE within the bounded wait"))) := by
  have hold : OldWaitsEnd withheldForever := by
    apply oldWaitsEnd_of_extArg
    intro n features hlabel
    rcases withheldForever_label n with hmem | helse
    · rw [hlabel] at hmem
      have hring : features = ⟨true, true⟩ := by simpa [withheld] using hmem
      rw [hring]
    · rw [hlabel] at helse
      cases helse
  have hclock : ClockPasses withheldForever := by
    intro t
    refine ⟨withheld.length, fun m hm now hlabel => ?_⟩
    rw [(withheldForever_tail hm).2] at hlabel
    cases hlabel
  refine ⟨launch_returns withheldForever withheldForever_caller hold hclock, ?_, ?_⟩
  · intro n res data
    rcases withheldForever_label n with hmem | helse
    · constructor <;> intro hlabel <;> rw [hlabel] at hmem <;> simp [withheld] at hmem
    · rw [helse]
      exact ⟨nofun, nofun⟩
  · intro n hn
    rw [(withheldForever_tail hn).1]
    have hfailed : givenUp.failed.any (fun s => decide (s.held = [probeSqe 7 4096] ∧
        s.memory = .leaked ∧ s.phase = .done
          (.error (.readOp (.other "probe: no CQE within the bounded wait"))))) = true := by
      decide +kernel
    obtain ⟨s, hs, hgiven⟩ := (Option.any_eq_true _ _).mp hfailed
    exact ⟨s, hs, of_decide_eq_true hgiven⟩

end Launch

end Uring
