import Uring.Startup.Probe
import Uring.Driver.Loops

/-!
# Starting a driver

`start_with_limits` starts one shard after another while the loops of the earlier ones already
run; only the first start probes. A shard joins the driver with the empty ring its loop begins
with. The first failure drops the shards that run, and the kernel may go on with an abandoned
probe.
-/

namespace Uring

open Uring.Core

/-- A failed start's shards are joined, or dropped. -/
def Life.failing : Life → Bool
  | .joining failed _ _ => failed
  | .gone failed => failed
  | _ => false

namespace Driver

variable {cfg : Config} {d d' : Driver} {e : DriverEvent}

/-- The start ends when every shard is there, or with a failure. -/
theorem starting_step (h : step cfg d e = some d') (hl : d.life = .starting) :
    d'.life = .starting ∨ (e = .started ∧ d.cells.length = cfg.shardCount ∧ d'.life = .running) ∨
      ∃ registered, e = .failStart registered ∧ d'.life = .joining true 0 false := by
  cases (step_transition h).2 with
  | startShard | turn => exact Or.inl hl
  | started _ hn => exact Or.inr (Or.inl ⟨rfl, hn, rfl⟩)
  | failStart => exact Or.inr (Or.inr ⟨_, rfl, rfl⟩)
  | submit hl' | requestShutdown hl' | retire hl' =>
    rw [hl] at hl'
    cases hl'
  | caller => exact Or.inl ((put_life _ _ _).trans hl)
  | @guard k cell leaked hcell hp => exact Or.inl ((d.closeStep_control cell.guard).2.2.trans hl)
  | @closer t pc hpc => exact Or.inl ((d.shutdownStep_control t pc).2.2.trans hl)
  | join hj =>
    simp only [joinStep, hl] at hj
    cases hj

/-- A start that is over stays over, with the same outcome. -/
theorem over_step (h : step cfg d e = some d') (hl : d.life ≠ .starting) :
    d'.life ≠ .starting ∧ d'.life.failing = d.life.failing := by
  cases step_life h with
  | same h => exact ⟨h ▸ hl, by rw [h]⟩
  | started h | failed h => exact absurd h hl
  | retire h _ h' | joining h h' | asked h h' | joined h _ _ h' | gone h _ h' =>
    rw [h, h']
    exact ⟨nofun, rfl⟩

end Driver

/-- A driver under `start_with_limits`, with the start that runs and those that came back. -/
structure Launch where
  driver : Driver
  current : Option Starting
  /-- The starts that returned a shard, in the order of the shards. -/
  started : List Starting
  /-- The start that failed. -/
  failed : Option Starting

/-- The labels of a launch. -/
inductive LaunchEvent
  /-- `start_shard` is called. -/
  | begin
  | start (e : StartEvent)
  /-- The kernel goes on after a failed start. -/
  | late (res : Int) (data : List UInt8)
  | driver (e : DriverEvent)
  /-- The rest of the process goes on. -/
  | elsewhere
  deriving DecidableEq

namespace Launch

/-- Where a launch begins. -/
def init (cfg : Config) (r : Option Nat) : Launch := ⟨.init cfg r, none, [], none⟩

/-- The next start is the first shard's. -/
def probes (l : Launch) : Bool := decide (l.driver.cells.length = 0)

/-- A start went on to `s`; what it returned goes to the driver. -/
def settle (cfg : Config) (l : Launch) (s : Starting) : Option Launch :=
  match s.phase with
  | .done (.ok ()) => (l.driver.step cfg .startShard).map fun d =>
    { l with driver := d, current := none, started := l.started ++ [s] }
  | .done (.error _) => (l.driver.step cfg (.failStart s.registered)).map fun d =>
    { l with driver := d, current := none, failed := some s }
  | _ => some { l with current := some s }

/-- One transition; the driver's own labels leave the starting to the starts. -/
def step (cfg : Config) (l : Launch) (e : LaunchEvent) : Option Launch :=
  if l.driver.aborted then none
  else
    match e with
    | .begin =>
      if l.current.isNone ∧ l.driver.life = .starting ∧ l.driver.cells.length < cfg.shardCount
      then some { l with current := some .init }
      else none
    | .start e => do
      let s ← l.current
      let s' ← s.step l.probes e
      l.settle cfg s'
    | .late res data => do
      let s ← l.failed
      let s' ← s.step true (.post res data)
      return { l with failed := some s' }
    | .elsewhere => some l
    | .driver .startShard | .driver (.failStart _) => none
    | .driver e =>
      if e = .started ∧ l.current.isSome then none
      else (l.driver.step cfg e).map fun d => { l with driver := d }

/-- States of a launch under any interleaving. -/
abbrev Reach (cfg : Config) (r : Option Nat) (l : Launch) : Prop :=
  Reachable (step cfg) anyLabel (init cfg r) l

section Step

variable {cfg : Config} {r : Option Nat} {l l' : Launch} {e : LaunchEvent}

/-- What one step can do. -/
inductive Transition (cfg : Config) (l : Launch) : LaunchEvent → Launch → Prop
  | begin (hc : l.current = none) (hl : l.driver.life = .starting)
      (hn : l.driver.cells.length < cfg.shardCount) :
      Transition cfg l .begin { l with current := some .init }
  | going {e : StartEvent} {s s' : Starting} (hc : l.current = some s)
      (hs : s.step l.probes e = some s') (hp : ∀ r, s'.phase ≠ .done r) :
      Transition cfg l (.start e) { l with current := some s' }
  | ready {e : StartEvent} {s s' : Starting} {d : Driver} (hc : l.current = some s)
      (hs : s.step l.probes e = some s') (hp : s'.phase = .done (.ok ()))
      (hd : l.driver.step cfg .startShard = some d) : Transition cfg l (.start e)
        { l with driver := d, current := none, started := l.started ++ [s'] }
  | failed {e : StartEvent} {s s' : Starting} {d : Driver} {f : ProbeFailure}
      (hc : l.current = some s) (hs : s.step l.probes e = some s')
      (hp : s'.phase = .done (.error f))
      (hd : l.driver.step cfg (.failStart s'.registered) = some d) :
      Transition cfg l (.start e) { l with driver := d, current := none, failed := some s' }
  | late {res : Int} {data : List UInt8} {s s' : Starting} (hf : l.failed = some s)
      (hs : s.step true (.post res data) = some s') :
      Transition cfg l (.late res data) { l with failed := some s' }
  | driver {e : DriverEvent} {d : Driver} (hstart : e ≠ .startShard)
      (hfail : ∀ registered, e ≠ .failStart registered)
      (hstarted : e = .started → l.current = none) (hd : l.driver.step cfg e = some d) :
      Transition cfg l (.driver e) { l with driver := d }
  | elsewhere : Transition cfg l .elsewhere l

theorem settle_cases {s : Starting} (h : l.settle cfg s = some l') :
    ((∀ r, s.phase ≠ .done r) ∧ l' = { l with current := some s }) ∨
    (s.phase = .done (.ok ()) ∧ ∃ d, l.driver.step cfg .startShard = some d ∧
      l' = { l with driver := d, current := none, started := l.started ++ [s] }) ∨
    ∃ f, s.phase = .done (.error f) ∧ ∃ d, l.driver.step cfg (.failStart s.registered) = some d ∧
      l' = { l with driver := d, current := none, failed := some s } := by
  unfold settle at h
  split at h
  · rename_i hp
    obtain ⟨d, hd, rfl⟩ := Option.map_eq_some_iff.mp h
    exact Or.inr (Or.inl ⟨hp, d, hd, rfl⟩)
  · rename_i f hp
    obtain ⟨d, hd, rfl⟩ := Option.map_eq_some_iff.mp h
    exact Or.inr (Or.inr ⟨f, hp, d, hd, rfl⟩)
  · rename_i hok herr
    cases h
    refine Or.inl ⟨fun r hp => ?_, rfl⟩
    cases r with
    | ok => exact hok hp
    | error f => exact herr f hp

theorem step_transition (h : step cfg l e = some l') :
    l.driver.aborted = false ∧ Transition cfg l e l' := by
  unfold step at h
  split at h
  · cases h
  rename_i hlive
  refine ⟨Bool.eq_false_iff.mpr hlive, ?_⟩
  split at h
  · split at h <;> cases h
    rename_i hg
    exact .begin (Option.isNone_iff_eq_none.mp hg.1) hg.2.1 hg.2.2
  · simp only [Option.bind_eq_bind, Option.bind_eq_some_iff] at h
    obtain ⟨s, hc, s', hs, hset⟩ := h
    rcases settle_cases hset with ⟨hp, rfl⟩ | ⟨hp, d, hd, rfl⟩ | ⟨f, hp, d, hd, rfl⟩
    · exact .going hc hs hp
    · exact .ready hc hs hp hd
    · exact .failed hc hs hp hd
  · simp only [Option.bind_eq_bind, Option.bind_eq_some_iff, Option.pure_def,
      Option.some.injEq] at h
    obtain ⟨s, hf, s', hs, rfl⟩ := h
    exact .late hf hs
  · cases h
    exact .elsewhere
  · cases h
  · cases h
  · rename_i e hstart hfail
    split at h
    · cases h
    · rename_i hcur
      obtain ⟨d, hd, rfl⟩ := Option.map_eq_some_iff.mp h
      refine .driver ?_ ?_ ?_ hd
      · rintro rfl
        exact hstart rfl
      · rintro registered rfl
        exact hfail registered rfl
      · intro he
        rw [not_and, Option.not_isSome_iff_eq_none] at hcur
        exact hcur he

/-- The starts that a launch knows of. -/
def starts (l : Launch) : List Starting := l.started ++ l.current.toList ++ l.failed.toList

/-- What holds of the starts beside the driver. -/
structure Sound (cfg : Config) (r : Option Nat) (l : Launch) : Prop where
  driver : l.driver.Reach cfg r
  length : l.started.length = l.driver.cells.length
  ready (k : Nat) (s : Starting) : l.started[k]? = some s →
    s.Sound (decide (k = 0)) ∧ s.phase = .done (.ok ())
  current (s : Starting) : l.current = some s →
    s.Sound l.probes ∧ (∀ r, s.phase ≠ .done r) ∧ l.driver.life = .starting
  failed (s : Starting) : l.failed = some s →
    s.Sound l.probes ∧ (∃ f, s.phase = .done (.error f)) ∧ l.driver.life ≠ .starting
  failing : l.driver.life.failing = l.failed.isSome
  complete : l.driver.life ≠ .starting → l.failed = none →
    l.driver.cells.length = cfg.shardCount

theorem init_sound : (init cfg r).Sound cfg r where
  driver := .start
  length := rfl
  ready _ _ h := nomatch h
  current _ h := nomatch h
  failed _ h := nomatch h
  failing := rfl
  complete h _ := absurd rfl h

theorem Sound.step (h : l.Sound cfg r) (hs : Transition cfg l e l') : l'.Sound cfg r := by
  cases hs with
  | elsewhere => exact h
  | begin hc hl hn =>
    refine { h with current := ?_ }
    intro s hs
    cases hs
    exact ⟨Starting.init_sound, nofun, hl⟩
  | going hc hs hp =>
    obtain ⟨hsound, -, hlife⟩ := h.current _ hc
    refine { h with current := ?_ }
    intro t ht
    cases ht
    exact ⟨hsound.step (Starting.step_transition hs), hp, hlife⟩
  | @ready _ s s' d hc hs hp hd =>
    obtain ⟨hsound, -, hlife⟩ := h.current _ hc
    have hnone : l.failed = none := by
      cases hf : l.failed with
      | none => rfl
      | some t => exact absurd hlife (h.failed t hf).2.2
    cases (Driver.step_transition hd).2 with
    | startShard hl hn =>
      refine ⟨h.driver.next trivial hd, ?_, ?_, ?_, ?_, h.failing, fun hl' => absurd hl hl'⟩
      · simp only [List.length_append, List.length_singleton, h.length, Driver.startShard]
      · intro k t ht
        rcases Nat.lt_or_ge k l.started.length with hk | hk
        · rw [List.getElem?_append_left hk] at ht
          exact h.ready k t ht
        · -- the new one: its number is the number of cells
          obtain rfl : k = l.started.length := by
            have hlt := (List.getElem?_eq_some_iff.mp ht).1
            rw [List.length_append, List.length_singleton] at hlt
            omega
          simp only [List.getElem?_concat_length, Option.some.injEq] at ht
          subst ht
          rw [h.length]
          exact ⟨hsound.step (Starting.step_transition hs), hp⟩
      · intro t ht
        cases ht
      · intro t ht
        rw [hnone] at ht
        cases ht
  | @failed _ s s' d f hc hs hp hd =>
    obtain ⟨hsound, -⟩ := h.current _ hc
    cases (Driver.step_transition hd).2 with
    | failStart hl hn =>
      refine ⟨h.driver.next trivial hd, h.length, h.ready, ?_, ?_, rfl, ?_⟩
      · intro t ht
        cases ht
      · intro t ht
        cases ht
        exact ⟨hsound.step (Starting.step_transition hs), ⟨f, hp⟩, by simp⟩
      · intro _ hnone
        cases hnone
  | @late _ _ s s' hf hs =>
    obtain ⟨hsound, ⟨f, hp⟩, hlife⟩ := h.failed s hf
    refine { h with failed := ?_, failing := ?_, complete := ?_ }
    · intro t ht
      cases ht
      obtain ⟨hsound', hphase⟩ := hsound.post hs
      exact ⟨hsound', ⟨f, hphase.trans hp⟩, hlife⟩
    · rw [h.failing, hf]
      rfl
    · intro _ hnone
      cases hnone
  | @driver e d hstart hfail hstarted hd =>
    have hlen : d.cells.length = l.driver.cells.length := Driver.length_cells hd hstart
    have hprobes : ({ l with driver := d } : Launch).probes = l.probes := by
      rw [probes, probes, hlen]
    by_cases hl : l.driver.life = .starting
    · have hnone : l.failed = none := by
        cases hf : l.failed with
        | none => rfl
        | some t => exact absurd hl (h.failed t hf).2.2
      rcases Driver.starting_step hd hl with hl' | ⟨rfl, hn, hl'⟩ | ⟨registered, rfl, -⟩
      · refine ⟨h.driver.next trivial hd, h.length.trans hlen.symm, h.ready, ?_, ?_, ?_,
          fun hne => absurd hl' hne⟩
        · intro t ht
          rw [hprobes]
          exact ⟨(h.current t ht).1, (h.current t ht).2.1, hl'⟩
        · intro t ht
          rw [hnone] at ht
          cases ht
        · rw [hl', ← hl]
          exact h.failing
      · refine ⟨h.driver.next trivial hd, h.length.trans hlen.symm, h.ready, ?_, ?_, ?_,
          fun _ _ => hlen.trans hn⟩
        · intro t ht
          rw [hstarted rfl] at ht
          cases ht
        · intro t ht
          rw [hnone] at ht
          cases ht
        · rw [hl', hnone]
          rfl
      · exact absurd rfl (hfail registered)
    · obtain ⟨hl', hsame⟩ := Driver.over_step hd hl
      refine ⟨h.driver.next trivial hd, h.length.trans hlen.symm, h.ready, ?_, ?_,
        hsame.trans h.failing, fun _ hnone => hlen.trans (h.complete hl hnone)⟩
      · intro t ht
        exact absurd (h.current t ht).2.2 hl
      · intro t ht
        rw [hprobes]
        exact ⟨(h.failed t ht).1, (h.failed t ht).2.1, hl'⟩

theorem Reach.sound (h : l.Reach cfg r) : l.Sound cfg r :=
  h.invariant init_sound fun _ _ _ _ hi _ hs => hi.step (step_transition hs).2

/-- A start that returned a shard left its ring as its loop begins with it. -/
structure Ready (s : Starting) : Prop where
  sq : s.sq = Ledger.init.sq
  held : s.held = Ledger.init.held
  cq : s.cq = Ledger.init.cq
  memory : s.memory = .unallocated ∨ s.memory = .freed
  capped : s.Capped

/-- What a launch guarantees. -/
structure Safe (cfg : Config) (r : Option Nat) (l : Launch) : Prop where
  /-- The driver beside it takes its own transitions. -/
  refines : l.driver.Reach cfg r
  /-- What the kernel has or may take is one probe's entry, and its buffer is not freed. -/
  owned : ∀ s ∈ l.starts, ∀ x ∈ s.sq ++ s.held,
    (s.memory = .live ∨ s.memory = .leaked) ∧ ∃ base, s.entries = [probeSqe s.file base]
  shards : List.Forall₂ (fun s (_ : Cell) => Ready s) l.started l.driver.cells
  /-- The first shard was probed, and the kernel read the whole pattern. -/
  verified : ∀ s, l.started[0]? = some s →
    s.answer = some ((probePattern.length : Int), probePattern)
  /-- A driver has all its shards. -/
  complete : l.driver.life ≠ .starting → l.driver.life.failing = false →
    l.started.length = cfg.shardCount
  /-- One buffer at most is leaked, by a probe, and then no shard was started. -/
  leaks : (l.starts.filter fun s => decide (s.memory = .leaked)).length ≤ 1
  leaked : ∀ s ∈ l.starts, s.memory = .leaked → l.driver.cells = [] ∧
    l.driver.life.failing = true ∧ ∃ err, s.phase = .done (.error (.readOp err))

theorem Sound.starts (h : l.Sound cfg r) {s : Starting} (hs : s ∈ l.starts) :
    ∃ probe, s.Sound probe := by
  simp only [Launch.starts, List.mem_append, Option.mem_toList] at hs
  rcases hs with (hk | hc) | hf
  · obtain ⟨k, hk⟩ := List.mem_iff_getElem?.mp hk
    exact ⟨_, (h.ready k s hk).1⟩
  · exact ⟨_, (h.current s hc).1⟩
  · exact ⟨_, (h.failed s hf).1⟩

theorem Sound.started_ready (h : l.Sound cfg r) {k : Nat} {s : Starting}
    (hk : l.started[k]? = some s) : Ready s := by
  obtain ⟨hsound, hp⟩ := h.ready k s hk
  obtain ⟨hclean, -, hcapped⟩ := hsound.ready hp
  obtain ⟨hsq, hheld, hcq⟩ := hclean.queues
  exact ⟨hsq, hheld, hcq, hclean.memory, hcapped⟩

/-- Only the failed start may have leaked. -/
theorem Sound.leaked_failed (h : l.Sound cfg r) {s : Starting} (hs : s ∈ l.started ++
    l.current.toList) : s.memory ≠ .leaked := by
  intro hmem
  simp only [List.mem_append, Option.mem_toList] at hs
  rcases hs with hk | hc
  · obtain ⟨k, hk⟩ := List.mem_iff_getElem?.mp hk
    rcases (h.started_ready hk).memory with hm | hm <;> rw [hmem] at hm <;> cases hm
  · obtain ⟨hsound, hp, -⟩ := h.current s hc
    obtain ⟨-, err, hdone⟩ := hsound.leaked hmem
    exact hp _ hdone

/-- Whatever the kernel and the other threads do, a launch frees no buffer under the kernel and
hands an empty ring to each loop; a driver that it returns has all its shards, the first of
which has read a file. -/
theorem launch_safe (h : l.Reach cfg r) : l.Safe cfg r := by
  have hs := Reach.sound h
  refine ⟨hs.driver, ?_, ?_, ?_, ?_, ?_, ?_⟩
  · intro s hmem x hx
    obtain ⟨probe, hsound⟩ := hs.starts hmem
    exact hsound.owned hx
  · rw [List.forall₂_iff_get]
    refine ⟨hs.length, fun i hi _ => hs.started_ready (k := i) ?_⟩
    rw [List.get_eq_getElem, List.getElem?_eq_getElem]
  · intro s h0
    obtain ⟨hsound, hp⟩ := hs.ready 0 s h0
    exact (hsound.ready hp).2.1 rfl
  · intro hl hok
    have hnone : l.failed = none := by
      rw [hs.failing, Option.isSome_eq_false_iff, Option.isNone_iff_eq_none] at hok
      exact hok
    exact hs.length.trans (hs.complete hl hnone)
  · have hrest : (l.started ++ l.current.toList).filter
        (fun s => decide (s.memory = .leaked)) = [] := by
      rw [List.filter_eq_nil_iff]
      intro s hmem
      rw [decide_eq_true_eq]
      exact hs.leaked_failed hmem
    rw [Launch.starts, List.filter_append, hrest, List.nil_append]
    refine (List.length_filter_le _ _).trans ?_
    cases l.failed <;> simp
  · intro s hmem hleak
    rw [Launch.starts, List.mem_append] at hmem
    rcases hmem with hmem | hmem
    · exact absurd hleak (hs.leaked_failed hmem)
    · rw [Option.mem_toList] at hmem
      obtain ⟨hprobe, herr⟩ := (hs.failed s hmem).1.leaked hleak
      refine ⟨List.eq_nil_of_length_eq_zero (of_decide_eq_true hprobe), ?_, herr⟩
      rw [hs.failing, hmem]
      rfl

end Step

/-- The setup calls after the probe; the kernel knows no io-wq limits. -/
def setupCalls : List LaunchEvent :=
  [.start (.call (.ok ())), .start (.call (.ok ())), .start (.iowq (.error (.os 22))),
    .start (.call (.ok ())), .start (.call (.ok ()))]

/-- Two shards on a kernel without `EXT_ARG`; a signal interrupts the first one's probe. -/
def launched : List LaunchEvent :=
  [.begin, .start (.ring (.ok ⟨true, false⟩)), .start (.openFile (.ok 7)),
    .start (.push 4096 false), .start (.arm 0), .start (.clock 1), .start .consume,
    .start (.waited (.error (.os eIntr))), .start .next, .start (.clock 5),
    .start (.post 512 probePattern), .start (.waited (.ok 0)), .start .next] ++ setupCalls ++
  [.begin, .start (.ring (.ok ⟨true, false⟩))] ++ setupCalls ++ [.driver .started]

/-- Two shards without a byte budget. -/
def twoShards : Config := ⟨Shard.oneSlot, 2, ⟨none, none⟩⟩

theorem launched_runs : (run (step twoShards) (init twoShards none) launched).isSome = true := by
  decide +kernel

theorem launch_safe_launched : ∃ l : Launch, l.Reach twoShards none ∧ l.driver.life = .running ∧
    l.Safe twoShards none := by
  have hr := reachable_get launched_runs
  refine ⟨_, hr, ?_, launch_safe hr⟩
  decide +kernel

end Launch

end Uring
