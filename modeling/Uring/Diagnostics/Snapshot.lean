import Uring.Diagnostics.Histogram

/-!
# Snapshots of sampled stages

Each shard keeps one histogram per stage; the driver's snapshot merges the shards'. A
quiescent snapshot sees every `fetch_add` of the records made so far, in whatever order
they took effect.
-/

namespace Uring

/-- `Stage`. -/
inductive Diagnostics.Stage
  | admission
  | queue
  | prepare
  | lifetime
  | cqe
  | resume
  deriving DecidableEq, Repr

/-- `DiagnosticsSnapshot`. -/
structure DiagnosticsSnapshot where
  admission : LatencyHistogram
  driverQueue : LatencyHistogram
  preparation : LatencyHistogram
  driverLifetime : LatencyHistogram
  cqeProcessing : LatencyHistogram
  completionToPoll : LatencyHistogram

namespace DiagnosticsSnapshot

/-- `DiagnosticsSnapshot::default()`. -/
def default : DiagnosticsSnapshot := ⟨.default, .default, .default, .default, .default, .default⟩

/-- `merge`. -/
def merge (s other : DiagnosticsSnapshot) : DiagnosticsSnapshot where
  admission := s.admission.merge other.admission
  driverQueue := s.driverQueue.merge other.driverQueue
  preparation := s.preparation.merge other.preparation
  driverLifetime := s.driverLifetime.merge other.driverLifetime
  cqeProcessing := s.cqeProcessing.merge other.cqeProcessing
  completionToPoll := s.completionToPoll.merge other.completionToPoll

/-- `since`. -/
def since (s earlier : DiagnosticsSnapshot) : DiagnosticsSnapshot where
  admission := s.admission.since earlier.admission
  driverQueue := s.driverQueue.since earlier.driverQueue
  preparation := s.preparation.since earlier.preparation
  driverLifetime := s.driverLifetime.since earlier.driverLifetime
  cqeProcessing := s.cqeProcessing.since earlier.cqeProcessing
  completionToPoll := s.completionToPoll.since earlier.completionToPoll

/-- The field of a stage. -/
def stage (s : DiagnosticsSnapshot) : Diagnostics.Stage → LatencyHistogram
  | .admission => s.admission
  | .queue => s.driverQueue
  | .prepare => s.preparation
  | .lifetime => s.driverLifetime
  | .cqe => s.cqeProcessing
  | .resume => s.completionToPoll

theorem stage_default (st : Diagnostics.Stage) : default.stage st = 0 := by
  cases st <;> rfl

theorem stage_merge (s other : DiagnosticsSnapshot) (st : Diagnostics.Stage) :
    (s.merge other).stage st = s.stage st + other.stage st := by
  cases st <;> exact LatencyHistogram.merge_eq_add _ _

theorem stage_since (s earlier : DiagnosticsSnapshot) (st : Diagnostics.Stage) :
    (s.since earlier).stage st = s.stage st - earlier.stage st := by
  cases st <;> exact LatencyHistogram.since_eq_sub _ _

end DiagnosticsSnapshot

/-- `Diagnostics`: the stages of one shard. -/
structure Diagnostics where
  stages : Diagnostics.Stage → Histogram

namespace Diagnostics

/-- `Diagnostics::default()`. -/
def default : Diagnostics := ⟨fun _ => .default⟩

/-- One `fetch_add` on the histogram of a stage. -/
def fetchAdd (d : Diagnostics) (op : Stage × FetchAdd) : Diagnostics where
  stages st := if st = op.1 then (d.stages st).fetchAdd op.2 else d.stages st

/-- The `fetch_add`s of `record`; `none` is a panic. -/
def recordOps (r : Stage × UInt64) : Option (List (Stage × FetchAdd)) :=
  (Histogram.recordOps r.2).map fun ops => ops.map fun op => (r.1, op)

/-- `record`. -/
def record (d : Diagnostics) (r : Stage × UInt64) : Option Diagnostics :=
  (recordOps r).map fun ops => ops.foldl fetchAdd d

/-- `snapshot`. -/
def snapshot (d : Diagnostics) : DiagnosticsSnapshot where
  admission := (d.stages .admission).snapshot
  driverQueue := (d.stages .queue).snapshot
  preparation := (d.stages .prepare).snapshot
  driverLifetime := (d.stages .lifetime).snapshot
  cqeProcessing := (d.stages .cqe).snapshot
  completionToPoll := (d.stages .resume).snapshot

/-- The `fetch_add`s of records made one after the other; `none` is a panic. -/
def recordAllOps : List (Stage × UInt64) → Option (List (Stage × FetchAdd))
  | [] => some []
  | r :: rs => do
    let ops ← recordOps r
    let rest ← recordAllOps rs
    return ops ++ rest

/-- The durations recorded for a stage. -/
def durations (st : Stage) (rs : List (Stage × UInt64)) : Multiset UInt64 :=
  ↑((rs.filter fun r => decide (r.1 = st)).map Prod.snd)

theorem stage_snapshot (d : Diagnostics) (st : Stage) :
    d.snapshot.stage st = (d.stages st).snapshot := by
  cases st <;> rfl

/-- What a `fetch_add` adds to the snapshot of a stage. -/
def delta (st : Stage) (op : Stage × FetchAdd) : LatencyHistogram :=
  if st = op.1 then op.2.delta else 0

theorem stage_fetchAdd (d : Diagnostics) (op : Stage × FetchAdd) (st : Stage) :
    (d.fetchAdd op).snapshot.stage st = d.snapshot.stage st + delta st op := by
  rw [stage_snapshot, stage_snapshot, delta]
  change (if st = op.1 then (d.stages st).fetchAdd op.2 else d.stages st).snapshot = _
  by_cases h : st = op.1
  · rw [if_pos h, if_pos h, Histogram.snapshot_fetchAdd]
  · rw [if_neg h, if_neg h, add_zero]

/-- A stage's snapshot after any number of `fetch_add`s. -/
theorem stage_foldl (d : Diagnostics) (ops : List (Stage × FetchAdd)) (st : Stage) :
    (ops.foldl fetchAdd d).snapshot.stage st = d.snapshot.stage st + (ops.map (delta st)).sum := by
  induction ops generalizing d with
  | nil => exact (add_zero _).symm
  | cons op ops ih =>
    rw [List.foldl_cons, ih, stage_fetchAdd, List.map_cons, List.sum_cons, add_assoc]

/-- A record never panics, and its `fetch_add`s add one sample to its stage. -/
theorem recordOps_eq (r : Stage × UInt64) : ∃ ops, recordOps r = some ops ∧
    ∀ st, (ops.map (delta st)).sum = if r.1 = st then LatencyHistogram.sample r.2 else 0 := by
  obtain ⟨stage, nanos⟩ := r
  have hops : recordOps (stage, nanos) = some [(stage, .bucket ⟨_, log2_lt nanos⟩),
      (stage, .total nanos), (stage, .count)] := by
    simp only [recordOps, Histogram.recordOps, bucketIndex_eq, Option.map_some, List.map_cons,
      List.map_nil]
  refine ⟨_, hops, ?_⟩
  intro st
  simp only [List.map_cons, List.map_nil, List.sum_cons, List.sum_nil, delta]
  by_cases h : stage = st
  · rw [if_pos h, if_pos h.symm, if_pos h.symm, if_pos h.symm]
    apply LatencyHistogram.ext
    · rfl
    · simp [FetchAdd.delta, LatencyHistogram.sample]
    · intro i
      simp [FetchAdd.delta, LatencyHistogram.sample, Fin.ext_iff, eq_comm]
  · rw [if_neg h, if_neg (Ne.symm h), if_neg (Ne.symm h), if_neg (Ne.symm h)]
    simp

theorem durations_cons (st : Stage) (r : Stage × UInt64) (rs : List (Stage × UInt64)) :
    durations st (r :: rs) = if r.1 = st then r.2 ::ₘ durations st rs else durations st rs := by
  by_cases h : r.1 = st
  · simp [durations, h]
  · simp [durations, h]

/-- Any number of records never panics, and adds their histogram to each stage. -/
theorem recordAllOps_eq (rs : List (Stage × UInt64)) : ∃ ops, recordAllOps rs = some ops ∧
    ∀ st, (ops.map (delta st)).sum = LatencyHistogram.of (durations st rs) := by
  induction rs with
  | nil => exact ⟨[], rfl, fun _ => LatencyHistogram.of_zero.symm⟩
  | cons r rs ih =>
    obtain ⟨ops, hops, hsum⟩ := recordOps_eq r
    obtain ⟨rest, hrest, hsums⟩ := ih
    refine ⟨ops ++ rest, by simp [recordAllOps, hops, hrest], ?_⟩
    intro st
    rw [List.map_append, List.sum_append, hsum, hsums, durations_cons]
    by_cases h : r.1 = st
    · rw [if_pos h, if_pos h, LatencyHistogram.of_cons]
    · rw [if_neg h, if_neg h, zero_add]

theorem recordAllOps_isSome (rs : List (Stage × UInt64)) : (recordAllOps rs).isSome = true := by
  obtain ⟨ops, hops, -⟩ := recordAllOps_eq rs
  rw [hops]
  rfl

theorem durations_append (st : Stage) (rs rs' : List (Stage × UInt64)) :
    durations st (rs ++ rs') = durations st rs + durations st rs' := by
  simp [durations]

/-- The `fetch_add`s `ops` are those of the records `rs`, in any order. -/
def Effects (rs : List (Stage × UInt64)) (ops : List (Stage × FetchAdd)) : Prop :=
  ∃ all, recordAllOps rs = some all ∧ ops.Perm all

/-- The effects of records made one after the other. -/
theorem effects_get (rs : List (Stage × UInt64)) :
    Effects rs ((recordAllOps rs).get (recordAllOps_isSome rs)) :=
  ⟨_, (Option.some_get _).symm, List.Perm.refl _⟩

/-- The order in which `fetch_add`s take effect does not show in a snapshot. -/
theorem Effects.stage_foldl {rs : List (Stage × UInt64)} {ops : List (Stage × FetchAdd)}
    (h : Effects rs ops) (d : Diagnostics) (st : Stage) :
    (ops.foldl fetchAdd d).snapshot.stage st =
      d.snapshot.stage st + LatencyHistogram.of (durations st rs) := by
  obtain ⟨all, hall, hperm⟩ := h
  obtain ⟨ops', hops', hsum⟩ := recordAllOps_eq rs
  have heq : all = ops' := Option.some.inj (hall.symm.trans hops')
  rw [Diagnostics.stage_foldl, (hperm.map (delta st)).sum_eq, heq, hsum]

end Diagnostics

/-- `UringDriver::diagnostics`. -/
def diagnostics (shards : List Diagnostics) : DiagnosticsSnapshot :=
  shards.foldl (fun snapshot shard => snapshot.merge shard.snapshot) .default

/-- The merged snapshot is the sum of the shards'. -/
theorem stage_diagnostics (shards : List Diagnostics) (st : Diagnostics.Stage) :
    (diagnostics shards).stage st = (shards.map fun d => d.snapshot.stage st).sum := by
  have hfold : ∀ (s : DiagnosticsSnapshot) (ds : List Diagnostics),
      (ds.foldl (fun snapshot shard => snapshot.merge shard.snapshot) s).stage st =
        s.stage st + (ds.map fun d => d.snapshot.stage st).sum := by
    intro s ds
    induction ds generalizing s with
    | nil => exact (add_zero _).symm
    | cons d ds ih =>
      rw [List.foldl_cons, ih, DiagnosticsSnapshot.stage_merge, List.map_cons, List.sum_cons,
        add_assoc]
  rw [diagnostics, hfold, DiagnosticsSnapshot.stage_default, zero_add]

/-- The records of one shard up to a first quiescent moment and from there to a second,
each with the order in which their `fetch_add`s took effect. -/
structure ShardRecording where
  before : List (Diagnostics.Stage × UInt64)
  between : List (Diagnostics.Stage × UInt64)
  beforeOps : List (Diagnostics.Stage × FetchAdd)
  betweenOps : List (Diagnostics.Stage × FetchAdd)
  before_effects : Diagnostics.Effects before beforeOps
  between_effects : Diagnostics.Effects between betweenOps

namespace ShardRecording

/-- Records made one after the other. -/
def inOrder (before between : List (Diagnostics.Stage × UInt64)) : ShardRecording where
  before := before
  between := between
  beforeOps := (Diagnostics.recordAllOps before).get (Diagnostics.recordAllOps_isSome before)
  betweenOps := (Diagnostics.recordAllOps between).get (Diagnostics.recordAllOps_isSome between)
  before_effects := Diagnostics.effects_get before
  between_effects := Diagnostics.effects_get between

/-- The later records take effect in another order. -/
def reorder (r : ShardRecording) (ops : List (Diagnostics.Stage × FetchAdd))
    (h : ops.Perm r.betweenOps) : ShardRecording :=
  { r with
    betweenOps := ops
    between_effects := by
      obtain ⟨all, hall, hperm⟩ := r.between_effects
      exact ⟨all, hall, h.trans hperm⟩ }

/-- The shard at the first quiescent moment. -/
def earlier (r : ShardRecording) : Diagnostics := r.beforeOps.foldl Diagnostics.fetchAdd .default

/-- The shard at the second quiescent moment. -/
def later (r : ShardRecording) : Diagnostics := r.betweenOps.foldl Diagnostics.fetchAdd r.earlier

theorem stage_earlier (r : ShardRecording) (st : Diagnostics.Stage) :
    r.earlier.snapshot.stage st = LatencyHistogram.of (Diagnostics.durations st r.before) := by
  rw [earlier, r.before_effects.stage_foldl]
  have hzero : Diagnostics.default.snapshot.stage st = 0 := by cases st <;> rfl
  rw [hzero, zero_add]

theorem stage_later (r : ShardRecording) (st : Diagnostics.Stage) :
    r.later.snapshot.stage st =
      r.earlier.snapshot.stage st + LatencyHistogram.of (Diagnostics.durations st r.between) := by
  rw [later, r.between_effects.stage_foldl]

end ShardRecording

namespace LatencyHistogram

/-- In a quiescent snapshot the buckets add up to the count. -/
def Balanced (h : LatencyHistogram) : Prop := ∑ i, h.buckets i = h.count

theorem of_balanced (ds : Multiset UInt64) : (of ds).Balanced := bucketSum_of ds

theorem Balanced.add {a b : LatencyHistogram} (ha : a.Balanced) (hb : b.Balanced) :
    (a + b).Balanced := by
  have hsum : bucketSum (a + b) = bucketSum a + bucketSum b := map_add ..
  calc bucketSum (a + b) = bucketSum a + bucketSum b := hsum
    _ = a.count + b.count := congrArg₂ (· + ·) ha hb

theorem Balanced.sum {hs : List LatencyHistogram} (h : ∀ a ∈ hs, a.Balanced) :
    hs.sum.Balanced := by
  induction hs with
  | nil => exact bucketSum.map_zero
  | cons a hs ih =>
    rw [List.sum_cons]
    apply Balanced.add
    · exact h a List.mem_cons_self
    · exact ih fun b hb => h b (List.mem_cons_of_mem _ hb)

end LatencyHistogram

/-- The histogram of several lists of durations is the sum of theirs. -/
theorem of_durations_flatMap (st : Diagnostics.Stage) {α : Type*} (rs : List α)
    (f : α → List (Diagnostics.Stage × UInt64)) :
    LatencyHistogram.of (Diagnostics.durations st (rs.flatMap f)) =
      (rs.map fun r => LatencyHistogram.of (Diagnostics.durations st (f r))).sum := by
  induction rs with
  | nil => exact LatencyHistogram.of_zero
  | cons r rs ih =>
    rw [List.flatMap_cons, Diagnostics.durations_append, LatencyHistogram.of_eq_sum,
      Multiset.map_add, Multiset.sum_add, ← LatencyHistogram.of_eq_sum,
      ← LatencyHistogram.of_eq_sum, ih, List.map_cons, List.sum_cons]

/-- The difference of two merged quiescent snapshots is the histogram of the durations
recorded in between, on whatever shards and in whatever order; recording never leaves the
buckets, and in every quiescent snapshot the buckets add up to the count. -/
theorem diagnostics_since_exact (shards : List ShardRecording) (st : Diagnostics.Stage) :
    ((diagnostics (shards.map ShardRecording.later)).since
        (diagnostics (shards.map ShardRecording.earlier))).stage st =
      LatencyHistogram.of (Diagnostics.durations st (shards.flatMap ShardRecording.between)) ∧
    (∀ (d : Diagnostics) (r : Diagnostics.Stage × UInt64), (d.record r).isSome) ∧
    (∀ r ∈ shards, (r.earlier.snapshot.stage st).Balanced ∧
      (r.later.snapshot.stage st).Balanced) ∧
    ((diagnostics (shards.map ShardRecording.earlier)).stage st).Balanced ∧
    ((diagnostics (shards.map ShardRecording.later)).stage st).Balanced := by
  have hshards : ∀ r ∈ shards, (r.earlier.snapshot.stage st).Balanced ∧
      (r.later.snapshot.stage st).Balanced := by
    intro r _
    have hearlier : (r.earlier.snapshot.stage st).Balanced := by
      rw [r.stage_earlier]
      exact LatencyHistogram.of_balanced _
    refine ⟨hearlier, ?_⟩
    rw [r.stage_later]
    exact hearlier.add (LatencyHistogram.of_balanced _)
  refine ⟨?_, ?_, hshards, ?_, ?_⟩
  · have hsplit : (shards.map fun r => r.later.snapshot.stage st).sum =
        (shards.map fun r => r.earlier.snapshot.stage st).sum +
          (shards.map fun r => LatencyHistogram.of (Diagnostics.durations st r.between)).sum := by
      rw [← List.sum_map_add]
      simp only [ShardRecording.stage_later]
    rw [DiagnosticsSnapshot.stage_since, stage_diagnostics, stage_diagnostics, List.map_map,
      List.map_map, of_durations_flatMap]
    exact sub_eq_of_eq_add' hsplit
  · intro d r
    obtain ⟨ops, hops, -⟩ := Diagnostics.recordOps_eq r
    rw [Diagnostics.record, hops]
    rfl
  · rw [stage_diagnostics, List.map_map]
    apply LatencyHistogram.Balanced.sum
    intro a ha
    obtain ⟨r, hr, rfl⟩ := List.mem_map.mp ha
    exact (hshards r hr).1
  · rw [stage_diagnostics, List.map_map]
    apply LatencyHistogram.Balanced.sum
    intro a ha
    obtain ⟨r, hr, rfl⟩ := List.mem_map.mp ha
    exact (hshards r hr).2

/-- Two shards; on the second one the later records take effect in reverse order. -/
def twoRecordings : List ShardRecording :=
  [.inOrder [(.queue, 3)] [(.queue, 900), (.cqe, 5)],
    (ShardRecording.inOrder [(.queue, 1)] [(.queue, 70), (.queue, 0)]).reorder _
      (List.reverse_perm _)]

/-- The difference of the merged snapshots holds the three later samples of the stage. -/
theorem diagnostics_since_exact_reordered :
    ((diagnostics (twoRecordings.map ShardRecording.later)).since
        (diagnostics (twoRecordings.map ShardRecording.earlier))).stage .queue =
      LatencyHistogram.of {900, 70, 0} := by
  have hexact := (diagnostics_since_exact twoRecordings .queue).1
  exact hexact

end Uring
