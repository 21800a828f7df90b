import Uring.Driver.Call

/-!
# Batches of reads

`read_at_batch` does what its reads do one by one, except that the signal of a read is delayed
to the end of the batch and made once for every shard that was sent one.
-/

namespace Uring

open Uring.Core

/-- `MAX_BATCH_READS`. -/
def maxBatchReads : Nat := 64

/-- `ReadRequest`. -/
structure ReadRequest where
  file : Nat
  offset : Nat
  len : Nat
  deriving DecidableEq, Repr

/-- The arguments of `submit` for a buffered positioned read. -/
def ReadRequest.request (q : ReadRequest) (policy : ShardPolicy) : Request :=
  ⟨q.file, q.offset, q.len, 1, false, policy⟩

namespace Wake

/-- A producer sends and owes a signal. -/
def owe (id : Nat) (w : Wake) : Wake :=
  { w with owing := if id ∈ w.owing then w.owing else id :: w.owing }

/-- The producers `ids` send one after the other. -/
def oweAll (ids : List Nat) (w : Wake) : Wake := ids.foldl (fun w id => w.owe id) w

/-- A signal on behalf of the reads `ids`. -/
def signal (ids : List Nat) (w : Wake) : Wake :=
  { w with wakeEfd := signalEfd w.wakeEfd, owing := ids.foldl List.erase w.owing }

/-- The producers `ids` send one after the other, each signalling at once. -/
def relay (ids : List Nat) (w : Wake) : Wake :=
  ids.foldl (fun w id => (w.owe id).signal [id]) w

theorem erase_owe {o : List Nat} {a : Nat} :
    (if a ∈ o then o else a :: o).erase a = o.erase a := by
  split
  · rfl
  · rename_i hnew
    rw [List.erase_cons_head, List.erase_of_not_mem hnew]

theorem relay_eq (ids : List Nat) (w : Wake) : w.relay ids =
    { w with
      wakeEfd := signalEfd^[ids.length] w.wakeEfd
      owing := ids.foldl List.erase w.owing } := by
  induction ids generalizing w with
  | nil => rfl
  | cons a rest ih =>
    change Wake.relay rest ((w.owe a).signal [a]) = _
    rw [ih]
    simp only [Wake.owe, Wake.signal, List.foldl_cons, List.foldl_nil, erase_owe]
    rfl

theorem owe_erase {o : List Nat} {a b : Nat} (hab : a ≠ b) :
    (if b ∈ o then o else b :: o).erase a =
      if b ∈ o.erase a then o.erase a else b :: o.erase a := by
  have hmem : b ∈ o.erase a ↔ b ∈ o := List.mem_erase_of_ne hab.symm
  by_cases hb : b ∈ o
  · rw [if_pos hb, if_pos (hmem.mpr hb)]
  · rw [if_neg hb, if_neg (mt hmem.mp hb), List.erase_cons_tail]
    simpa only [beq_iff_eq] using hab.symm

/-- Sends of others do not keep a producer from being through. -/
theorem oweAll_erase {ids : List Nat} {a : Nat} (ha : a ∉ ids) (w : Wake) :
    (w.oweAll ids).owing.erase a =
      (Wake.oweAll ids { w with owing := w.owing.erase a }).owing := by
  induction ids generalizing w with
  | nil => rfl
  | cons b rest ih =>
    obtain ⟨hab, hrest⟩ := not_or.mp (mt List.mem_cons.mpr ha)
    change ((w.owe b).oweAll rest).owing.erase a = _
    rw [ih hrest]
    change (Wake.oweAll rest { w with
      owing := (if b ∈ w.owing then w.owing else b :: w.owing).erase a }).owing = _
    rw [owe_erase hab]
    rfl

theorem oweAll_frame (ids : List Nat) (w : Wake) :
    w.oweAll ids = { w with owing := (w.oweAll ids).owing } := by
  induction ids generalizing w with
  | nil => rfl
  | cons b rest ih =>
    change (w.owe b).oweAll rest = _
    rw [ih]
    rfl

/-- One signal for all of them. -/
theorem signal_oweAll {ids : List Nat} (hids : ids.Nodup) (w : Wake) :
    (w.oweAll ids).signal ids = { w with
      wakeEfd := signalEfd w.wakeEfd
      owing := ids.foldl List.erase w.owing } := by
  have howing : ids.foldl List.erase (w.oweAll ids).owing = ids.foldl List.erase w.owing := by
    induction ids generalizing w with
    | nil => rfl
    | cons a rest ih =>
      obtain ⟨ha, hrest⟩ := List.nodup_cons.mp hids
      change rest.foldl List.erase (((w.owe a).oweAll rest).owing.erase a) = _
      rw [oweAll_erase ha, ih hrest]
      exact congrArg (rest.foldl List.erase) erase_owe
  rw [oweAll_frame]
  simp only [Wake.signal, howing]

end Wake

namespace Driver

/-- `read_at`. -/
def readAt (cfg : Config) (policy : ShardPolicy) (d : Driver) (q : ReadRequest) :
    Option (Call (Nat × ReadHandle)) := d.submit cfg (q.request policy) true

/-- `read_at` on requests one by one. -/
def readEach (cfg : Config) (policy : ShardPolicy) :
    List ReadRequest → Driver → Option (Call (List (Nat × ReadHandle)))
  | [], d => some ⟨[], [], d⟩
  | q :: rest, d => do
    let c ← d.readAt cfg policy q
    let r ← readEach cfg policy rest c.driver
    return ⟨c.value :: r.value, c.effects ++ r.effects, r.driver⟩

/-- Remember the wake eventfd of a submitted handle, once. -/
def addWake (wakes : List Nat) (h : ReadHandle) : List Nat :=
  match h.state with
  | .submitted wake => if wake ∈ wakes then wakes else wakes ++ [wake]
  | _ => wakes

/-- The first loop of `read_at_batch`: the handles and the shards to signal. -/
def batchLoop (cfg : Config) (policy : ShardPolicy) :
    List ReadRequest → List Nat → Driver → Option (Call (List (Nat × ReadHandle) × List Nat))
  | [], wakes, d => some ⟨([], wakes), [], d⟩
  | q :: rest, wakes, d => do
    let c ← d.submit cfg (q.request policy) false
    let r ← batchLoop cfg policy rest (addWake wakes c.value.2) c.driver
    return ⟨(c.value :: r.value.1, r.value.2), c.effects ++ r.effects, r.driver⟩

/-- The reads among handles that were sent to shard `k`. -/
def sentTo (handles : List (Nat × ReadHandle)) (k : Nat) : List Nat :=
  (handles.filter fun x => x.2.isSubmitted && decide (x.2.shard = k)).map Prod.fst

/-- `read_at_batch`. -/
def readAtBatch (cfg : Config) (policy : ShardPolicy) (requests : List ReadRequest) (d : Driver) :
    Option (Call (Except IoError (List (Nat × ReadHandle)))) :=
  if maxBatchReads < requests.length then
    some ⟨.error (.invalidInput "read batch exceeds MAX_BATCH_READS"), [], d⟩
  else do
    let c ← batchLoop cfg policy requests [] d
    let (handles, wakes) := c.value
    return ⟨.ok handles, c.effects ++ wakes.map Effect.signal,
      wakes.foldl (fun d k => d.signalWake k (sentTo handles k)) c.driver⟩

variable {cfg : Config} {d d' : Driver} {req : Request} {id : Nat}

/-- The sends of the submitted reads among handles. -/
def sends (handles : List (Nat × ReadHandle)) : List Effect :=
  (handles.filter fun x => x.2.isSubmitted).map fun x => .send x.2.shard x.1

/-- The sends of the submitted reads, each followed by its signal. -/
def signalledSends (handles : List (Nat × ReadHandle)) : List Effect :=
  (handles.filter fun x => x.2.isSubmitted).flatMap fun x =>
    [.send x.2.shard x.1, .signal x.2.shard]

theorem sends_cons (x : Nat × ReadHandle) (rest : List (Nat × ReadHandle)) :
    sends (x :: rest) = sends [x] ++ sends rest := by
  simp only [sends, ← List.map_append, ← List.filter_append, List.singleton_append]

theorem signalledSends_cons (x : Nat × ReadHandle) (rest : List (Nat × ReadHandle)) :
    signalledSends (x :: rest) = signalledSends [x] ++ signalledSends rest := by
  simp only [signalledSends, ← List.flatMap_append, ← List.filter_append, List.singleton_append]

theorem sentTo_cons (x : Nat × ReadHandle) (rest : List (Nat × ReadHandle)) (k : Nat) :
    sentTo (x :: rest) k = sentTo [x] k ++ sentTo rest k := by
  simp only [sentTo, ← List.map_append, ← List.filter_append, List.singleton_append]

theorem sentTo_singleton (x : Nat × ReadHandle) (k : Nat) :
    sentTo [x] k = if x.2.isSubmitted ∧ x.2.shard = k then [x.1] else [] := by
  unfold sentTo
  by_cases hx : x.2.isSubmitted ∧ x.2.shard = k
  · rw [if_pos hx, List.filter_cons_of_pos (by simp only [hx.1, hx.2, decide_true, Bool.and_self])]
    rfl
  · rw [if_neg hx, List.filter_cons_of_neg
      (by simpa only [Bool.and_eq_true, decide_eq_true_eq] using hx)]
    rfl

section Wakes

/-- The wake eventfd of shard `k` and those who owe it a signal. -/
def wakeOf (d : Driver) (k : Nat) : Option Wake := d.cells[k]?.map fun cell => cell.loop.wake

theorem cells_ne_nil_iff : d.cells ≠ [] ↔ (d.wakeOf 0).isSome = true := by
  unfold wakeOf
  cases d.cells with
  | nil => exact ⟨fun h => absurd rfl h, fun h => by cases h⟩
  | cons cell rest => exact ⟨fun _ => rfl, fun _ => List.cons_ne_nil cell rest⟩

theorem wakeOf_withSems (d : Driver) (q : Sems) (k : Nat) :
    (d.withSems q).wakeOf k = d.wakeOf k := by
  simp only [wakeOf, withSems, List.getElem?_mapIdx, Option.map_map]
  rfl

theorem wakeOf_put (d : Driver) (id : Nat) (x : Option Caller) (k : Nat) :
    (d.put id x).wakeOf k = d.wakeOf k := by
  cases x <;> rfl

/-- Changing one shard changes its wake eventfd alone. -/
theorem wakeOf_modify {d d' : Driver} {k : Nat} {f : Cell → Cell} {g : Wake → Wake}
    (hcells : d'.cells = d.cells.modify k f) (h : ∀ cell, (f cell).loop.wake = g cell.loop.wake)
    (j : Nat) : d'.wakeOf j = if j = k then (d.wakeOf j).map g else d.wakeOf j := by
  simp only [wakeOf, hcells, List.getElem?_modify]
  by_cases hj : k = j
  · subst hj
    simp only [if_true]
    cases d.cells[k]? with
    | none => rfl
    | some cell => exact congrArg some (h cell)
  · simp only [if_neg hj, if_neg (Ne.symm hj)]
    cases d.cells[j]? <;> rfl

theorem wakeOf_install (d : Driver) (k : Nat) (v : View) (j : Nat) : (d.install k v).wakeOf j =
    if j = k then (d.wakeOf j).map fun _ => v.loop.wake else d.wakeOf j :=
  wakeOf_modify rfl (fun _ => rfl) j

theorem wakeOf_signalWake (d : Driver) (k : Nat) (ids : List Nat) (j : Nat) :
    (d.signalWake k ids).wakeOf j =
      if j = k then (d.wakeOf j).map (Wake.signal ids) else d.wakeOf j :=
  wakeOf_modify rfl (fun _ => rfl) j

theorem sendRead_wake {v v' : View} {m : ReadMsg} (h : v.sendRead m = some v') :
    v'.loop.wake = v.loop.wake.owe m.id := by
  obtain ⟨loop, hloop, rfl⟩ := Option.map_eq_some_iff.mp h
  simp only [Shard.sendMsg] at hloop
  split at hloop
  · cases hloop
  · cases hloop
    rfl

/-- What a call that was given `id` does, its signal apart. -/
structure Answers (d : Driver) (id : Nat) (c : Call (Nat × ReadHandle)) : Prop where
  drawn : c.value.1 = id
  routed : c.value.2.Routed
  placed : c.value.2.isSubmitted = true → (d.wakeOf c.value.2.shard).isSome = true
  effects : c.effects = sends [c.value]
  nextId : c.driver.nextId = d.nextId
  wake : ∀ k, c.driver.wakeOf k = (d.wakeOf k).map (Wake.oweAll (sentTo [c.value] k))

/-- A handle without a submitted read leaves the threads alone. -/
theorem handOut_answers {h : ReadHandle} (hh : h.isSubmitted = false) (hr : h.Routed)
    (hnext : d'.nextId = d.nextId) (hwake : ∀ k, d'.wakeOf k = d.wakeOf k) :
    d.Answers id (d'.handOut id h []) := by
  refine ⟨rfl, hr, fun hs => absurd hs (by simp [handOut, hh]), ?_, hnext, ?_⟩
  · change [] = sends [(id, h)]
    simp only [sends, List.filter_cons, hh, Bool.false_eq_true, if_false, List.filter_nil,
      List.map_nil]
  · intro k
    change (d'.put id _).wakeOf k = (d.wakeOf k).map (Wake.oweAll (sentTo [(id, h)] k))
    have hnone : sentTo [(id, h)] k = [] := by
      rw [sentTo_singleton, if_neg]
      simp only [hh, Bool.false_eq_true, false_and, not_false_eq_true]
    rw [wakeOf_put, hwake, hnone]
    exact Option.map_id'.symm

theorem sendEager_answers {k : Nat} {permit : ReadPermits} {c : Call (Nat × ReadHandle)}
    (h : d.sendEager id req k permit false = some c) : d.Answers id c := by
  unfold sendEager at h
  simp only at h
  cases hv : d.view k with
  | none =>
    rw [hv] at h
    cases h
  | some v =>
    rw [hv] at h
    simp only [Option.bind_eq_bind, Option.bind_some] at h
    have hown : d.wakeOf k = some v.loop.wake := by
      obtain ⟨cell, hcell, rfl⟩ := Option.map_eq_some_iff.mp hv
      simp only [wakeOf, hcell, Option.map_some]
    split at h
    · cases h
      apply handOut_answers
      · rfl
      · exact nofun
      · rfl
      · intro j
        rw [wakeOf_install]
        split
        · rename_i hj
          rw [hj, hown]
          rfl
        · rfl
    · rename_i v' hsend
      cases h
      refine ⟨rfl, fun _ hwake => (Option.some.inj hwake).symm, fun _ => ?_, rfl, rfl, ?_⟩
      · exact Option.isSome_iff_exists.mpr ⟨_, hown⟩
      intro j
      change ((d.install k v').put id _).wakeOf j = _
      rw [wakeOf_put, wakeOf_install, sentTo_singleton]
      by_cases hj : j = k
      · subst hj
        rw [if_pos rfl, hown, sendRead_wake hsend, if_pos ⟨rfl, rfl⟩]
        rfl
      · rw [if_neg hj, if_neg fun hpair => hj hpair.2.symm]
        exact Option.map_id'.symm

theorem finishSubmit_answers {charge : Nat} {s : Selection} {c : Call (Nat × ReadHandle)}
    (h : d.finishSubmit id req charge false s = some c) : d.Answers id c := by
  unfold finishSubmit at h
  simp only at h
  split at h
  · have ha := sendEager_answers h
    refine ⟨ha.drawn, ha.routed, ?_, ha.effects, ha.nextId, ?_⟩
    · intro hs
      rw [← wakeOf_withSems d s.sems]
      exact ha.placed hs
    intro k
    rw [ha.wake, wakeOf_withSems]
  · cases h
    apply handOut_answers
    · rfl
    · exact fun _ hwake => (Option.some.inj hwake).symm
    · rfl
    · exact wakeOf_withSems d s.sems
  · cases h
    apply handOut_answers
    · rfl
    · exact nofun
    · rfl
    · exact wakeOf_withSems d s.sems

/-- A call is given the next id. -/
theorem submit_answers {c : Call (Nat × ReadHandle)} (h : d.submit cfg req false = some c) :
    (d.issue cfg).Answers d.nextId c ∧ d.nextId < cancelBit := by
  unfold submit at h
  simp only at h
  split at h
  · cases h
  · rename_i hcond
    have hlt : d.nextId < cancelBit := by
      by_contra hge
      exact hcond (Or.inl (not_lt.mp hge))
    refine ⟨?_, hlt⟩
    split at h
    · cases h
      apply handOut_answers
      · rfl
      · exact nofun
      · rfl
      · intro k
        rfl
    · obtain ⟨s, _, hs⟩ := Option.bind_eq_some_iff.mp h
      exact finishSubmit_answers hs

end Wakes

section Runs

variable {policy : ShardPolicy} {requests : List ReadRequest} {wakes : List Nat}

/-- The shards to signal after handles were built. -/
def addWakes (wakes : List Nat) (handles : List (Nat × ReadHandle)) : List Nat :=
  handles.foldl (fun wakes x => addWake wakes x.2) wakes

theorem mem_sentTo {handles : List (Nat × ReadHandle)} {k : Nat} :
    sentTo handles k ≠ [] ↔ ∃ x ∈ handles, x.2.isSubmitted = true ∧ x.2.shard = k := by
  simp only [sentTo, ne_eq, List.map_eq_nil_iff, List.filter_eq_nil_iff, not_forall, not_not,
    Bool.and_eq_true, decide_eq_true_eq, exists_prop]

/-- The eventfd of a handle's own shard is remembered. -/
theorem addWake_eq {h : ReadHandle} (hr : h.Routed) (wakes : List Nat) : addWake wakes h =
    if h.isSubmitted && !decide (h.shard ∈ wakes) then wakes ++ [h.shard] else wakes := by
  unfold addWake
  unfold ReadHandle.Routed ReadHandle.wake at hr
  unfold ReadHandle.isSubmitted
  cases hs : h.state with
  | inert | waiting => rfl
  | submitted wake =>
    rw [hs] at hr
    obtain rfl := hr wake rfl
    by_cases hmem : h.shard ∈ wakes <;> simp [hmem]

theorem mem_addWake {h : ReadHandle} (hr : h.Routed) {k : Nat} :
    k ∈ addWake wakes h ↔ k ∈ wakes ∨ (h.isSubmitted = true ∧ h.shard = k) := by
  rw [addWake_eq hr]
  cases h.isSubmitted with
  | false => simp only [Bool.false_and, Bool.false_eq_true, if_false, false_and, or_false]
  | true =>
    by_cases hmem : h.shard ∈ wakes
    · simp only [hmem, decide_true, Bool.not_true, Bool.and_false, Bool.false_eq_true, if_false,
        true_and]
      exact ⟨Or.inl, fun hk => hk.elim id fun heq => heq ▸ hmem⟩
    · simp only [hmem, decide_false, Bool.not_false, Bool.and_self, if_true, List.mem_append,
        List.mem_singleton, true_and, eq_comm]

theorem nodup_addWake (hwakes : wakes.Nodup) {h : ReadHandle} (hr : h.Routed) :
    (addWake wakes h).Nodup := by
  rw [addWake_eq hr]
  split
  · rename_i hnew
    have hmem : h.shard ∉ wakes := by
      intro hmem
      simp only [hmem, decide_true, Bool.not_true, Bool.and_false, Bool.false_eq_true] at hnew
    exact List.nodup_append'.mpr ⟨hwakes, List.nodup_singleton _, by
      simpa only [List.disjoint_singleton] using hmem⟩
  · exact hwakes

/-- Every shard that was sent a read is to be signalled, once. -/
theorem addWakes_spec (wakes : List Nat) (handles : List (Nat × ReadHandle))
    (hwakes : wakes.Nodup) (hr : ∀ x ∈ handles, x.2.Routed) :
    (addWakes wakes handles).Nodup ∧
      ∀ k, k ∈ addWakes wakes handles ↔ k ∈ wakes ∨ sentTo handles k ≠ [] := by
  induction handles generalizing wakes with
  | nil => exact ⟨hwakes, fun k => ⟨Or.inl, fun hk => hk.resolve_right fun hne => hne rfl⟩⟩
  | cons x rest ih =>
    have hx := hr x List.mem_cons_self
    obtain ⟨hnodup, hmem⟩ := ih (addWake wakes x.2) (nodup_addWake hwakes hx)
      fun y hy => hr y (List.mem_cons_of_mem _ hy)
    refine ⟨hnodup, ?_⟩
    intro k
    change k ∈ addWakes (addWake wakes x.2) rest ↔ _
    simp only [hmem, mem_addWake hx, mem_sentTo, List.mem_cons, exists_eq_or_imp, or_assoc]

/-- What the loop of a batch does. -/
theorem batchLoop_spec {b : Call (List (Nat × ReadHandle) × List Nat)}
    (h : batchLoop cfg policy requests wakes d = some b) :
    b.value.2 = addWakes wakes b.value.1 ∧ (∀ x ∈ b.value.1, x.2.Routed) ∧
      b.effects = sends b.value.1 ∧
      ∀ k, b.driver.wakeOf k = (d.wakeOf k).map (Wake.oweAll (sentTo b.value.1 k)) := by
  induction requests generalizing wakes d b with
  | nil =>
    cases h
    refine ⟨rfl, nofun, rfl, ?_⟩
    intro k
    exact Option.map_id'.symm
  | cons q rest ih =>
    obtain ⟨c, hc, h⟩ := Option.bind_eq_some_iff.mp h
    obtain ⟨r, hr, h⟩ := Option.bind_eq_some_iff.mp h
    cases h
    obtain ⟨hwakes, hrouted, heffects, hwake⟩ := ih hr
    obtain ⟨ha, _⟩ := submit_answers hc
    refine ⟨hwakes, List.forall_mem_cons.mpr ⟨ha.routed, hrouted⟩, ?_, ?_⟩
    · change c.effects ++ r.effects = sends (c.value :: r.value.1)
      rw [ha.effects, heffects, ← sends_cons]
    · intro k
      change r.driver.wakeOf k = (d.wakeOf k).map (Wake.oweAll (sentTo (c.value :: r.value.1) k))
      rw [hwake, ha.wake, Option.map_map, sentTo_cons c.value r.value.1]
      refine congrArg (fun f => (d.wakeOf k).map f) (funext fun w => ?_)
      exact (List.foldl_append ..).symm

/-- What a read followed by its signal does. -/
theorem notify_answers {id : Nat} {c : Call (Nat × ReadHandle)} (h : d.Answers id c) :
    (notify c).value = c.value ∧ (notify c).effects = signalledSends [c.value] ∧
      (notify c).driver.nextId = d.nextId ∧
      ∀ k, (notify c).driver.wakeOf k = (d.wakeOf k).map (Wake.relay (sentTo [c.value] k)) := by
  unfold notify
  by_cases hs : c.value.2.isSubmitted = true
  · rw [if_pos hs]
    refine ⟨rfl, ?_, h.nextId, ?_⟩
    · simp only [h.effects, sends, signalledSends, List.filter_cons, hs, if_true, List.filter_nil]
      rfl
    · intro k
      simp only [wakeOf_signalWake, h.wake, sentTo_singleton, hs, true_and]
      by_cases hk : k = c.value.2.shard
      · rw [if_pos hk, if_pos hk.symm, Option.map_map]
        rfl
      · rw [if_neg hk, if_neg (Ne.symm hk)]
        rfl
  · rw [if_neg hs]
    refine ⟨rfl, ?_, h.nextId, ?_⟩
    · simp only [h.effects, sends, signalledSends, List.filter_cons, hs, List.filter_nil]
      rfl
    · intro k
      rw [h.wake, sentTo_singleton, if_neg fun hpair => hs hpair.1]
      rfl

/-- What reads one by one do. -/
theorem readEach_spec {s : Call (List (Nat × ReadHandle))}
    (h : readEach cfg policy requests d = some s) :
    s.effects = signalledSends s.value ∧
      (∀ k, s.driver.wakeOf k = (d.wakeOf k).map (Wake.relay (sentTo s.value k))) ∧
      (∀ x ∈ s.value, x.2.isSubmitted = true → (d.wakeOf x.2.shard).isSome = true) ∧
      (∀ x ∈ s.value, d.nextId ≤ x.1) ∧ (s.value.map Prod.fst).Nodup := by
  induction requests generalizing d s with
  | nil =>
    cases h
    refine ⟨rfl, ?_, nofun, nofun, List.nodup_nil⟩
    intro k
    exact Option.map_id'.symm
  | cons q rest ih =>
    obtain ⟨c', hc', h⟩ := Option.bind_eq_some_iff.mp h
    obtain ⟨r, hr, h⟩ := Option.bind_eq_some_iff.mp h
    cases h
    rw [readAt, submit_notify] at hc'
    obtain ⟨c, hc, rfl⟩ := Option.map_eq_some_iff.mp hc'
    obtain ⟨ha, hlt⟩ := submit_answers hc
    obtain ⟨hvalue, heffects, hnext, hwake⟩ := notify_answers ha
    obtain ⟨heffects', hwake', hplaced, hids, hnodup⟩ := ih hr
    have hlater : ∀ x ∈ r.value, d.nextId < x.1 := by
      intro x hx
      have hle := hids x hx
      rw [hnext] at hle
      change fetchAdd d.nextId ≤ x.1 at hle
      have hword : cancelBit < 2 ^ 64 := by decide
      rw [fetchAdd_of_lt (by omega)] at hle
      exact hle
    refine ⟨?_, ?_, ?_, ?_, ?_⟩
    · change (notify c).effects ++ r.effects = signalledSends ((notify c).value :: r.value)
      rw [heffects, heffects', hvalue, ← signalledSends_cons]
    · intro k
      change r.driver.wakeOf k =
        (d.wakeOf k).map (Wake.relay (sentTo ((notify c).value :: r.value) k))
      rw [hwake', hwake, Option.map_map, hvalue, sentTo_cons c.value r.value]
      refine congrArg (fun f => (d.wakeOf k).map f) (funext fun w => ?_)
      exact (List.foldl_append ..).symm
    · intro x hx hsub
      rcases List.mem_cons.mp hx with rfl | hx
      · rw [hvalue] at hsub ⊢
        exact ha.placed hsub
      · have hsome := hplaced x hx hsub
        rwa [hwake, Option.isSome_map] at hsome
    · intro x hx
      rcases List.mem_cons.mp hx with rfl | hx
      · rw [hvalue, ha.drawn]
      · exact (hlater x hx).le
    · change ((notify c).value.1 :: r.value.map Prod.fst).Nodup
      refine List.nodup_cons.mpr ⟨?_, hnodup⟩
      intro hmem
      obtain ⟨x, hx, heq⟩ := List.mem_map.mp hmem
      have hlt := hlater x hx
      rw [heq, hvalue, ha.drawn] at hlt
      exact lt_irrefl _ hlt

/-- Reads one by one return while a shard exists and the ids last. -/
theorem readEach_total (hids : d.nextId + requests.length ≤ cancelBit) (hcells : d.cells ≠ []) :
    ∃ s, readEach cfg policy requests d = some s := by
  induction requests generalizing d with
  | nil => exact ⟨_, rfl⟩
  | cons q rest ih =>
    rw [List.length_cons] at hids
    obtain ⟨c, hc⟩ := submit_total cfg (by omega) hcells (q.request policy)
    obtain ⟨ha, hlt⟩ := submit_answers hc
    obtain ⟨-, -, hnext, hwake⟩ := notify_answers ha
    have hword : cancelBit < 2 ^ 64 := by decide
    have hone : (notify c).driver.nextId = d.nextId + 1 :=
      hnext.trans (fetchAdd_of_lt (by omega))
    have hcells' : (notify c).driver.cells ≠ [] := by
      rw [cells_ne_nil_iff, hwake, Option.isSome_map]
      exact cells_ne_nil_iff.mp hcells
    obtain ⟨r, hr⟩ := ih (by omega) hcells'
    rw [readEach, readAt, submit_notify, hc]
    simp only [Option.map_some, Option.bind_eq_bind, Option.bind_some, hr]
    exact ⟨_, rfl⟩

theorem quiet_notify (c : Call (Nat × ReadHandle)) : (notify c).driver.quiet = c.driver.quiet := by
  unfold notify
  split
  · exact quiet_signalWake _ _ _
  · rfl

/-- Calls on drivers that differ in their wake eventfds. -/
theorem submit_of_quiet (cfg : Config) {d d' : Driver} (h : d.quiet = d'.quiet) (req : Request) :
    (d.submit cfg req false).map quietCall = (d'.submit cfg req false).map quietCall := by
  rw [← quiet_submit, h, quiet_submit]

/-- The loop of a batch builds the handles of reads one by one. -/
theorem batchLoop_quiet (cfg : Config) (policy : ShardPolicy) {d d' : Driver}
    (h : d.quiet = d'.quiet) (requests : List ReadRequest) (wakes : List Nat) :
    (batchLoop cfg policy requests wakes d).map (fun b => (b.value.1, b.driver.quiet)) =
      (readEach cfg policy requests d').map fun s => (s.value, s.driver.quiet) := by
  induction requests generalizing d d' wakes with
  | nil => exact congrArg (fun q => some ([], q)) h
  | cons q rest ih =>
    have hone := submit_of_quiet cfg h (q.request policy)
    have heach : d'.readAt cfg policy q = (d'.submit cfg (q.request policy) false).map notify :=
      submit_notify cfg d' (q.request policy)
    rw [batchLoop, readEach, heach]
    cases hc' : d'.submit cfg (q.request policy) false with
    | none =>
      rw [hc'] at hone
      rw [Option.map_eq_none_iff.mp hone]
      rfl
    | some c' =>
      rw [hc'] at hone
      obtain ⟨c, hc, hquiet⟩ := Option.map_eq_some_iff.mp hone
      have hvalue : c.value = c'.value :=
        show (quietCall c).value = (quietCall c').value by rw [hquiet]
      have hdriver : c.driver.quiet = (notify c').driver.quiet := by
        rw [quiet_notify]
        exact show (quietCall c).driver = (quietCall c').driver by rw [hquiet]
      have hvalue' : (notify c').value = c'.value := by
        unfold notify
        split <;> rfl
      have hrest := ih hdriver (addWake wakes c.value.2)
      simp only [hc, Option.map_some, Option.bind_eq_bind, Option.bind_some]
      cases hr : readEach cfg policy rest (notify c').driver with
      | none =>
        rw [hr] at hrest
        rw [Option.map_eq_none_iff.mp hrest]
        rfl
      | some r =>
        rw [hr] at hrest
        obtain ⟨b, hb, heq⟩ := Option.map_eq_some_iff.mp hrest
        obtain ⟨hhandles, hlast⟩ := Prod.mk.inj heq
        rw [hb]
        change some (c.value :: b.value.1, b.driver.quiet) =
          some ((notify c').value :: r.value, r.driver.quiet)
        rw [hvalue, hvalue', hhandles, hlast]

/-- The signals at the end of a batch. -/
theorem signalAll_spec (handles : List (Nat × ReadHandle)) (hwakes : wakes.Nodup) (d : Driver) :
    (wakes.foldl (fun d k => d.signalWake k (sentTo handles k)) d).quiet = d.quiet ∧
      ∀ k, (wakes.foldl (fun d k => d.signalWake k (sentTo handles k)) d).wakeOf k =
        (d.wakeOf k).map fun w => if k ∈ wakes then w.signal (sentTo handles k) else w := by
  induction wakes generalizing d with
  | nil =>
    refine ⟨rfl, ?_⟩
    intro k
    simp only [List.foldl_nil, List.not_mem_nil, if_false]
    exact Option.map_id'.symm
  | cons j rest ih =>
    obtain ⟨hnew, hrest⟩ := List.nodup_cons.mp hwakes
    obtain ⟨hquiet, hwake⟩ := ih hrest (d.signalWake j (sentTo handles j))
    refine ⟨hquiet.trans (quiet_signalWake _ _ _), ?_⟩
    intro k
    rw [List.foldl_cons, hwake, wakeOf_signalWake]
    by_cases hk : k = j
    · subst hk
      simp only [if_true, hnew, if_false, List.mem_cons_self, Option.map_map]
      rfl
    · simp only [hk, if_false, List.mem_cons, false_or]

end Runs

theorem filter_signalledSends (handles : List (Nat × ReadHandle)) :
    (signalledSends handles).filter Effect.isSend = sends handles := by
  induction handles with
  | nil => rfl
  | cons x rest ih =>
    rw [signalledSends_cons, sends_cons, List.filter_append, ih]
    simp only [signalledSends, sends, List.filter_cons, List.filter_nil]
    cases x.2.isSubmitted <;> rfl

/-- A batch is the sequence of its reads, but for the signals. It returns the same handles and
leaves the same driver; it makes the same sends and then signals every shard that was sent a
read, once, which leaves its eventfd readable. The reads panic only when the ids are used up, and
then the batch does. A batch that is too long changes nothing. -/
theorem batch_is_sequence (cfg : Config) (policy : ShardPolicy) (requests : List ReadRequest)
    (d : Driver) :
    (maxBatchReads < requests.length → readAtBatch cfg policy requests d =
      some ⟨.error (.invalidInput "read batch exceeds MAX_BATCH_READS"), [], d⟩) ∧
    (requests.length ≤ maxBatchReads →
      (d.cells ≠ [] → d.nextId + requests.length ≤ cancelBit →
        ∃ s, readEach cfg policy requests d = some s) ∧
      (readEach cfg policy requests d = none → readAtBatch cfg policy requests d = none) ∧
      ∀ s, readEach cfg policy requests d = some s →
        ∃ b, ∃ owners : List Nat, readAtBatch cfg policy requests d = some b ∧
          b.value = .ok s.value ∧ b.driver.quiet = s.driver.quiet ∧
          owners.Nodup ∧
          (∀ k, k ∈ owners ↔ ∃ x ∈ s.value, x.2.isSubmitted = true ∧ x.2.shard = k) ∧
          b.effects = s.effects.filter Effect.isSend ++ owners.map .signal ∧
          s.effects = signalledSends s.value ∧
          (∀ k ∈ owners, ∃ w, b.driver.wakeOf k = some w ∧ 0 < w.wakeEfd) ∧
          ∀ k, b.driver.wakeOf k = (d.wakeOf k).map (fun w => { w with
              wakeEfd := if k ∈ owners then signalEfd w.wakeEfd else w.wakeEfd
              owing := (sentTo s.value k).foldl List.erase w.owing }) ∧
            s.driver.wakeOf k = (d.wakeOf k).map (fun w => { w with
              wakeEfd := signalEfd^[(sentTo s.value k).length] w.wakeEfd
              owing := (sentTo s.value k).foldl List.erase w.owing })) := by
  have hsame := batchLoop_quiet cfg policy (Eq.refl d.quiet) requests []
  refine ⟨?_, ?_⟩
  · intro hlong
    rw [readAtBatch, if_pos hlong]
  · intro hlength
    rw [readAtBatch, if_neg (not_lt.mpr hlength)]
    refine ⟨?_, ?_, ?_⟩
    · intro hcells hids
      exact readEach_total hids hcells
    · intro hnone
      rw [hnone] at hsame
      rw [Option.map_eq_none_iff.mp hsame]
      rfl
    · intro s hs
      rw [hs] at hsame
      obtain ⟨c, hc, heq⟩ := Option.map_eq_some_iff.mp hsame
      obtain ⟨hhandles, hquiet⟩ := Prod.mk.inj heq
      obtain ⟨hwakes, hrouted, heffects, hwake⟩ := batchLoop_spec hc
      obtain ⟨heffects', hwake', hplaced, _, hids⟩ := readEach_spec hs
      obtain ⟨hnodup, hmem⟩ := addWakes_spec [] c.value.1 List.nodup_nil hrouted
      rw [← hwakes] at hnodup hmem
      have howner (k : Nat) : k ∈ c.value.2 ↔ sentTo s.value k ≠ [] := by
        rw [hmem, ← hhandles]
        exact ⟨fun h => h.resolve_left List.not_mem_nil, Or.inr⟩
      obtain ⟨hquiet', hwake''⟩ := signalAll_spec c.value.1 hnodup c.driver
      rw [hc]
      refine ⟨_, c.value.2, rfl, ?_, ?_, hnodup, ?_, ?_, heffects', ?_, ?_⟩
      · exact congrArg Except.ok hhandles
      · exact hquiet'.trans hquiet
      · intro k
        rw [howner, mem_sentTo]
      · change c.effects ++ c.value.2.map Effect.signal = _
        rw [heffects, heffects', filter_signalledSends, hhandles]
      · intro k hk
        obtain ⟨x, hx, hsub, rfl⟩ := mem_sentTo.mp ((howner k).mp hk)
        obtain ⟨w, hw⟩ := Option.isSome_iff_exists.mp (hplaced x hx hsub)
        refine ⟨_, (hwake'' _).trans (by rw [hwake, hw, Option.map_some, Option.map_some]), ?_⟩
        rw [if_pos hk]
        exact signalEfd_pos _
      · intro k
        have hsent : (sentTo s.value k).Nodup := hids.sublist (List.filter_sublist.map Prod.fst)
        refine ⟨?_, ?_⟩
        · change (c.value.2.foldl (fun d k => d.signalWake k (sentTo c.value.1 k)) c.driver).wakeOf
            k = _
          rw [hwake'', hwake, Option.map_map, hhandles]
          refine congrArg (fun f => (d.wakeOf k).map f) (funext fun w => ?_)
          change (if k ∈ c.value.2 then (w.oweAll (sentTo s.value k)).signal (sentTo s.value k)
            else w.oweAll (sentTo s.value k)) = _
          by_cases hk : k ∈ c.value.2
          · rw [if_pos hk, Wake.signal_oweAll hsent]
            simp only [hk, if_true]
          · have hnone : sentTo s.value k = [] := not_not.mp (mt (howner k).mpr hk)
            rw [if_neg hk, hnone]
            simp only [hk, if_false]
            rfl
        · rw [hwake']
          exact congrArg (fun f => (d.wakeOf k).map f) (funext fun w => Wake.relay_eq _ w)

/-- Two shards of one slot each. -/
def slotPair : Config := ⟨Shard.oneSlot, 2, ⟨none, none⟩⟩

/-- Both shards run. -/
def runningPair : Driver :=
  { ((init slotPair none).startShard slotPair).startShard slotPair with life := .running }

/-- Three reads of which the last one waits for a slot: two sends, then one signal for each of the
two shards. -/
theorem batch_is_sequence_deferred :
    ∃ s b, readEach slotPair .roundRobin [⟨0, 0, 8⟩, ⟨0, 8, 8⟩, ⟨0, 16, 8⟩] runningPair = some s ∧
      readAtBatch slotPair .roundRobin [⟨0, 0, 8⟩, ⟨0, 8, 8⟩, ⟨0, 16, 8⟩] runningPair = some b ∧
      b.value = .ok s.value ∧
      s.value.map (fun x => (x.1, x.2.shard, x.2.isSubmitted)) =
        [(1, 0, true), (2, 1, true), (3, 0, false)] ∧
      b.effects = [.send 0 1, .send 1 2, .signal 0, .signal 1] ∧
      ∀ k ∈ [0, 1], ∃ w, b.driver.wakeOf k = some w ∧ 0 < w.wakeEfd := by
  have hread : (readEach slotPair .roundRobin [⟨0, 0, 8⟩, ⟨0, 8, 8⟩, ⟨0, 16, 8⟩]
      runningPair).isSome = true := by
    rfl
  obtain ⟨b, owners, hb, hvalue, _, _, howners, _, _, hsignalled, _⟩ :=
    ((batch_is_sequence slotPair .roundRobin [⟨0, 0, 8⟩, ⟨0, 8, 8⟩, ⟨0, 16, 8⟩] runningPair).2
      (by decide)).2.2 _ (Option.some_get hread).symm
  refine ⟨_, b, (Option.some_get hread).symm, hb, hvalue, rfl, ?_, ?_⟩
  · have heffects : (readAtBatch slotPair .roundRobin [⟨0, 0, 8⟩, ⟨0, 8, 8⟩, ⟨0, 16, 8⟩]
        runningPair).map Call.effects = some [.send 0 1, .send 1 2, .signal 0, .signal 1] := rfl
    rw [hb] at heffects
    exact Option.some.inj heffects
  · intro k hk
    refine hsignalled k ((howners k).mpr ?_)
    rcases List.mem_cons.mp hk with rfl | hk
    · exact ⟨_, List.mem_cons_self, rfl, rfl⟩
    · obtain rfl := List.mem_singleton.mp hk
      exact ⟨_, List.mem_cons_of_mem _ List.mem_cons_self, rfl, rfl⟩

end Driver

end Uring
