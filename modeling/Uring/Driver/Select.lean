import Uring.Core.Cells
import Uring.Core.Fairness
import Uring.Driver.Step

/-!
# Shard selection

`select_read_shard` as one call on semaphores that nobody else touches, and what it is
for: the first shard in cyclic order with a free count permit, else the first one that is
not closed. A `submit` that runs alone performs exactly this call.
-/

namespace Uring

open Uring.Core

/-- The semaphores a selection sees. -/
structure Sems where
  counts : List Semaphore
  bytes : Option Semaphore

/-- What a selection returns, the semaphores it leaves and the shards it tried. -/
structure Selection where
  shard : Nat
  result : Except TryAcquireError ReadPermits
  sems : Sems
  tried : List Nat

/-- The shards from `start` on, then those before it. -/
def cyclic (n start : Nat) : List Nat := List.range' start (n - start) ++ List.range start

/-- Writing back what is there changes nothing. -/
theorem set_of_getElem? {α : Type} {l : List α} {k : Nat} {a : α} (h : l[k]? = some a) :
    l.set k a = l := by
  obtain ⟨hlt, rfl⟩ := List.getElem?_eq_some_iff.mp h
  exact List.set_getElem_self hlt

namespace Sems

/-- The byte semaphore is configured and closed. -/
def bytesClosed (q : Sems) : Bool := q.bytes.any Semaphore.closed

/-- Go on with the count permit of shard `k`, whose semaphore is now `sem`; a byte error
drops the permit. -/
def withCount (q : Sems) (k : Nat) (sem : Semaphore) (charge : Nat) (tried : List Nat) :
    Selection :=
  match q.bytes with
  | none => ⟨k, .ok ⟨1, none, none⟩, ⟨q.counts.set k sem, none⟩, tried⟩
  | some b =>
    match b.tryAcquire charge with
    | .ok b' => ⟨k, .ok ⟨1, some charge, none⟩, ⟨q.counts.set k sem, some b'⟩, tried⟩
    | .error e => ⟨k, .error e, ⟨q.counts.set k (sem.release 1), some b⟩, tried⟩

/-- The scan of a capacity-aware selection; `none` is an index out of range. -/
def scan (q : Sems) (start charge : Nat) : List Nat → Option Nat → List Nat → Option Selection
  | [], waiting, tried =>
    if q.bytesClosed then some ⟨start, .error .closed, q, tried⟩
    else
      match waiting with
      | some k => some ⟨k, .error .noPermits, q, tried⟩
      | none => some ⟨start, .error .closed, q, tried⟩
  | k :: rest, waiting, tried => do
    let sem ← q.counts[k]?
    match sem.tryAcquire 1 with
    | .ok sem' => return q.withCount k sem' charge (tried ++ [k])
    | .error .noPermits => q.scan start charge rest (waiting.or (some k)) (tried ++ [k])
    | .error .closed => q.scan start charge rest waiting (tried ++ [k])

/-- `select_read_shard`. -/
def selectReadShard (q : Sems) (start charge : Nat) (capacityAware : Bool) : Option Selection := do
  let first ← q.counts[start]?
  if !capacityAware then
    match first.tryAcquire 1 with
    | .ok sem => return q.withCount start sem charge [start]
    | .error e => return ⟨start, .error e, q, [start]⟩
  else if q.bytesClosed then return ⟨start, .error .closed, q, []⟩
  else q.scan start charge (cyclic q.counts.length start) none []

/-- Shard `k` is not closed. -/
def isOpen (q : Sems) (k : Nat) : Bool := q.counts[k]?.any fun s => !s.closed

/-- Shard `k` is not closed and has a free count permit. -/
def free (q : Sems) (k : Nat) : Bool :=
  q.counts[k]?.any fun s => !s.closed && decide (1 ≤ s.permits)

/-- Fewer bytes are free than charged. -/
def shortBytes (q : Sems) (charge : Nat) : Bool := q.bytes.any fun b => decide (b.permits < charge)

/-- One count permit of shard `k` and `charge` bytes are taken. -/
def take (q : Sems) (k charge : Nat) : Sems where
  counts := q.counts.modify k fun s => { s with permits := s.permits - 1 }
  bytes := q.bytes.map fun b => { b with permits := b.permits - charge }

/-- What a selection that found a free permit at shard `k` is for. -/
def granted (q : Sems) (k charge : Nat) (tried : List Nat) : Selection :=
  if q.shortBytes charge then ⟨k, .error .noPermits, q, tried⟩
  else ⟨k, .ok ⟨1, q.bytes.map fun _ => charge, none⟩, q.take k charge, tried⟩

variable {q : Sems} {start charge : Nat}

theorem free_iff {k : Nat} {sem : Semaphore} (hk : q.counts[k]? = some sem) :
    q.free k = true ↔ ∃ sem', sem.tryAcquire 1 = .ok sem' ∧
      sem' = { sem with permits := sem.permits - 1 } := by
  simp only [free, hk, Option.any_some, Bool.and_eq_true, Bool.not_eq_true', decide_eq_true_eq,
    Semaphore.tryAcquire]
  constructor
  · rintro ⟨hopen, hle⟩
    exact ⟨_, by simp [hopen, hle], rfl⟩
  · rintro ⟨sem', hok, _⟩
    split at hok
    · cases hok
    · rename_i hopen
      split at hok
      · rename_i hle
        exact ⟨Bool.eq_false_iff.mpr hopen, hle⟩
      · cases hok

/-- A failed attempt on a shard without a free permit tells open from closed. -/
theorem tryAcquire_of_not_free {k : Nat} {sem : Semaphore} (hk : q.counts[k]? = some sem)
    (hf : q.free k = false) :
    sem.tryAcquire 1 = .error (if q.isOpen k then .noPermits else .closed) := by
  simp only [free, hk, Option.any_some, Bool.and_eq_false_iff, Bool.not_eq_false',
    decide_eq_false_iff_not] at hf
  simp only [isOpen, hk, Option.any_some, Semaphore.tryAcquire]
  cases hc : sem.closed with
  | true => simp
  | false =>
    have hle : ¬ 1 ≤ sem.permits := hf.resolve_left (by simp [hc])
    simp [hle]

/-- With a free permit at shard `k` the bytes decide, and a shortage restores the count. -/
theorem withCount_eq {k : Nat} {sem sem' : Semaphore} (hk : q.counts[k]? = some sem)
    (hfair : sem.Fair) (hb : q.bytesClosed = false) (ha : sem.tryAcquire 1 = .ok sem')
    (he : sem' = { sem with permits := sem.permits - 1 }) (tried : List Nat) :
    q.withCount k sem' charge tried = q.granted k charge tried := by
  have hset := set_of_getElem? hk
  have htake : q.counts.set k sem' =
      q.counts.modify k fun s => { s with permits := s.permits - 1 } := by
    refine List.ext_getElem? fun j => ?_
    rw [List.getElem?_set, List.getElem?_modify]
    obtain ⟨hlt, hget⟩ := List.getElem?_eq_some_iff.mp hk
    by_cases hj : k = j
    · subst hj
      simp [hlt, he, hget]
    · simp [hj]
  have hrestore := hfair.release_tryAcquire Nat.one_pos ha
  rcases q with ⟨counts, bytes⟩
  cases bytes with
  | none =>
    simp only [withCount, granted, shortBytes, take, Option.any_none, Bool.false_eq_true, if_false,
      Option.map_none]
    rw [htake]
  | some b =>
    have hopen : b.closed = false := by simpa [bytesClosed] using hb
    simp only at hset htake
    by_cases hle : charge ≤ b.permits
    · have hok : b.tryAcquire charge = .ok { b with permits := b.permits - charge } := by
        simp [Semaphore.tryAcquire, hopen, hle]
      simp only [withCount, hok, granted, shortBytes, take, Option.any_some, not_lt.mpr hle,
        decide_false, Bool.false_eq_true, if_false, Option.map_some]
      rw [htake]
    · have herr : b.tryAcquire charge = .error .noPermits := by
        simp [Semaphore.tryAcquire, hopen, hle]
      simp only [withCount, herr, granted, shortBytes, Option.any_some, not_le.mp hle, decide_true,
        if_true, hrestore, hset]

/-- What a scan of `order` is for: the first free shard, else the first open one, where
an open one seen earlier comes first. -/
def chosen (q : Sems) (start charge : Nat) (order : List Nat) (waiting : Option Nat)
    (tried : List Nat) : Selection :=
  match order.find? q.free with
  | some k => q.granted k charge tried
  | none =>
    match waiting.or (order.find? q.isOpen) with
    | some k => ⟨k, .error .noPermits, q, tried⟩
    | none => ⟨start, .error .closed, q, tried⟩

/-- The scan chooses, and tries a first part of its order. -/
theorem scan_eq (start charge : Nat) {order : List Nat} (hfair : ∀ s ∈ q.counts, s.Fair)
    (hb : q.bytesClosed = false)
    (hlt : ∀ k ∈ order, k < q.counts.length) (waiting : Option Nat) (tried : List Nat) :
    ∃ pre, pre <+: order ∧ q.scan start charge order waiting tried =
      some (q.chosen start charge order waiting (tried ++ pre)) := by
  induction order generalizing waiting tried with
  | nil =>
    refine ⟨[], List.prefix_refl [], ?_⟩
    simp only [scan, hb, Bool.false_eq_true, if_false, chosen, List.find?_nil, Option.or_none,
      List.append_nil]
    cases waiting <;> rfl
  | cons k rest ih =>
    have hk := List.getElem?_eq_getElem (hlt k List.mem_cons_self)
    have hrest (j : Nat) (hj : j ∈ rest) := hlt j (List.mem_cons_of_mem _ hj)
    have hsem := hfair _ (List.getElem_mem (hlt k List.mem_cons_self))
    simp only [scan, hk, Option.bind_eq_bind, Option.bind_some]
    cases hf : q.free k with
    | true =>
      obtain ⟨sem', ha, he⟩ := (free_iff hk).mp hf
      refine ⟨[k], ⟨rest, rfl⟩, ?_⟩
      rw [ha]
      simp only [Option.pure_def, chosen, List.find?_cons, hf]
      rw [withCount_eq hk hsem hb ha he]
    | false =>
      -- the shard is skipped, and remembered when it is open
      have hfind : (k :: rest).find? q.free = rest.find? q.free := by
        rw [List.find?_cons, hf]
      rw [tryAcquire_of_not_free hk hf]
      cases ho : q.isOpen k with
      | true =>
        obtain ⟨pre, hpre, hscan⟩ := ih hrest (waiting.or (some k)) (tried ++ [k])
        refine ⟨k :: pre, List.prefix_cons_inj k |>.mpr hpre, ?_⟩
        simp only [if_true, hscan, chosen, hfind, List.append_assoc, List.singleton_append]
        rw [List.find?_cons, ho, Option.or_assoc, Option.some_or]
      | false =>
        obtain ⟨pre, hpre, hscan⟩ := ih hrest waiting (tried ++ [k])
        refine ⟨k :: pre, List.prefix_cons_inj k |>.mpr hpre, ?_⟩
        simp only [Bool.false_eq_true, if_false, hscan, chosen, hfind, List.append_assoc,
          List.singleton_append]
        rw [List.find?_cons, ho]

/-- Every shard comes once in the cyclic order. -/
theorem nodup_cyclic {n : Nat} : (cyclic n start).Nodup := by
  refine List.nodup_append'.mpr ⟨List.nodup_range', List.nodup_range, ?_⟩
  intro k hk hlow
  have hge := (List.mem_range'_1.mp hk).1
  have hlt := List.mem_range.mp hlow
  omega

theorem lt_of_mem_cyclic {n k : Nat} (hs : start < n) (hk : k ∈ cyclic n start) : k < n := by
  rcases List.mem_append.mp hk with hk | hk
  · have := (List.mem_range'_1.mp hk).2
    omega
  · have := List.mem_range.mp hk
    omega

theorem cyclic_cons {n : Nat} (hs : start < n) :
    cyclic n start = start :: (cyclic n start).tail := by
  obtain ⟨m, hm⟩ : ∃ m, n - start = m + 1 := ⟨n - start - 1, by omega⟩
  rw [cyclic, hm, List.range'_succ]
  rfl


/-- What a capacity-aware selection from `start` promises. -/
structure Selects (q : Sems) (start charge : Nat) (s : Selection) : Prop where
  bytesClosed : q.bytesClosed = true → s.shard = start ∧ s.result = .error .closed
  /-- The first shard with a free permit is picked, and the bytes decide. -/
  free : q.bytesClosed = false → ∀ k, (cyclic q.counts.length start).find? q.free = some k →
    s.shard = k ∧ s.result = if q.shortBytes charge then .error .noPermits
      else .ok ⟨1, q.bytes.map fun _ => charge, none⟩
  /-- Without a free permit the first open shard is bound. -/
  full : q.bytesClosed = false → (cyclic q.counts.length start).find? q.free = none →
    ∀ k, (cyclic q.counts.length start).find? q.isOpen = some k →
      s.shard = k ∧ s.result = .error .noPermits
  allClosed : q.bytesClosed = false → (cyclic q.counts.length start).find? q.isOpen = none →
    s.result = .error .closed
  once : s.tried.Nodup
  ok : ∀ p, s.result = .ok p → s.sems = q.take s.shard charge
  error : ∀ e, s.result = .error e → s.sems = q

/-- A shard with a free permit is open. -/
theorem isOpen_of_free {k : Nat} (h : q.free k = true) : q.isOpen k = true := by
  simp only [free, isOpen, Option.any_eq_true] at h ⊢
  obtain ⟨sem, hk, hsem⟩ := h
  exact ⟨sem, hk, (Bool.and_eq_true_iff.mp hsem).1⟩

theorem granted_selects (q : Sems) (charge k : Nat) (tried : List Nat) :
    (∀ p, (q.granted k charge tried).result = .ok p →
        (q.granted k charge tried).sems = q.take (q.granted k charge tried).shard charge) ∧
      ∀ e, (q.granted k charge tried).result = .error e → (q.granted k charge tried).sems = q := by
  unfold granted
  split
  · exact ⟨nofun, fun _ _ => rfl⟩
  · exact ⟨fun _ _ => rfl, nofun⟩

/-- What is chosen in cyclic order meets the promise. -/
theorem chosen_selects {tried : List Nat} (hb : q.bytesClosed = false) (hn : tried.Nodup) :
    q.Selects start charge (q.chosen start charge (cyclic q.counts.length start) none tried) := by
  have hclosed (s : Selection) :
      q.bytesClosed = true → s.shard = start ∧ s.result = .error .closed :=
    fun h => absurd h (by simp [hb])
  cases hfree : (cyclic q.counts.length start).find? q.free with
  | some k =>
    obtain ⟨hok, herr⟩ := q.granted_selects charge k tried
    have heq : q.chosen start charge (cyclic q.counts.length start) none tried =
        q.granted k charge tried := by simp only [chosen, hfree]
    rw [heq]
    refine ⟨hclosed _, ?_, fun _ h => ?_, ?_, ?_, hok, herr⟩
    · intro _ j hj
      obtain rfl := Option.some.inj (hfree.symm.trans hj)
      by_cases hshort : q.shortBytes charge = true
      · simp only [granted, if_pos hshort, and_self]
      · simp only [granted, if_neg hshort, and_self]
    · rw [hfree] at h
      cases h
    · intro _ hnone
      -- a free shard is open, so the scan cannot have found none open
      have hmem := List.mem_of_find?_eq_some hfree
      have hopen := isOpen_of_free (List.find?_some hfree)
      exact absurd hopen (List.find?_eq_none.mp hnone k hmem)
    · rw [granted]
      split <;> exact hn
  | none =>
    cases hopen : (cyclic q.counts.length start).find? q.isOpen with
    | some k =>
      have heq : q.chosen start charge (cyclic q.counts.length start) none tried =
          ⟨k, .error .noPermits, q, tried⟩ := by simp only [chosen, hfree, hopen, Option.none_or]
      rw [heq]
      refine ⟨hclosed _, fun _ j hj => ?_, fun _ _ j hj => ?_, fun _ h => ?_, hn, nofun,
        fun _ _ => rfl⟩
      · rw [hfree] at hj
        cases hj
      · exact ⟨Option.some.inj (hopen.symm.trans hj), rfl⟩
      · rw [hopen] at h
        cases h
    | none =>
      have heq : q.chosen start charge (cyclic q.counts.length start) none tried =
          ⟨start, .error .closed, q, tried⟩ := by simp only [chosen, hfree, hopen, Option.none_or]
      rw [heq]
      refine ⟨hclosed _, fun _ j hj => ?_, fun _ _ j hj => ?_, fun _ _ => rfl, hn, nofun,
        fun _ _ => rfl⟩
      · rw [hfree] at hj
        cases hj
      · rw [hopen] at hj
        cases hj

/-- A capacity-aware selection chooses in cyclic order. -/
theorem selectReadShard_aware (charge : Nat) (hs : start < q.counts.length)
    (hfair : ∀ s ∈ q.counts, s.Fair) :
    (q.bytesClosed = true ∧
        q.selectReadShard start charge true = some ⟨start, .error .closed, q, []⟩) ∨
      (q.bytesClosed = false ∧ ∃ tried, tried.Nodup ∧ q.selectReadShard start charge true =
        some (q.chosen start charge (cyclic q.counts.length start) none tried)) := by
  simp only [selectReadShard, List.getElem?_eq_getElem hs, Option.bind_eq_bind, Option.bind_some,
    Bool.not_true, Bool.false_eq_true, if_false]
  cases hb : q.bytesClosed with
  | true => exact Or.inl ⟨rfl, rfl⟩
  | false =>
    obtain ⟨pre, hpre, hscan⟩ := scan_eq start charge hfair hb
      (fun k => lt_of_mem_cyclic hs) none []
    exact Or.inr ⟨rfl, pre, nodup_cyclic.sublist hpre.sublist, by simpa using hscan⟩

/-- A round-robin selection whose shard has a free permit. -/
theorem selectReadShard_roundRobin (hs : start < q.counts.length) (hfair : ∀ s ∈ q.counts, s.Fair)
    (hf : q.free start = true) :
    q.selectReadShard start charge false = some (if q.bytesClosed then
      ⟨start, .error .closed, q, [start]⟩ else q.granted start charge [start]) := by
  have hk := List.getElem?_eq_getElem hs
  have hsem := hfair _ (List.getElem_mem hs)
  obtain ⟨sem', ha, he⟩ := (free_iff hk).mp hf
  simp only [selectReadShard, hk, Option.bind_eq_bind, Option.bind_some, Bool.not_false,
    if_true, ha, Option.pure_def]
  cases hb : q.bytesClosed with
  | false => rw [withCount_eq hk hsem hb ha he]; rfl
  | true =>
    -- the bytes are refused after the count permit is taken, which goes back
    have hrestore := hsem.release_tryAcquire Nat.one_pos ha
    rcases q with ⟨counts, bytes⟩
    cases bytes with
    | none => cases hb
    | some b =>
      have hclosed : b.closed = true := by simpa [bytesClosed] using hb
      simp only [withCount, Semaphore.tryAcquire_closed hclosed, hrestore, if_true]
      simp only at hk
      rw [set_of_getElem? hk]

/-- Capacity-aware selection meets its specification, and where the start has a free permit
it selects as round-robin does. -/
theorem selection_meets_specification (q : Sems) (start charge : Nat) (hs : start < q.counts.length)
    (hfair : ∀ s ∈ q.counts, s.Fair) :
    ∃ s, q.selectReadShard start charge true = some s ∧ q.Selects start charge s ∧
      (q.free start = true → ∃ r, q.selectReadShard start charge false = some r ∧
        r.shard = s.shard ∧ r.result = s.result ∧ r.sems = s.sems) := by
  rcases selectReadShard_aware charge hs hfair with ⟨hb, he⟩ | ⟨hb, tried, hn, he⟩
  · refine ⟨_, he, ?_, fun hf => ?_⟩
    · exact ⟨fun _ => ⟨rfl, rfl⟩, fun h => absurd hb (by simp [h]),
        fun h => absurd hb (by simp [h]), fun h => absurd hb (by simp [h]), List.nodup_nil,
        nofun, fun _ _ => rfl⟩
    · refine ⟨_, selectReadShard_roundRobin hs hfair hf, ?_⟩
      rw [if_pos hb]
      exact ⟨rfl, rfl, rfl⟩
  · refine ⟨_, he, chosen_selects hb hn, fun hf => ?_⟩
    refine ⟨_, selectReadShard_roundRobin hs hfair hf, ?_⟩
    have hfind : (cyclic q.counts.length start).find? q.free = some start := by
      rw [cyclic_cons hs, List.find?_cons, hf]
    have hb' : ¬ q.bytesClosed = true := by simp [hb]
    simp only [chosen, hfind, if_neg hb', granted]
    split <;> exact ⟨rfl, rfl, rfl⟩

/-- Three shards, of which the start is closed, the next full and the first free. -/
def wrapped : Sems := ⟨[.new 1, (Semaphore.new 3).close, .new 0], some (.new 8192)⟩

theorem fair_wrapped : ∀ s ∈ wrapped.counts, s.Fair := by
  intro s hs
  simp only [wrapped, List.mem_cons, List.not_mem_nil, or_false] at hs
  rcases hs with rfl | rfl | rfl
  · exact Semaphore.fair_new 1
  · exact Semaphore.fair_close _
  · exact Semaphore.fair_new 0

theorem selection_meets_specification_wrapped :
    ∃ s, wrapped.selectReadShard 1 4096 true = some s ∧ s.shard = 0 ∧
      s.result = .ok ⟨1, some 4096, none⟩ ∧ s.sems = wrapped.take 0 4096 := by
  obtain ⟨s, hs, hsel, _⟩ := selection_meets_specification wrapped 1 4096 (by decide) fair_wrapped
  obtain ⟨hshard, hresult⟩ := hsel.free rfl 0 rfl
  have hok : s.result = .ok ⟨1, some 4096, none⟩ := hresult.trans rfl
  refine ⟨s, hs, hshard, hok, ?_⟩
  rw [← hshard]
  exact hsel.ok _ hok

end Sems

namespace Driver

/-- The semaphores of a driver. -/
def sems (d : Driver) : Sems := ⟨d.cells.map Cell.sem, d.bytes⟩

/-- What a call alone on a driver sees of it. -/
structure Looks (d : Driver) (id : Nat) (x : Caller) (r : Option Nat) (q : Sems) : Prop where
  live : d.aborted = false
  caller : d.callers.lookup id = some x
  reservation : d.reservation = r
  sems : d.sems = q

/-- The steps of the call for `id` alone. -/
abbrev Alone (cfg : Config) (id : Nat) (d d' : Driver) : Prop :=
  Reachable (step cfg) (fun _ e => e = .caller id .call) d d'

/-- Where a call stands after a selection. -/
def afterSelection (c : Submit) (r : Option Nat) (s : Selection) : Caller :=
  match s.result with
  | .ok _ => c.goto (.send s.shard)
  | .error e => .holding (c.refused r s.shard e)

variable {cfg : Config} {d : Driver} {id : Nat} {c : Submit} {r : Option Nat} {q : Sems}

/-- One operation of a call that leaves its loop alone. -/
theorem Looks.step (k : Nat) {sem : Semaphore} (sem' : Semaphore) (bytes : Option Semaphore)
    (x : Caller) (h : d.Looks id (.submitting c) r q) (hs : c.shard = k)
    (hk : q.counts[k]? = some sem)
    (hc : ∀ loop, c.step id r ⟨loop, sem, q.bytes⟩ = (x, ⟨loop, sem', bytes⟩)) :
    ∃ d', Alone cfg id d d' ∧ d'.Looks id x r ⟨q.counts.set k sem', bytes⟩ := by
  subst hs
  have hcounts : d.cells.map Cell.sem = q.counts := congrArg Sems.counts h.sems
  have hbytes : d.bytes = q.bytes := congrArg Sems.bytes h.sems
  rw [← hcounts, List.getElem?_map] at hk
  obtain ⟨cell, hcell, rfl⟩ := Option.map_eq_some_iff.mp hk
  have hview : d.view c.shard = some ⟨cell.loop, cell.sem, q.bytes⟩ := by
    simp [view, hcell, hbytes]
  have hlive : ¬ d.aborted = true := by simp [h.live]
  have hstep : Driver.step cfg d (.caller id .call) =
      some ((d.install c.shard ⟨cell.loop, sem', bytes⟩).put id (some x)) := by
    simp [Driver.step, if_neg hlive, h.caller, Caller.shard, hview, Caller.act, h.reservation, hc]
  refine ⟨_, .next .start rfl hstep, ?_, AList.lookup_insert _, h.reservation, ?_⟩
  · have hany := h.live
    simp only [aborted, List.any_eq_false, decide_eq_true_eq] at hany
    simp only [put, install, aborted, List.any_eq_false, decide_eq_true_eq]
    intro b hb
    rcases mem_modify_cases hb with ⟨a, ha, rfl⟩ | hb
    · exact hany cell (List.mem_of_getElem? hcell)
    · exact hany b hb
  · have hset : (d.cells.modify c.shard fun a => { a with loop := cell.loop, sem := sem' }).map
        Cell.sem = q.counts.set c.shard sem' := by
      rw [← hcounts]
      refine List.ext_getElem? fun j => ?_
      rw [List.getElem?_map, List.getElem?_modify, List.getElem?_set, List.getElem?_map]
      by_cases hj : c.shard = j
      · subst hj
        obtain ⟨hlt, hget⟩ := List.getElem?_eq_some_iff.mp hcell
        simp [hlt]
      · simp [hj]
    exact congrArg (Sems.mk · bytes) hset

/-- With a count permit in hand a call goes on as the selection does. -/
theorem Looks.withCount {k : Nat} {sem : Semaphore} (hk : k < q.counts.length) (tried : List Nat)
    (h : d.Looks id (c.goto (if q.bytes.isSome then .tryBytes k else .send k)) r
      ⟨q.counts.set k sem, q.bytes⟩) :
    ∃ d', Alone cfg id d d' ∧ d'.Looks id (afterSelection c r (q.withCount k sem c.charge tried)) r
      (q.withCount k sem c.charge tried).sems := by
  have hget : (q.counts.set k sem)[k]? = some sem := by simp [hk]
  have hset (sem' : Semaphore) : (q.counts.set k sem).set k sem' = q.counts.set k sem' :=
    List.set_set ..
  cases hb : q.bytes with
  | none =>
    rw [hb] at h
    simp only [Sems.withCount, hb, afterSelection]
    exact ⟨d, .start, h⟩
  | some b =>
    rw [hb] at h
    cases ha : b.tryAcquire c.charge with
    | ok b' =>
      obtain ⟨d', hd, hl⟩ := h.step k sem (some b') (c.goto (.send k)) rfl hget fun loop => by
        simp [Submit.step, ha, Submit.goto]
      simp only [hset] at hl
      simp only [Sems.withCount, hb, ha, afterSelection]
      exact ⟨d', hd, hl⟩
    | error e =>
      obtain ⟨d₁, hd₁, hl₁⟩ := h.step k sem (some b) (c.goto (.dropCount k e)) rfl hget
        fun loop => by simp [Submit.step, ha, Submit.goto]
      simp only [hset] at hl₁
      obtain ⟨d', hd, hl⟩ := hl₁.step k (sem.release 1) (some b)
        (.holding (c.refused r k e)) rfl hget fun loop => by
          cases e <;> simp [Submit.step, Submit.refused]
      simp only [hset] at hl
      simp only [Sems.withCount, hb, ha, afterSelection]
      exact ⟨d', hd₁.trans hd, hl⟩

/-- A call whose attempt on shard `k` succeeds goes on as the selection does. -/
theorem Looks.attempt {k : Nat} {rest : List Nat} {waiting : Option Nat} {sem sem' : Semaphore}
    (h : d.Looks id (c.goto (.tryCount k rest waiting)) r q) (hk : q.counts[k]? = some sem)
    (ha : sem.tryAcquire 1 = .ok sem') (tried : List Nat) :
    ∃ d', Alone cfg id d d' ∧ d'.Looks id (afterSelection c r (q.withCount k sem' c.charge tried)) r
      (q.withCount k sem' c.charge tried).sems := by
  obtain ⟨hlt, _⟩ := List.getElem?_eq_some_iff.mp hk
  obtain ⟨d₁, hd₁, hl₁⟩ := h.step k sem' q.bytes
    (c.goto (if q.bytes.isSome then .tryBytes k else .send k)) rfl hk fun loop => by
      simp only [Submit.step, ha]
      rfl
  obtain ⟨d', hd, hl⟩ := hl₁.withCount hlt tried
  exact ⟨d', hd₁.trans hd, hl⟩

/-- After a scan without success a call checks the bytes once more and is refused. -/
theorem Looks.recheck {waiting : Option Nat} {tried : List Nat} {s : Selection}
    (hs : c.start < q.counts.length) (h : d.Looks id (c.goto (.recheckBytes waiting)) r q)
    (hscan : q.scan c.start c.charge [] waiting tried = some s) :
    ∃ d', Alone cfg id d d' ∧ d'.Looks id (afterSelection c r s) r s.sems := by
  have hk := List.getElem?_eq_getElem hs
  have hq (x : Caller) (hc : ∀ loop, ({ c with pc := .recheckBytes waiting } : Submit).step id r
      ⟨loop, q.counts[c.start], q.bytes⟩ = (x, ⟨loop, q.counts[c.start], q.bytes⟩)) :
      ∃ d', Alone cfg id d d' ∧ d'.Looks id x r q := by
    obtain ⟨d', hd, hl⟩ := h.step c.start _ _ _ rfl hk hc
    rw [set_of_getElem? hk] at hl
    exact ⟨d', hd, hl⟩
  have hany : q.bytes.any Semaphore.closed = q.bytesClosed := rfl
  simp only [Sems.scan] at hscan
  cases hb : q.bytesClosed with
  | true =>
    rw [hb, if_pos rfl] at hscan
    cases hscan
    exact hq _ fun loop => by
      simp [Submit.step, View.bytesClosed, hany, hb, afterSelection, Submit.refused]
  | false =>
    rw [hb, if_neg Bool.false_ne_true] at hscan
    cases waiting with
    | none =>
      cases hscan
      exact hq _ fun loop => by
        simp [Submit.step, View.bytesClosed, hany, hb, afterSelection, Submit.refused]
    | some k =>
      cases hscan
      exact hq _ fun loop => by
        simp [Submit.step, View.bytesClosed, hany, hb, afterSelection, Submit.refused]

/-- Where a scan stands with `rest` left. -/
def scanning (c : Submit) (waiting : Option Nat) : List Nat → Caller
  | [] => c.goto (.recheckBytes waiting)
  | k :: rest => c.goto (.tryCount k rest waiting)

/-- A call whose attempt on shard `k` fails goes on with the next shard, if there is one. -/
theorem Looks.skip {rest : List Nat} {k : Nat} {waiting : Option Nat} {sem : Semaphore}
    {e : TryAcquireError} (ha : c.req.capacityAware = true) (hk : q.counts[k]? = some sem)
    (he : sem.tryAcquire 1 = .error e) (h : d.Looks id (scanning c waiting (k :: rest)) r q) :
    ∃ d', Alone cfg id d d' ∧ d'.Looks id
      (scanning c (if e = .noPermits then waiting.or (some k) else waiting) rest) r q := by
  obtain ⟨d', hd, hl⟩ := h.step k sem q.bytes
    (scanning c (if e = .noPermits then waiting.or (some k) else waiting) rest) rfl hk
    fun loop => by
      simp only [Submit.step, he, ha, if_true]
      cases rest <;> rfl
  rw [set_of_getElem? hk] at hl
  exact ⟨d', hd, hl⟩

/-- A call alone in its scan ends where the scan does. -/
theorem Looks.scan {order : List Nat} {waiting : Option Nat} {tried : List Nat} {s : Selection}
    (ha : c.req.capacityAware = true) (hs : c.start < q.counts.length)
    (h : d.Looks id (scanning c waiting order) r q)
    (hscan : q.scan c.start c.charge order waiting tried = some s) :
    ∃ d', Alone cfg id d d' ∧ d'.Looks id (afterSelection c r s) r s.sems := by
  induction order generalizing d waiting tried with
  | nil => exact h.recheck hs hscan
  | cons k rest ih =>
    simp only [Sems.scan, Option.bind_eq_bind, Option.bind_eq_some_iff] at hscan
    obtain ⟨sem, hk, hscan⟩ := hscan
    cases hacq : sem.tryAcquire 1 with
    | ok sem' =>
      rw [hacq] at hscan
      obtain rfl := Option.some.inj hscan
      exact h.attempt hk hacq (tried ++ [k])
    | error e =>
      obtain ⟨d₁, hd₁, hl₁⟩ := h.skip ha hk hacq
      rw [hacq] at hscan
      cases e with
      | noPermits =>
        obtain ⟨d', hd, hl⟩ := ih hl₁ hscan
        exact ⟨d', hd₁.trans hd, hl⟩
      | closed =>
        obtain ⟨d', hd, hl⟩ := ih hl₁ hscan
        exact ⟨d', hd₁.trans hd, hl⟩

/-- A `submit` that runs alone from its first operation performs the selection: it goes on
to its send with the permits of the selected shard, or returns the handle of its refusal. -/
theorem alone_selects {req : Request} {charge start : Nat} {s : Selection}
    (hs : start < d.cells.length)
    (h : d.Looks id (.submitting ⟨req, charge, start, d.firstPc req start⟩) r q)
    (hsel : q.selectReadShard start charge req.capacityAware = some s) :
    ∃ d', Alone cfg id d d' ∧
      d'.Looks id (afterSelection ⟨req, charge, start, d.firstPc req start⟩ r s) r s.sems := by
  have hlen : q.counts.length = d.cells.length := by rw [← h.sems, sems, List.length_map]
  have hlt : start < q.counts.length := by omega
  have hk := List.getElem?_eq_getElem hlt
  have hq (x : Caller) (hc : ∀ loop, (⟨req, charge, start, d.firstPc req start⟩ : Submit).step id r
      ⟨loop, q.counts[start], q.bytes⟩ = (x, ⟨loop, q.counts[start], q.bytes⟩)) :
      ∃ d', Alone cfg id d d' ∧ d'.Looks id x r q := by
    obtain ⟨d', hd, hl⟩ := h.step start _ _ _ (by unfold firstPc; split <;> rfl) hk hc
    rw [set_of_getElem? hk] at hl
    exact ⟨d', hd, hl⟩
  simp only [Sems.selectReadShard, hk, Option.bind_eq_bind, Option.bind_some] at hsel
  cases haware : req.capacityAware with
  | false =>
    rw [haware] at hsel
    simp only [Bool.not_false, if_true, Option.pure_def] at hsel
    have hpc : d.firstPc req start = .tryCount start [] none := by simp [firstPc, haware]
    rw [hpc] at h hq ⊢
    cases hacq : q.counts[start].tryAcquire 1 with
    | ok sem =>
      rw [hacq] at hsel
      obtain rfl := Option.some.inj hsel
      exact Looks.attempt (c := ⟨req, charge, start, .tryCount start [] none⟩) h hk hacq [start]
    | error e =>
      rw [hacq] at hsel
      obtain rfl := Option.some.inj hsel
      exact hq _ fun loop => by simp [Submit.step, hacq, haware, afterSelection]
  | true =>
    rw [haware] at hsel
    simp only [Bool.not_true, Bool.false_eq_true, if_false, Option.pure_def] at hsel
    have hpc : d.firstPc req start = .checkBytes (cyclic q.counts.length start).tail := by
      simp only [firstPc, haware, if_true, hlen]
      rfl
    rw [hpc] at h hq ⊢
    have hany : q.bytes.any Semaphore.closed = q.bytesClosed := rfl
    cases hb : q.bytesClosed with
    | true =>
      rw [hb, if_pos rfl] at hsel
      obtain rfl := Option.some.inj hsel
      exact hq _ fun loop => by
        simp [Submit.step, View.bytesClosed, hany, hb, afterSelection]
    | false =>
      rw [hb, if_neg Bool.false_ne_true] at hsel
      obtain ⟨d₁, hd₁, hl₁⟩ := hq (scanning ⟨req, charge, start, d.firstPc req start⟩ none
        (cyclic q.counts.length start)) fun loop => by
          rw [Sems.cyclic_cons hlt]
          simp [Submit.step, View.bytesClosed, hany, hb, scanning, Submit.goto]
      obtain ⟨d', hd, hl⟩ := hl₁.scan haware hlt hsel
      exact ⟨d', hd₁.trans hd, hl⟩

end Driver

end Uring
