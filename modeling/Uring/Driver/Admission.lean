import Uring.Driver.Wiring

/-!
# Admission accounting

For each shard, the count permits that are free, granted to waiting handles, in a
caller's hand, queued with a read or held by a pending entry add up to `entries`. The
bytes add up to the byte limit over all shards. A read's charge is the length of the
buffer its loop allocates, so the pending tables stay within both limits.
-/

namespace Uring

open Uring.Core Caller

/-- The bytes a loop has dropped so far. -/
def Shard.bytesReleased (s : Shard) : Nat := (s.hist.released.map ReadPermits.byteCount).sum

/-- Every permit a loop dropped came with a charged read. -/
theorem Shard.Reach.released_charged {cfg : Config} {r : Option Nat} {s : Shard}
    (h : Reach cfg.params s) (hs : ∀ m ∈ s.hist.requests, Charged cfg r m) {p : ReadPermits}
    (hp : p ∈ s.hist.released) : p.count = 1 := by
  have hmem : p ∈ s.hist.requests.map ReadMsg.permit :=
    (Reach.permitBook h).places.mem_iff.mpr (List.mem_append_right _ hp)
  obtain ⟨m, hm, rfl⟩ := List.mem_map.mp hmem
  obtain ⟨req, charge, _, heq⟩ := hs m hm
  rw [heq]
  rfl

namespace Driver

/-- Count permits of shard `k` in callers' hands. -/
def countsHeld (d : Driver) (k : Nat) : Nat := d.callers.total fun x => x.held k

/-- Byte permits in callers' hands. -/
def bytesHeld (d : Driver) : Nat := d.callers.total Caller.bytesHeld

theorem countsHeld_put {d : Driver} {id : Nat} {x : Caller} (hx : d.callers.lookup id = some x)
    (y : Option Caller) (k : Nat) :
    (d.put id y).countsHeld k + x.held k = d.countsHeld k + heldBy y k := by
  have h := AList.total_put (fun x : Caller => x.held k) hx y
  cases y <;> exact h

theorem bytesHeld_put {d : Driver} {id : Nat} {x : Caller} (hx : d.callers.lookup id = some x)
    (y : Option Caller) : (d.put id y).bytesHeld + x.bytesHeld = d.bytesHeld + bytesHeldBy y := by
  have h := AList.total_put Caller.bytesHeld hx y
  cases y <;> exact h

theorem lookup_put_self (d : Driver) (id : Nat) (y : Option Caller) :
    (d.put id y).callers.lookup id = y := by
  cases y with
  | none => exact AList.lookup_erase id d.callers
  | some x => exact AList.lookup_insert d.callers

theorem lookup_put_of_ne (d : Driver) {id j : Nat} (h : j ≠ id) (y : Option Caller) :
    (d.put id y).callers.lookup j = d.callers.lookup j := by
  cases y with
  | none => exact AList.lookup_erase_ne h
  | some x => exact AList.lookup_insert_ne h

/-- A `submit` begins with an empty hand. -/
theorem Begun.held {cfg : Config} {d : Driver} {req : Request} {x : Caller}
    (h : Begun cfg d req x) : (∀ k, x.held k = 0) ∧ x.bytesHeld = 0 := by
  cases h with
  | invalid he => exact ⟨fun _ => rfl, rfl⟩
  | valid hn =>
    simp only [firstPc]
    split <;> exact ⟨fun _ => rfl, rfl⟩

/-- The count permits of each shard, and who waits for them. -/
structure Counted (cfg : Config) (d : Driver) : Prop where
  total : ∀ k cell, d.cells[k]? = some cell →
    cell.sem.value + d.countsHeld k + cell.loop.hist.requests.length =
      cfg.params.entries + cell.loop.hist.released.length
  claims : ∀ k cell, d.cells[k]? = some cell → ∀ id n, cell.sem.claim id = some n →
    n = 1 ∧ ∃ x, d.callers.lookup id = some x ∧ x.AwaitsCount k

namespace Counted

variable {cfg : Config} {r : Option Nat}

theorem init : (Driver.init cfg r).Counted cfg := by
  constructor <;> intro k cell h <;> cases h

theorem kept {d d' : Driver} (h : d.Counted cfg) (hk : d.Kept cfg.params d') : d'.Counted cfg := by
  constructor
  · intro k b hb
    obtain ⟨a, ha, hab⟩ := forall₂_getElem? hk.cells hb
    have hheld : d'.countsHeld k = d.countsHeld k := by rw [countsHeld, hk.callers, countsHeld]
    rw [hab.sem.value, hab.requests, hab.thread.released, hheld]
    exact h.total k a ha
  · intro k b hb id n hn
    obtain ⟨a, ha, hab⟩ := forall₂_getElem? hk.cells hb
    rw [hab.sem.claim] at hn
    rw [hk.callers]
    exact h.claims k a ha id n hn

/-- A new shard has all its permits free. -/
theorem start {d : Driver} (h : d.Counted cfg) (hw : d.Wired cfg r) (hl : d.life = .starting) :
    (d.startShard cfg).Counted cfg := by
  have hcell (k : Nat) (cell : Cell) (hk : (d.startShard cfg).cells[k]? = some cell) :
      d.cells[k]? = some cell ∨ (cell.loop = .init ∧ cell.sem.value = cfg.params.entries ∧
        ∀ id, cell.sem.claim id = none) := by
    rcases getElem?_concat_cases hk with hold | ⟨_, rfl⟩
    · exact Or.inl hold
    · refine Or.inr ⟨rfl, ?_, fun id => ?_⟩
      · simp only
        split <;> rfl
      · simp only
        split <;> rfl
  constructor
  · intro k cell hk
    rcases hcell k cell hk with hold | ⟨hloop, hvalue, _⟩
    · exact h.total k cell hold
    · have hheld : (d.startShard cfg).countsHeld k = 0 := by
        rw [countsHeld, startShard]
        simp only [hw.starting hl, AList.total_empty]
      rw [hloop, hvalue, hheld]
      rfl
  · intro k cell hk id n hn
    rcases hcell k cell hk with hold | ⟨_, _, hnone⟩
    · exact h.claims k cell hold id n hn
    · rw [hnone id] at hn
      cases hn

/-- A begun `submit` is a new caller with an empty hand. -/
theorem submit {d : Driver} (h : d.Counted cfg) (hw : d.Wired cfg r) {req : Request} {x : Caller}
    {m n : Nat} (hx : Begun cfg d req x) : ({ d with
      nextId := m, rr := n, callers := d.callers.insert d.nextId x } : Driver).Counted cfg := by
  constructor
  · intro k cell hk
    have hheld : (d.callers.insert d.nextId x).total (fun x => x.held k) = d.countsHeld k := by
      rw [AList.total_insert_of_notMem _ x hw.fresh, hx.held.1 k, Nat.zero_add, countsHeld]
    simp only [countsHeld, hheld]
    exact h.total k cell hk
  · intro k cell hk id j hj
    obtain ⟨hj, y, hy, hawait⟩ := h.claims k cell hk id j hj
    exact ⟨hj, y, hw.lookup_issued x hy, hawait⟩

/-- One operation of a caller. -/
theorem caller {d : Driver} (h : d.Counted cfg) {id : Nat} {e : CallerEvent} {x : Caller}
    {y : Option Caller} {v v' : View} (hx : d.callers.lookup id = some x)
    (hv : d.view x.shard = some v) (ha : x.act e id d.reservation v = some (y, v')) :
    ((d.install x.shard v').put id y).Counted cfg := by
  obtain ⟨cell, hcell, heq⟩ := view_eq_some hv
  have hact := Caller.act_cases (c := cfg.params) ha
  have hlocal (n : Nat) (hn : v.sem.claim id = some n) : n = 1 ∧ x.AwaitsCount x.shard := by
    rw [heq] at hn
    obtain ⟨hone, x', hx', hawait⟩ := h.claims _ cell hcell id n hn
    obtain rfl : x' = x := Option.some.inj (hx'.symm.trans hx)
    exact ⟨hone, hawait⟩
  have hkept := hact.count hlocal
  have hrel := hact.loop.2.released
  constructor
  · intro k b hb
    have hput := countsHeld_put (d := d.install x.shard v') hx y k
    have hsame : (d.install x.shard v').countsHeld k = d.countsHeld k := rfl
    rw [put_cells] at hb
    rcases getElem?_modify_cases hb with ⟨rfl, a, ha', rfl⟩ | ⟨hne, hb⟩
    · obtain rfl : a = cell := Option.some.inj (ha'.symm.trans hcell)
      have htotal := h.total _ a hcell
      have hlocal' := hkept.total
      rw [heq] at hlocal' hrel
      simp only at hlocal' hrel ⊢
      rw [hrel]
      omega
    · have htotal := h.total k b hb
      have helse := hkept.elsewhere k hne
      omega
  · intro k b hb j n hn
    rw [put_cells] at hb
    rcases getElem?_modify_cases hb with ⟨rfl, a, ha', rfl⟩ | ⟨hne, hb⟩
    · by_cases hj : j = id
      · subst hj
        obtain ⟨hone, x', rfl, hawait⟩ := hkept.own n hn
        exact ⟨hone, x', lookup_put_self _ _ _, hawait⟩
      · obtain rfl : a = cell := Option.some.inj (ha'.symm.trans hcell)
        have hold : a.sem.claim j = some n := by
          rw [← hn, hkept.others j hj, heq]
        obtain ⟨hone, x', hx', hawait⟩ := h.claims _ a hcell j n hold
        exact ⟨hone, x', (lookup_put_of_ne _ hj y).trans hx', hawait⟩
    · obtain ⟨hone, x', hx', hawait⟩ := h.claims k b hb j n hn
      refine ⟨hone, x', ?_, hawait⟩
      rw [lookup_put_of_ne _ _ y]
      · exact hx'
      · rintro rfl
        obtain rfl : x' = x := Option.some.inj (hx'.symm.trans hx)
        exact hne hawait.shard_eq.symm

/-- One step of a loop gives back one count permit for each read it drops. -/
theorem turn {d : Driver} (h : d.Counted cfg) (hw : d.Wired cfg r) {k : Nat} {e : Event}
    {v v' : View} (hv : d.view k = some v) (he : e.ofThread = true)
    (ht : v.turn cfg.params e = some v') : (d.install k v').Counted cfg := by
  obtain ⟨cell, hcell, heq⟩ := view_eq_some hv
  obtain ⟨freed, hturn⟩ := hw.turn_cases hv he ht
  have hcharged : ∀ m ∈ v'.loop.hist.requests, Charged cfg d.reservation m := by
    rw [hturn.requests, heq]
    exact hw.sent cell (List.mem_of_getElem? hcell)
  have hones : (freed.map ReadPermits.count).sum = freed.length := by
    have hone : ∀ p ∈ freed, p.count = 1 := fun p hp =>
      Shard.Reach.released_charged ((hw.reach hv).next trivial hturn.step) hcharged
        (by rw [hturn.released]; exact List.mem_append_right _ hp)
    rw [List.map_congr_left hone, List.map_const', List.sum_replicate, smul_eq_mul, mul_one]
  constructor
  · intro j b hb
    rcases getElem?_modify_cases hb with ⟨rfl, a, ha', rfl⟩ | ⟨_, hb⟩
    · obtain rfl : a = cell := Option.some.inj (ha'.symm.trans hcell)
      have htotal := h.total _ a hcell
      have hheld : (d.install j v').countsHeld j = d.countsHeld j := rfl
      have hvalue := hturn.value
      have hreq := hturn.requests
      have hrel := hturn.released
      rw [heq] at hvalue hreq hrel
      simp only at hvalue hreq hrel ⊢
      rw [hheld, hvalue, hreq, hrel, List.length_append, hones]
      omega
    · exact h.total j b hb
  · intro j b hb id n hn
    rcases getElem?_modify_cases hb with ⟨rfl, a, ha', rfl⟩ | ⟨_, hb⟩
    · obtain rfl : a = cell := Option.some.inj (ha'.symm.trans hcell)
      refine h.claims _ a hcell id n ?_
      rw [← hn, hturn.claim, heq]
    · exact h.claims j b hb id n hn

theorem move {d d' : Driver} {e : DriverEvent} (h : d.Counted cfg) (hw : d.Wired cfg r)
    (hm : Move cfg d e d') : d'.Counted cfg := by
  cases hm with
  | kept _ hk hl => exact h.kept hk
  | start hl => exact h.start hw hl
  | submit hl hid hx => exact h.submit hw hx
  | caller hx hv ha => exact h.caller hx hv ha
  | turn hv he ht => exact h.turn hw hv he ht

end Counted

/-- The bytes of the driver, and who waits for them. -/
structure Weighed (cfg : Config) (d : Driver) : Prop where
  total : ∀ b, d.bytes = some b → ∀ limit, cfg.limits.maxInFlightBytes = some limit →
    b.value + d.bytesHeld + (d.cells.map fun cell => cell.loop.bytesSent).sum =
      limit + (d.cells.map fun cell => cell.loop.bytesReleased).sum
  claims : ∀ b, d.bytes = some b → ∀ id n, b.claim id = some n →
    ∃ x, d.callers.lookup id = some x ∧ x.AwaitsBytes n

namespace Weighed

variable {cfg : Config} {r : Option Nat}

theorem init : (Driver.init cfg r).Weighed cfg := by
  constructor
  · intro b hb limit hl
    rw [Driver.init, hl] at hb
    cases hb
    rfl
  · intro b hb id n hn
    obtain ⟨limit, _, rfl⟩ := Option.map_eq_some_iff.mp hb
    cases hn

theorem kept {d d' : Driver} (h : d.Weighed cfg) (hk : d.Kept cfg.params d') : d'.Weighed cfg := by
  have hbytes (b' : Semaphore) (hb : d'.bytes = some b') : ∃ b, d.bytes = some b ∧ b.Kept b' := by
    have hrel := hk.bytes
    rw [hb] at hrel
    cases hd : d.bytes with
    | none =>
      rw [hd] at hrel
      cases hrel
    | some b =>
      rw [hd] at hrel
      exact ⟨b, rfl, hrel⟩
  constructor
  · intro b' hb' limit hl
    obtain ⟨b, hb, hkeep⟩ := hbytes b' hb'
    have hheld : d'.bytesHeld = d.bytesHeld := by rw [bytesHeld, hk.callers, bytesHeld]
    have hsent := sum_forall₂ (f := fun cell : Cell => cell.loop.bytesSent)
      (g := fun cell : Cell => cell.loop.bytesSent) hk.cells
      fun a b hab => by rw [Shard.bytesSent, hab.requests, Shard.bytesSent]
    have hreleased := sum_forall₂ (f := fun cell : Cell => cell.loop.bytesReleased)
      (g := fun cell : Cell => cell.loop.bytesReleased) hk.cells
      fun a b hab => by rw [Shard.bytesReleased, hab.thread.released, Shard.bytesReleased]
    rw [hkeep.value, hheld, hsent, hreleased]
    exact h.total b hb limit hl
  · intro b' hb' id n hn
    obtain ⟨b, hb, hkeep⟩ := hbytes b' hb'
    rw [hkeep.claim] at hn
    rw [hk.callers]
    exact h.claims b hb id n hn

theorem start {d : Driver} (h : d.Weighed cfg) : (d.startShard cfg).Weighed cfg := by
  constructor
  · intro b hb limit hl
    have htotal := h.total b hb limit hl
    have hheld : (d.startShard cfg).bytesHeld = d.bytesHeld := rfl
    rw [hheld]
    simp only [startShard, List.map_append, List.sum_append, List.map_cons, List.map_nil,
      List.sum_cons, List.sum_nil]
    exact htotal
  · exact h.claims

theorem submit {d : Driver} (h : d.Weighed cfg) (hw : d.Wired cfg r) {req : Request} {x : Caller}
    {m n : Nat} (hx : Begun cfg d req x) : ({ d with
      nextId := m, rr := n, callers := d.callers.insert d.nextId x } : Driver).Weighed cfg := by
  constructor
  · intro b hb limit hl
    have hheld : (d.callers.insert d.nextId x).total Caller.bytesHeld = d.bytesHeld := by
      rw [AList.total_insert_of_notMem _ x hw.fresh, hx.held.2, Nat.zero_add, bytesHeld]
    simp only [bytesHeld, hheld]
    exact h.total b hb limit hl
  · intro b hb id j hj
    obtain ⟨y, hy, hawait⟩ := h.claims b hb id j hj
    exact ⟨y, hw.lookup_issued x hy, hawait⟩

/-- Installing a view exchanges one shard's weight for another. -/
theorem sum_install {d : Driver} {k : Nat} {v : View} (v' : View) (hv : d.view k = some v)
    (f : Shard → Nat) : ((d.install k v').cells.map fun cell => f cell.loop).sum + f v.loop =
      (d.cells.map fun cell => f cell.loop).sum + f v'.loop := by
  obtain ⟨cell, hcell, rfl⟩ := view_eq_some hv
  exact sum_modify (fun cell : Cell => f cell.loop) _ hcell

/-- One operation of a caller. -/
theorem caller {d : Driver} (h : d.Weighed cfg) {id : Nat} {e : CallerEvent} {x : Caller}
    {y : Option Caller} {v v' : View} (hx : d.callers.lookup id = some x)
    (hv : d.view x.shard = some v) (ha : x.act e id d.reservation v = some (y, v')) :
    ((d.install x.shard v').put id y).Weighed cfg := by
  obtain ⟨cell, hcell, heq⟩ := view_eq_some hv
  have hact := Caller.act_cases (c := cfg.params) ha
  have hbytes : v.bytes = d.bytes := by rw [heq]
  have hlocal (b : Semaphore) (hb : d.bytes = some b) (n : Nat) (hn : b.claim id = some n) :
      x.AwaitsBytes n := by
    obtain ⟨x', hx', hawait⟩ := h.claims b hb id n hn
    obtain rfl : x' = x := Option.some.inj (hx'.symm.trans hx)
    exact hawait
  have hlimited (b' : Semaphore) (hb' : v'.bytes = some b') : ∃ b, d.bytes = some b ∧
      BytesKept id x y v v' b b' := by
    have hsome := hact.isSome_bytes
    rw [hb', hbytes] at hsome
    obtain ⟨b, hb⟩ := Option.isSome_iff_exists.mp hsome.symm
    exact ⟨b, hb, hact.bytes (hbytes.trans hb) hb' (hlocal b hb)⟩
  constructor
  · intro b' hb' limit hl
    rw [put_bytes] at hb'
    obtain ⟨b, hb, hkept⟩ := hlimited b' hb'
    have htotal := h.total b hb limit hl
    have hput := bytesHeld_put (d := d.install x.shard v') hx y
    have hsame : (d.install x.shard v').bytesHeld = d.bytesHeld := rfl
    have hsent := sum_install v' hv Shard.bytesSent
    have hreleased := sum_install v' hv Shard.bytesReleased
    have hrel : v'.loop.bytesReleased = v.loop.bytesReleased := by
      rw [Shard.bytesReleased, hact.loop.2.released, Shard.bytesReleased]
    have hbalance := hkept.total
    rw [put_cells]
    omega
  · intro b' hb' j n hn
    rw [put_bytes] at hb'
    obtain ⟨b, hb, hkept⟩ := hlimited b' hb'
    by_cases hj : j = id
    · subst hj
      obtain ⟨x', rfl, hawait⟩ := hkept.own n hn
      exact ⟨x', lookup_put_self _ _ _, hawait⟩
    · rw [hkept.others j hj] at hn
      obtain ⟨x', hx', hawait⟩ := h.claims b hb j n hn
      exact ⟨x', (lookup_put_of_ne _ hj y).trans hx', hawait⟩

/-- One step of a loop gives back the bytes of the reads it drops. -/
theorem turn {d : Driver} (h : d.Weighed cfg) (hw : d.Wired cfg r) {k : Nat} {e : Event}
    {v v' : View} (hv : d.view k = some v) (he : e.ofThread = true)
    (ht : v.turn cfg.params e = some v') : (d.install k v').Weighed cfg := by
  obtain ⟨cell, hcell, heq⟩ := view_eq_some hv
  obtain ⟨freed, hturn⟩ := hw.turn_cases hv he ht
  have hbytes : v.bytes = d.bytes := by rw [heq]
  have hlimited (b' : Semaphore) (hb' : v'.bytes = some b') : ∃ b, d.bytes = some b ∧
      b.Given b' (freed.map ReadPermits.byteCount).sum := by
    cases hb : v.bytes with
    | none =>
      rw [hturn.unlimited hb] at hb'
      cases hb'
    | some b =>
      obtain ⟨b₁, hb₁, hgiven⟩ := hturn.bytes b hb
      obtain rfl : b₁ = b' := Option.some.inj (hb₁.symm.trans hb')
      exact ⟨b, hbytes.symm.trans hb, hgiven⟩
  constructor
  · intro b' hb' limit hl
    obtain ⟨b, hb, hgiven⟩ := hlimited b' hb'
    have htotal := h.total b hb limit hl
    have hvalue := hgiven.value
    have hsame : (d.install k v').bytesHeld = d.bytesHeld := rfl
    have hsent := sum_install v' hv Shard.bytesSent
    have hreleased := sum_install v' hv Shard.bytesReleased
    have hsent' : v'.loop.bytesSent = v.loop.bytesSent := by
      rw [Shard.bytesSent, hturn.requests, Shard.bytesSent]
    have hreleased' : v'.loop.bytesReleased =
        v.loop.bytesReleased + (freed.map ReadPermits.byteCount).sum := by
      rw [Shard.bytesReleased, hturn.released, List.map_append, List.sum_append,
        Shard.bytesReleased]
    omega
  · intro b' hb' id n hn
    obtain ⟨b, hb, hgiven⟩ := hlimited b' hb'
    rw [hgiven.claim] at hn
    exact h.claims b hb id n hn

theorem move {d d' : Driver} {e : DriverEvent} (h : d.Weighed cfg) (hw : d.Wired cfg r)
    (hm : Move cfg d e d') : d'.Weighed cfg := by
  cases hm with
  | kept _ hk hl => exact h.kept hk
  | start hl => exact h.start
  | submit hl hid hx => exact h.submit hw hx
  | caller hx hv ha => exact h.caller hx hv ha
  | turn hv he ht => exact h.turn hw hv he ht

end Weighed

theorem Reach.counted {cfg : Config} {r : Option Nat} {d : Driver} (h : Reach cfg r d) :
    d.Counted cfg :=
  h.invariant .init fun _ _ _ hr hi _ hs => hi.move (Reach.wired hr) (step_move hs)

theorem Reach.weighed {cfg : Config} {r : Option Nat} {d : Driver} (h : Reach cfg r d) :
    d.Weighed cfg :=
  h.invariant .init fun _ _ _ hr hi _ hs => hi.move (Reach.wired hr) (step_move hs)

end Driver

namespace Shard

/-- Where the reads of a shard are, in number. -/
theorem Reach.requests_length {c : Params} {s : Shard} (h : Reach c s) :
    s.hist.requests.length =
      (readMsgs s.chan).length + s.pending.size + s.hist.released.length := by
  have hlen := (Reach.permitBook h).places.length_eq
  simpa only [Ledger.permitPlaces, List.length_append, List.length_map, tablePermits_length,
    readPermits_eq_map] using hlen

/-- The charges of a shard's queued reads and pending entries. -/
def bytesOwned (s : Shard) : Nat :=
  ((readMsgs s.chan).map fun m => m.permit.byteCount).sum +
    s.pending.total fun p => p.permit.byteCount

/-- Where the bytes sent to a shard are. -/
theorem Reach.bytesSent_eq {c : Params} {s : Shard} (h : Reach c s) :
    s.bytesSent = s.bytesOwned + s.bytesReleased := by
  have hsum := ((Reach.permitBook h).places.map ReadPermits.byteCount).sum_eq
  have htable : ((tablePermits s.pending).map ReadPermits.byteCount).sum =
      s.pending.total fun p => p.permit.byteCount := by
    simp only [tablePermits, AList.collect, AList.total, List.filterMap_eq_map', List.map_map]
    rfl
  simp only [Ledger.permitPlaces, List.map_append, List.sum_append, readPermits_eq_map,
    List.map_map, htable] at hsum
  simpa only [bytesSent, bytesOwned, bytesReleased, Function.comp_def] using hsum

/-- Under a byte limit a pending entry's charge is the length of its buffer. -/
theorem Reach.charge_eq_length {cfg : Config} {r : Option Nat} {s : Shard}
    (h : Reach cfg.params s) (hs : ∀ m ∈ s.hist.requests, Charged cfg r m)
    (hl : cfg.limits.maxInFlightBytes.isSome = true) {id : Nat} {p : Pending}
    (hp : s.pending.lookup id = some p) : p.buf.bytes.length = p.permit.byteCount := by
  obtain ⟨m, hm, _, hpermit, k, hd, region, hg, hlen⟩ := (Reach.permitBook h).entry id p hp
  obtain ⟨req, charge, ⟨n, hvalid, rfl⟩, heq⟩ := hs m hm
  obtain ⟨k', hd', region', hg', hcharge⟩ := validateRead_charge hvalid
  rw [heq] at hg
  obtain ⟨limit, hlimit⟩ := Option.isSome_iff_exists.mp hl
  have hregion : region = region' := by
    have := hg.symm.trans hg'
    simp only [Option.some.injEq, Prod.mk.injEq] at this
    exact this.2.2
  rw [hlen, hpermit, heq, hregion]
  simp only [Request.msg, ReadPermits.byteCount, hlimit, Option.map_some, Option.getD_some]
  exact hcharge

end Shard

namespace Driver

/-- Count permits of shard `k` taken by waiting handles beyond their grants. -/
def handleCounts (d : Driver) (k : Nat) : Nat := d.callers.total fun
  | .submitting _ => 0
  | .holding h => (holding h).held k

/-- Count permits of shard `k` in running calls of `submit`. -/
def submitCounts (d : Driver) (k : Nat) : Nat := d.callers.total fun
  | .submitting s => (submitting s).held k
  | .holding _ => 0

/-- Bytes acquired by handles inside the poll that sends them. -/
def handleBytes (d : Driver) : Nat := d.callers.total fun
  | .submitting _ => 0
  | .holding h => (holding h).bytesHeld

/-- Bytes in running calls of `submit`. -/
def submitBytes (d : Driver) : Nat := d.callers.total fun
  | .submitting s => (submitting s).bytesHeld
  | .holding _ => 0

/-- No call of `submit` is between its first and its last operation. -/
def SubmitsDone (d : Driver) : Prop := ∀ id s, d.callers.lookup id ≠ some (.submitting s)

theorem countsHeld_eq (d : Driver) (k : Nat) :
    d.countsHeld k = d.handleCounts k + d.submitCounts k := by
  simp only [countsHeld, handleCounts, submitCounts, AList.total, ← List.sum_map_add]
  congr 1
  apply List.map_congr_left
  intro e _
  cases e.2 <;> simp

theorem bytesHeld_eq (d : Driver) : d.bytesHeld = d.handleBytes + d.submitBytes := by
  simp only [bytesHeld, handleBytes, submitBytes, AList.total, ← List.sum_map_add]
  congr 1
  apply List.map_congr_left
  intro e _
  cases e.2 <;> simp

/-- Between calls of `submit` none of them holds a permit. -/
theorem SubmitsDone.zero {d : Driver} (h : d.SubmitsDone) :
    (∀ k, d.submitCounts k = 0) ∧ d.submitBytes = 0 := by
  have hzero (f : Submit → Nat) : (d.callers.total fun
      | .submitting s => f s
      | .holding _ => 0) = 0 := by
    refine AList.total_eq_zero_iff.mpr fun id x hx => ?_
    cases x with
    | submitting s => exact absurd hx (h id s)
    | holding hd => rfl
  exact ⟨fun k => hzero fun s => (submitting s).held k, hzero fun s => (submitting s).bytesHeld⟩

/-- An unborrowed driver runs no `submit`. -/
theorem submitsDone_of_unborrowed {d : Driver} (h : d.unborrowed = true) : d.SubmitsDone := by
  intro id s hs
  have hmem := AList.mem_lookup_iff.mp hs
  exact absurd (List.all_eq_true.mp (Bool.and_eq_true_iff.mp h).1 _ hmem) nofun

/-- Who has the permits of a driver, in one state. -/
structure AdmissionAccounted (cfg : Config) (d : Driver) : Prop where
  /-- Free, granted or taken by deferred handles, in a running `submit`, queued, pending. -/
  counts : ∀ k cell, d.cells[k]? = some cell →
    cell.sem.permits + (granted cell.sem.waiters + d.handleCounts k) + d.submitCounts k +
      (readMsgs cell.loop.chan).length + cell.loop.pending.size = cfg.params.entries
  bytes : ∀ b, d.bytes = some b → ∀ limit, cfg.limits.maxInFlightBytes = some limit →
    b.permits + (granted b.waiters + d.handleBytes) + d.submitBytes +
      (d.cells.map fun cell => cell.loop.bytesOwned).sum = limit
  /-- Outside running calls the permits of `submit` are none. -/
  between : d.SubmitsDone → (∀ k, d.submitCounts k = 0) ∧ d.submitBytes = 0
  /-- Grants belong to live handles whose acquire is unresolved. -/
  countWaiters : ∀ k cell, d.cells[k]? = some cell → ∀ w ∈ cell.sem.waiters,
    w.want = 1 ∧ ∃ x, d.callers.lookup w.key = some x ∧ x.AwaitsCount k
  byteWaiters : ∀ b, d.bytes = some b → ∀ w ∈ b.waiters,
    ∃ x, d.callers.lookup w.key = some x ∧ x.AwaitsBytes w.want
  /-- A queued read and a pending entry have one count permit each. -/
  one : ∀ cell ∈ d.cells, ∀ m ∈ cell.loop.hist.requests, m.permit.count = 1
  /-- The charge computed by `submit` is the length of the buffer allocated for it. -/
  charge : cfg.limits.maxInFlightBytes.isSome = true → ∀ cell ∈ d.cells,
    cell.loop.pending.All fun _ p => p.buf.bytes.length = p.permit.byteCount
  table : ∀ cell ∈ d.cells, cell.loop.pending.size ≤ cfg.params.entries
  buffers : ∀ limit, cfg.limits.maxInFlightBytes = some limit →
    (d.cells.map fun cell => cell.loop.pending.total fun p => p.buf.bytes.length).sum ≤ limit

/-- In every interleaving every permit is accounted for, and the pending tables stay
within both limits. -/
theorem admission_accounted (cfg : Config) (r : Option Nat) (d : Driver) (h : Reach cfg r d) :
    AdmissionAccounted cfg d := by
  have hw := Reach.wired h
  have hc := Reach.counted h
  have hb := Reach.weighed h
  have hcounts (k : Nat) (cell : Cell) (hk : d.cells[k]? = some cell) :
      cell.sem.permits + (granted cell.sem.waiters + d.handleCounts k) + d.submitCounts k +
        (readMsgs cell.loop.chan).length + cell.loop.pending.size = cfg.params.entries := by
    have htotal := hc.total k cell hk
    rw [countsHeld_eq, Shard.Reach.requests_length (hw.loops cell (List.mem_of_getElem? hk)),
      Semaphore.value] at htotal
    omega
  have hbytes (b : Semaphore) (hbb : d.bytes = some b) (limit : Nat)
      (hl : cfg.limits.maxInFlightBytes = some limit) :
      b.permits + (granted b.waiters + d.handleBytes) + d.submitBytes +
        (d.cells.map fun cell => cell.loop.bytesOwned).sum = limit := by
    have htotal := hb.total b hbb limit hl
    have hsent : (d.cells.map fun cell => cell.loop.bytesSent).sum =
        (d.cells.map fun cell => cell.loop.bytesOwned).sum +
          (d.cells.map fun cell => cell.loop.bytesReleased).sum := by
      rw [← List.sum_map_add]
      congr 1
      exact List.map_congr_left fun cell hcell => Shard.Reach.bytesSent_eq (hw.loops cell hcell)
    rw [bytesHeld_eq, hsent, Semaphore.value] at htotal
    omega
  have hcharge (hl : cfg.limits.maxInFlightBytes.isSome = true) (cell : Cell)
      (hcell : cell ∈ d.cells) :
      cell.loop.pending.All fun _ p => p.buf.bytes.length = p.permit.byteCount :=
    fun _ _ hp => Shard.Reach.charge_eq_length (hw.loops cell hcell) (hw.sent cell hcell) hl hp
  refine ⟨hcounts, hbytes, SubmitsDone.zero, fun k cell hk w hmem => ?_, fun b hbb w hmem => ?_,
    fun cell hcell m hm => ?_, hcharge, fun cell hcell => ?_, fun limit hl => ?_⟩
  · exact hc.claims k cell hk w.key w.want (Semaphore.claim_of_mem hmem)
  · exact hb.claims b hbb w.key w.want (Semaphore.claim_of_mem hmem)
  · obtain ⟨req, charge, _, heq⟩ := hw.sent cell hcell m hm
    rw [heq]
    rfl
  · obtain ⟨k, hk⟩ := List.mem_iff_getElem?.mp hcell
    have := hcounts k cell hk
    omega
  · have hsome : cfg.limits.maxInFlightBytes.isSome = true := by rw [hl]; rfl
    obtain ⟨b, hbb⟩ := Option.isSome_iff_exists.mp (hw.limited.trans hsome)
    have htotal := hbytes b hbb limit hl
    have hle : (d.cells.map fun cell => cell.loop.pending.total fun p => p.buf.bytes.length).sum ≤
        (d.cells.map fun cell => cell.loop.bytesOwned).sum := by
      refine List.sum_le_sum fun cell hcell => ?_
      refine le_trans (AList.total_le_total _ fun id p hp => ?_) (Nat.le_add_left _ _)
      exact (hcharge hsome cell hcell id p hp).le
    omega

/-- One shard with one slot and four bytes. -/
def smallDriver : Config := ⟨Shard.oneSlot, 1, ⟨none, some 4⟩⟩

/-- A two-byte read at the start of file 0. -/
def twoBytes : Request := ⟨0, 0, 2, 1, false, .roundRobin⟩

/-- One read is admitted and taken in; a second one is deferred and queued by its poll. -/
def deferredRead : List DriverEvent :=
  [.startShard, .started, .submit twoBytes, .caller 1 .call, .caller 1 .call, .caller 1 .call,
    .turn 0 (.signal 1), .turn 0 .wake, .turn 0 .drainCq, .turn 0 .drainWake,
    .turn 0 (.intake 4096 []), .submit twoBytes, .caller 2 .call, .caller 2 .poll]

theorem deferredRead_runs : (run (step smallDriver) (init smallDriver none) deferredRead).isSome =
    true := by
  decide +kernel

/-- The accounts hold with one read pending and one handle queued for its permit. -/
theorem admission_accounted_deferred : ∃ d, Reach smallDriver none d ∧
    (d.cells.map fun cell => (cell.sem.permits, cell.sem.waiters, cell.loop.pending.size)) =
      [(0, [⟨2, 1, 0⟩], 1)] ∧ AdmissionAccounted smallDriver d := by
  have hr := reachable_get deferredRead_runs
  refine ⟨_, hr, ?_, admission_accounted smallDriver none _ hr⟩
  decide +kernel

end Driver

end Uring
