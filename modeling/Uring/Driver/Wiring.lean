import Uring.Driver.Move

/-!
# How the parts of a driver fit together

In every reachable state the loops are reachable shards, running calls and waiting
handles carry validated requests and the driver's reservation, and every read ever
sent carries one count permit, its charge under a byte limit and that reservation.
-/

namespace Uring

open Uring.Core Caller

/-- A request that passed validation, with its charge. -/
def Admissible (cfg : Config) (req : Request) (charge : Nat) : Prop :=
  ∃ n, validateRead cfg.params.usizeMax cfg.limits req.offset req.len req.align
    req.allowCurrentPosition = .ok n ∧ charge = chargeOf n

/-- A caller of a validated request; a waiting handle carries the driver's reservation. -/
def Caller.Valid (cfg : Config) (r : Option Nat) (x : Caller) : Prop :=
  match x with
  | .submitting s => Admissible cfg s.req s.charge
  | .holding h => ∀ w, h.state = .waiting w → Admissible cfg w.req w.charge ∧ w.reservation = r

/-- A read sent by the driver: one count permit, its charge under a byte limit, and the
driver's reservation. -/
def Charged (cfg : Config) (r : Option Nat) (m : ReadMsg) : Prop :=
  ∃ req charge, Admissible cfg req charge ∧
    m = req.msg m.id ⟨1, cfg.limits.maxInFlightBytes.map fun _ => charge, r⟩

namespace Caller

variable {cfg : Config} {r : Option Nat}

theorem valid_inert (k : Nat) (value : IoResult) : (holding (inertHandle k value)).Valid cfg r :=
  fun _ hw => nomatch hw

theorem valid_refused {s : Submit} (hs : (submitting s).Valid cfg r) (k : Nat)
    (e : TryAcquireError) : (holding (s.refused r k e)).Valid cfg r := by
  cases e with
  | closed => exact valid_inert k _
  | noPermits =>
    intro w hw
    cases hw
    exact ⟨hs, rfl⟩

theorem valid_await {h : ReadHandle} {w : Waiting} (hh : (holding h).Valid cfg r)
    (hs : h.state = .waiting w) (stage : Stage) : (holding (h.await w stage)).Valid cfg r := by
  intro w' hw'
  cases hw'
  exact hh w hs

/-- Every operation of `submit` keeps its request, its charge and its reservation. -/
theorem valid_step {s : Submit} (hs : (submitting s).Valid cfg r) (id : Nat) (v : View) :
    (s.step id r v).1.Valid cfg r := by
  unfold Submit.step
  split
  · split
    · exact valid_refused hs _ _
    · exact hs
  · split
    · exact hs
    · split
      · simp only
        split <;> exact hs
      · exact valid_refused hs _ _
  · split
    · exact hs
    · split <;> exact hs
  · exact valid_refused hs _ _
  · split
    · exact valid_refused hs _ _
    · split <;> exact valid_refused hs _ _
  · simp only
    split
    · exact fun _ hw => nomatch hw
    · exact valid_inert _ _

/-- Every operation of a poll keeps them too. -/
theorem valid_poll {h : ReadHandle} (hh : (holding h).Valid cfg r) (id : Nat) (v : View) :
    (holding (h.poll id v).1).Valid cfg r := by
  unfold ReadHandle.poll
  split
  · exact hh
  · split <;> exact hh
  · rename_i w hs
    split
    · split
      · exact hh
      · exact hh
      · exact valid_await hh hs _
    · split
      · exact valid_await hh hs _
      · split
        · exact valid_await hh hs _
        · exact hh
        · exact valid_await hh hs _
    · simp only
      split
      · exact fun _ hw => nomatch hw
      · exact fun _ hw => nomatch hw

theorem valid_act {x : Caller} {y : Option Caller} {e : CallerEvent} {id : Nat} {v v' : View}
    (hx : x.Valid cfg r) (h : x.act e id r v = some (y, v')) {x' : Caller} (hy : y = some x') :
    x'.Valid cfg r := by
  unfold Caller.act at h
  split at h
  · cases h
    exact Option.some.inj hy ▸ valid_step hx id v
  · split at h
    · cases h
    · cases h
      exact Option.some.inj hy ▸ valid_poll hx id v
  · split at h
    · cases h
    · cases h
      exact Option.some.inj hy ▸ hx
  · split at h
    · cases h
    · cases h
      cases hy
  · cases h

/-- An admitted caller sends a charged read. -/
theorem charged_of_carries {x : Caller} (hx : x.Valid cfg r) {req : Request} {charge : Nat}
    {res : Option Nat} (hm : x.Carries r req charge res) {v : View}
    (hv : v.bytes.isSome = cfg.limits.maxInFlightBytes.isSome) (id : Nat) :
    Charged cfg r (req.msg id (v.permitsFor charge res)) := by
  have hperm : v.permitsFor charge res =
      ⟨1, cfg.limits.maxInFlightBytes.map fun _ => charge, res⟩ := by
    unfold View.permitsFor
    cases hb : v.bytes <;> cases hl : cfg.limits.maxInFlightBytes <;> rw [hb, hl] at hv <;>
      first | rfl | cases hv
  rw [hperm]
  cases x with
  | submitting s =>
    obtain ⟨rfl, rfl, rfl⟩ := hm
    exact ⟨_, _, hx, rfl⟩
  | holding h =>
    obtain ⟨w, hs, rfl, rfl, rfl⟩ := hm
    obtain ⟨ha, hr⟩ := hx w hs
    exact ⟨_, _, ha, by rw [hr]; rfl⟩

end Caller

namespace Driver

/-- How the parts of a driver fit together. -/
structure Wired (cfg : Config) (r : Option Nat) (d : Driver) : Prop where
  loops : ∀ cell ∈ d.cells, Shard.Reach cfg.params cell.loop
  limited : d.bytes.isSome = cfg.limits.maxInFlightBytes.isSome
  reservation : d.reservation = cfg.limits.maxInFlightBytes.bind fun _ => r
  valid : d.callers.All fun _ x => x.Valid cfg d.reservation
  sent : ∀ cell ∈ d.cells, ∀ m ∈ cell.loop.hist.requests, Charged cfg d.reservation m
  known : d.callers.All fun id _ => id < d.nextId
  starting : d.life = .starting → d.callers = ∅

/-- The view of a shard belongs to one of the cells. -/
theorem view_eq_some {d : Driver} {k : Nat} {v : View} (h : d.view k = some v) :
    ∃ cell, d.cells[k]? = some cell ∧ v = ⟨cell.loop, cell.sem, d.bytes⟩ := by
  obtain ⟨cell, hcell, rfl⟩ := Option.map_eq_some_iff.mp h
  exact ⟨cell, hcell, rfl⟩

@[simp] theorem put_cells (d : Driver) (id : Nat) (y : Option Caller) :
    (d.put id y).cells = d.cells := by
  cases y <;> rfl

@[simp] theorem put_bytes (d : Driver) (id : Nat) (y : Option Caller) :
    (d.put id y).bytes = d.bytes := by
  cases y <;> rfl

@[simp] theorem put_reservation (d : Driver) (id : Nat) (y : Option Caller) :
    (d.put id y).reservation = d.reservation := by
  cases y <;> rfl

@[simp] theorem put_life (d : Driver) (id : Nat) (y : Option Caller) :
    (d.put id y).life = d.life := by
  cases y <;> rfl

@[simp] theorem put_nextId (d : Driver) (id : Nat) (y : Option Caller) :
    (d.put id y).nextId = d.nextId := by
  cases y <;> rfl

/-- Replacing a caller keeps what holds of every caller if it holds of the new one. -/
theorem all_put {P : Nat → Caller → Prop} {d : Driver} (h : d.callers.All P) {id : Nat}
    {y : Option Caller} (hy : ∀ x, y = some x → P id x) : (d.put id y).callers.All P := by
  cases y with
  | none => exact h.erase id
  | some x => exact h.insert (hy x rfl)

namespace Wired

variable {cfg : Config} {r : Option Nat}

theorem init : (Driver.init cfg r).Wired cfg r where
  loops := fun _ h => nomatch h
  limited := Option.isSome_map
  reservation := rfl
  valid := AList.all_empty
  sent := fun _ h => nomatch h
  known := AList.all_empty
  starting := fun _ => rfl

/-- Changes that move no permit. -/
theorem kept {d d' : Driver} (h : d.Wired cfg r)
    (hlive : ∀ cell ∈ d.cells, cell.loop.phase ≠ .aborted)
    (hk : d.Kept cfg.params d') (hl : d.LifeStep cfg d'.life) : d'.Wired cfg r := by
  have hcell (b : Cell) (hb : b ∈ d'.cells) : ∃ a ∈ d.cells, a.Kept cfg.params b := by
    obtain ⟨k, hb⟩ := List.mem_iff_getElem?.mp hb
    obtain ⟨a, ha, hab⟩ := forall₂_getElem? hk.cells hb
    exact ⟨a, List.mem_of_getElem? ha, hab⟩
  refine ⟨fun b hb => ?_, hk.bytes.isSome.trans h.limited, hk.reservation.trans h.reservation, ?_,
    fun b hb m hm => ?_, ?_, fun hs => ?_⟩
  · obtain ⟨a, ha, hab⟩ := hcell b hb
    exact (h.loops a ha).trans (hab.moves (hlive a ha))
  · rw [hk.callers, hk.reservation]
    exact h.valid
  · obtain ⟨a, ha, hab⟩ := hcell b hb
    rw [hab.requests] at hm
    rw [hk.reservation]
    exact h.sent a ha m hm
  · rw [hk.callers, hk.nextId]
    exact h.known
  · rcases hl with hl | ⟨hne, _⟩
    · exact hk.callers.trans (h.starting (hl.symm.trans hs))
    · exact absurd hs hne

theorem start {d : Driver} (h : d.Wired cfg r) : (d.startShard cfg).Wired cfg r where
  loops := by
    intro cell hcell
    rcases List.mem_append.mp hcell with hold | hnew
    · exact h.loops cell hold
    · rw [List.mem_singleton.mp hnew]
      exact .start
  limited := h.limited
  reservation := h.reservation
  valid := h.valid
  sent := by
    intro cell hcell m hm
    rcases List.mem_append.mp hcell with hold | hnew
    · exact h.sent cell hold m hm
    · rw [List.mem_singleton.mp hnew] at hm
      cases hm
  known := h.known
  starting := h.starting

/-- A `submit` begins with a validated request or an inert handle. -/
theorem valid_begun {d : Driver} {req : Request} {x : Caller} (hx : Begun cfg d req x) :
    x.Valid cfg d.reservation := by
  cases hx with
  | invalid he => exact valid_inert _ _
  | valid hn => exact ⟨_, hn, rfl⟩

theorem submit {d : Driver} (h : d.Wired cfg r) {req : Request} {x : Caller} {n : Nat}
    (hl : d.life = .running) (hid : d.nextId < cancelBit) (hx : Begun cfg d req x) :
    ({ d with nextId := fetchAdd d.nextId, rr := n,
              callers := d.callers.insert d.nextId x } : Driver).Wired cfg r := by
  have hnext : fetchAdd d.nextId = d.nextId + 1 :=
    fetchAdd_of_lt (by unfold cancelBit at hid; omega)
  refine ⟨h.loops, h.limited, h.reservation, h.valid.insert (valid_begun hx), h.sent, ?_, ?_⟩
  · simp only [hnext]
    refine AList.All.insert (fun id y hy => ?_) (Nat.lt_succ_self _)
    exact Nat.lt_succ_of_lt (h.known id y hy)
  · intro hs
    rw [hl] at hs
    cases hs

/-- Installing an operation's changes keeps what holds of every cell. -/
theorem mem_install {d : Driver} {k : Nat} {v v' : View} (hv : d.view k = some v) {P : Shard → Prop}
    (h : ∀ cell ∈ d.cells, P cell.loop) (hp : P v.loop → P v'.loop) :
    ∀ cell ∈ (d.install k v').cells, P cell.loop := by
  intro cell hcell
  obtain ⟨a, ha, rfl⟩ := view_eq_some hv
  rcases mem_modify_cases hcell with ⟨b, hb, rfl⟩ | hold
  · obtain rfl : a = b := Option.some.inj (ha.symm.trans hb)
    exact hp (h a (List.mem_of_getElem? ha))
  · exact h cell hold

theorem caller {d : Driver} (h : d.Wired cfg r)
    (hlive : ∀ cell ∈ d.cells, cell.loop.phase ≠ .aborted)
    {id : Nat} {e : CallerEvent} {x : Caller} {y : Option Caller} {v v' : View}
    (hx : d.callers.lookup id = some x) (hv : d.view x.shard = some v)
    (ha : x.act e id d.reservation v = some (y, v')) :
    ((d.install x.shard v').put id y).Wired cfg r := by
  have hact := Caller.act_cases (c := cfg.params) ha
  obtain ⟨cell, hcell, heq⟩ := view_eq_some hv
  have hmem := List.mem_of_getElem? hcell
  have hbytes : v.bytes.isSome = cfg.limits.maxInFlightBytes.isSome := by
    rw [heq]
    exact h.limited
  refine ⟨?_, ?_, ?_, ?_, ?_, ?_, ?_⟩
  · rw [put_cells]
    refine mem_install hv h.loops fun hr => hr.trans (hact.loop.1 ?_)
    rw [heq]
    exact hlive cell hmem
  · rw [put_bytes]
    exact hact.isSome_bytes.trans hbytes
  · rw [put_reservation]
    exact h.reservation
  · rw [put_reservation]
    exact all_put (d := d.install x.shard v') h.valid fun x' hy => valid_act (h.valid id x hx) ha hy
  · rw [put_cells, put_reservation]
    refine mem_install hv (P := fun s => ∀ m ∈ s.hist.requests, Charged cfg d.reservation m)
      h.sent fun hs m hm => ?_
    rcases hact.requests with hreq | ⟨req, charge, res, hcarry, hreq⟩
    · exact hs m (hreq ▸ hm)
    · rw [hreq] at hm
      rcases List.mem_append.mp hm with hold | hnew
      · exact hs m hold
      · rw [List.mem_singleton.mp hnew]
        exact charged_of_carries (h.valid id x hx) hcarry hbytes id
  · rw [put_nextId]
    exact all_put (d := d.install x.shard v') h.known fun _ _ => h.known id x hx
  · rw [put_life]
    intro hs
    rw [h.starting hs] at hx
    cases hx

/-- The next id is new to the callers. -/
theorem fresh {d : Driver} (h : d.Wired cfg r) : d.nextId ∉ d.callers := by
  intro hmem
  obtain ⟨x, hx⟩ := AList.mem_iff_lookup.mp hmem
  exact lt_irrefl _ (h.known _ x hx)

/-- A known caller is not the one that a `submit` adds. -/
theorem lookup_issued {d : Driver} (h : d.Wired cfg r) {id : Nat} {x : Caller} (y : Caller)
    (hx : d.callers.lookup id = some x) :
    (d.callers.insert d.nextId y).lookup id = some x := by
  have hlt : id < d.nextId := h.known id x hx
  rw [AList.lookup_insert_ne (Nat.ne_of_lt hlt)]
  exact hx

/-- The loop of a shard is in a reachable state. -/
theorem reach {d : Driver} (h : d.Wired cfg r) {k : Nat} {v : View} (hv : d.view k = some v) :
    Shard.Reach cfg.params v.loop := by
  obtain ⟨cell, hcell, rfl⟩ := view_eq_some hv
  exact h.loops cell (List.mem_of_getElem? hcell)

/-- What one step of a driver's loop does. -/
theorem turn_cases {d : Driver} (h : d.Wired cfg r) {k : Nat} {e : Event} {v v' : View}
    (hv : d.view k = some v) (he : e.ofThread = true) (ht : v.turn cfg.params e = some v') :
    ∃ freed, LoopTurn cfg.params e v v' freed :=
  View.turn_cases (Shard.Reach.control (h.reach hv)) he ht

theorem turn {d : Driver} (h : d.Wired cfg r) {k : Nat} {e : Event} {v v' : View}
    (hv : d.view k = some v) (he : e.ofThread = true) (ht : v.turn cfg.params e = some v') :
    (d.install k v').Wired cfg r := by
  obtain ⟨cell, hcell, heq⟩ := view_eq_some hv
  obtain ⟨freed, hturn⟩ := h.turn_cases hv he ht
  refine ⟨mem_install hv h.loops fun hr => hr.next trivial hturn.step, ?_, h.reservation, h.valid,
    ?_, h.known, h.starting⟩
  · have hbytes : v.bytes = d.bytes := by rw [heq]
    change v'.bytes.isSome = _
    rw [← h.limited, ← hbytes]
    cases hb : v.bytes with
    | none => rw [hturn.unlimited hb]
    | some b =>
      obtain ⟨b', hb', _⟩ := hturn.bytes b hb
      rw [hb']
      rfl
  · refine mem_install hv (P := fun s => ∀ m ∈ s.hist.requests, Charged cfg d.reservation m)
      h.sent fun hs m hm => hs m ?_
    rw [← hturn.requests]
    exact hm

theorem move {d d' : Driver} {e : DriverEvent} (h : d.Wired cfg r)
    (hlive : ∀ cell ∈ d.cells, cell.loop.phase ≠ .aborted) (hm : Move cfg d e d') :
    d'.Wired cfg r := by
  cases hm with
  | kept _ hk hl => exact h.kept hlive hk hl
  | start hl => exact h.start
  | submit hl hid hx => exact h.submit hl hid hx
  | caller hx hv ha => exact h.caller hlive hx hv ha
  | turn hv he ht => exact h.turn hv he ht

end Wired

theorem Reach.wired {cfg : Config} {r : Option Nat} {d : Driver} (h : Reach cfg r d) :
    d.Wired cfg r :=
  h.invariant .init fun _ _ _ _ hi _ hs => hi.move (live_of_step hs) (step_move hs)

end Driver

end Uring
