import Uring.Driver.Retire

/-!
# The shared read budget

Any number of drivers reserve their whole byte limits from one pool. A reservation is an
`Arc` that its driver clones into its admission, its deferred futures and its reads; the
drop of the last clone refunds it. Nobody else sees a reservation without owners, so that
drop and its refund are one step.
-/

namespace Uring

open Uring.Core

/-- `SharedReadBudgetInner`. -/
structure SharedReadBudget where
  capacity : Nat
  available : Nat
  deriving DecidableEq, Repr

namespace SharedReadBudget

/-- `SharedReadBudget::new`. -/
def new (total : Nat) : Except IoError SharedReadBudget :=
  if total = 0 then .error (.invalidInput "shared read budget must be nonzero")
  else .ok ⟨total, total⟩

/-- `reserve`, without the receipt it returns. -/
def reserve (b : SharedReadBudget) (bytes : Nat) : Except IoError SharedReadBudget :=
  if bytes = 0 ∨ b.capacity < bytes then
    .error (.invalidInput "driver read limit must fit the shared read budget")
  else if b.available < bytes then
    .error (.wouldBlock "shared read budget has insufficient unreserved capacity")
  else .ok { b with available := b.available - bytes }

/-- `Drop for SharedReadReservation`: `fetch_add` on an `AtomicUsize`. -/
def refund (usizeMax : Nat) (b : SharedReadBudget) (bytes : Nat) : SharedReadBudget :=
  { b with available := (b.available + bytes) % (usizeMax + 1) }

end SharedReadBudget

/-- `ProbeFailure`. -/
inductive ProbeFailure
  | setup (e : IoError)
  | readOp (e : IoError)
  deriving DecidableEq, Repr

/-- `Semaphore::MAX_PERMITS`. -/
def maxPermits (usizeMax : Nat) : Nat := usizeMax >>> 3

/-- `validate_read_limits`. -/
def validateReadLimits (usizeMax : Nat) (limits : ReadLimits) : Except ProbeFailure Unit :=
  if limits.maxInFlightBytes.any fun bytes =>
      decide (bytes = 0) || decide (maxPermits usizeMax < bytes) then
    .error (.setup (.invalidInput "byte budget must be between 1 and Semaphore::MAX_PERMITS"))
  else .ok ()

/-- A driver that reserved from the pool, with its receipt's number and bytes. -/
structure Member where
  receipt : Nat
  bytes : Nat
  cfg : Config
  driver : Driver

/-- The owners of a member's receipt. -/
def Member.owners (m : Member) : Nat := m.driver.owners m.receipt

/-- A pool and the drivers started with it; `refunds` records the receipts refunded. -/
structure Sharing where
  pool : SharedReadBudget
  members : List Member
  refunds : List Nat

/-- The labels of a shared pool. -/
inductive SharingEvent
  /-- `probe_and_start_with_shared_budget` is called. -/
  | start (cfg : Config)
  /-- One transition of the driver with receipt `i`. -/
  | member (i : Nat) (e : DriverEvent)
  deriving DecidableEq

namespace Sharing

/-- No driver was started yet. -/
def init (pool : SharedReadBudget) : Sharing := ⟨pool, [], []⟩

/-- `probe_and_start_with_shared_budget` up to its first shard. -/
def probeAndStart (s : Sharing) (cfg : Config) : Except ProbeFailure Sharing :=
  match validateReadLimits cfg.params.usizeMax cfg.limits with
  | .error e => .error e
  | .ok () =>
    match cfg.limits.maxInFlightBytes with
    | none => .error
        (.setup (.invalidInput "shared read budget requires an explicit local byte limit"))
    | some bytes =>
      match s.pool.reserve bytes with
      | .error e => .error (.setup e)
      | .ok pool =>
        let receipt := s.members.length
        .ok { s with
          pool := pool
          members := s.members ++ [⟨receipt, bytes, cfg, Driver.init cfg (some receipt)⟩] }

/-- Member `i` moved on to `d`; the drop of its receipt's last clone runs the refund. -/
def settle (usizeMax : Nat) (s : Sharing) (i : Nat) (m : Member) (d : Driver) : Sharing :=
  let last := decide (0 < m.owners) && decide (d.owners m.receipt = 0)
  { pool := if last then s.pool.refund usizeMax m.bytes else s.pool
    members := s.members.modify i fun m => { m with driver := d }
    refunds := if last then s.refunds ++ [m.receipt] else s.refunds }

/-- Some driver's loop panicked and the process is gone. -/
def aborted (s : Sharing) : Bool := s.members.any fun m => m.driver.aborted

/-- One transition, on a machine with words up to `usizeMax`. -/
def step (usizeMax : Nat) (s : Sharing) (e : SharingEvent) : Option Sharing :=
  if s.aborted then none
  else
    match e with
    | .start cfg =>
      if cfg.params.usizeMax = usizeMax then
        match s.probeAndStart cfg with
        | .ok s' => some s'
        | .error _ => some s
      else none
    | .member i e => do
      let m ← s.members[i]?
      let d ← m.driver.step m.cfg e
      return s.settle usizeMax i m d

/-- States of a new pool under any interleaving of the drivers that share it. -/
abbrev Reach (usizeMax : Nat) (pool : SharedReadBudget) (s : Sharing) : Prop :=
  Reachable (step usizeMax) anyLabel (init pool) s

end Sharing

/-- What a member keeps from the pool. -/
def Member.kept (m : Member) : Nat := if m.owners = 0 then 0 else m.bytes

/-- A member's receipt in the abstract pool. -/
def Member.entry (m : Member) : Receipt := ⟨m.bytes, m.owners⟩

/-- The bytes of the reservations that have an owner. -/
def Sharing.owed (s : Sharing) : Nat := (s.members.map Member.kept).sum

/-- A refusal is an invalid request or a temporary shortage. -/
theorem SharedReadBudget.reserve_error {b : SharedReadBudget} {bytes : Nat} {e : IoError}
    (h : b.reserve bytes = .error e) :
    (∃ msg, e = .invalidInput msg) ∧ (bytes = 0 ∨ b.capacity < bytes) ∨
      (∃ msg, e = .wouldBlock msg) ∧ b.available < bytes ∧ 0 < bytes ∧ bytes ≤ b.capacity := by
  unfold reserve at h
  split at h
  · rename_i hinvalid
    cases h
    exact Or.inl ⟨⟨_, rfl⟩, hinvalid⟩
  · rename_i hvalid
    split at h
    · rename_i hshort
      cases h
      refine Or.inr ⟨⟨_, rfl⟩, hshort, ?_, ?_⟩ <;> omega
    · cases h

/-- A reservation takes its bytes from what is available. -/
theorem SharedReadBudget.reserve_ok {b b' : SharedReadBudget} {bytes : Nat} :
    b.reserve bytes = .ok b' ↔ 0 < bytes ∧ bytes ≤ b.capacity ∧ bytes ≤ b.available ∧
      b' = ⟨b.capacity, b.available - bytes⟩ := by
  unfold reserve
  split
  · rename_i hinvalid
    refine ⟨nofun, fun h => ?_⟩
    omega
  · rename_i hvalid
    split
    · rename_i hshort
      refine ⟨nofun, fun h => ?_⟩
      omega
    · rw [Except.ok.injEq]
      refine ⟨fun h => ⟨?_, ?_, ?_, h.symm⟩, fun h => h.2.2.2.symm⟩ <;> omega

/-- The constructor is a receipt's first owner. -/
theorem Driver.owners_init {cfg : Config} {bytes i : Nat}
    (hl : cfg.limits.maxInFlightBytes = some bytes) : (Driver.init cfg (some i)).owners i = 1 := by
  have hres : (Driver.init cfg (some i)).reservation = some i := by
    simp only [Driver.init, hl, Option.bind_some]
  rw [Driver.owners, if_pos ⟨rfl, hres⟩]
  rfl

namespace Sharing

variable {usizeMax : Nat} {s s' : Sharing} {e : SharingEvent}

/-- The transitions of a shared pool. -/
inductive Move (usizeMax : Nat) (s : Sharing) : SharingEvent → Sharing → Prop
  | refused {cfg : Config} {err : ProbeFailure} (h : s.probeAndStart cfg = .error err) :
      Move usizeMax s (.start cfg) s
  | started {cfg : Config} {bytes : Nat} (hl : cfg.limits.maxInFlightBytes = some bytes)
      (hpos : 0 < bytes) (hb : bytes ≤ s.pool.available) :
      Move usizeMax s (.start cfg)
        { s with
          pool := ⟨s.pool.capacity, s.pool.available - bytes⟩
          members := s.members ++
            [⟨s.members.length, bytes, cfg, Driver.init cfg (some s.members.length)⟩] }
  | member {i : Nat} {e : DriverEvent} {m : Member} {d : Driver} (hm : s.members[i]? = some m)
      (hd : m.driver.step m.cfg e = some d) :
      Move usizeMax s (.member i e) (s.settle usizeMax i m d)

/-- A start that succeeds has reserved its limit. -/
theorem probeAndStart_ok {cfg : Config} (h : s.probeAndStart cfg = .ok s') :
    ∃ bytes, cfg.limits.maxInFlightBytes = some bytes ∧ 0 < bytes ∧ bytes ≤ s.pool.available ∧
      s' = { s with
        pool := ⟨s.pool.capacity, s.pool.available - bytes⟩
        members := s.members ++
          [⟨s.members.length, bytes, cfg, Driver.init cfg (some s.members.length)⟩] } := by
  unfold probeAndStart at h
  split at h
  · cases h
  · split at h
    · cases h
    · rename_i bytes hl
      split at h
      · cases h
      · rename_i pool hr
        obtain ⟨hpos, _, hb, rfl⟩ := SharedReadBudget.reserve_ok.mp hr
        cases h
        exact ⟨bytes, hl, hpos, hb, rfl⟩

theorem step_move (h : step usizeMax s e = some s') : Move usizeMax s e s' := by
  unfold step at h
  split at h
  · cases h
  cases e with
  | start cfg =>
    simp only at h
    split at h
    · split at h
      · rename_i hok
        cases h
        obtain ⟨bytes, hl, hpos, hb, rfl⟩ := probeAndStart_ok hok
        exact .started hl hpos hb
      · rename_i herr
        cases h
        exact .refused herr
    · cases h
  | member i e =>
    simp only [Option.bind_eq_bind, Option.bind_eq_some_iff, Option.pure_def,
      Option.some.injEq] at h
    obtain ⟨m, hm, d, hd, rfl⟩ := h
    exact .member hm hd

/-- The pool's counter is what the receipts leave free. -/
structure Represents (s : Sharing) (p : Pool) : Prop where
  capacity : p.capacity = s.pool.capacity
  receipts : p.receipts = s.members.map Member.entry
  available : s.pool.available = p.free

theorem Represents.conserved {p : Pool} (h : s.Represents p) :
    s.pool.available + s.owed = s.pool.capacity := by
  have howed : s.owed = outstanding p.receipts := by
    rw [h.receipts, outstanding, List.map_map]
    rfl
  rw [h.available, howed, p.free_add_outstanding, h.capacity]

/-- The members of a pool, and the receipts refunded so far. -/
structure Sound (s : Sharing) : Prop where
  member : ∀ i (m : Member), s.members[i]? = some m → m.receipt = i ∧
    m.cfg.limits.maxInFlightBytes = some m.bytes ∧ Driver.Reach m.cfg (some m.receipt) m.driver
  once : s.refunds.Nodup
  refunded : ∀ i, i ∈ s.refunds ↔ ∃ m : Member, s.members[i]? = some m ∧ m.owners = 0

/-- A receipt is without owners exactly when its member has retired. -/
theorem Sound.owners_eq_zero_iff (h : s.Sound)
    {i : Nat} {m : Member} (hm : s.members[i]? = some m) :
    m.owners = 0 ↔ m.driver.Retired := by
  obtain ⟨_, hl, hr⟩ := h.member i m hm
  exact Driver.owners_eq_zero_iff hr (by rw [hl]; rfl)

/-- A receipt without owners gets none again. -/
theorem Sound.unowned (h : s.Sound) {i : Nat} {m : Member} (hm : s.members[i]? = some m)
    {e : DriverEvent} {d : Driver} (hd : m.driver.step m.cfg e = some d) (hz : m.owners = 0) :
    d.owners m.receipt = 0 := by
  obtain ⟨_, hl, hr⟩ := h.member i m hm
  have hlim : m.cfg.limits.maxInFlightBytes.isSome = true := by rw [hl]; rfl
  exact (Driver.owners_eq_zero_iff (hr.next trivial hd) hlim).mpr
    (((h.owners_eq_zero_iff hm).mp hz).step hr hd)

/-- The members after one of them moved on. -/
theorem getElem?_settle (i j : Nat) (m : Member) (d : Driver) :
    (s.settle usizeMax i m d).members[j]? =
      if i = j then s.members[j]?.map fun m => { m with driver := d } else s.members[j]? := by
  rw [settle, List.getElem?_modify]
  split
  · rfl
  · exact Option.map_id'

theorem entries_settle {i : Nat} {m : Member} (hm : s.members[i]? = some m) (d : Driver) :
    (s.settle usizeMax i m d).members.map Member.entry =
      (s.members.map Member.entry).modify i fun r => { r with owners := d.owners m.receipt } := by
  apply List.ext_getElem?
  intro j
  rw [List.getElem?_map, getElem?_settle, List.getElem?_modify, List.getElem?_map]
  split
  · rename_i hij
    subst hij
    rw [hm]
    rfl
  · simp

/-- The code's pool takes the steps of the abstract one. -/
theorem Represents.move {p : Pool} (hp : s.Represents p) (h : s.Sound)
    (hu : s.pool.capacity ≤ usizeMax) (hm : Move usizeMax s e s') :
    ∃ p', s'.Represents p' ∧ p.Step p' := by
  cases hm with
  | refused => exact ⟨p, hp, .idle⟩
  | @started cfg bytes hl hpos hb =>
    have hfree : bytes ≤ p.free := hp.available ▸ hb
    refine ⟨p.reserve bytes hfree, ⟨hp.capacity, ?_, ?_⟩, .reserve _ _⟩
    · rw [Pool.reserve_receipts, hp.receipts, List.map_append, List.map_singleton, Member.entry,
        Member.owners, Driver.owners_init hl]
    · have hsum := p.free_reserve bytes hfree
      have havail := hp.available
      simp only
      omega
  | @member i e m d hmem hd =>
    have hentry {r : Receipt} (hr : p.receipts[i]? = some r) : r = m.entry := by
      rw [hp.receipts, List.getElem?_map, hmem] at hr
      exact (Option.some.inj hr).symm
    have hdead (r : Receipt) (hr : p.receipts[i]? = some r) (hz : r.owners = 0) :
        d.owners m.receipt = 0 := by
      rw [hentry hr] at hz
      exact h.unowned hmem hd hz
    have hr : p.receipts[i]? = some m.entry := by
      rw [hp.receipts, List.getElem?_map, hmem]
      rfl
    have hfree : (p.recount i (d.owners m.receipt) hdead).free =
        p.free + (if 0 < m.owners ∧ d.owners m.receipt = 0 then m.bytes else 0) :=
      Pool.free_recount hr
    have hle := (p.recount i (d.owners m.receipt) hdead).free_add_outstanding
    rw [Pool.recount_capacity, hp.capacity] at hle
    refine ⟨p.recount i (d.owners m.receipt) hdead, ⟨?_, ?_, ?_⟩, .recount _ _ _⟩
    · rw [Pool.recount_capacity, hp.capacity, settle]
      simp only
      split <;> rfl
    · rw [Pool.recount_receipts, hp.receipts, entries_settle hmem]
    · have havail := hp.available
      simp only [settle, Bool.and_eq_true, decide_eq_true_eq]
      by_cases hlast : 0 < m.owners ∧ d.owners m.receipt = 0
      · rw [if_pos hlast] at hfree ⊢
        rw [SharedReadBudget.refund, Nat.mod_eq_of_lt (by omega), havail, hfree]
      · rw [if_neg hlast] at hfree ⊢
        rw [hfree, havail, Nat.add_zero]

namespace Sound

theorem init (pool : SharedReadBudget) : (Sharing.init pool).Sound where
  member := fun _ _ h => nomatch h
  once := List.nodup_nil
  refunded := fun _ => ⟨nofun, fun ⟨_, h, _⟩ => nomatch h⟩

theorem started (h : s.Sound) {cfg : Config} {bytes : Nat}
    (hl : cfg.limits.maxInFlightBytes = some bytes) (pool : SharedReadBudget) :
    ({ s with
      pool := pool
      members := s.members ++
        [⟨s.members.length, bytes, cfg, Driver.init cfg (some s.members.length)⟩] } :
      Sharing).Sound := by
  refine ⟨fun i m hm => ?_, h.once, fun i => ⟨fun hi => ?_, ?_⟩⟩
  · rcases getElem?_concat_cases hm with hold | ⟨rfl, rfl⟩
    · exact h.member i m hold
    · exact ⟨rfl, hl, .start⟩
  · obtain ⟨m, hm, hz⟩ := (h.refunded i).mp hi
    exact ⟨m, List.getElem?_append_left (List.getElem?_eq_some_iff.mp hm).1 ▸ hm, hz⟩
  · rintro ⟨m, hm, hz⟩
    rcases getElem?_concat_cases hm with hold | ⟨rfl, rfl⟩
    · exact (h.refunded i).mpr ⟨m, hold, hz⟩
    · rw [Member.owners, Driver.owners_init hl] at hz
      cases hz

theorem settle (h : s.Sound) {i : Nat} {m : Member} (hm : s.members[i]? = some m) {e : DriverEvent}
    {d : Driver} (hd : m.driver.step m.cfg e = some d) : (s.settle usizeMax i m d).Sound := by
  obtain ⟨hid, hl, hr⟩ := h.member i m hm
  have hmem (j : Nat) (m' : Member) (hm' : (s.settle usizeMax i m d).members[j]? = some m') :
      i = j ∧ m' = { m with driver := d } ∨ i ≠ j ∧ s.members[j]? = some m' := by
    rw [getElem?_settle] at hm'
    split at hm'
    · rename_i hij
      subst hij
      rw [hm] at hm'
      exact Or.inl ⟨rfl, (Option.some.inj hm').symm⟩
    · rename_i hij
      exact Or.inr ⟨hij, hm'⟩
  have hself : (s.settle usizeMax i m d).members[i]? = some { m with driver := d } := by
    rw [getElem?_settle, if_pos rfl, hm]
    rfl
  have hother {j : Nat} (hij : i ≠ j) :
      (s.settle usizeMax i m d).members[j]? = s.members[j]? := by
    rw [getElem?_settle, if_neg hij]
  -- receipts without owners after the step: those before it, and the one just refunded
  have howners (j : Nat) : (∃ m' : Member, (s.settle usizeMax i m d).members[j]? = some m' ∧
      m'.owners = 0) ↔ j ∈ s.refunds ∨ j = i ∧ 0 < m.owners ∧ d.owners m.receipt = 0 := by
    rw [h.refunded]
    by_cases hij : i = j
    · subst hij
      rw [hself, hm]
      have hkeep := h.unowned hm hd
      simp only [Option.some.injEq, exists_eq_left', Member.owners, true_and]
      change d.owners m.receipt = 0 ↔ m.owners = 0 ∨ 0 < m.owners ∧ d.owners m.receipt = 0
      omega
    · rw [hother hij]
      simp [Ne.symm hij]
  refine ⟨fun j m' hm' => ?_, ?_, fun j => ?_⟩
  · rcases hmem j m' hm' with ⟨rfl, rfl⟩ | ⟨_, hold⟩
    · exact ⟨hid, hl, hr.next trivial hd⟩
    · exact h.member j m' hold
  · simp only [Sharing.settle, Bool.and_eq_true, decide_eq_true_eq]
    split
    · rename_i hlast
      rw [← List.concat_eq_append, List.nodup_concat]
      refine ⟨fun hin => ?_, h.once⟩
      obtain ⟨m', hm', hz⟩ := (h.refunded m.receipt).mp hin
      rw [hid, hm] at hm'
      cases hm'
      omega
    · exact h.once
  · rw [howners]
    simp only [Sharing.settle, Bool.and_eq_true, decide_eq_true_eq]
    split
    · rename_i hlast
      rw [List.mem_append, List.mem_singleton, hid]
      exact or_congr_right ⟨fun hj => ⟨hj, hid ▸ hlast⟩, fun hj => hj.1⟩
    · rename_i hlast
      exact ⟨Or.inl, fun hj => hj.resolve_right fun hc => hlast hc.2⟩

theorem move (h : s.Sound) (hm : Move usizeMax s e s') : s'.Sound := by
  cases hm with
  | refused => exact h
  | started hl _ _ => exact h.started hl _
  | member hmem hd => exact h.settle hmem hd

end Sound

/-- What holds in every state of a pool of `total` bytes. -/
structure Shared (total : Nat) (s : Sharing) : Prop where
  sound : s.Sound
  capacity : s.pool.capacity = total
  abstract : ∃ p, s.Represents p

theorem Move.capacity (hm : Move usizeMax s e s') : s'.pool.capacity = s.pool.capacity := by
  cases hm with
  | refused | started => rfl
  | member =>
    simp only [settle]
    split <;> rfl

theorem Shared.move {total : Nat} (h : Shared total s) (hu : total ≤ usizeMax)
    (hm : Move usizeMax s e s') : Shared total s' := by
  obtain ⟨p, hp⟩ := h.abstract
  obtain ⟨p', hp', _⟩ := hp.move h.sound (h.capacity ▸ hu) hm
  exact ⟨h.sound.move hm, hm.capacity.trans h.capacity, p', hp'⟩

theorem Reach.shared {total : Nat} {pool : SharedReadBudget}
    (hnew : SharedReadBudget.new total = .ok pool)
    (hu : total ≤ usizeMax) (h : Reach usizeMax pool s) : Shared total s := by
  refine h.invariant (I := Shared total) ?_ fun _ _ _ _ hi _ hs => hi.move hu (step_move hs)
  unfold SharedReadBudget.new at hnew
  split at hnew <;> cases hnew
  exact ⟨.init _, rfl, ⟨total, [], Nat.zero_le _⟩, rfl, rfl, rfl⟩

/-- A leaked read keeps its driver's reservation in every later state. -/
theorem Shared.leaked {total i : Nat} {m : Member} (h : Shared total s) (hu : total ≤ usizeMax)
    (hm : s.members[i]? = some m) (hl : m.driver.Leaked)
    (hs : Reachable (step usizeMax) anyLabel s s') : i ∉ s'.refunds := by
  have hboth : Shared total s' ∧ ∃ m : Member, s'.members[i]? = some m ∧ m.driver.Leaked := by
    refine hs.invariant (I := fun t => Shared total t ∧
      ∃ m : Member, t.members[i]? = some m ∧ m.driver.Leaked) ⟨h, m, hm, hl⟩ ?_
    rintro t e t' _ ⟨ht, n, hn, hleak⟩ _ hstep
    refine ⟨ht.move hu (step_move hstep), ?_⟩
    cases step_move hstep with
    | refused => exact ⟨n, hn, hleak⟩
    | started =>
      exact ⟨n, (List.getElem?_append_left (List.getElem?_eq_some_iff.mp hn).1).trans hn, hleak⟩
    | @member j e k d hk hd =>
      rw [getElem?_settle]
      split
      · rename_i hij
        subst hij
        obtain rfl : k = n := Option.some.inj (hk.symm.trans hn)
        rw [hk]
        exact ⟨_, rfl, hleak.step (ht.sound.member j k hk).2.2 hd⟩
      · exact ⟨n, hn, hleak⟩
  obtain ⟨ht, n, hn, hleak⟩ := hboth
  intro hin
  obtain ⟨n', hn', hz⟩ := (ht.sound.refunded i).mp hin
  obtain rfl : n' = n := Option.some.inj (hn'.symm.trans hn)
  exact hleak.not_retired ((ht.sound.owners_eq_zero_iff hn).mp hz)

theorem settle_last {base : List Member} {m : Member} (hs : s.members = base ++ [m]) (k : Member)
    (d : Driver) :
    (s.settle usizeMax base.length k d).members = base ++ [{ m with driver := d }] := by
  rw [settle, hs, List.modify_eq_set_getElem?]
  simp

/-- The last member's transitions leave the others alone. -/
theorem run_last {base : List Member} {es : List DriverEvent} {m : Member} {total : Nat}
    (h : Shared total s) (hu : total ≤ usizeMax) (hs : s.members = base ++ [m])
    (hrun : run (step usizeMax) s (es.map (SharingEvent.member base.length)) = some s') :
    Shared total s' ∧ ∃ m', s'.members = base ++ [m'] := by
  induction es generalizing s m with
  | nil =>
    obtain rfl : s = s' := Option.some.inj hrun
    exact ⟨h, m, hs⟩
  | cons e es ih =>
    simp only [List.map_cons, run, Option.bind_eq_some_iff] at hrun
    obtain ⟨t, ht, hrest⟩ := hrun
    have hnext := h.move hu (step_move ht)
    cases step_move ht with
    | member => exact ih hnext (settle_last hs _ _) hrest

/-- A failed start gives back what it reserved. -/
theorem Shared.restored {total : Nat} (h : Shared total s) (hu : total ≤ usizeMax) {cfg : Config}
    {s₁ s₂ : Sharing} {es : List DriverEvent} {m : Member} (hok : s.probeAndStart cfg = .ok s₁)
    (hs : step usizeMax s (.start cfg) = some s₁)
    (hrun : run (step usizeMax) s₁ (es.map (SharingEvent.member s.members.length)) = some s₂)
    (hm : s₂.members[s.members.length]? = some m) (hl : m.driver.life = .gone true) :
    s₂.pool = s.pool := by
  have h₁ := h.move hu (step_move hs)
  obtain ⟨bytes, _, _, _, heq⟩ := probeAndStart_ok hok
  obtain ⟨h₂, m', hlast⟩ := run_last h₁ hu (by rw [heq]) hrun
  rw [hlast, List.getElem?_concat_length] at hm
  obtain rfl : m' = m := Option.some.inj hm
  have hmem : s₂.members[s.members.length]? = some m' := by
    rw [hlast, List.getElem?_concat_length]
  have hreach := (h₂.sound.member _ m' hmem).2.2
  have hzero := (h₂.sound.owners_eq_zero_iff hmem).mpr
    ((Driver.Reach.ended hreach).retired_of_failed (Driver.Reach.wired hreach) hl)
  have howed : s₂.owed = s.owed := by
    rw [owed, hlast, List.map_append, List.sum_append, List.map_singleton, List.sum_singleton,
      Member.kept, if_pos hzero, Nat.add_zero, owed]
  obtain ⟨p, hp⟩ := h.abstract
  obtain ⟨p₂, hp₂⟩ := h₂.abstract
  have hsum := hp.conserved
  have hsum₂ := hp₂.conserved
  have hcap := h₂.capacity.trans h.capacity.symm
  have havail : s₂.pool.available = s.pool.available := by omega
  cases hpool : s.pool
  cases hpool₂ : s₂.pool
  rw [hpool, hpool₂] at hcap havail
  exact congrArg₂ SharedReadBudget.mk hcap havail

/-- What a driver's step gives back. -/
theorem Shared.exact {total i : Nat} {e : DriverEvent} {m : Member} (h : Shared total s)
    (hu : total ≤ usizeMax) (hm : s.members[i]? = some m)
    (hs : step usizeMax s (.member i e) = some s') : ∃ m' : Member, s'.members[i]? = some m' ∧
      s'.pool.available = s.pool.available +
        (if 0 < m.owners ∧ m'.owners = 0 then m.bytes else 0) ∧
      s'.refunds = s.refunds ++ (if 0 < m.owners ∧ m'.owners = 0 then [i] else []) := by
  obtain ⟨p, hp⟩ := h.abstract
  have hsum := hp.conserved
  have hcap := h.capacity
  have hkept : m.kept ≤ s.owed :=
    List.le_sum_of_mem (List.mem_map_of_mem (List.mem_of_getElem? hm))
  cases step_move hs with
  | @member _ _ k d hk hd =>
    obtain rfl : k = m := Option.some.inj (hk.symm.trans hm)
    refine ⟨{ k with driver := d }, by rw [getElem?_settle, if_pos rfl, hk]; rfl, ?_⟩
    change _ = _ + (if 0 < k.owners ∧ d.owners k.receipt = 0 then k.bytes else 0) ∧
      _ = _ ++ (if 0 < k.owners ∧ d.owners k.receipt = 0 then [i] else [])
    simp only [settle, Bool.and_eq_true, decide_eq_true_eq]
    by_cases hlast : 0 < k.owners ∧ d.owners k.receipt = 0
    · have hbytes : k.kept = k.bytes := if_neg (by omega)
      rw [if_pos hlast, if_pos hlast, if_pos hlast, if_pos hlast, SharedReadBudget.refund,
        Nat.mod_eq_of_lt (by omega), (h.sound.member i k hk).1]
      exact ⟨rfl, rfl⟩
    · rw [if_neg hlast, if_neg hlast, if_neg hlast, if_neg hlast, Nat.add_zero, List.append_nil]
      exact ⟨rfl, rfl⟩

/-- The accounts of a shared pool of `total` bytes in one state. -/
structure BudgetConserved (usizeMax total : Nat) (s : Sharing) : Prop where
  /-- What is available and what reservations with an owner keep is the whole capacity. -/
  conserved : s.pool.available + s.owed = s.pool.capacity ∧ s.pool.capacity = total
  /-- A reservation succeeds exactly when it is positive and available. -/
  reserves : ∀ bytes, (0 < bytes ∧ bytes ≤ s.pool.available) ↔
    ∃ pool, s.pool.reserve bytes = .ok pool
  reserved : ∀ bytes pool, s.pool.reserve bytes = .ok pool →
    pool.capacity = s.pool.capacity ∧ pool.available + bytes = s.pool.available
  unreserved : ∀ bytes err, s.pool.reserve bytes = .error err →
    (∃ msg, err = .invalidInput msg) ∧ (bytes = 0 ∨ s.pool.capacity < bytes) ∨
      (∃ msg, err = .wouldBlock msg) ∧ s.pool.available < bytes ∧ 0 < bytes ∧
        bytes ≤ s.pool.capacity
  /-- A start that is refused changes nothing. -/
  refused : ∀ cfg err s', s.probeAndStart cfg = .error err →
    step usizeMax s (.start cfg) = some s' → s' = s
  /-- A step of a driver gives back its whole reservation when it drops the last clone, and
  nothing otherwise; the counter does not wrap. -/
  exact : ∀ i e m s', s.members[i]? = some m → step usizeMax s (.member i e) = some s' →
    ∃ m' : Member, s'.members[i]? = some m' ∧
      s'.pool.available = s.pool.available +
        (if 0 < m.owners ∧ m'.owners = 0 then m.bytes else 0) ∧
      s'.refunds = s.refunds ++ (if 0 < m.owners ∧ m'.owners = 0 then [i] else [])
  /-- No receipt is refunded twice. -/
  once : s.refunds.Nodup
  /-- A receipt was refunded exactly when nothing of its driver is left. -/
  retired : ∀ i, i ∈ s.refunds ↔ ∃ m : Member, s.members[i]? = some m ∧ m.driver.Retired
  /-- A start that failed has been refunded once its shards are dropped. -/
  failed : ∀ i (m : Member), s.members[i]? = some m → m.driver.life = .gone true → i ∈ s.refunds
  /-- A start that fails while no other driver moves leaves the pool as it was. -/
  restored : ∀ cfg (es : List DriverEvent) s₁ s₂ (m : Member), s.probeAndStart cfg = .ok s₁ →
    step usizeMax s (.start cfg) = some s₁ →
    run (step usizeMax) s₁ (es.map (SharingEvent.member s.members.length)) = some s₂ →
    s₂.members[s.members.length]? = some m → m.driver.life = .gone true → s₂.pool = s.pool
  /-- The reservation of a leaked read is never refunded. -/
  leaked : ∀ i (m : Member), s.members[i]? = some m → m.driver.Leaked →
    ∀ s', Reachable (step usizeMax) anyLabel s s' → i ∉ s'.refunds

/-- Shared-budget conservation: whatever the interleaving of starts, driver steps, drops
and leaks over any number of drivers, the pool accounts exactly for the reservations that
have an owner, and refunds each of them once, when nothing of its driver is left. -/
theorem shared_budget_conserved (usizeMax total : Nat) (pool : SharedReadBudget)
    (hnew : SharedReadBudget.new total = .ok pool) (hu : total ≤ usizeMax) (s : Sharing)
    (h : Reach usizeMax pool s) : BudgetConserved usizeMax total s := by
  have hshared := Reach.shared hnew hu h
  obtain ⟨p, hp⟩ := hshared.abstract
  have hsum := hp.conserved
  have hsound := hshared.sound
  have hretired (i : Nat) : i ∈ s.refunds ↔ ∃ m : Member, s.members[i]? = some m ∧
      m.driver.Retired := by
    rw [hsound.refunded]
    exact exists_congr fun m => and_congr_right fun hm => hsound.owners_eq_zero_iff hm
  refine {
    conserved := ⟨hsum, hshared.capacity⟩
    reserves := fun bytes => ⟨fun hb => ?_, ?_⟩
    reserved := fun bytes b hb => ?_
    unreserved := fun _ _ => SharedReadBudget.reserve_error
    refused := fun cfg err s' herr hs => ?_
    exact := fun i e m s' => hshared.exact hu
    once := hsound.once
    retired := hretired
    failed := fun i m hm hl => ?_
    restored := fun cfg es s₁ s₂ m => hshared.restored hu
    leaked := fun i m hm hl s' => hshared.leaked hu hm hl }
  · exact ⟨_, SharedReadBudget.reserve_ok.mpr ⟨hb.1, by omega, hb.2, rfl⟩⟩
  · rintro ⟨b, hb⟩
    obtain ⟨hpos, _, havail, _⟩ := SharedReadBudget.reserve_ok.mp hb
    exact ⟨hpos, havail⟩
  · obtain ⟨_, _, havail, rfl⟩ := SharedReadBudget.reserve_ok.mp hb
    exact ⟨rfl, Nat.sub_add_cancel havail⟩
  · unfold step at hs
    split at hs
    · cases hs
    · simp only [herr] at hs
      split at hs <;> cases hs
      rfl
  · have hreach := (hsound.member i m hm).2.2
    exact (hretired i).mpr ⟨m, hm,
      (Driver.Reach.ended hreach).retired_of_failed (Driver.Reach.wired hreach) hl⟩

/-- A driver leaks a read, answers its deferred handle and is dropped. -/
def shutDownLeaking : List DriverEvent :=
  Driver.leakedWhileDeferred ++ [.caller 2 .poll, .caller 2 .drop, .caller 1 .drop, .retire 5,
    .closer 5, .closer 5, .closer 5, .closer 5, .closer 5, .closer 5, .closer 5, .closer 5,
    .closer 5, .join, .join, .join, .join]

/-- Of two drivers that share a pool the second fails to start and the first leaks a read;
a third start finds the pool exhausted. -/
def leakedBesideFailed : List SharingEvent :=
  [.start Driver.smallDriver, .start Driver.smallDriver, .start Driver.smallDriver,
    .member 1 (.failStart true), .member 1 .join] ++ shutDownLeaking.map (.member 0)

theorem leakedBesideFailed_runs :
    (run (step (2 ^ 64 - 1)) (init ⟨8, 8⟩) leakedBesideFailed).isSome = true := by
  decide +kernel

/-- The failed driver's bytes are back; the other driver is gone and its leaked read keeps
its reservation. -/
theorem shared_budget_conserved_leaked : ∃ s, Reach (2 ^ 64 - 1) ⟨8, 8⟩ s ∧
    s.pool.available = 4 ∧ s.refunds = [1] ∧
    (s.members.map fun m => (m.driver.life.dropped, m.owners)) = [(true, 1), (true, 0)] ∧
    BudgetConserved (2 ^ 64 - 1) 8 s := by
  have hr := reachable_get leakedBesideFailed_runs
  refine ⟨_, hr, by decide +kernel, by decide +kernel, by decide +kernel, ?_⟩
  exact shared_budget_conserved (2 ^ 64 - 1) 8 ⟨8, 8⟩ rfl (by decide) _ hr

end Sharing

end Uring
