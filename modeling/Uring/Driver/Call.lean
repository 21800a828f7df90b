import Uring.Driver.Select

/-!
# A call of `submit`

`submit` with no concurrent activity, from its validation to its signal. It is the run of the
driver in which nobody else moves. Apart from its signal, a call neither reads nor changes the
wake eventfds.
-/

namespace Uring

open Uring.Core

/-- What a call does to the thread of shard `k`: its read `id` is sent, or it is signalled. -/
inductive Effect
  | send (k id : Nat)
  | signal (k : Nat)
  deriving DecidableEq, Repr

def Effect.isSend : Effect → Bool
  | .send .. => true
  | .signal _ => false

/-- A finished call: what it returned, what it did to the threads, in order, and the driver. -/
structure Call (α : Type) where
  value : α
  effects : List Effect
  driver : Driver

/-- `wake.signal()` on behalf of the reads `ids`. -/
def Shard.signalWake (s : Shard) (ids : List Nat) : Shard :=
  { s with wake := { s.wake with
    wakeEfd := signalEfd s.wake.wakeEfd
    owing := ids.foldl List.erase s.wake.owing } }

/-- The shard without its wake eventfd and those who owe it a signal. -/
def Shard.quiet (s : Shard) : Shard :=
  { s with wake := { s.wake with wakeEfd := 0, owing := [] } }

/-- The same for a cell. -/
def Cell.quiet (c : Cell) : Cell := { c with loop := c.loop.quiet }

def View.quiet (v : View) : View := { v with loop := v.loop.quiet }

/-- The loop and the exit guard of a shard's thread. -/
def Cell.thread (c : Cell) : Shard × Closing := (c.loop, c.guard)

namespace Driver

/-- Signal the wake eventfd of shard `k` on behalf of the reads `ids`. -/
def signalWake (d : Driver) (k : Nat) (ids : List Nat) : Driver :=
  { d with cells := d.cells.modify k fun cell => { cell with loop := cell.loop.signalWake ids } }

/-- Write back the semaphores a selection leaves. -/
def withSems (d : Driver) (q : Sems) : Driver :=
  { d with
    cells := d.cells.mapIdx fun k cell => { cell with sem := q.counts[k]?.getD cell.sem }
    bytes := q.bytes }

/-- Return a handle to the caller. -/
def handOut (d : Driver) (id : Nat) (h : ReadHandle) (effects : List Effect) :
    Call (Nat × ReadHandle) :=
  ⟨(id, h), effects, d.put id (some (.holding h))⟩

/-- The fast path of `submit`: send a read that holds the permits of shard `k`. -/
def sendEager (d : Driver) (id : Nat) (req : Request) (k : Nat) (permit : ReadPermits)
    (notifyNow : Bool) : Option (Call (Nat × ReadHandle)) := do
  let permit := { permit with sharedReservation := d.reservation }
  let v ← d.view k
  match v.sendRead (req.msg id permit) with
  | none =>
    return (d.install k (v.dropPermits permit)).handOut id (inertHandle k (.error driverGone)) []
  | some v =>
    let d := d.install k v
    let h : ReadHandle := ⟨k, .submitted k, none, true⟩
    if notifyNow then return (d.signalWake k [id]).handOut id h [.send k id, .signal k]
    else return d.handOut id h [.send k id]

/-- `submit` after its selection. -/
def finishSubmit (d : Driver) (id : Nat) (req : Request) (charge : Nat) (notifyNow : Bool)
    (s : Selection) : Option (Call (Nat × ReadHandle)) :=
  let d := d.withSems s.sems
  match s.result with
  | .ok permit => d.sendEager id req s.shard permit notifyNow
  | .error .noPermits =>
    some (d.handOut id
      ⟨s.shard, .waiting ⟨req, charge, d.reservation, s.shard, .count⟩, none, true⟩ [])
  | .error .closed => some (d.handOut id (inertHandle s.shard (.error driverGone)) [])

/-- Draw an id and advance the cursor. -/
def issue (cfg : Config) (d : Driver) : Driver :=
  { d with nextId := fetchAdd d.nextId, rr := (d.rr + 1) % (cfg.params.usizeMax + 1) }

/-- `submit` with no concurrent activity; an id with the cancel bit panics. -/
def submit (cfg : Config) (d : Driver) (req : Request) (notifyNow : Bool) :
    Option (Call (Nat × ReadHandle)) :=
  let id := d.nextId
  if cancelBit ≤ id ∨ d.cells = [] then none
  else
    let start := d.rr % d.cells.length
    let d := d.issue cfg
    match validateRead cfg.params.usizeMax cfg.limits req.offset req.len req.align
        req.allowCurrentPosition with
    | .error e => some (d.handOut id (inertHandle start (.error e)) [])
    | .ok n => (d.sems.selectReadShard start (chargeOf n) req.capacityAware).bind
        (d.finishSubmit id req (chargeOf n) notifyNow)

/-- The signal that follows a submitted read. -/
def notify (c : Call (Nat × ReadHandle)) : Call (Nat × ReadHandle) :=
  if c.value.2.isSubmitted then
    ⟨c.value, c.effects ++ [.signal c.value.2.shard],
      c.driver.signalWake c.value.2.shard [c.value.1]⟩
  else c

variable {cfg : Config} {d d' : Driver} {req : Request} {id : Nat}

theorem sendEager_notify (d : Driver) (id : Nat) (req : Request) (k : Nat) (permit : ReadPermits) :
    d.sendEager id req k permit true = (d.sendEager id req k permit false).map notify := by
  unfold sendEager
  simp only
  cases d.view k with
  | none => rfl
  | some v =>
    simp only [Option.bind_eq_bind, Option.bind_some]
    cases v.sendRead (req.msg id { permit with sharedReservation := d.reservation }) with
    | none => rfl
    | some v' => rfl

/-- A call with its signal is the call without it, followed by the signal. -/
theorem submit_notify (cfg : Config) (d : Driver) (req : Request) :
    d.submit cfg req true = (d.submit cfg req false).map notify := by
  unfold submit
  simp only
  split
  · rfl
  · split
    · rfl
    · rename_i n _
      cases hs : sems _ |>.selectReadShard _ (chargeOf n) req.capacityAware with
      | none => rfl
      | some s =>
        simp only [Option.bind_some, finishSubmit]
        cases s.result with
        | ok permit => exact sendEager_notify _ _ _ _ _
        | error e => cases e <;> rfl

section Total

variable {q : Sems} {start charge : Nat}

theorem withCount_shard (q : Sems) (k : Nat) (sem : Semaphore) (charge : Nat) (tried : List Nat) :
    (q.withCount k sem charge tried).shard = k := by
  unfold Sems.withCount
  split
  · rfl
  · split <;> rfl

theorem scan_total (hstart : start < q.counts.length) {order : List Nat}
    (horder : ∀ k ∈ order, k < q.counts.length) (waiting : Option Nat)
    (hwaiting : ∀ k, waiting = some k → k < q.counts.length) (tried : List Nat) :
    ∃ s, q.scan start charge order waiting tried = some s ∧ s.shard < q.counts.length := by
  induction order generalizing waiting tried with
  | nil =>
    simp only [Sems.scan]
    split
    · exact ⟨_, rfl, hstart⟩
    · cases waiting with
      | some k => exact ⟨_, rfl, hwaiting k rfl⟩
      | none => exact ⟨_, rfl, hstart⟩
  | cons k rest ih =>
    have hk : k < q.counts.length := horder k List.mem_cons_self
    have hrest : ∀ j ∈ rest, j < q.counts.length := fun j hj => horder j (List.mem_cons_of_mem k hj)
    simp only [Sems.scan, List.getElem?_eq_getElem hk, Option.bind_eq_bind, Option.bind_some]
    split
    · refine ⟨_, rfl, ?_⟩
      rw [withCount_shard]
      exact hk
    · apply ih hrest
      intro j hj
      cases waiting with
      | some i => exact hwaiting j hj
      | none =>
        obtain rfl := Option.some.inj hj
        exact hk
    · exact ih hrest waiting hwaiting _

/-- A selection that starts at a shard returns a shard. -/
theorem selectReadShard_total (charge : Nat) (aware : Bool) (hstart : start < q.counts.length) :
    ∃ s, q.selectReadShard start charge aware = some s ∧ s.shard < q.counts.length := by
  rw [Sems.selectReadShard, List.getElem?_eq_getElem hstart]
  simp only [Option.bind_eq_bind, Option.bind_some]
  split
  · split
    · refine ⟨_, rfl, ?_⟩
      rw [withCount_shard]
      exact hstart
    · exact ⟨_, rfl, hstart⟩
  · split
    · exact ⟨_, rfl, hstart⟩
    · apply scan_total hstart
      · exact fun k => Sems.lt_of_mem_cyclic hstart
      · intro k hk
        cases hk

theorem sendEager_total {k : Nat} (hk : k < d.cells.length) (permit : ReadPermits) :
    ∃ c, d.sendEager id req k permit false = some c := by
  have hv : d.view k = some ⟨d.cells[k].loop, d.cells[k].sem, d.bytes⟩ := by
    rw [view, List.getElem?_eq_getElem hk]
    rfl
  unfold sendEager
  rw [hv]
  simp only [Option.bind_eq_bind, Option.bind_some]
  split
  · exact ⟨_, rfl⟩
  · exact ⟨_, rfl⟩

/-- A call returns while a shard exists and the ids are not used up. -/
theorem submit_total (cfg : Config) (hid : d.nextId < cancelBit) (hcells : d.cells ≠ [])
    (req : Request) : ∃ c, d.submit cfg req false = some c := by
  have hstart : d.rr % d.cells.length < (d.issue cfg).sems.counts.length := by
    rw [sems, List.length_map]
    exact Nat.mod_lt _ (List.length_pos_iff.mpr hcells)
  unfold submit
  rw [if_neg (not_or.mpr ⟨not_le.mpr hid, hcells⟩)]
  simp only
  split
  · exact ⟨_, rfl⟩
  · rename_i n _
    obtain ⟨s, hs, hshard⟩ := selectReadShard_total (chargeOf n) req.capacityAware hstart
    rw [hs, Option.bind_some]
    unfold finishSubmit
    simp only
    split
    · apply sendEager_total
      rw [withSems, List.length_mapIdx]
      rw [sems, List.length_map] at hshard
      exact hshard
    · exact ⟨_, rfl⟩
    · exact ⟨_, rfl⟩

end Total

section Quiet

/-- Everything but the wake eventfds and who owes them a signal. -/
def quiet (d : Driver) : Driver := { d with cells := d.cells.map Cell.quiet }

/-- What a call did, its driver without the wake eventfds. -/
def quietCall {α : Type} (c : Call α) : Call α := { c with driver := c.driver.quiet }

theorem quiet_quiet (d : Driver) : d.quiet.quiet = d.quiet := by
  unfold quiet
  rw [List.map_map]
  rfl

theorem quiet_sems (d : Driver) : d.quiet.sems = d.sems := by
  unfold sems quiet
  rw [List.map_map]
  rfl

theorem quiet_withSems (d : Driver) (q : Sems) : (d.withSems q).quiet = d.quiet.withSems q := by
  refine congrArg (fun cells : List Cell => { d with cells := cells, bytes := q.bytes }) ?_
  refine List.ext_getElem? fun k => ?_
  simp only [quiet, withSems, List.getElem?_map, List.getElem?_mapIdx, Option.map_map]
  rfl

theorem quiet_put (d : Driver) (id : Nat) (x : Option Caller) :
    (d.put id x).quiet = d.quiet.put id x := by
  cases x <;> rfl

theorem quiet_install (d : Driver) (k : Nat) (v : View) :
    (d.install k v).quiet = d.quiet.install k v.quiet := by
  refine congrArg (fun cells : List Cell => { d with cells := cells, bytes := v.bytes }) ?_
  apply map_modify_comm
  intro cell
  rfl

theorem quiet_view (d : Driver) (k : Nat) : d.quiet.view k = (d.view k).map View.quiet := by
  simp only [view, quiet, List.getElem?_map, Option.map_map]
  rfl

theorem quiet_signalWake (d : Driver) (k : Nat) (ids : List Nat) :
    (d.signalWake k ids).quiet = d.quiet := by
  refine congrArg (fun cells : List Cell => { d with cells := cells }) ?_
  apply map_modify_of_eq
  intro cell
  rfl

theorem quiet_handOut (d : Driver) (id : Nat) (h : ReadHandle) (effects : List Effect) :
    quietCall (d.handOut id h effects) = d.quiet.handOut id h effects := by
  simp only [quietCall, handOut, quiet_put]

theorem quiet_sendRead (v : View) (m : ReadMsg) :
    (v.quiet.sendRead m).map View.quiet = (v.sendRead m).map View.quiet := by
  simp only [View.sendRead, Shard.sendMsg, View.quiet]
  change Option.map _ (Option.map _ (if v.loop.disconnected = true ∨
      v.loop.phase.receiving = false ∨
      (∃ id ∈ readIds [.read m], id ∈ v.loop.hist.issued ∨ cancelBit ≤ id) then none
    else _)) = _
  split <;> rfl

theorem quiet_sendEager (d : Driver) (id : Nat) (req : Request) (k : Nat) (permit : ReadPermits) :
    (d.quiet.sendEager id req k permit false).map quietCall =
      (d.sendEager id req k permit false).map quietCall := by
  unfold sendEager
  simp only [quiet_view]
  cases d.view k with
  | none => rfl
  | some v =>
    have hsend := quiet_sendRead v
      (req.msg id { permit with sharedReservation := d.reservation })
    simp only [Option.map_some, Option.bind_eq_bind, Option.bind_some]
    change Option.map _ (match
        v.quiet.sendRead (req.msg id { permit with sharedReservation := d.reservation }) with
      | none => _
      | some v => _) = _
    cases hv : v.sendRead (req.msg id { permit with sharedReservation := d.reservation }) with
    | none =>
      rw [hv] at hsend
      rw [Option.map_eq_none_iff.mp hsend]
      simp only [Option.pure_def, Option.map_some, quiet_handOut, quiet_install, quiet_quiet]
      rfl
    | some v' =>
      rw [hv] at hsend
      obtain ⟨w, hw, heq⟩ := Option.map_eq_some_iff.mp hsend
      rw [hw]
      simp only [Option.pure_def, Option.map_some, quiet_handOut, quiet_install, quiet_quiet, heq,
        Bool.false_eq_true, if_false]

theorem quiet_finishSubmit (d : Driver) (id : Nat) (req : Request) (charge : Nat) (s : Selection) :
    (d.quiet.finishSubmit id req charge false s).map quietCall =
      (d.finishSubmit id req charge false s).map quietCall := by
  unfold finishSubmit
  simp only [← quiet_withSems]
  cases s.result with
  | ok permit => exact quiet_sendEager _ _ _ _ _
  | error e =>
    cases e with
    | noPermits =>
      simp only [Option.map_some, quiet_handOut, quiet_quiet]
      rfl
    | closed => simp only [Option.map_some, quiet_handOut, quiet_quiet]

/-- A call does not look at the wake eventfds. -/
theorem quiet_submit (cfg : Config) (d : Driver) (req : Request) :
    (d.quiet.submit cfg req false).map quietCall = (d.submit cfg req false).map quietCall := by
  have hempty : d.quiet.cells = [] ↔ d.cells = [] := List.map_eq_nil_iff
  have hlength : d.quiet.cells.length = d.cells.length := List.length_map _
  have hissue : d.quiet.issue cfg = (d.issue cfg).quiet := rfl
  have hnext : d.quiet.nextId = d.nextId := rfl
  have hcursor : d.quiet.rr = d.rr := rfl
  unfold submit
  simp only [hempty, hlength, hissue, hnext, hcursor, quiet_sems]
  split
  · rfl
  · split
    · simp only [Option.map_some, quiet_handOut, quiet_quiet]
    · rename_i n _
      cases (d.issue cfg).sems.selectReadShard (d.rr % d.cells.length) (chargeOf n)
          req.capacityAware with
      | none => rfl
      | some s => exact quiet_finishSubmit _ _ _ _ _

end Quiet

section Alone

/-- The call for `id` that stands at `x` has changed nothing but semaphores since `d`. -/
structure Framed (d d' : Driver) (id : Nat) (x : Caller) : Prop where
  cells : ∀ k : Nat, d'.cells[k]?.map Cell.thread = d.cells[k]?.map Cell.thread
  registry : d'.registry = d.registry
  reservation : d'.reservation = d.reservation
  nextId : d'.nextId = d.nextId
  rr : d'.rr = d.rr
  callers : d'.callers = d.callers.insert id x
  closers : d'.closers = d.closers
  life : d'.life = d.life

/-- A driver of which only semaphores changed. -/
theorem Framed.eq {x : Caller} (h : d.Framed d' id x) :
    d' = (d.withSems d'.sems).put id (some x) := by
  have hcells : d'.cells = (d.withSems d'.sems).cells := by
    refine List.ext_getElem? fun k => ?_
    have hk := h.cells k
    simp only [withSems, List.getElem?_mapIdx, sems, List.getElem?_map]
    cases hnew : d'.cells[k]? with
    | none =>
      rw [hnew] at hk
      rw [Option.map_eq_none_iff.mp hk.symm]
      rfl
    | some cell =>
      rw [hnew] at hk
      obtain ⟨old, hold, heq⟩ := Option.map_eq_some_iff.mp hk.symm
      obtain ⟨hloop, hguard⟩ := Prod.mk.inj heq
      rw [hold]
      simp only [Option.map_some, Option.getD_some, hloop, hguard]
  obtain ⟨cells, bytes, registry, reservation, nextId, rr, callers, closers, life⟩ := d'
  obtain ⟨-, rfl, rfl, rfl, rfl, rfl, rfl, rfl⟩ := h
  exact congrArg (fun cells : List Cell => { d with
    cells := cells, bytes := bytes, callers := d.callers.insert id x }) hcells

/-- An operation of a call leaves the loop alone, unless it sends. -/
theorem step_loop (c : Submit) (id : Nat) (r : Option Nat) (v : View) :
    (c.step id r v).2.loop = v.loop ∨
      ∃ h, (c.step id r v).1 = .holding h ∧ h.isSubmitted = true := by
  unfold Submit.step
  split
  · split <;> exact Or.inl rfl
  · split
    · exact Or.inl rfl
    · split
      · simp only
        split <;> exact Or.inl rfl
      · exact Or.inl rfl
  · split
    · exact Or.inl rfl
    · split <;> exact Or.inl rfl
  · exact Or.inl rfl
  · split
    · exact Or.inl rfl
    · split <;> exact Or.inl rfl
  · simp only
    split
    · exact Or.inr ⟨_, rfl, rfl⟩
    · exact Or.inl rfl

/-- A call alone changes nothing but semaphores until it has sent. -/
theorem framed_of_alone {x₀ : Caller} {d₀ : Driver} (h₀ : d.Framed d₀ id x₀)
    (h : Alone cfg id d₀ d') : ∃ x, d'.callers.lookup id = some x ∧
      (d.Framed d' id x ∨ ∃ h, x = .holding h ∧ h.isSubmitted = true) := by
  induction h with
  | start =>
    refine ⟨x₀, ?_, Or.inl h₀⟩
    rw [h₀.callers]
    exact AList.lookup_insert _
  | @next s s' e _ he hstep ih =>
    obtain ⟨x, hx, hcase⟩ := ih
    obtain rfl : e = .caller id .call := he
    cases (step_transition hstep).2 with
    | @caller _ _ _ v _ _ hx' hv hact =>
      cases hx.symm.trans hx'
      cases x with
      | holding h => cases hact
      | submitting c =>
        cases hact
        have hframed : d.Framed s id (.submitting c) := by
          rcases hcase with hframed | ⟨h, hholding, _⟩
          · exact hframed
          · cases hholding
        refine ⟨(c.step id s.reservation v).1, AList.lookup_insert _, ?_⟩
        rcases step_loop c id s.reservation v with hloop | hsent
        · refine Or.inl ⟨?_, hframed.registry, hframed.reservation, hframed.nextId, hframed.rr, ?_,
            hframed.closers, hframed.life⟩
          · intro k
            rw [← hframed.cells k]
            obtain ⟨cell, hcell, rfl⟩ := Option.map_eq_some_iff.mp hv
            change ((s.cells.modify c.shard _)[k]?).map _ = _
            rw [List.getElem?_modify]
            by_cases hk : c.shard = k
            · subst hk
              simp only [if_true]
              change Option.map _ (Option.map _ s.cells[c.shard]?) = _
              have hcell' : s.cells[c.shard]? = some cell := hcell
              rw [hcell']
              simp only [Option.map_some, hloop]
              rfl
            · simp only [if_neg hk]
              cases s.cells[k]? <;> rfl
          · change s.callers.insert id _ = _
            rw [hframed.callers, AList.insert_insert]
        · exact Or.inr hsent

/-- A selection that holds a count permit asks for the bytes, where there is a byte limit. -/
theorem withCount_permit (q : Sems) (k : Nat) (sem : Semaphore) (charge : Nat) (tried : List Nat)
    {p : ReadPermits} (h : (q.withCount k sem charge tried).result = .ok p) :
    p = ⟨1, (q.withCount k sem charge tried).sems.bytes.map fun _ => charge, none⟩ := by
  unfold Sems.withCount at h ⊢
  split at h
  · cases h
    rfl
  · split at h
    · cases h
      simp only [Option.map_some]
    · cases h

theorem scan_permit {q : Sems} {start charge : Nat} {order : List Nat} {waiting : Option Nat}
    {tried : List Nat} {s : Selection} (h : q.scan start charge order waiting tried = some s)
    {p : ReadPermits} (hp : s.result = .ok p) :
    p = ⟨1, s.sems.bytes.map fun _ => charge, none⟩ := by
  induction order generalizing waiting tried with
  | nil =>
    simp only [Sems.scan] at h
    split at h
    · cases h
      cases hp
    · split at h
      all_goals
        cases h
        cases hp
  | cons k rest ih =>
    simp only [Sems.scan, Option.bind_eq_bind, Option.bind_eq_some_iff] at h
    obtain ⟨sem, _, h⟩ := h
    split at h
    · cases h
      exact withCount_permit _ _ _ _ _ hp
    · exact ih h
    · exact ih h

/-- A selection grants one count permit, and the bytes where there is a byte limit. -/
theorem selected_permit {q : Sems} {start charge : Nat} {aware : Bool} {s : Selection}
    (h : q.selectReadShard start charge aware = some s) {p : ReadPermits}
    (hp : s.result = .ok p) : p = ⟨1, s.sems.bytes.map fun _ => charge, none⟩ := by
  simp only [Sems.selectReadShard, Option.bind_eq_bind, Option.bind_eq_some_iff] at h
  obtain ⟨first, _, h⟩ := h
  split at h
  · split at h
    · cases h
      exact withCount_permit _ _ _ _ _ hp
    · cases h
      cases hp
  · split at h
    · cases h
      cases hp
    · exact scan_permit h hp

/-- What leaves the phase of a loop alone ends no process. -/
theorem aborted_install {k : Nat} {v v' : View} (hv : d.view k = some v)
    (hphase : v'.loop.phase = v.loop.phase) (h : d.aborted = false) :
    (d.install k v').aborted = false := by
  obtain ⟨cell, hcell, rfl⟩ := Option.map_eq_some_iff.mp hv
  simp only [aborted, List.any_eq_false, decide_eq_true_eq] at h ⊢
  intro a ha
  rcases mem_modify_cases ha with ⟨a, _, rfl⟩ | ha
  · rw [hphase]
    exact h cell (List.mem_of_getElem? hcell)
  · exact h a ha

/-- A producer's signal is one step of its shard. -/
theorem signal_step {k : Nat} {v : View} (hlive : d.aborted = false) (hv : d.view k = some v) :
    step cfg d (.turn k (.signal id)) = some (d.signalWake k [id]) := by
  obtain ⟨cell, hcell, rfl⟩ := Option.map_eq_some_iff.mp hv
  have hphase : cell.loop.phase ≠ .aborted := by
    simp only [aborted, List.any_eq_false, decide_eq_true_eq] at hlive
    exact hlive cell (List.mem_of_getElem? hcell)
  have hturn : View.turn cfg.params ⟨cell.loop, cell.sem, d.bytes⟩ (.signal id) =
      some ⟨cell.loop.signalWake [id], cell.sem, d.bytes⟩ := by
    simp only [View.turn, Shard.step, if_neg hphase, Option.bind_eq_bind, Option.bind_some]
    change some (List.foldl _ _ (cell.loop.hist.released.drop _)) = _
    rw [List.drop_length]
    rfl
  have hlive' : ¬ d.aborted = true := Bool.eq_false_iff.mp hlive
  simp only [step, if_neg hlive', Event.ofThread, if_true, hv, Option.bind_eq_bind,
    Option.bind_some, hturn]
  refine congrArg (fun cells : List Cell => some { d with cells := cells }) ?_
  refine List.ext_getElem? fun j => ?_
  rw [List.getElem?_modify, List.getElem?_modify]
  by_cases hj : k = j
  · subst hj
    rw [hcell]
    rfl
  · simp only [if_neg hj]

/-- The driver after a call was issued and its selection made. -/
theorem alone_withSems {x x' : Caller} {q : Sems} (h : Alone cfg id (d.put id (some x)) d')
    (hl : d'.Looks id x' d.reservation q) (hx : ∀ h, x' = .holding h → h.isSubmitted = false) :
    d' = (d.withSems q).put id (some x') := by
  have hstart : d.Framed (d.put id (some x)) id x :=
    ⟨fun _ => rfl, rfl, rfl, rfl, rfl, rfl, rfl, rfl⟩
  obtain ⟨y, hy, hframed⟩ := framed_of_alone hstart h
  obtain rfl : x' = y := Option.some.inj (hl.caller.symm.trans hy)
  rcases hframed with hframed | ⟨h, rfl, hsent⟩
  · rw [← hl.sems]
    exact hframed.eq
  · rw [hx h rfl] at hsent
    cases hsent

/-- The last operations of a call that holds its permits: the send and the signal. -/
theorem sendEager_run {x : Submit} {permit : ReadPermits} {k : Nat} {c : Call (Nat × ReadHandle)}
    (hpc : x.pc = .send k) (hpermit : permit = ⟨1, d.bytes.map fun _ => x.charge, none⟩)
    (hlive : d.aborted = false) (h : d.sendEager id x.req k permit true = some c) :
    Reachable (step cfg) anyLabel (d.put id (some (.submitting x))) c.driver := by
  unfold sendEager at h
  simp only at h
  obtain ⟨v, hv, h⟩ := Option.bind_eq_some_iff.mp h
  have hbytes : v.bytes = d.bytes := by
    obtain ⟨cell, _, rfl⟩ := Option.map_eq_some_iff.mp hv
    rfl
  have hpermit' : ({ permit with sharedReservation := d.reservation } : ReadPermits) =
      v.permitsFor x.charge d.reservation := by
    rw [hpermit, View.permitsFor, hbytes]
  rw [hpermit'] at h
  have hlive' : ¬ (d.put id (some (.submitting x))).aborted = true := Bool.eq_false_iff.mp hlive
  have hcall (y : Caller) (v' : View) (hstep : x.step id d.reservation v = (y, v')) :
      step cfg (d.put id (some (.submitting x))) (.caller id .call) =
        some ((d.install k v').put id (some y)) := by
    have hlookup : (d.put id (some (.submitting x))).callers.lookup id = some (.submitting x) :=
      AList.lookup_insert _
    have hshard : (Caller.submitting x).shard = k := by
      simp only [Caller.shard, Submit.shard, hpc]
    have hview : (d.put id (some (.submitting x))).view k = some v := hv
    simp only [step, if_neg hlive', hlookup, Option.bind_eq_bind, Option.bind_some, hshard, hview,
      Caller.act]
    change some (((d.put id (some (.submitting x))).install k (x.step id d.reservation v).2).put id
      (some (x.step id d.reservation v).1)) = _
    rw [hstep]
    refine congrArg
      (fun callers : Table Caller => some { d.install k v' with callers := callers }) ?_
    exact AList.insert_insert _
  split at h
  · rename_i hsend
    cases h
    refine Reachable.next .start trivial (hcall _ _ ?_)
    simp only [Submit.step, hpc, hsend]
  · rename_i v' hsend
    cases h
    have hsent : Reachable (step cfg) anyLabel (d.put id (some (.submitting x)))
        ((d.install k v').put id (some (.holding ⟨k, .submitted k, none, true⟩))) := by
      refine Reachable.next .start trivial (hcall _ _ ?_)
      simp only [Submit.step, hpc, hsend]
    have hphase : v'.loop.phase = v.loop.phase := by
      obtain ⟨loop, hloop, rfl⟩ := Option.map_eq_some_iff.mp hsend
      simp only [Shard.sendMsg] at hloop
      split at hloop
      · cases hloop
      · cases hloop
        rfl
    have hview : (d.install k v').view k = some v' := by
      obtain ⟨cell, hcell, rfl⟩ := Option.map_eq_some_iff.mp hv
      simp only [view, install, List.getElem?_modify, if_true, hcell]
      rfl
    refine hsent.next trivial (e := .turn k (.signal id)) ?_
    exact signal_step (aborted_install hv hphase hlive) hview

/-- What follows the validation of a call is a run of the driver in which nobody else moves. -/
theorem finishSubmit_run {x : Submit} {charge start : Nat} {s : Selection}
    {c : Call (Nat × ReadHandle)} (hx : x = ⟨req, charge, start, d.firstPc req start⟩)
    (hlive : d.aborted = false) (hstart : start < d.cells.length)
    (hs : d.sems.selectReadShard start charge req.capacityAware = some s)
    (h : d.finishSubmit id req charge true s = some c) :
    Reachable (step cfg) anyLabel (d.put id (some (.submitting x))) c.driver := by
  have hlooks : Looks (d.put id (some (.submitting x))) id (.submitting x) d.reservation d.sems :=
    ⟨hlive, AList.lookup_insert _, rfl, rfl⟩
  obtain ⟨d₂, halone, hl⟩ : ∃ d₂, Alone cfg id (d.put id (some (.submitting x))) d₂ ∧
      d₂.Looks id (afterSelection x d.reservation s) d.reservation s.sems := by
    subst hx
    exact alone_selects hstart hlooks hs
  have hselected : Reachable (step cfg) anyLabel (d.put id (some (.submitting x))) d₂ :=
    halone.mono fun _ _ _ => trivial
  subst hx
  unfold finishSubmit at h
  simp only at h
  unfold afterSelection at hl
  cases hresult : s.result with
  | ok permit =>
    rw [hresult] at h hl
    have hd₂ := alone_withSems halone hl nofun
    subst hd₂
    exact hselected.trans (sendEager_run rfl (selected_permit hs hresult) hl.live h)
  | error e =>
    rw [hresult] at h hl
    have hd₂ := alone_withSems halone hl (by
      intro handle hholding
      cases hholding
      cases e <;> rfl)
    subst hd₂
    cases e with
    | noPermits =>
      cases h
      exact hselected
    | closed =>
      cases h
      exact hselected

/-- A call of `submit` is a run of the driver in which nobody else moves. -/
theorem submit_run {c : Call (Nat × ReadHandle)} (hlive : d.aborted = false)
    (hrunning : d.life = .running) (h : d.submit cfg req true = some c) :
    Reachable (step cfg) anyLabel d c.driver := by
  unfold submit at h
  simp only at h
  split at h
  · cases h
  · rename_i hcond
    have hlt : ¬ cancelBit ≤ d.nextId := fun hge => hcond (Or.inl hge)
    have hcells : 0 < d.cells.length := List.length_pos_of_ne_nil fun hnil => hcond (Or.inr hnil)
    have hlive' : ¬ d.aborted = true := Bool.eq_false_iff.mp hlive
    have hbegin : step cfg d (.submit req) = d.beginSubmit cfg req := by
      rw [step, if_neg hlive']
      exact if_pos hrunning
    split at h
    · rename_i e he
      cases h
      refine Reachable.next .start trivial (hbegin.trans ?_)
      simp only [beginSubmit, if_neg hlt, he]
      rfl
    · rename_i n hn
      obtain ⟨s, hs, h⟩ := Option.bind_eq_some_iff.mp h
      have hissued : step cfg d (.submit req) = some ((d.issue cfg).put d.nextId
          (some (.submitting ⟨req, chargeOf n, d.rr % d.cells.length,
            (d.issue cfg).firstPc req (d.rr % d.cells.length)⟩))) := by
        rw [hbegin]
        simp only [beginSubmit, if_neg hlt, hn]
        rfl
      refine (Reachable.next .start trivial hissued).trans ?_
      exact finishSubmit_run rfl hlive (Nat.mod_lt _ hcells) hs h

end Alone

end Driver

end Uring
