import Uring.Driver.Wiring

/-!
# Callers are bound to their shard

A running `submit` scans only existing shards. A handle waits for bytes only under a
byte limit, and an unanswered submitted handle has its read in the history of the
shard it is bound to. Ids of sent reads are ids already given out.
-/

namespace Uring

open Uring.Core Caller

/-- The shards a running `submit` may still touch exist. -/
def Submit.InRange (n : Nat) (s : Submit) : Prop :=
  s.start < n ∧
    match s.pc with
    | .checkBytes rest => ∀ j ∈ rest, j < n
    | .tryCount k rest waiting => k < n ∧ (∀ j ∈ rest, j < n) ∧ ∀ j, waiting = some j → j < n
    | .tryBytes k | .dropCount k _ | .send k => k < n
    | .recheckBytes waiting => ∀ j, waiting = some j → j < n

/-- A sent read is in its shard's history. -/
theorem View.mem_sendRead {v v' : View} {req : Request} {id : Nat} {p : ReadPermits}
    (h : v.sendRead (req.msg id p) = some v') : ∃ m ∈ v'.loop.hist.requests, m.id = id := by
  refine ⟨req.msg id p, ?_, rfl⟩
  rw [(View.sendRead_eq_some h).2.2.2.2.1]
  exact List.mem_append_right _ (List.mem_singleton_self _)

theorem Submit.InRange.shard_lt {n : Nat} {s : Submit} (h : s.InRange n) : s.shard < n := by
  obtain ⟨hstart, hpc⟩ := h
  unfold Submit.shard
  cases hp : s.pc <;> rw [hp] at hpc
  case checkBytes | recheckBytes => exact hstart
  case tryCount => exact hpc.1
  all_goals exact hpc

/-- What holds of a caller on a driver with `n` shards; `sent k` says that its read was
sent to shard `k`. -/
structure Caller.Bound (n : Nat) (limited : Bool) (sent : Nat → Prop) (x : Caller) : Prop where
  submit : ∀ s, x = .submitting s → s.InRange n
  handle : ∀ h, x = .holding h → h.shard < n
  staged : ∀ h w p, x = .holding h → h.state = .waiting w → w.stage = .bytes p → limited = true
  submitted : ∀ h, x = .holding h → h.isSubmitted = true → h.finished = none → sent h.shard

namespace Caller

variable {n : Nat} {limited : Bool} {sent : Nat → Prop}

theorem Bound.shard_lt {x : Caller} (h : x.Bound n limited sent) : x.shard < n := by
  cases x with
  | submitting s => exact (h.submit s rfl).shard_lt
  | holding hd => exact h.handle hd rfl

theorem bound_submitting {s : Submit} (h : s.InRange n) :
    (submitting s).Bound n limited sent where
  submit := by
    intro s' hs
    rw [← Caller.submitting.inj hs]
    exact h
  handle := fun _ hh => nomatch hh
  staged := fun _ _ _ hh => nomatch hh
  submitted := fun _ hh => nomatch hh

theorem bound_goto {s : Submit} {pc : SubmitPc} (h : ({ s with pc := pc } : Submit).InRange n) :
    (s.goto pc).Bound n limited sent :=
  bound_submitting h

theorem bound_inert {k : Nat} (hk : k < n) (value : IoResult) :
    (holding (inertHandle k value)).Bound n limited sent where
  submit := nofun
  handle := by
    rintro h hh
    cases hh
    exact hk
  staged := by
    rintro h w p hh hs
    cases hh
    cases hs
  submitted := by
    rintro h hh hs
    cases hh
    cases hs

theorem bound_refused {k : Nat} (hk : k < n) (s : Submit) (r : Option Nat) (e : TryAcquireError) :
    (holding (s.refused r k e)).Bound n limited sent := by
  cases e with
  | closed => exact bound_inert hk _
  | noPermits =>
    refine ⟨nofun, ?_, ?_, ?_⟩
    · rintro h hh
      cases hh
      exact hk
    · rintro h w p hh hs hw
      cases hh
      cases hs
      cases hw
    · rintro h hh hs
      cases hh
      cases hs

/-- Every operation of `submit` stays on existing shards. -/
theorem bound_step {s : Submit} (hs : s.InRange n) (id : Nat) (r : Option Nat) {v : View}
    (hsent : (∃ m ∈ (s.step id r v).2.loop.hist.requests, m.id = id) → sent s.shard) :
    (s.step id r v).1.Bound n limited sent := by
  obtain ⟨hstart, hpc⟩ := hs
  unfold Submit.step at hsent ⊢
  split
  · rename_i rest hp
    rw [hp] at hpc
    split
    · exact bound_refused hstart s r _
    · exact bound_goto ⟨hstart, hstart, hpc, nofun⟩
  · rename_i k rest waiting hp
    rw [hp] at hpc
    obtain ⟨hk, hrest, hwait⟩ := hpc
    split
    · refine bound_goto ⟨hstart, ?_⟩
      cases v.bytes <;> exact hk
    · rename_i e he
      split
      · have hnext :
            ∀ j, (if e = .noPermits then waiting.or (some k) else waiting) = some j → j < n := by
          intro j hj
          split at hj
          · cases hw : waiting with
            | none =>
              rw [hw] at hj
              cases hj
              exact hk
            | some i =>
              rw [hw] at hj
              cases hj
              exact hwait j hw
          · exact hwait j hj
        simp only
        split
        · exact bound_goto ⟨hstart, hnext⟩
        · rename_i j rest
          exact bound_goto ⟨hstart, hrest j List.mem_cons_self,
            fun i hi => hrest i (List.mem_cons_of_mem _ hi), hnext⟩
      · exact bound_refused hk s r e
  · rename_i k hp
    rw [hp] at hpc
    split
    · exact bound_goto ⟨hstart, hpc⟩
    · split <;> exact bound_goto ⟨hstart, hpc⟩
  · rename_i k e hp
    rw [hp] at hpc
    exact bound_refused hpc s r e
  · rename_i waiting hp
    rw [hp] at hpc
    split
    · exact bound_refused hstart s r _
    · split
      · rename_i k
        exact bound_refused (hpc k rfl) s r _
      · exact bound_refused hstart s r _
  · rename_i k hp
    rw [hp] at hpc
    simp only
    split
    · rename_i v' hv
      refine ⟨nofun, ?_, ?_, ?_⟩
      · rintro h hh
        cases hh
        exact hpc
      · rintro h w p hh hs
        cases hh
        cases hs
      · rintro h hh _ _
        cases hh
        have hshard : s.shard = k := by simp only [Submit.shard, hp]
        simp only [hp, hv, hshard] at hsent
        exact hsent (View.mem_sendRead hv)
    · exact bound_inert hpc _

/-- A handle with the same shard whose state adds no obligation. -/
theorem bound_holding {h : ReadHandle} (hk : h.shard < n)
    (hstage : ∀ w p, h.state = .waiting w → w.stage = .bytes p → limited = true)
    (hsub : h.isSubmitted = true → h.finished = none → sent h.shard) :
    (holding h).Bound n limited sent where
  submit := fun _ hs => nomatch hs
  handle := by
    intro h' hh
    rw [← Caller.holding.inj hh]
    exact hk
  staged := by
    intro h' w p hh hs hw
    rw [← Caller.holding.inj hh] at hs
    exact hstage w p hs hw
  submitted := by
    intro h' hh hs hf
    rw [← Caller.holding.inj hh] at hs hf ⊢
    exact hsub hs hf

/-- Every operation of a poll stays on the handle's shard. -/
theorem bound_poll {h : ReadHandle} {id : Nat} {v : View}
    (hh : (holding h).Bound n v.bytes.isSome sent)
    (hsent : (∃ m ∈ (h.poll id v).2.loop.hist.requests, m.id = id) → sent h.shard) :
    (holding (h.poll id v).1).Bound n v.bytes.isSome sent := by
  have hk := hh.handle h rfl
  have hstage (w : Waiting) (p : Bool) (hs : h.state = .waiting w) (hw : w.stage = .bytes p) :=
    hh.staged h w p rfl hs hw
  have hdone (r : IoResult) : (holding (h.finish r)).Bound n v.bytes.isSome sent :=
    bound_holding hk hstage fun _ hf => nomatch hf
  have hawait (w : Waiting) (stage : Stage) (hst : ∀ p, stage = .bytes p → v.bytes.isSome = true) :
      (holding (h.await w stage)).Bound n v.bytes.isSome sent := by
    refine bound_holding hk (fun w' p hs hw => hst p ?_) fun hs => nomatch hs
    cases hs
    exact hw
  unfold ReadHandle.poll at hsent ⊢
  split
  · exact hdone _
  · split
    · exact hh
    · exact hdone _
    · exact hdone _
  · rename_i w hs
    split
    · split
      · exact hh
      · exact hdone _
      · refine hawait w _ fun p hp => ?_
        cases hb : v.bytes with
        | none =>
          rw [hb] at hp
          cases hp
        | some b => rfl
    · split
      · exact hawait w _ nofun
      · rename_i b hb
        split
        · exact hawait w _ fun _ _ => by rw [hb]; rfl
        · exact hdone _
        · exact hawait w _ nofun
    · simp only
      split
      · rename_i hw _ v' hv
        simp only [hs, hw, hv] at hsent
        exact bound_holding hk (fun _ _ hw => nomatch hw) fun _ _ => hsent (View.mem_sendRead hv)
      · exact bound_holding hk (fun _ _ hw => nomatch hw) fun _ hf => nomatch hf

/-- Every operation of a caller keeps it bound. -/
theorem bound_act {x : Caller} {y : Option Caller} {e : CallerEvent} {id : Nat} {r : Option Nat}
    {v v' : View} (hx : x.Bound n v.bytes.isSome sent)
    (h : x.act e id r v = some (y, v'))
    (hsent : (∃ m ∈ v'.loop.hist.requests, m.id = id) → sent x.shard)
    {x' : Caller} (hy : y = some x') :
    x'.Bound n v.bytes.isSome sent := by
  unfold Caller.act at h
  split at h
  · rename_i s
    cases h
    rw [← Option.some.inj hy]
    exact bound_step (hx.submit s rfl) id r hsent
  · rename_i hd
    split at h
    · cases h
    · cases h
      rw [← Option.some.inj hy]
      exact bound_poll hx hsent
  · rename_i hd
    split at h
    · cases h
    · cases h
      rw [← Option.some.inj hy]
      exact bound_holding (hx.handle hd rfl) (fun w p => hx.staged hd w p rfl)
        (hx.submitted hd rfl)
  · split at h
    · cases h
    · cases h
      cases hy
  · cases h

theorem Bound.mono {x : Caller} {sent' : Nat → Prop} (h : x.Bound n limited sent)
    (hs : ∀ k, sent k → sent' k) : x.Bound n limited sent' :=
  ⟨h.submit, h.handle, h.staged, fun hd hh hst hf => hs _ (h.submitted hd hh hst hf)⟩

end Caller

namespace Driver

/-- The read `id` was sent to shard `k`. -/
def Sent (d : Driver) (id k : Nat) : Prop :=
  ∃ cell, d.cells[k]? = some cell ∧ ∃ m ∈ cell.loop.hist.requests, m.id = id

/-- Every caller is bound, sent ids were given out, and a running driver has its shards. -/
structure AllBound (cfg : Config) (d : Driver) : Prop where
  callers : d.callers.All fun id x => x.Bound d.cells.length d.bytes.isSome (d.Sent id)
  sent_lt : ∀ cell ∈ d.cells, ∀ m ∈ cell.loop.hist.requests, m.id < d.nextId
  shards : d.life = .running → d.cells.length = cfg.shardCount

/-- The row of shards grows only while the driver is starting. -/
theorem length_install (d : Driver) (k : Nat) (v : View) :
    (d.install k v).cells.length = d.cells.length :=
  List.length_modify _ _ _

/-- Installing a view that sent no less keeps what was sent. -/
theorem sent_install {d : Driver} {k : Nat} {v v' : View} (hv : d.view k = some v)
    (hreq : v.loop.hist.requests ⊆ v'.loop.hist.requests) {id j : Nat} (h : d.Sent id j) :
    (d.install k v').Sent id j := by
  obtain ⟨cell, hcell, m, hm, hid⟩ := h
  by_cases hj : k = j
  · subst hj
    obtain ⟨a, ha, rfl⟩ := view_eq_some hv
    obtain rfl : a = cell := Option.some.inj (ha.symm.trans hcell)
    refine ⟨{ a with loop := v'.loop, sem := v'.sem }, ?_, m, hreq hm, hid⟩
    simp only [install, List.getElem?_modify, hcell, Option.map_eq_map, Option.map_some, if_true]
  · refine ⟨cell, ?_, m, hm, hid⟩
    simp only [install, List.getElem?_modify, hcell, Option.map_eq_map, Option.map_some, if_neg hj]

theorem sent_put (d : Driver) (id : Nat) (y : Option Caller) : (d.put id y).Sent = d.Sent := by
  cases y <;> rfl

namespace AllBound

variable {cfg : Config} {r : Option Nat}

theorem init : (Driver.init cfg r).AllBound cfg :=
  ⟨AList.all_empty, fun _ h => (List.not_mem_nil h).elim, fun h => nomatch h⟩

theorem kept {d d' : Driver} (h : d.AllBound cfg) (hk : d.Kept cfg.params d')
    (hl : d.LifeStep cfg d'.life) : d'.AllBound cfg := by
  refine ⟨?_, fun b hb m hm => ?_, fun hrun => ?_⟩
  · rw [hk.callers, ← hk.cells.length_eq, hk.bytes.isSome]
    intro id x hx
    refine (h.callers id x hx).mono fun k hsent => ?_
    obtain ⟨cell, hcell, m, hm, hid⟩ := hsent
    obtain ⟨hlt, rfl⟩ := List.getElem?_eq_some_iff.mp hcell
    have hlt' : k < d'.cells.length := hk.cells.length_eq ▸ hlt
    obtain ⟨a, ha, hab⟩ := forall₂_getElem? hk.cells (List.getElem?_eq_getElem hlt')
    obtain rfl : a = d.cells[k] := Option.some.inj (ha.symm.trans hcell)
    exact ⟨_, List.getElem?_eq_getElem hlt', m, hab.requests ▸ hm, hid⟩
  · obtain ⟨k, hb⟩ := List.mem_iff_getElem?.mp hb
    obtain ⟨a, ha, hab⟩ := forall₂_getElem? hk.cells hb
    rw [hk.nextId]
    exact h.sent_lt a (List.mem_of_getElem? ha) m (hab.requests ▸ hm)
  · rw [← hk.cells.length_eq]
    rcases hl with hl | ⟨_, hl⟩
    · exact h.shards (hl.symm.trans hrun)
    · exact hl hrun

/-- A caller's shard exists. -/
theorem view_of_lookup {d : Driver} (h : d.AllBound cfg) {id : Nat} {x : Caller}
    (hx : d.callers.lookup id = some x) : ∃ v, d.view x.shard = some v := by
  have hlt := (h.callers id x hx).shard_lt
  rw [view, List.getElem?_eq_getElem hlt]
  exact ⟨_, rfl⟩

theorem start {d : Driver} (h : d.AllBound cfg) (hw : d.Wired cfg r) (hl : d.life = .starting) :
    (d.startShard cfg).AllBound cfg := by
  refine ⟨?_, fun cell hcell m hm => ?_, fun hs => ?_⟩
  · have hnone : (d.startShard cfg).callers = ∅ := hw.starting hl
    rw [hnone]
    exact AList.all_empty
  · rcases List.mem_append.mp hcell with hold | hnew
    · exact h.sent_lt cell hold m hm
    · rw [List.mem_singleton.mp hnew] at hm
      cases hm
  · have : (d.startShard cfg).life = .starting := hl
    rw [this] at hs
    cases hs

/-- The shards a new `submit` scans exist. -/
theorem firstPc_inRange {d : Driver} {req : Request} {start charge : Nat}
    (hs : start < d.cells.length) :
    (⟨req, charge, start, d.firstPc req start⟩ : Submit).InRange d.cells.length := by
  refine ⟨hs, ?_⟩
  by_cases hc : req.capacityAware = true
  · simp only [firstPc, hc, if_true]
    intro j hj
    have hj := List.mem_of_mem_tail hj
    rcases List.mem_append.mp hj with hj | hj
    · have := List.mem_range'_1.mp hj
      omega
    · have := List.mem_range.mp hj
      omega
  · simp only [firstPc, hc]
    exact ⟨hs, fun j hj => (List.not_mem_nil hj).elim, nofun⟩

theorem submit {d : Driver} (h : d.AllBound cfg) {req : Request} {x : Caller} {n : Nat}
    (hl : d.life = .running) (hid : d.nextId < cancelBit) (hx : Begun cfg d req x) :
    ({ d with nextId := fetchAdd d.nextId, rr := n,
              callers := d.callers.insert d.nextId x } : Driver).AllBound cfg := by
  have hnext : fetchAdd d.nextId = d.nextId + 1 :=
    fetchAdd_of_lt (by unfold cancelBit at hid; omega)
  have hpos : 0 < d.cells.length := by
    rw [h.shards hl, Config.shardCount]
    omega
  have hstart := Nat.mod_lt d.rr hpos
  refine ⟨AList.All.insert h.callers ?_, fun cell hcell m hm => ?_, h.shards⟩
  · cases hx with
    | invalid he => exact bound_inert hstart _
    | valid hn => exact bound_submitting (firstPc_inRange hstart)
  · rw [hnext]
    exact Nat.lt_succ_of_lt (h.sent_lt cell hcell m hm)

theorem caller {d : Driver} (h : d.AllBound cfg) (hw : d.Wired cfg r) {id : Nat} {e : CallerEvent}
    {x : Caller} {y : Option Caller} {v v' : View} (hx : d.callers.lookup id = some x)
    (hv : d.view x.shard = some v) (ha : x.act e id d.reservation v = some (y, v')) :
    ((d.install x.shard v').put id y).AllBound cfg := by
  have hact := Caller.act_cases (c := cfg.params) ha
  obtain ⟨cell, hcell, heq⟩ := view_eq_some hv
  have hbytes : v.bytes = d.bytes := by rw [heq]
  have hsub : v.loop.hist.requests ⊆ v'.loop.hist.requests := by
    rcases hact.requests with hreq | ⟨req, charge, res, _, hreq⟩
    · exact hreq ▸ List.Subset.refl _
    · exact hreq ▸ List.subset_append_left _ _
  have hmono (j k : Nat) (hs : d.Sent j k) : ((d.install x.shard v').put id y).Sent j k := by
    rw [sent_put]
    exact sent_install hv hsub hs
  refine ⟨?_, ?_, ?_⟩
  · rw [put_cells, put_bytes, length_install]
    have hsome : (d.install x.shard v').bytes.isSome = d.bytes.isSome :=
      hbytes ▸ hact.isSome_bytes
    rw [hsome]
    refine all_put (d := d.install x.shard v')
      (fun j z hz => (h.callers j z hz).mono (hmono j)) fun x' hy => ?_
    have hbound := (h.callers id x hx).mono (hmono id)
    rw [← hbytes] at hbound ⊢
    refine bound_act hbound ha (fun hm => ?_) hy
    rw [sent_put]
    refine ⟨{ cell with loop := v'.loop, sem := v'.sem }, ?_, hm⟩
    simp only [install, List.getElem?_modify, hcell, Option.map_eq_map, Option.map_some, if_true]
  · rw [put_cells, put_nextId]
    refine Wired.mem_install hv (P := fun s => ∀ m ∈ s.hist.requests, m.id < d.nextId) h.sent_lt
      fun hold m hm => ?_
    rcases hact.requests with hreq | ⟨req, charge, res, _, hreq⟩
    · exact hold m (hreq ▸ hm)
    · rw [hreq] at hm
      rcases List.mem_append.mp hm with hm | hm
      · exact hold m hm
      · rw [List.mem_singleton.mp hm]
        exact hw.known id x hx
  · rw [put_life, put_cells, length_install]
    exact h.shards

theorem turn {d : Driver} (h : d.AllBound cfg) (hw : d.Wired cfg r) {k : Nat} {e : Event}
    {v v' : View} (hv : d.view k = some v) (he : e.ofThread = true)
    (ht : v.turn cfg.params e = some v') : (d.install k v').AllBound cfg := by
  obtain ⟨freed, hturn⟩ := hw.turn_cases hv he ht
  have hsome : (d.install k v').bytes.isSome = d.bytes.isSome :=
    (hw.turn hv he ht).limited.trans hw.limited.symm
  refine ⟨?_, ?_, ?_⟩
  · rw [length_install, hsome]
    intro id x hx
    exact (h.callers id x hx).mono fun j => sent_install hv (hturn.requests ▸ List.Subset.refl _)
  · refine Wired.mem_install hv (P := fun s => ∀ m ∈ s.hist.requests, m.id < d.nextId) h.sent_lt
      fun hold m hm => hold m ?_
    rw [← hturn.requests]
    exact hm
  · rw [length_install]
    exact h.shards

theorem move {d d' : Driver} {e : DriverEvent} (h : d.AllBound cfg) (hw : d.Wired cfg r)
    (hm : Move cfg d e d') : d'.AllBound cfg := by
  cases hm with
  | kept _ hk hl => exact h.kept hk hl
  | start hl => exact h.start hw hl
  | submit hl hid hx => exact h.submit hl hid hx
  | caller hx hv ha => exact h.caller hw hx hv ha
  | turn hv he ht => exact h.turn hw hv he ht

end AllBound

theorem Reach.allBound {cfg : Config} {r : Option Nat} {d : Driver} (h : Reach cfg r d) :
    d.AllBound cfg :=
  h.invariant .init fun _ _ _ hr hi _ hs => hi.move (Reach.wired hr) (step_move hs)

end Driver

end Uring
