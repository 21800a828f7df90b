import Uring.Driver.Batch
import Uring.Driver.Protocol

/-!
# A driver's run as runs of its loops

Each loop of a driver makes a run of its own: its thread's labels are the driver's, and
every other label is a send, a closed receiver or a join by somebody outside the thread.
What holds of every run of a loop under a condition on its labels therefore holds of
every loop of a driver whose turns and requests meet the condition.
-/

namespace Uring

open Uring.Core Caller

/-- The requests that the public functions give to `submit`. -/
inductive Request.Public : Request → Prop
  /-- `read_at` and `read_at_batch`. -/
  | readAt (q : ReadRequest) (policy : ShardPolicy) : Public (q.request policy)
  /-- `read_current`. -/
  | readCurrent (file len : Nat) (policy : ShardPolicy) :
      Public ⟨file, currentPosition, len, 1, true, policy⟩
  /-- `read_at_direct`. -/
  | readAtDirect (file offset len align : Nat) (policy : ShardPolicy) :
      Public ⟨file, offset, len, align, false, policy⟩

/-- Labels that come from outside the thread of a loop; the reads they send satisfy `p`. -/
def Outside (p : ReadMsg → Prop) (_ : Shard) (e : Event) : Prop :=
  e.ofThread = false ∧ ∀ k m, e = .send k (.read m) → p m

/-- What others did to a loop between two of its own steps. -/
abbrev Shard.Prompted (c : Params) (p : ReadMsg → Prop) (s s' : Shard) : Prop :=
  Reachable (Shard.step c) (Outside p) s s'

namespace Shard

variable {c : Params} {p : ReadMsg → Prop} {s s' : Shard}

theorem prompted_sendMsg (ha : s.phase ≠ .aborted) {id : Nat} {m : Msg}
    (hm : ∀ r, m = .read r → p r) (h : s.sendMsg id m = some s') : s.Prompted c p s' := by
  refine .next (e := .send id m) .start ⟨rfl, ?_⟩ ?_
  · rintro k r ⟨⟩
    exact hm r rfl
  · unfold Shard.step
    rw [if_neg ha]
    exact h

theorem prompted_closeRx (ha : s.phase ≠ .aborted) (id : Nat) :
    s.Prompted c p { s with mail := s.mail.close id } := by
  refine .next (e := .closeRx id) .start ⟨rfl, nofun⟩ ?_
  unfold Shard.step
  rw [if_neg ha]

/-- A message other than a read, ignored where the receiver is gone. -/
theorem prompted_getD (ha : s.phase ≠ .aborted) {id : Nat} {m : Msg} (hm : ∀ r, m ≠ .read r) :
    s.Prompted c p ((s.sendMsg id m).getD s) := by
  cases hs : s.sendMsg id m with
  | none => exact .start
  | some s' => exact prompted_sendMsg ha (fun r hr => absurd hr (hm r)) hs

/-- A join that the shard takes, or has already taken. -/
theorem prompted_join (k : Nat) : s.Prompted c p ((s.step c (.join k)).getD s) := by
  cases hs : s.step c (.join k) with
  | none => exact .start
  | some s' => exact .next (e := .join k) .start ⟨rfl, nofun⟩ hs

end Shard

/-- A dropped handle closes its receiver and may send a cancel. -/
theorem ReadHandle.drop_prompted {c : Params} {p : ReadMsg → Prop} (h : ReadHandle) (id : Nat)
    (v : View) (ha : v.loop.phase ≠ .aborted) : v.loop.Prompted c p (h.drop id v).loop := by
  unfold ReadHandle.drop
  split
  · exact .start
  · split
    · exact .start
    · split
      · exact .start
      · exact .start
  · have hclose := Shard.prompted_closeRx (c := c) (p := p) ha id
    simp only
    split
    · exact hclose.trans
        (Shard.prompted_getD (s := { v.loop with mail := v.loop.mail.close id }) ha nofun)
    · exact hclose

/-- A caller that keeps its place sends at most the read it carries. -/
theorem Act.prompted {c : Params} {p : ReadMsg → Prop} {id : Nat} {r : Option Nat} {x x' : Caller}
    {v v' : View} (h : Act c id r v x (some x') v') (ha : v.loop.phase ≠ .aborted)
    (hp : ∀ req charge res, x.Carries r req charge res →
      p (req.msg id (v.permitsFor charge res))) : v.loop.Prompted c p v'.loop := by
  cases h with
  | send hh hx hw hq hm hy hs =>
    obtain ⟨_, _, _, hsend, _⟩ := View.sendRead_eq_some hs
    exact Shard.prompted_sendMsg ha (fun _ hr => by cases hr; exact hp _ _ _ hm) hsend
  | @pollCount h w hs hf hw =>
    unfold ReadHandle.poll
    rw [hs]
    simp only [hw]
    split <;> exact .start
  | @pollBytes h w q b hs hf hw hv =>
    unfold ReadHandle.poll
    rw [hs]
    simp only [hw, hv]
    split <;> exact .start
  | quiet | takeCount | takeBytes | dropCount | sendFailed => exact .start

/-- Every operation of a caller. -/
theorem Caller.act_prompted {c : Params} {p : ReadMsg → Prop} {id : Nat} {r : Option Nat}
    {x : Caller} {y : Option Caller} {e : CallerEvent} {v v' : View}
    (h : x.act e id r v = some (y, v')) (ha : v.loop.phase ≠ .aborted)
    (hp : ∀ req charge res, x.Carries r req charge res →
      p (req.msg id (v.permitsFor charge res))) : v.loop.Prompted c p v'.loop := by
  cases y with
  | some x' => exact (act_cases (c := c) h).prompted ha hp
  | none =>
    -- only a drop leaves no caller
    unfold act at h
    split at h
    · cases h
    · split at h <;> cases h
    · split at h <;> cases h
    · split at h <;> cases h
      exact ReadHandle.drop_prompted _ id v ha
    · cases h

namespace Driver

/-- The labels of a driver whose loops' own labels satisfy `ok` and whose callers ask for
`asks`. -/
def Within (ok : Shard → Event → Prop) (asks : Request → Prop) (d : Driver) (e : DriverEvent) :
    Prop :=
  (∀ k a cell, e = .turn k a → d.cells[k]? = some cell → ok cell.loop a) ∧
    ∀ req, e = .submit req → asks req

/-- A read sent for an admissible request that somebody asked for. -/
def Asked (cfg : Config) (asks : Request → Prop) (m : ReadMsg) : Prop :=
  ∃ req charge, asks req ∧ Admissible cfg req charge ∧ m = req.msg m.id m.permit

/-- The loops have made runs of their own, and the callers still carry what was asked. -/
structure Looped (cfg : Config) (ok : Shard → Event → Prop) (asks : Request → Prop) (d : Driver) :
    Prop where
  loops : ∀ cell ∈ d.cells, Reachable (Shard.step cfg.params) ok .init cell.loop
  carried : d.callers.All fun _ x => ∀ req, x.request = some req → asks req

/-- Changing one cell by steps of its loop. -/
theorem loops_modify {P : Shard → Prop} {cells : List Cell} {f : Cell → Cell} (k : Nat)
    (h : ∀ cell ∈ cells, P cell.loop) (hf : ∀ cell ∈ cells, P cell.loop → P (f cell).loop) :
    ∀ cell ∈ cells.modify k f, P cell.loop := by
  intro cell hcell
  rcases mem_modify_cases hcell with ⟨a, ha, rfl⟩ | hold
  · have hmem := List.mem_of_getElem? ha
    exact hf a hmem (h a hmem)
  · exact h cell hold

/-- Closing admission touches no loop. -/
theorem loops_closeStep {P : Shard → Prop} {d : Driver} (h : ∀ cell ∈ d.cells, P cell.loop)
    (pc : Closing) : ∀ cell ∈ (d.closeStep pc).2.cells, P cell.loop := by
  unfold closeStep
  split
  · exact h
  · exact h
  · exact h
  · exact loops_modify _ h fun _ _ hp => hp
  · exact h

/-- A shutdown request sends at most a shutdown message. -/
theorem loops_shutdownStep {P : Shard → Prop} {d : Driver} (h : ∀ cell ∈ d.cells, P cell.loop)
    (t : Nat) (pc : Shutdown)
    (hpost : ∀ cell ∈ d.cells, P cell.loop →
      P ((cell.loop.sendMsg t .shutdown).getD cell.loop)) :
    ∀ cell ∈ (d.shutdownStep t pc).2.cells, P cell.loop := by
  unfold shutdownStep
  split
  · exact h
  · exact loops_closeStep h _
  · exact h
  · exact loops_modify _ h fun _ _ hp => hp
  · exact h
  · exact loops_modify _ h hpost
  · exact h

/-- Joining sends each loop at most its own shutdown request. -/
theorem loops_joinStep {P : Shard → Prop} {cfg : Config} {d d' : Driver}
    (h : ∀ cell ∈ d.cells, P cell.loop) (hj : d.joinStep cfg = some d')
    (hask : ∀ k, ∀ cell ∈ d.cells, P cell.loop →
      P ((cell.loop.step cfg.params (.join k)).getD cell.loop)) :
    ∀ cell ∈ d'.cells, P cell.loop := by
  unfold joinStep at hj
  split at hj
  · split at hj
    · cases hj
      exact h
    · cases hj
  · split at hj
    · cases hj
      exact h
    · split at hj
      · split at hj
        · cases hj
          exact h
        · cases hj
      · cases hj
        exact loops_modify _ h (hask _)
  · cases hj

namespace Looped

variable {cfg : Config} {r : Option Nat} {ok : Shard → Event → Prop} {asks : Request → Prop}

theorem init : (Driver.init cfg r).Looped cfg ok asks :=
  ⟨fun _ h => (nomatch h), AList.all_empty⟩

/-- What others do to a loop continues its run. -/
theorem prompted (hout : ∀ s e, Outside (Asked cfg asks) s e → ok s e) {s s' : Shard}
    (h : Reachable (Shard.step cfg.params) ok .init s)
    (hp : s.Prompted cfg.params (Asked cfg asks) s') :
    Reachable (Shard.step cfg.params) ok .init s' :=
  h.trans (hp.mono hout)

/-- A carried request that was asked for becomes a read that was asked for. -/
theorem asked {x : Caller} (hx : x.Valid cfg r) (hasked : ∀ req, x.request = some req → asks req)
    {req : Request} {charge : Nat} {res : Option Nat} (hm : x.Carries r req charge res) (id : Nat)
    (permit : ReadPermits) : Asked cfg asks (req.msg id permit) := by
  refine ⟨req, charge, hasked req hm.request, ?_, rfl⟩
  cases x with
  | submitting s =>
    obtain ⟨rfl, rfl, rfl⟩ := hm
    exact hx
  | holding h =>
    obtain ⟨w, hs, rfl, rfl, rfl⟩ := hm
    exact (hx w hs).1

/-- Every transition continues the loops' runs. -/
theorem transition {d d' : Driver} {e : DriverEvent} (h : d.Looped cfg ok asks)
    (hout : ∀ s e, Outside (Asked cfg asks) s e → ok s e) (hw : d.Wired cfg r)
    (hlive : ∀ cell ∈ d.cells, cell.loop.phase ≠ .aborted) (he : Within ok asks d e)
    (ht : Transition cfg d e d') : d'.Looped cfg ok asks := by
  have hpost (t : Nat) (cell : Cell) (hcell : cell ∈ d.cells)
      (hr : Reachable (Shard.step cfg.params) ok .init cell.loop) :
      Reachable (Shard.step cfg.params) ok .init
        ((cell.loop.sendMsg t .shutdown).getD cell.loop) :=
    prompted hout hr (Shard.prompted_getD (hlive cell hcell) nofun)
  cases ht with
  | startShard hl hn =>
    refine ⟨fun cell hcell => ?_, h.carried⟩
    rcases List.mem_append.mp hcell with hold | hnew
    · exact h.loops cell hold
    · rw [List.mem_singleton.mp hnew]
      exact .start
  | started | failStart | requestShutdown | retire => exact ⟨h.loops, h.carried⟩
  | @submit req d' hl hs =>
    obtain ⟨_, x, hx, rfl⟩ := beginSubmit_cases hs
    refine ⟨h.loops, h.carried.insert fun req' hreq => ?_⟩
    cases hx with
    | invalid => cases hreq
    | valid =>
      cases hreq
      exact he.2 _ rfl
  | @caller id e x v v' y hx hv ha =>
    obtain ⟨cell, hcell, heq⟩ := view_eq_some hv
    have hmem := List.mem_of_getElem? hcell
    have hphase : v.loop.phase ≠ .aborted := by
      rw [heq]
      exact hlive cell hmem
    have hp := Caller.act_prompted (c := cfg.params) (p := Asked cfg asks) ha hphase
      fun req charge res hm => asked (hw.valid id x hx) (h.carried id x hx) hm id _
    refine ⟨?_, ?_⟩
    · rw [put_cells]
      exact Wired.mem_install hv h.loops fun hr => prompted hout hr hp
    · refine all_put (d := d.install x.shard v') h.carried fun x' hy req hreq => ?_
      exact h.carried id x hx req (request_act (hy ▸ ha) hreq)
  | @turn k e v v' hthread hv hturn =>
    obtain ⟨cell, hcell, heq⟩ := view_eq_some hv
    obtain ⟨freed, hstep⟩ := hw.turn_cases hv hthread hturn
    refine ⟨Wired.mem_install hv h.loops fun hr => hr.next ?_ hstep.step, h.carried⟩
    rw [heq]
    exact he.1 k e cell rfl hcell
  | @guard k cell leaked hcell hp =>
    have hk := (d.kept_closeStep (c := cfg.params) cell.guard).1
    refine ⟨loops_modify _ (loops_closeStep h.loops _) fun _ _ hp => hp, ?_⟩
    exact fun id x hx => h.carried id x (hk.callers ▸ hx)
  | @closer t pc hpc =>
    have hk := (d.kept_shutdownStep (c := cfg.params) t pc).1
    refine ⟨loops_shutdownStep h.loops t pc (hpost t), ?_⟩
    exact fun id x hx => h.carried id x (hk.callers ▸ hx)
  | join hj =>
    have hk := (joinStep_kept hj).1
    refine ⟨loops_joinStep h.loops hj fun k cell _ hr => ?_, ?_⟩
    · exact prompted hout hr (Shard.prompted_join k)
    · exact fun id x hx => h.carried id x (hk.callers ▸ hx)

end Looped

/-- The loops of a driver are loops on their own, under every condition that allows
admissible reads and the other labels from outside. -/
theorem Reach.looped {cfg : Config} {r : Option Nat} {ok : Shard → Event → Prop}
    {asks : Request → Prop} {d : Driver}
    (hout : ∀ s e, Outside (Asked cfg asks) s e → ok s e)
    (h : Reachable (step cfg) (Within ok asks) (init cfg r) d) : d.Looped cfg ok asks :=
  h.invariant .init fun _ _ _ hr hi he hs =>
    hi.transition hout (Reach.wired (hr.mono fun _ _ _ => trivial)) (live_of_step hs) he
      (step_transition hs).2

/-- A request that has returned changes nothing more. -/
theorem closer_returned {cfg : Config} {d : Driver} {t : Nat} (hlive : d.aborted = false)
    (hpc : d.closers.lookup t = some .returned)
    (hsame : d.closers.insert t .returned = d.closers) : step cfg d (.closer t) = some d := by
  simp [step, hlive, hpc, shutdownStep, hsame]

/-- Only a started shard adds a cell. -/
theorem length_cells {cfg : Config} {d d' : Driver} {e : DriverEvent}
    (h : step cfg d e = some d') (he : e ≠ .startShard) :
    d'.cells.length = d.cells.length := by
  cases step_move h with
  | kept _ hk _ => exact hk.cells.length_eq.symm
  | start => exact absurd rfl he
  | submit => rfl
  | caller =>
    rw [put_cells]
    exact length_install ..
  | turn => exact length_install ..

section Part

variable {cfg : Config} {r : Option Nat} {d d' : Driver} {e : DriverEvent} {p : ReadMsg → Prop}

/-- Every loop was only prompted by others. -/
abbrev AllPrompted (cfg : Config) (p : ReadMsg → Prop) (cells cells' : List Cell) : Prop :=
  List.Forall₂ (fun a b : Cell => a.loop.Prompted cfg.params p b.loop) cells cells'

theorem allPrompted_modify {cells : List Cell} {k : Nat} {f : Cell → Cell}
    (h : ∀ a, cells[k]? = some a → a.loop.Prompted cfg.params p (f a).loop) :
    AllPrompted cfg p cells (cells.modify k f) :=
  forall₂_modify (fun _ => .start) h

theorem allPrompted_refl (cells : List Cell) : AllPrompted cfg p cells cells :=
  List.forall₂_same.mpr fun _ _ => .start

theorem allPrompted_closeStep (pc : Closing) :
    AllPrompted cfg p d.cells (d.closeStep pc).2.cells := by
  unfold closeStep
  split
  · exact allPrompted_refl _
  · exact allPrompted_refl _
  · exact allPrompted_refl _
  · exact allPrompted_modify fun _ _ => .start
  · exact allPrompted_refl _

theorem allPrompted_shutdownStep (hlive : ∀ cell ∈ d.cells, cell.loop.phase ≠ .aborted) (t : Nat)
    (pc : Shutdown) : AllPrompted cfg p d.cells (d.shutdownStep t pc).2.cells := by
  unfold shutdownStep
  split
  · exact allPrompted_refl _
  · exact allPrompted_closeStep _
  · exact allPrompted_refl _
  · exact allPrompted_modify fun _ _ => .start
  · exact allPrompted_refl _
  · exact allPrompted_modify fun a ha =>
      Shard.prompted_getD (hlive a (List.mem_of_getElem? ha)) nofun
  · exact allPrompted_refl _

theorem allPrompted_joinStep (h : d.joinStep cfg = some d') :
    AllPrompted cfg p d.cells d'.cells := by
  unfold joinStep at h
  split at h
  · split at h <;> cases h
    exact allPrompted_refl _
  · split at h
    · cases h
      exact allPrompted_refl _
    · split at h
      · split at h <;> cases h
        exact allPrompted_refl _
      · cases h
        exact allPrompted_modify fun a _ => Shard.prompted_join _
  · cases h

variable {ok : Shard → Event → Prop} {asks : Request → Prop}

/-- What one transition does to the loop of shard `k`: its own label, or what others did. -/
def PartStep (cfg : Config) (asks : Request → Prop) (e : DriverEvent) (k : Nat) (a b : Cell) :
    Prop :=
  (∃ ev, e = .turn k ev ∧ a.loop.step cfg.params ev = some b.loop) ∨
    ((∀ ev, e ≠ .turn k ev) ∧ a.loop.Prompted cfg.params (Asked cfg asks) b.loop)

/-- Installing what happened at shard `j` changes no other loop. -/
theorem install_part {j k : Nat} {v : View} (v' : View) {a : Cell} (hv : d.view j = some v)
    (ha : d.cells[k]? = some a) : ∃ b, (d.install j v').cells[k]? = some b ∧
      (j = k ∧ v.loop = a.loop ∧ b.loop = v'.loop ∨ j ≠ k ∧ b = a) := by
  simp only [install, List.getElem?_modify, ha, Option.map_eq_map, Option.map_some]
  by_cases hj : j = k
  · subst hj
    obtain ⟨cell, hcell, rfl⟩ := view_eq_some hv
    obtain rfl : cell = a := Option.some.inj (hcell.symm.trans ha)
    rw [if_pos rfl]
    exact ⟨_, rfl, Or.inl ⟨rfl, rfl, rfl⟩⟩
  · rw [if_neg hj]
    exact ⟨a, rfl, Or.inr ⟨hj, rfl⟩⟩

theorem Transition.part (h : Transition cfg d e d') (hw : d.Wired cfg r)
    (hlooped : d.Looped cfg ok asks) (hlive : ∀ cell ∈ d.cells, cell.loop.phase ≠ .aborted)
    {k : Nat} {a : Cell} (ha : d.cells[k]? = some a) :
    ∃ b, d'.cells[k]? = some b ∧ PartStep cfg asks e k a b := by
  have hall {cells : List Cell} (hno : ∀ ev, e ≠ .turn k ev)
      (hc : AllPrompted cfg (Asked cfg asks) d.cells cells) :
      ∃ b, cells[k]? = some b ∧ PartStep cfg asks e k a b := by
    have hflip : List.Forall₂ (fun b a : Cell => a.loop.Prompted cfg.params (Asked cfg asks) b.loop)
        cells d.cells := hc.flip
    obtain ⟨b, hb, hab⟩ := forall₂_getElem? hflip ha
    exact ⟨b, hb, Or.inr ⟨hno, hab⟩⟩
  cases h with
  | startShard hl hn =>
    refine ⟨a, ?_, Or.inr ⟨(by simp), .start⟩⟩
    rw [Driver.startShard, List.getElem?_append_left (List.getElem?_eq_some_iff.mp ha).1]
    exact ha
  | started | failStart | requestShutdown | retire =>
    exact ⟨a, ha, Or.inr ⟨(by simp), .start⟩⟩
  | @submit req d' hl hs =>
    obtain ⟨_, x, hx, rfl⟩ := beginSubmit_cases hs
    exact ⟨a, ha, Or.inr ⟨(by simp), .start⟩⟩
  | @caller id e x v v' y hx hv hact =>
    rw [put_cells]
    obtain ⟨b, hb, ⟨hj, hvl, hbl⟩ | ⟨hj, rfl⟩⟩ := install_part v' hv ha
    · refine ⟨b, hb, Or.inr ⟨(by simp), ?_⟩⟩
      rw [hbl, ← hvl]
      have hphase : v.loop.phase ≠ .aborted := by
        rw [hvl]
        exact hlive a (List.mem_of_getElem? ha)
      exact Caller.act_prompted hact hphase fun req charge res hm =>
        Looped.asked (hw.valid id x hx) (hlooped.carried id x hx) hm id _
    · exact ⟨b, hb, Or.inr ⟨(by simp), .start⟩⟩
  | @turn j ev v v' hthread hv hturn =>
    obtain ⟨freed, hstep⟩ := hw.turn_cases hv hthread hturn
    obtain ⟨b, hb, ⟨rfl, hvl, hbl⟩ | ⟨hj, rfl⟩⟩ := install_part v' hv ha
    · refine ⟨b, hb, Or.inl ⟨ev, rfl, ?_⟩⟩
      rw [hbl, ← hvl]
      exact hstep.step
    · refine ⟨b, hb, Or.inr ⟨fun ev' he => ?_, .start⟩⟩
      cases he
      exact hj rfl
  | @guard j cell leaked hcell hp =>
    refine hall (by simp) (forall₂_modify_right (allPrompted_closeStep cell.guard) ?_)
    exact fun _ _ h => h
  | @closer t pc hpc => exact hall (by simp) (allPrompted_shutdownStep hlive t pc)
  | join hj => exact hall (by simp) (allPrompted_joinStep hj)

/-- A new cell's loop is at its beginning. -/
theorem new_cell (h : step cfg d e = some d') {k : Nat} {b : Cell} (hnone : d.cells[k]? = none)
    (hb : d'.cells[k]? = some b) : b.loop = .init := by
  by_cases he : e = .startShard
  · subst he
    cases (step_transition h).2 with
    | startShard =>
      rw [Driver.startShard] at hb
      rcases getElem?_concat_cases hb with hold | ⟨_, rfl⟩
      · rw [hnone] at hold
        cases hold
      · rfl
  · rw [List.getElem?_eq_none_iff] at hnone
    have hlt := (List.getElem?_eq_some_iff.mp hb).1
    rw [length_cells h he] at hlt
    omega

/-- The loop of shard `k`; before the shard is started it is at its beginning. -/
def loopOf (d : Driver) (k : Nat) : Shard := (d.cells[k]?.map Cell.loop).getD .init

theorem loopOf_eq {k : Nat} {a : Cell} (ha : d.cells[k]? = some a) : d.loopOf k = a.loop := by
  rw [loopOf, ha]
  rfl

/-- What one transition does to the loop of shard `k`, as a run of the loop. -/
theorem loopOf_run (hout : ∀ s e, Outside (Asked cfg asks) s e → ok s e)
    (hr : Reachable (step cfg) (Within ok asks) (init cfg r) d) (he : Within ok asks d e)
    (hs : step cfg d e = some d') (k : Nat) :
    ∃ w, run (Shard.step cfg.params) (d.loopOf k) w = some (d'.loopOf k) ∧
      Admitted (Shard.step cfg.params) ok (d.loopOf k) w ∧
      (∀ ev, e = .turn k ev → w = [ev]) ∧
      ((∀ ev, e ≠ .turn k ev) → ∀ ev ∈ w, ev.ofThread = false) := by
  have hw : d.Wired cfg r := Reach.wired (hr.mono fun _ _ _ => trivial)
  cases ha : d.cells[k]? with
  | none =>
    have hinit : d.loopOf k = .init := by rw [loopOf, ha]; rfl
    have hinit' : d'.loopOf k = .init := by
      cases hb : d'.cells[k]? with
      | none => rw [loopOf, hb]; rfl
      | some b => rw [loopOf_eq hb, new_cell hs ha hb]
    refine ⟨[], ?_, trivial, ?_, ?_⟩
    · rw [hinit, hinit']
      rfl
    · rintro ev rfl
      cases (step_transition hs).2 with
      | turn _ hv =>
        obtain ⟨cell, hcell, _⟩ := view_eq_some hv
        rw [ha] at hcell
        cases hcell
    · exact fun _ ev hev => absurd hev List.not_mem_nil
  | some a =>
    obtain ⟨b, hb, hpart⟩ := (step_transition hs).2.part hw (Reach.looped hout hr)
      (live_of_step hs) ha
    rw [loopOf_eq ha, loopOf_eq hb]
    rcases hpart with ⟨ev, rfl, hstep⟩ | ⟨hno, hprompted⟩
    · refine ⟨[ev], ?_, ⟨he.1 k ev a rfl ha, fun _ _ => trivial⟩, ?_, ?_⟩
      · rw [run, hstep]
        rfl
      · intro ev' heq
        cases heq
        rfl
      · intro hno
        exact absurd rfl (hno ev)
    · obtain ⟨w, hrun, hadm⟩ := hprompted.exists_run
      refine ⟨w, hrun, ?_, fun ev heq => absurd heq (hno ev), fun _ => ?_⟩
      · exact hadm.mono hout
      · exact hadm.labels (fun _ _ h => h.1) hrun

end Part

end Driver

end Uring
