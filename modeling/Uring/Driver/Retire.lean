import Uring.Core.Receipt
import Uring.Driver.Deferral
import Uring.Driver.Exit
import Uring.Shard.Panic

/-!
# When nothing of a driver is left

A driver's reservation is owned by its admission, by deferred futures, by queued reads
and by table entries. None of these is left exactly when the driver value, its threads,
its deferred handles, its queued reads and its pending entries are gone. That is final,
and a leaked entry excludes it for ever.
-/

namespace Uring

open Uring.Core

namespace Shard

variable {c : Params} {s s' : Shard}

/-- After the exit was decided the table keeps its ids. -/
theorem Moves.exiting {leaked : Bool} (h : s.Moves c s') (hs : Reach c s) (he : s.Exiting leaked) :
    s'.Exiting leaked ∧ ∀ id, id ∈ s'.pending ↔ id ∈ s.pending := by
  induction h with
  | start => exact ⟨he, fun _ => Iff.rfl⟩
  | @next t t' e ht _ hstep ih =>
    obtain ⟨het, hids⟩ := ih
    have hreach := hs.trans ht
    have hm := (step_move (Reach.control hreach) (any_allows t e) hstep).1
    obtain ⟨hin, _, hreap⟩ := exiting_actor het hstep
    refine ⟨exiting_step het hstep, fun id => ?_⟩
    rw [← hids id]
    refine ⟨Ledger.mem_of_move hm hin, fun hid => ?_⟩
    by_contra hgone
    exact hreap (Ledger.removed_of_move (Reach.ownership hreach) hm hid hgone).1

/-- A request to stop is not forgotten. -/
theorem Stopping.moves (h : s.Moves c s') (hr : Reach c s) (hs : s.Stopping) : s'.Stopping := by
  induction h with
  | start => exact hs
  | @next t t' e ht _ hstep ih =>
    have hctl := Reach.control (hr.trans ht)
    have hmono := (step_move hctl (any_allows t e) hstep).1.shutdown_mono
    exact ih.elim (fun hd => Or.inl (hmono.1 hd)) hmono.2

/-- An exited thread stays exited. -/
theorem Moves.exited {leaked : Bool} (h : s.Moves c s') (he : s.phase = .exited leaked) :
    s'.phase = .exited leaked := by
  induction h with
  | start => exact he
  | next _ _ hstep ih =>
    rcases exiting_phase (Or.inr ih) hstep with hsame | hexit
    · exact hsame.trans ih
    · exact hexit

/-- The permits in the shard's channel and in its table. -/
def heldPermits (s : Shard) : List ReadPermits := readPermits s.chan ++ tablePermits s.pending

/-- Clones of receipt `i` in the shard's channel and in its table. -/
def receipts (i : Nat) (s : Shard) : Nat :=
  s.heldPermits.countP fun p => decide (p.sharedReservation = some i)

theorem heldPermits_eq_nil : s.heldPermits = [] ↔ readMsgs s.chan = [] ∧ ∀ id, id ∉ s.pending := by
  rw [heldPermits, List.append_eq_nil_iff, readPermits_eq_map, List.map_eq_nil_iff,
    ← List.length_eq_zero_iff (l := tablePermits _), tablePermits_length, AList.size_eq_zero_iff]

/-- Every permit of the shard came with a read. -/
theorem Reach.heldPermits_sent (h : Reach c s) {p : ReadPermits} (hp : p ∈ s.heldPermits) :
    ∃ m ∈ s.hist.requests, m.permit = p := by
  have hplaces : p ∈ s.permitPlaces := List.mem_append_left _ hp
  exact List.mem_map.mp ((Reach.permitBook h).places.mem_iff.mpr hplaces)

end Shard

/-- Clones of receipt `i` in a caller's hand: a deferred future keeps the one it captured
until it completes. -/
def Caller.receipts (i : Nat) (x : Caller) : Nat :=
  match x with
  | .submitting _ => 0
  | .holding h =>
    match h.state, h.finished with
    | .waiting w, none => if w.reservation = some i then 1 else 0
    | _, _ => 0

/-- The driver value is dropped. -/
def Life.dropped : Life → Bool
  | .gone _ => true
  | _ => false

/-- No value was ever returned, or not yet. -/
def Life.unused : Life → Bool
  | .starting => true
  | .joining failed _ _ => failed
  | .gone failed => failed
  | _ => false

/-- Shutting down has begun: nothing borrows the value. -/
def Life.ending : Life → Bool
  | .starting => false
  | .running => false
  | _ => true

namespace Driver

/-- The `ByteAdmission` is alive: the driver value or an exit guard keeps it. -/
def admissionHeld (d : Driver) : Bool :=
  !d.life.dropped || d.cells.any fun cell => decide (cell.guard ≠ .finished)

/-- The owners of receipt `i`. -/
def owners (i : Nat) (d : Driver) : Nat :=
  (if d.admissionHeld = true ∧ d.reservation = some i then 1 else 0) +
    d.callers.total (Caller.receipts i) + (d.cells.map fun cell => cell.loop.receipts i).sum

/-- Nothing of the driver is left. -/
structure Retired (d : Driver) : Prop where
  value : d.life.dropped = true
  threads : ∀ cell ∈ d.cells, cell.finished = true
  /-- No handle has an unresolved acquire. -/
  deferred : ∀ id h w, ¬ d.Deferred id h w
  queued : ∀ cell ∈ d.cells, readMsgs cell.loop.chan = []
  pending : ∀ cell ∈ d.cells, ∀ id, id ∉ cell.loop.pending

/-- Some read was leaked by its shard's bounded drain. -/
def Leaked (d : Driver) : Prop :=
  ∃ cell ∈ d.cells, cell.loop.Exiting true ∧ ∃ id, id ∈ cell.loop.pending

theorem Leaked.not_retired {d : Driver} (h : d.Leaked) : ¬ d.Retired := by
  obtain ⟨cell, hcell, _, id, hid⟩ := h
  exact fun hr => hr.pending cell hcell id hid

/-- What one transition does to a driver's life. -/
inductive LifeMove (d d' : Driver) : Prop
  | same (h : d'.life = d.life)
  | started (h : d.life = .starting) (h' : d'.life = .running)
  | failed (h : d.life = .starting) (h' : d'.life = .joining true 0 false)
  | retire {t : Nat} (h : d.life = .running) (hu : d.unborrowed = true) (h' : d'.life = .retiring t)
  | joining {t : Nat} (h : d.life = .retiring t) (h' : d'.life = .joining false 0 false)
  | asked {failed : Bool} {k : Nat} (h : d.life = .joining failed k false)
      (h' : d'.life = .joining failed k true)
  | joined {failed asked : Bool} {k : Nat} {cell : Cell} (h : d.life = .joining failed k asked)
      (hcell : d.cells[k]? = some cell) (hf : cell.finished = true)
      (h' : d'.life = .joining failed (k + 1) false)
  | gone {failed asked : Bool} {k : Nat} (h : d.life = .joining failed k asked)
      (hk : d.cells.length ≤ k) (h' : d'.life = .gone failed)

theorem joinStep_life {cfg : Config} {d d' : Driver} (h : d.joinStep cfg = some d') :
    LifeMove d d' := by
  unfold joinStep at h
  split at h
  · rename_i t hl
    split at h <;> cases h
    exact .joining hl rfl
  · rename_i failed k asked hl
    split at h
    · rename_i hk
      cases h
      exact .gone hl (List.getElem?_eq_none_iff.mp hk) rfl
    · rename_i cell hcell
      split at h
      · split at h <;> cases h
        exact .joined hl hcell ‹_› rfl
      · rename_i ha
        cases h
        rw [Bool.not_eq_true] at ha
        subst ha
        exact .asked hl rfl
  · cases h

theorem step_life {cfg : Config} {d d' : Driver} {e : DriverEvent} (h : step cfg d e = some d') :
    LifeMove d d' := by
  cases (step_transition h).2 with
  | startShard | turn | requestShutdown => exact .same rfl
  | started hl hn => exact .started hl rfl
  | failStart hl hn => exact .failed hl rfl
  | submit hl hs =>
    obtain ⟨_, x, _, rfl⟩ := beginSubmit_cases hs
    exact .same rfl
  | caller => exact .same (put_life _ _ _)
  | @guard k cell leaked hcell hp => exact .same (d.closeStep_control cell.guard).2.2
  | @closer t pc hpc => exact .same (d.shutdownStep_control t pc).2.2
  | retire hl hu ht => exact .retire hl hu rfl
  | join hj => exact joinStep_life hj

end Driver

/-- One cell later: its loop moved on, and a finished exit guard stays finished. -/
structure Cell.Later (c : Params) (a b : Cell) : Prop where
  loop : a.loop.Moves c b.loop
  guard : a.guard = .finished → b.guard = .finished

theorem Cell.finished_iff {a : Cell} :
    a.finished = true ↔ (∃ leaked, a.loop.phase = .exited leaked) ∧ a.guard = .finished := by
  unfold finished
  split
  · rename_i leaked hp
    rw [decide_eq_true_eq, hp]
    exact ⟨fun hg => ⟨⟨leaked, rfl⟩, hg⟩, fun h => h.2⟩
  · rename_i hp
    refine ⟨nofun, ?_⟩
    rintro ⟨⟨leaked, hx⟩, _⟩
    exact absurd hx (hp leaked)

/-- A thread that has returned stays so. -/
theorem Cell.Later.finished {c : Params} {a b : Cell} (h : a.Later c b) (ha : a.finished = true) :
    b.finished = true := by
  obtain ⟨⟨leaked, hp⟩, hg⟩ := Cell.finished_iff.mp ha
  exact Cell.finished_iff.mpr ⟨⟨leaked, h.loop.exited hp⟩, h.guard hg⟩

namespace Driver

variable {cfg : Config} {r : Option Nat} {d d' : Driver} {e : DriverEvent}

/-- Every loop moves by its own steps. -/
theorem Move.loops (hw : d.Wired cfg r) (hlive : ∀ cell ∈ d.cells, cell.loop.phase ≠ .aborted)
    (hm : Move cfg d e d') : (d.life = .starting ∧ d' = d.startShard cfg) ∨
      List.Forall₂ (fun a b => a.loop.Moves cfg.params b.loop) d.cells d'.cells := by
  have hinstall {k : Nat} {v v' : View} (hv : d.view k = some v)
      (hmove : v.loop.Moves cfg.params v'.loop) :
      List.Forall₂ (fun a b => a.loop.Moves cfg.params b.loop) d.cells (d.install k v').cells := by
    obtain ⟨cell, hcell, rfl⟩ := view_eq_some hv
    refine forall₂_modify (fun _ => .start) fun a ha => ?_
    obtain rfl : a = cell := Option.some.inj (ha.symm.trans hcell)
    exact hmove
  cases hm with
  | kept _ hk _ =>
    right
    have hrow := List.forall₂_iff_get.mp hk.cells
    refine List.forall₂_iff_get.mpr ⟨hrow.1, fun i h₁ h₂ => ?_⟩
    exact (hrow.2 i h₁ h₂).moves (hlive _ (List.get_mem _ _))
  | start hl => exact Or.inl ⟨hl, rfl⟩
  | submit => exact Or.inr (List.forall₂_same.mpr fun _ _ => .start)
  | @caller id c x y v v' hx hv ha =>
    right
    rw [put_cells]
    refine hinstall hv ((Caller.act_cases (c := cfg.params) ha).loop.1 ?_)
    obtain ⟨cell, hcell, rfl⟩ := view_eq_some hv
    exact hlive cell (List.mem_of_getElem? hcell)
  | turn hv he ht =>
    obtain ⟨freed, hturn⟩ := hw.turn_cases hv he ht
    exact Or.inr (hinstall hv (.next .start trivial hturn.step))

/-- A finished exit guard has nothing left to do. -/
theorem Control.guards (h : Control cfg d d') : (d.life = .starting ∧ d' = d.startShard cfg) ∨
    List.Forall₂ (fun a b : Cell => a.guard = .finished → b.guard = .finished)
      d.cells d'.cells := by
  have hsame {cells : List Cell} (hg : cells.map Cell.guard = d.cells.map Cell.guard) :
      List.Forall₂ (fun a b : Cell => a.guard = .finished → b.guard = .finished) d.cells cells := by
    have hrow : List.Forall₂ (· = ·) (d.cells.map Cell.guard) (cells.map Cell.guard) := by
      rw [List.forall₂_eq_eq_eq, hg]
    rw [List.forall₂_map_left_iff, List.forall₂_map_right_iff] at hrow
    exact hrow.imp fun a b hab ha => hab.symm.trans ha
  cases h with
  | same _ hg _ => exact Or.inr (hsame hg)
  | start hl => exact Or.inl ⟨hl, rfl⟩
  | begin _ hcells _ _ => exact Or.inr (hsame (by rw [hcells]))
  | @closer _ t pc _ _ hcells _ _ =>
    exact Or.inr (hsame (by rw [hcells, (d.shutdownStep_control t pc).2.1]))
  | @guard k cell hcell =>
    right
    have hrow := hsame (d.closeStep_control cell.guard).2.1
    refine forall₂_modify_at hrow fun a b ha _ _ hfin => ?_
    obtain rfl : a = cell := Option.some.inj (ha.symm.trans hcell)
    rw [hfin]
    rfl

theorem step_later (hw : d.Wired cfg r) (hs : step cfg d e = some d') :
    (d.life = .starting ∧ d' = d.startShard cfg) ∨
      List.Forall₂ (Cell.Later cfg.params) d.cells d'.cells := by
  rcases (step_move hs).loops hw (live_of_step hs) with hstart | hloops
  · exact Or.inl hstart
  rcases (step_control hs).guards with hstart | hguards
  · exact Or.inl hstart
  have hl := List.forall₂_iff_get.mp hloops
  have hg := List.forall₂_iff_get.mp hguards
  exact Or.inr (List.forall₂_iff_get.mpr
    ⟨hl.1, fun i h₁ h₂ => ⟨hl.2 i h₁ h₂, hg.2 i h₁ h₂⟩⟩)

/-- A shard stays, and goes on. -/
theorem cell_later (hr : Reach cfg r d) (h : step cfg d e = some d') {k : Nat} {a : Cell}
    (ha : d.cells[k]? = some a) : ∃ b, d'.cells[k]? = some b ∧ a.Later cfg.params b := by
  rcases step_later (Reach.wired hr) h with ⟨_, rfl⟩ | hrow
  · refine ⟨a, ?_, .start, id⟩
    rw [startShard, List.getElem?_append_left (List.getElem?_eq_some_iff.mp ha).1]
    exact ha
  · have hflip : List.Forall₂ (fun b a : Cell => a.Later cfg.params b) d'.cells d.cells := hrow.flip
    exact forall₂_getElem? hflip ha

/-- An unused value stays unused, and was unused before. -/
theorem LifeMove.unused (h : LifeMove d d') (hu : d'.life.unused = true) :
    d.life.unused = true := by
  cases h with
  | same h => rwa [h] at hu
  | started h | failed h =>
    rw [h]
    rfl
  | retire _ _ h' | joining _ h' =>
    rw [h'] at hu
    cases hu
  | asked h h' | joined h _ _ h' | gone h _ h' =>
    rw [h'] at hu
    rw [h]
    exact hu

/-- Shutting down begins when nothing borrows the value. -/
theorem LifeMove.ending (h : LifeMove d d') (he : d'.life.ending = true) :
    d.life.ending = true ∨ d.life.unused = true ∨ d.unborrowed = true := by
  cases h with
  | same h => exact Or.inl (h ▸ he)
  | started h | failed h =>
    refine Or.inr (Or.inl ?_)
    rw [h]
    rfl
  | retire _ hu _ => exact Or.inr (Or.inr hu)
  | joining h _ | asked h _ | joined h _ _ _ | gone h _ _ =>
    left
    rw [h]
    rfl

/-- What the life of a driver says about its callers and its threads. -/
structure Ended (d : Driver) : Prop where
  unused : d.life.unused = true →
    d.callers = ∅ ∧ ∀ cell ∈ d.cells, cell.loop.hist.requests = []
  returned : d.life.ending = true → d.SubmitsDone
  joined : ∀ failed k asked, d.life = .joining failed k asked →
    ∀ cell ∈ d.cells.take k, cell.finished = true
  gone : d.life.dropped = true → ∀ cell ∈ d.cells, cell.finished = true

/-- A row of later cells has finished where the earlier one had. -/
theorem finished_row {l l' : List Cell} (h : List.Forall₂ (Cell.Later cfg.params) l l')
    (hf : ∀ cell ∈ l, cell.finished = true) : ∀ cell ∈ l', cell.finished = true := by
  intro b hb
  obtain ⟨k, hb⟩ := List.mem_iff_getElem?.mp hb
  obtain ⟨a, ha, hab⟩ := forall₂_getElem? h hb
  exact hab.finished (hf a (List.mem_of_getElem? ha))

/-- Without callers nobody sends a read. -/
theorem Move.unsent (hw : d.Wired cfg r) (hm : Move cfg d e d')
    (hu : d.life.unused = true)
    (hc : d.callers = ∅ ∧ ∀ cell ∈ d.cells, cell.loop.hist.requests = []) :
    d'.callers = ∅ ∧ ∀ cell ∈ d'.cells, cell.loop.hist.requests = [] := by
  cases hm with
  | kept _ hk _ =>
    refine ⟨hk.callers.trans hc.1, fun b hb => ?_⟩
    obtain ⟨k, hb⟩ := List.mem_iff_getElem?.mp hb
    obtain ⟨a, ha, hab⟩ := forall₂_getElem? hk.cells hb
    exact hab.requests.trans (hc.2 a (List.mem_of_getElem? ha))
  | start =>
    refine ⟨hc.1, fun cell hcell => ?_⟩
    rcases List.mem_append.mp hcell with hold | hnew
    · exact hc.2 cell hold
    · rw [List.mem_singleton.mp hnew]
      rfl
  | submit hrun =>
    rw [hrun] at hu
    cases hu
  | caller hx =>
    rw [hc.1] at hx
    cases hx
  | turn hv he ht =>
    obtain ⟨freed, hturn⟩ := hw.turn_cases hv he ht
    refine ⟨hc.1, Wired.mem_install hv (P := fun s => s.hist.requests = []) hc.2 fun hs => ?_⟩
    rw [hturn.requests, hs]

/-- A handle's operations start no `submit`. -/
theorem submitting_of_act {x : Caller} {y : Option Caller} {c : CallerEvent} {id : Nat}
    {v v' : View}
    (ha : x.act c id r v = some (y, v')) {s : Submit} (hy : y = some (.submitting s)) :
    ∃ s, x = .submitting s := by
  subst hy
  unfold Caller.act at ha
  split at ha
  · exact ⟨_, rfl⟩
  · split at ha <;> cases ha
  · split at ha <;> cases ha
  · split at ha <;> cases ha
  · cases ha

/-- While no `submit` begins none is running. -/
theorem Move.submitsDone (hm : Move cfg d e d') (hl : d'.life.ending = true) (h : d.SubmitsDone) :
    d'.SubmitsDone := by
  cases hm with
  | kept _ hk _ =>
    unfold SubmitsDone
    rw [hk.callers]
    exact h
  | start => exact h
  | submit hrun =>
    have hl : d.life.ending = true := hl
    rw [hrun] at hl
    cases hl
  | @caller id c x y v v' hx hv ha =>
    intro j s hj
    by_cases hid : j = id
    · subst hid
      rw [lookup_put_self] at hj
      obtain ⟨s, rfl⟩ := submitting_of_act ha hj
      exact h _ s hx
    · rw [lookup_put_of_ne _ hid] at hj
      exact h j s hj
  | turn => exact h

namespace Ended

theorem init : (Driver.init cfg r).Ended :=
  ⟨fun _ => ⟨rfl, fun _ h => nomatch h⟩, nofun, nofun, nofun⟩

theorem step (h : d.Ended) (hw : d.Wired cfg r) (hs : Driver.step cfg d e = some d') :
    d'.Ended := by
  have hm := step_move hs
  have hlife := step_life hs
  have hrow (hl : d.life ≠ .starting) : List.Forall₂ (Cell.Later cfg.params) d.cells d'.cells :=
    (step_later hw hs).resolve_left fun hc => hl hc.1
  refine ⟨fun hu => ?_, fun he => ?_, fun failed k asked hl => ?_, fun hg => ?_⟩
  · exact hm.unsent hw (hlife.unused hu) (h.unused (hlife.unused hu))
  · refine hm.submitsDone he ?_
    rcases hlife.ending he with hold | hunused | hun
    · exact h.returned hold
    · intro id s hx
      rw [(h.unused hunused).1] at hx
      cases hx
    · exact submitsDone_of_unborrowed hun
  · cases hlife with
    | same hsame =>
      have hold := hsame.symm.trans hl
      have hne : d.life ≠ .starting := by
        rw [hold]
        nofun
      exact finished_row (List.forall₂_take k (hrow hne)) (h.joined failed k asked hold)
    | started _ h' | retire _ _ h' | gone _ _ h' =>
      rw [h'] at hl
      cases hl
    | failed _ h' | joining _ h' =>
      rw [h'] at hl
      cases hl
      exact fun _ hmem => nomatch hmem
    | asked hold h' =>
      rw [h'] at hl
      cases hl
      have hne : d.life ≠ .starting := by
        rw [hold]
        nofun
      exact finished_row (List.forall₂_take k (hrow hne)) (h.joined _ _ _ hold)
    | joined hold hcell hfin h' =>
      rw [h'] at hl
      cases hl
      have hne : d.life ≠ .starting := by
        rw [hold]
        nofun
      refine finished_row (List.forall₂_take _ (hrow hne)) ?_
      rw [List.take_add_one, hcell]
      intro a ha
      rcases List.mem_append.mp ha with hmem | hmem
      · exact h.joined _ _ _ hold a hmem
      · rw [List.mem_singleton.mp hmem]
        exact hfin
  · cases hlife with
    | same hsame =>
      rw [hsame] at hg
      have hne : d.life ≠ .starting := by
        intro hc
        rw [hc] at hg
        cases hg
      exact finished_row (hrow hne) (h.gone hg)
    | started _ h' | failed _ h' | retire _ _ h' | joining _ h' | asked _ h' | joined _ _ _ h' =>
      rw [h'] at hg
      cases hg
    | gone hold hk _ =>
      have hne : d.life ≠ .starting := by
        rw [hold]
        nofun
      refine finished_row (hrow hne) ?_
      have hall := h.joined _ _ _ hold
      rwa [List.take_of_length_le hk] at hall

end Ended

theorem Reach.ended (h : Reach cfg r d) : d.Ended :=
  h.invariant .init fun _ _ _ hr hi _ hs => hi.step (Reach.wired hr) hs

/-- A handle's operations never defer it anew. -/
theorem deferred_of_act {h h' : ReadHandle} {y : Option Caller} {c : CallerEvent} {id : Nat}
    {v v' : View} {w' : Waiting} (ha : (Caller.holding h).act c id r v = some (y, v'))
    (hy : y = some (.holding h')) (hs : h'.state = .waiting w') (hf : h'.finished = none) :
    ∃ w, h.state = .waiting w ∧ h.finished = none := by
  cases c with
  | call => cases ha
  | poll =>
    simp only [Caller.act] at ha
    split at ha
    · cases ha
    · rename_i hfin
      cases ha
      obtain rfl := Caller.holding.inj (Option.some.inj hy)
      rw [Bool.not_eq_true, Option.isSome_eq_false_iff, Option.isNone_iff_eq_none] at hfin
      cases hst : h.state with
      | inert value =>
        simp only [ReadHandle.poll, hst, ReadHandle.finish] at hf
        cases hf
      | waiting w => exact ⟨w, rfl, hfin⟩
      | submitted =>
        simp only [ReadHandle.poll, hst] at hs
        split at hs
        · cases hst.symm.trans hs
        · cases hst.symm.trans hs
        · cases hst.symm.trans hs
  | keep =>
    simp only [Caller.act] at ha
    split at ha
    · cases ha
    · cases ha
      obtain rfl := Caller.holding.inj (Option.some.inj hy)
      exact ⟨w', hs, hf⟩
  | drop =>
    simp only [Caller.act] at ha
    split at ha <;> cases ha
    cases hy

/-- Once no `submit` runs, no handle is deferred anew. -/
theorem Move.deferred (hm : Move cfg d e d') (hl : d'.life.ending = true) (hdone : d.SubmitsDone)
    (h : ∀ id h w, ¬ d.Deferred id h w) : ∀ id h w, ¬ d'.Deferred id h w := by
  cases hm with
  | kept _ hk _ =>
    unfold Deferred
    rw [hk.callers]
    exact h
  | start => exact h
  | submit hrun =>
    have hl : d.life.ending = true := hl
    rw [hrun] at hl
    cases hl
  | @caller id c x y v v' hx hv ha =>
    rintro j h' w' ⟨hj, hs, hf⟩
    by_cases hid : j = id
    · subst hid
      rw [lookup_put_self] at hj
      cases x with
      | submitting s => exact hdone _ s hx
      | holding hd =>
        obtain ⟨w, hs', hf'⟩ := deferred_of_act ha hj hs hf
        exact h _ hd w ⟨hx, hs', hf'⟩
    · rw [lookup_put_of_ne _ hid] at hj
      exact h j h' w' ⟨hj, hs, hf⟩
  | turn => exact h

theorem LifeMove.dropped (h : LifeMove d d') (hd : d.life.dropped = true) :
    d'.life.dropped = true := by
  cases h with
  | same h => rwa [h]
  | started h | failed h | retire h | joining h | asked h | joined h | gone h =>
    rw [h] at hd
    cases hd

theorem not_starting_of_dropped {l : Life} (h : l.dropped = true) : l ≠ .starting := by
  rintro rfl
  cases h

theorem ending_of_dropped {l : Life} (h : l.dropped = true) : l.ending = true := by
  cases l <;> first | rfl | cases h

/-- What is left of a driver without threads. -/
theorem queued_of_finished (hr : Reach cfg r d) {cell : Cell} (hcell : cell ∈ d.cells)
    (hf : cell.finished = true) : readMsgs cell.loop.chan = [] := by
  obtain ⟨⟨leaked, hp⟩, _⟩ := Cell.finished_iff.mp hf
  rw [(Shard.Reach.exited ((Reach.wired hr).loops cell hcell) hp).1]
  rfl

/-- Retirement is final. -/
theorem Retired.step (h : d.Retired) (hr : Reach cfg r d) (hs : Driver.step cfg d e = some d') :
    d'.Retired := by
  have hw := Reach.wired hr
  have hr' : Reach cfg r d' := hr.next trivial hs
  have hvalue := (step_life hs).dropped h.value
  have hrow := (step_later hw hs).resolve_left fun hc => not_starting_of_dropped h.value hc.1
  have hthreads := finished_row hrow h.threads
  have hdone := (Reach.ended hr).returned (ending_of_dropped h.value)
  refine ⟨hvalue, hthreads, (step_move hs).deferred (ending_of_dropped hvalue) hdone h.deferred,
    fun cell hcell => queued_of_finished hr' hcell (hthreads cell hcell), fun b hb id hid => ?_⟩
  obtain ⟨k, hb⟩ := List.mem_iff_getElem?.mp hb
  obtain ⟨a, ha, hab⟩ := forall₂_getElem? hrow hb
  have hmem := List.mem_of_getElem? ha
  obtain ⟨⟨leaked, hp⟩, _⟩ := Cell.finished_iff.mp (h.threads a hmem)
  have hids := (hab.loop.exiting (hw.loops a hmem) (Or.inr hp)).2
  exact h.pending a hmem id ((hids id).mp hid)

/-- A leaked entry is never freed. -/
theorem Leaked.step (h : d.Leaked) (hr : Reach cfg r d) (hs : Driver.step cfg d e = some d') :
    d'.Leaked := by
  have hw := Reach.wired hr
  obtain ⟨cell, hcell, hexit, id, hid⟩ := h
  rcases step_later hw hs with ⟨_, rfl⟩ | hrow
  · exact ⟨cell, List.mem_append_left _ hcell, hexit, id, hid⟩
  · obtain ⟨k, hk⟩ := List.mem_iff_getElem?.mp hcell
    obtain ⟨b, hb, hab⟩ := forall₂_getElem? (List.Forall₂.flip hrow) hk
    obtain ⟨hexit', hids⟩ := hab.loop.exiting (hw.loops cell hcell) hexit
    exact ⟨b, List.mem_of_getElem? hb, hexit', id, (hids id).mpr hid⟩

/-- Every permit of a shard carries the driver's reservation. -/
theorem Wired.heldPermits_shared (hw : d.Wired cfg r) {cell : Cell} (hcell : cell ∈ d.cells)
    {p : ReadPermits} (hp : p ∈ cell.loop.heldPermits) : p.sharedReservation = d.reservation := by
  obtain ⟨m, hm, rfl⟩ := Shard.Reach.heldPermits_sent (hw.loops cell hcell) hp
  obtain ⟨req, charge, _, hmsg⟩ := hw.sent cell hcell m hm
  rw [hmsg]
  rfl

/-- A shard owns receipt `i` as long as it has a queued read or a pending entry. -/
theorem Wired.receipts_eq_zero (hw : d.Wired cfg r) {i : Nat} (hi : d.reservation = some i)
    {cell : Cell} (hcell : cell ∈ d.cells) : cell.loop.receipts i = 0 ↔
      readMsgs cell.loop.chan = [] ∧ ∀ id, id ∉ cell.loop.pending := by
  rw [Shard.receipts, List.countP_eq_zero, ← Shard.heldPermits_eq_nil]
  constructor
  · intro h
    refine List.eq_nil_iff_forall_not_mem.mpr fun p hp => h p hp ?_
    rw [decide_eq_true_eq, hw.heldPermits_shared hcell hp, hi]
  · intro h p hp
    rw [h] at hp
    cases hp

/-- A caller owns receipt `i` as long as its handle has an unresolved acquire. -/
theorem Wired.callerReceipts_eq_zero (hw : d.Wired cfg r) {i : Nat} (hi : d.reservation = some i) :
    d.callers.total (Caller.receipts i) = 0 ↔ ∀ id h w, ¬ d.Deferred id h w := by
  rw [AList.total_eq_zero_iff]
  constructor
  · rintro hzero id h w ⟨hx, hs, hf⟩
    have hres := (hw.valid id _ hx w hs).2
    have hone := hzero id _ hx
    simp only [Caller.receipts, hs, hf, hres, hi, if_true] at hone
    cases hone
  · intro hnone id x hx
    unfold Caller.receipts
    split
    · rfl
    · rename_i h
      split
      · rename_i w hs hf
        exact absurd ⟨hx, hs, hf⟩ (hnone id h w)
      · rfl

theorem admissionHeld_eq_false : d.admissionHeld = false ↔
    d.life.dropped = true ∧ ∀ cell ∈ d.cells, cell.guard = .finished := by
  simp [admissionHeld]

/-- The receipt is without owners exactly when nothing of the driver is left. -/
theorem owners_eq_zero_iff {i : Nat} (h : Reach cfg (some i) d)
    (hl : cfg.limits.maxInFlightBytes.isSome = true) : d.owners i = 0 ↔ d.Retired := by
  have hw := Reach.wired h
  have hi : d.reservation = some i := by
    obtain ⟨n, hn⟩ := Option.isSome_iff_exists.mp hl
    rw [hw.reservation, hn]
    rfl
  have hsum : (d.cells.map fun cell => cell.loop.receipts i).sum = 0 ↔
      ∀ cell ∈ d.cells, readMsgs cell.loop.chan = [] ∧ ∀ id, id ∉ cell.loop.pending := by
    rw [List.sum_eq_zero_iff, List.forall_mem_map]
    exact forall₂_congr fun cell hcell => hw.receipts_eq_zero hi hcell
  have hadm : (if d.admissionHeld = true ∧ d.reservation = some i then 1 else 0) = 0 ↔
      d.admissionHeld = false := by
    simp [hi]
  rw [owners, Nat.add_eq_zero_iff, Nat.add_eq_zero_iff, hsum, hadm, hw.callerReceipts_eq_zero hi,
    admissionHeld_eq_false]
  constructor
  · rintro ⟨⟨⟨hvalue, _⟩, hdeferred⟩, hcells⟩
    exact ⟨hvalue, (Reach.ended h).gone hvalue, hdeferred, fun cell hc => (hcells cell hc).1,
      fun cell hc => (hcells cell hc).2⟩
  · rintro ⟨hvalue, hthreads, hdeferred, hqueued, hpending⟩
    exact ⟨⟨⟨hvalue, fun cell hc => (Cell.finished_iff.mp (hthreads cell hc)).2⟩, hdeferred⟩,
      fun cell hc => ⟨hqueued cell hc, hpending cell hc⟩⟩

/-- A failed start leaves nothing once its shards are dropped. -/
theorem Ended.retired_of_failed (h : d.Ended) (hw : d.Wired cfg r) (hl : d.life = .gone true) :
    d.Retired := by
  have hdropped : d.life.dropped = true := by rw [hl]; rfl
  obtain ⟨hcallers, hrequests⟩ := h.unused (by rw [hl]; rfl)
  have hnil (cell : Cell) (hcell : cell ∈ d.cells) : cell.loop.heldPermits = [] := by
    refine List.eq_nil_iff_forall_not_mem.mpr fun p hp => ?_
    obtain ⟨m, hm, _⟩ := Shard.Reach.heldPermits_sent (hw.loops cell hcell) hp
    rw [hrequests cell hcell] at hm
    cases hm
  refine ⟨hdropped, h.gone hdropped, ?_,
    fun cell hc => (Shard.heldPermits_eq_nil.mp (hnil cell hc)).1,
    fun cell hc => (Shard.heldPermits_eq_nil.mp (hnil cell hc)).2⟩
  rintro id hd w ⟨hx, _⟩
  rw [hcallers] at hx
  cases hx
end Driver

end Uring
