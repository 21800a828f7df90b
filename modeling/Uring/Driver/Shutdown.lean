import Uring.Driver.Admission
import Uring.Driver.Bound

/-!
# Shutdown closes admission

A closer that empties the registry may still be closing count semaphores when a second
closer returns; every call therefore closes all of them itself. When a call returns,
both kinds of semaphore are closed for good, and no later `submit` or poll sends a read.
-/

namespace Uring

open Uring.Core Caller

/-- This close of byte admission is past the byte semaphore. -/
def Closing.PastBytes : Closing → Prop
  | .lock | .bytes _ => False
  | .counts _ | .finished => True

namespace Driver

/-- The byte semaphore is closed, where there is one. -/
def BytesClosed (d : Driver) : Prop := ∀ b, d.bytes = some b → b.closed = true

/-- All admission is closed. -/
structure AdmissionClosed (d : Driver) : Prop where
  counts : ∀ cell ∈ d.cells, cell.sem.closed = true
  bytes : d.BytesClosed

/-- What a running `request_shutdown` has closed. -/
def ClosedBy (d : Driver) : Shutdown → Prop
  | .admission c => c.PastBytes → d.BytesClosed
  | .sems rest => d.BytesClosed ∧
      ∀ k cell, d.cells[k]? = some cell → k ∈ rest ∨ cell.sem.closed = true
  | .notify _ | .returned => d.AdmissionClosed

/-- No semaphore is reopened, and no shard is added. -/
structure StaysClosed (d d' : Driver) : Prop where
  counts : List.Forall₂ (fun a b => a.sem.closed = true → b.sem.closed = true) d.cells d'.cells
  bytes : d.BytesClosed → d'.BytesClosed

theorem StaysClosed.refl (d : Driver) : d.StaysClosed d :=
  ⟨List.forall₂_same.mpr fun _ _ => id, id⟩

/-- What moves no permit reopens nothing. -/
theorem Kept.staysClosed {c : Params} {d d' : Driver} (h : d.Kept c d') : d.StaysClosed d' := by
  refine ⟨h.cells.imp fun a b hab => hab.sem.closed, fun hb b' hb' => ?_⟩
  have hrel := h.bytes
  rw [hb'] at hrel
  cases hb0 : d.bytes with
  | none =>
    rw [hb0] at hrel
    exact hrel.elim
  | some b =>
    rw [hb0] at hrel
    exact hrel.closed (hb b hb0)

/-- Installing an operation that reopens nothing. -/
theorem staysClosed_install {d : Driver} {k : Nat} {v v' : View} (hv : d.view k = some v)
    (hs : v.sem.closed = true → v'.sem.closed = true)
    (hb : ∀ b', v'.bytes = some b' → ∃ b, v.bytes = some b ∧ (b.closed = true → b'.closed = true)) :
    d.StaysClosed (d.install k v') := by
  obtain ⟨cell, hcell, rfl⟩ := view_eq_some hv
  refine ⟨forall₂_modify (fun _ => id) fun a ha => ?_, fun hclosed b' hb' => ?_⟩
  · obtain rfl : a = cell := Option.some.inj (ha.symm.trans hcell)
    exact hs
  · obtain ⟨b, hb0, himp⟩ := hb b' hb'
    exact himp (hclosed b hb0)

/-- Only the start of a shard adds an open semaphore. -/
theorem Move.staysClosed {cfg : Config} {r : Option Nat} {d d' : Driver} {e : DriverEvent}
    (hw : d.Wired cfg r) (hm : Move cfg d e d') :
    d.StaysClosed d' ∨ d.life = .starting ∧ d' = d.startShard cfg := by
  cases hm with
  | kept _ hk _ => exact Or.inl hk.staysClosed
  | start hs => exact Or.inr ⟨hs, rfl⟩
  | submit => exact Or.inl ⟨(StaysClosed.refl d).counts, id⟩
  | @caller id e x y v v' hx hv ha =>
    obtain ⟨hsem, hbytes⟩ := (Caller.act_cases (c := cfg.params) ha).closed
    have h := staysClosed_install hv (fun hc => hsem.trans hc) fun b' hb' => by
      obtain ⟨b, hb, heq⟩ := hbytes b' hb'
      exact ⟨b, hb, fun hc => heq.trans hc⟩
    refine Or.inl ⟨?_, fun hb b hb' => h.bytes hb b ?_⟩
    · rw [put_cells]
      exact h.counts
    · rw [← hb', put_bytes]
  | @turn k e v v' hv he ht =>
    obtain ⟨freed, hturn⟩ := hw.turn_cases hv he ht
    refine Or.inl (staysClosed_install hv hturn.closed fun b' hb' => ?_)
    cases hb : v.bytes with
    | none =>
      rw [hturn.unlimited hb] at hb'
      cases hb'
    | some b =>
      obtain ⟨b'', hb'', hgiven⟩ := hturn.bytes b hb
      obtain rfl : b'' = b' := Option.some.inj (hb''.symm.trans hb')
      exact ⟨b, rfl, fun hc => hgiven.closed.trans hc⟩

/-- The byte semaphore is never reopened. -/
theorem Move.bytesClosed {cfg : Config} {r : Option Nat} {d d' : Driver} {e : DriverEvent}
    (hw : d.Wired cfg r) (hm : Move cfg d e d') (h : d.BytesClosed) : d'.BytesClosed := by
  rcases hm.staysClosed hw with hs | ⟨_, rfl⟩
  · exact hs.bytes h
  · exact h

theorem StaysClosed.admissionClosed {d d' : Driver} (h : d.StaysClosed d')
    (hc : d.AdmissionClosed) : d'.AdmissionClosed := by
  refine ⟨fun b hb => ?_, h.bytes hc.bytes⟩
  obtain ⟨k, hb⟩ := List.mem_iff_getElem?.mp hb
  obtain ⟨a, ha, hab⟩ := forall₂_getElem? h.counts hb
  exact hab (hc.counts a (List.mem_of_getElem? ha))

/-- What a call has closed stays closed. -/
theorem StaysClosed.closedBy {d d' : Driver} (h : d.StaysClosed d') {pc : Shutdown}
    (hc : d.ClosedBy pc) : d'.ClosedBy pc := by
  cases pc with
  | admission c => exact fun hp => h.bytes (hc hp)
  | sems rest =>
    refine ⟨h.bytes hc.1, fun k b hb => ?_⟩
    obtain ⟨a, ha, hab⟩ := forall₂_getElem? h.counts hb
    exact (hc.2 k a ha).imp_right hab
  | notify rest => exact h.admissionClosed hc
  | returned => exact h.admissionClosed hc

theorem closedBy_congr {d d' : Driver} (hc : d'.cells = d.cells) (hb : d'.bytes = d.bytes)
    {pc : Shutdown} (h : d.ClosedBy pc) : d'.ClosedBy pc := by
  refine StaysClosed.closedBy ⟨?_, fun hclosed b hb' => hclosed b (hb ▸ hb')⟩ h
  rw [hc]
  exact (StaysClosed.refl d).counts

/-- One operation of `ByteAdmission::close`. -/
theorem pastBytes_closeStep {d : Driver} {pc : Closing} (h : pc.PastBytes → d.BytesClosed) :
    (d.closeStep pc).1.PastBytes → (d.closeStep pc).2.BytesClosed := by
  unfold closeStep
  split
  · exact False.elim
  · rintro - b hb
    obtain ⟨a, _, rfl⟩ := Option.map_eq_some_iff.mp hb
    exact Semaphore.closed_close a
  · exact h
  · exact h
  · exact h

theorem closedBy_first (d : Driver) : d.ClosedBy d.firstShutdown := by
  unfold firstShutdown
  split
  · exact False.elim
  · rename_i hb
    refine ⟨fun b hb' => absurd (hb' ▸ rfl) hb, fun k cell hk => Or.inl ?_⟩
    exact List.mem_range.mpr (List.getElem?_eq_some_iff.mp hk).1

/-- Every operation of a call keeps what it closed, and the call has closed what it is
past. -/
theorem closedBy_shutdownStep {d : Driver} {t : Nat} {pc : Shutdown} (h : d.ClosedBy pc) :
    (d.shutdownStep t pc).2.ClosedBy (d.shutdownStep t pc).1 := by
  unfold shutdownStep
  split
  · refine ⟨h trivial, fun k cell hk => Or.inl ?_⟩
    exact List.mem_range.mpr (List.getElem?_eq_some_iff.mp hk).1
  · exact pastBytes_closeStep h
  · refine ⟨fun cell hcell => ?_, h.1⟩
    obtain ⟨k, hk⟩ := List.mem_iff_getElem?.mp hcell
    exact (h.2 k cell hk).resolve_left List.not_mem_nil
  · rename_i k rest
    refine ⟨h.1, fun j b hb => ?_⟩
    rcases getElem?_modify_cases hb with ⟨_, a, _, rfl⟩ | ⟨hne, hb⟩
    · exact Or.inr (Semaphore.closed_close a.sem)
    · rcases h.2 j b hb with hmem | hclosed
      · exact Or.inl ((List.mem_cons.mp hmem).resolve_left hne)
      · exact Or.inr hclosed
  · exact h
  · refine ⟨fun cell hcell => ?_, h.bytes⟩
    rcases mem_modify_cases hcell with ⟨a, ha, rfl⟩ | hold
    · exact h.counts a (List.mem_of_getElem? ha)
    · exact h.counts cell hold
  · exact h

/-- What one transition does to the closers and the exit guards. -/
inductive Control (cfg : Config) (d : Driver) : Driver → Prop
  | same {d' : Driver} (hc : d'.closers = d.closers)
      (hg : d'.cells.map Cell.guard = d.cells.map Cell.guard)
      (hl : d'.life = .starting → d.life = .starting) : Control cfg d d'
  | start (hl : d.life = .starting) : Control cfg d (d.startShard cfg)
  /-- A call of `request_shutdown` begins. -/
  | begin {d' : Driver} {t : Nat} (hc : d'.closers = d.closers.insert t d.firstShutdown)
      (hcells : d'.cells = d.cells) (hb : d'.bytes = d.bytes) (hl : d'.life ≠ .starting) :
      Control cfg d d'
  | closer {d' : Driver} {t : Nat} {pc : Shutdown} (hpc : d.closers.lookup t = some pc)
      (hc : d'.closers = d.closers.insert t (d.shutdownStep t pc).1)
      (hcells : d'.cells = (d.shutdownStep t pc).2.cells)
      (hb : d'.bytes = (d.shutdownStep t pc).2.bytes) (hl : d'.life = d.life) : Control cfg d d'
  | guard {k : Nat} {cell : Cell} (hcell : d.cells[k]? = some cell) :
      Control cfg d { (d.closeStep cell.guard).2 with
        cells := (d.closeStep cell.guard).2.cells.modify k fun a =>
          { a with guard := (d.closeStep cell.guard).1 } }

/-- Operations on one shard leave the exit guards alone. -/
theorem guards_modify {f : Cell → Cell} (h : ∀ a, (f a).guard = a.guard) (cells : List Cell)
    (k : Nat) : (cells.modify k f).map Cell.guard = cells.map Cell.guard :=
  map_modify_of_eq h cells k

theorem guards_install (d : Driver) (k : Nat) (v : View) :
    (d.install k v).cells.map Cell.guard = d.cells.map Cell.guard :=
  guards_modify (f := fun a => { a with loop := v.loop, sem := v.sem }) (fun _ => rfl) d.cells k

theorem guards_closeSem (d : Driver) (k : Nat) :
    (d.closeSem k).cells.map Cell.guard = d.cells.map Cell.guard :=
  guards_modify (f := fun a => { a with sem := a.sem.close }) (fun _ => rfl) d.cells k

/-- Closing byte admission changes no guard, no call and no life. -/
theorem closeStep_control (d : Driver) (pc : Closing) :
    (d.closeStep pc).2.closers = d.closers ∧
      (d.closeStep pc).2.cells.map Cell.guard = d.cells.map Cell.guard ∧
      (d.closeStep pc).2.life = d.life := by
  unfold closeStep
  split
  · exact ⟨rfl, rfl, rfl⟩
  · exact ⟨rfl, rfl, rfl⟩
  · exact ⟨rfl, rfl, rfl⟩
  · exact ⟨rfl, d.guards_closeSem _, rfl⟩
  · exact ⟨rfl, rfl, rfl⟩

/-- One operation of a call changes no guard, no other call and no life. -/
theorem shutdownStep_control (d : Driver) (t : Nat) (pc : Shutdown) :
    (d.shutdownStep t pc).2.closers = d.closers ∧
      (d.shutdownStep t pc).2.cells.map Cell.guard = d.cells.map Cell.guard ∧
      (d.shutdownStep t pc).2.life = d.life := by
  unfold shutdownStep
  split
  · exact ⟨rfl, rfl, rfl⟩
  · exact d.closeStep_control _
  · exact ⟨rfl, rfl, rfl⟩
  · exact ⟨rfl, d.guards_closeSem _, rfl⟩
  · exact ⟨rfl, rfl, rfl⟩
  · exact ⟨rfl, guards_modify (by intro a; rfl) d.cells _, rfl⟩
  · exact ⟨rfl, rfl, rfl⟩

theorem joinStep_control {cfg : Config} {d d' : Driver} (h : d.joinStep cfg = some d') :
    d'.closers = d.closers ∧ d'.cells.map Cell.guard = d.cells.map Cell.guard ∧
      d'.life ≠ .starting := by
  unfold joinStep at h
  split at h
  · split at h
    · cases h
      exact ⟨rfl, rfl, nofun⟩
    · cases h
  · split at h
    · cases h
      exact ⟨rfl, rfl, nofun⟩
    · split at h
      · split at h
        · cases h
          exact ⟨rfl, rfl, nofun⟩
        · cases h
      · cases h
        exact ⟨rfl, guards_modify (by intro a; rfl) d.cells _, nofun⟩
  · cases h

theorem step_control {cfg : Config} {d d' : Driver} {e : DriverEvent}
    (h : step cfg d e = some d') : Control cfg d d' := by
  cases (step_transition h).2 with
  | startShard hl hn => exact .start hl
  | started | failStart => exact .same rfl rfl nofun
  | submit hl hs =>
    obtain ⟨_, x, _, rfl⟩ := beginSubmit_cases hs
    exact .same rfl rfl id
  | @caller id e x v v' y hx hv ha =>
    refine .same ?_ ?_ ?_
    · cases y <;> rfl
    · rw [put_cells, guards_install]
    · rw [put_life]
      exact fun hl => hl
  | @turn k e v v' he hv ht => exact .same rfl (d.guards_install k v') fun hl => hl
  | guard hcell hp => exact .guard hcell
  | @requestShutdown t hl ht =>
    refine .begin (t := t) rfl rfl rfl ?_
    rw [hl]
    nofun
  | @closer t pc hpc =>
    obtain ⟨hc, _, hl⟩ := d.shutdownStep_control t pc
    exact .closer hpc (congrArg (fun c => c.insert t (d.shutdownStep t pc).1) hc) rfl rfl hl
  | @retire t hl hu ht => exact .begin (t := t) rfl rfl rfl nofun
  | join hj =>
    obtain ⟨hc, hg, hl⟩ := joinStep_control hj
    exact .same hc hg fun hs => absurd hs hl

/-- Every call of `request_shutdown` and every exit guard has closed what it is past. -/
structure ClosersDone (d : Driver) : Prop where
  closers : d.closers.All fun _ pc => d.ClosedBy pc
  guards : ∀ cell ∈ d.cells, cell.guard.PastBytes → d.BytesClosed
  starting : d.life = .starting → d.closers = ∅

namespace ClosersDone

variable {cfg : Config} {r : Option Nat}

theorem init : (Driver.init cfg r).ClosersDone :=
  ⟨AList.all_empty, fun _ h => (List.not_mem_nil h).elim, fun _ => rfl⟩

/-- A guard past the byte semaphore has closed it, also when the row of cells changed. -/
theorem of_guards {d : Driver} (h : d.ClosersDone) {cells : List Cell}
    (hg : cells.map Cell.guard = d.cells.map Cell.guard) {cell : Cell} (hcell : cell ∈ cells)
    (hp : cell.guard.PastBytes) : d.BytesClosed := by
  have hmem : cell.guard ∈ d.cells.map Cell.guard := hg ▸ List.mem_map_of_mem hcell
  obtain ⟨a, ha, heq⟩ := List.mem_map.mp hmem
  exact h.guards a ha (heq ▸ hp)

theorem start {d : Driver} (h : d.ClosersDone) (hl : d.life = .starting) :
    (d.startShard cfg).ClosersDone := by
  refine ⟨?_, fun cell hcell hp => ?_, h.starting⟩
  · have hnone : (d.startShard cfg).closers = ∅ := h.starting hl
    rw [hnone]
    exact AList.all_empty
  · rcases List.mem_append.mp hcell with hold | hnew
    · exact h.guards cell hold hp
    · rw [List.mem_singleton.mp hnew] at hp
      intro b hb
      have hb : d.bytes = some b := hb
      simp only [hb, Option.isSome_some, if_true, Closing.PastBytes] at hp

/-- Before the driver runs nobody has called `request_shutdown`. -/
theorem not_starting {d : Driver} (h : d.ClosersDone) {t : Nat} {pc : Shutdown}
    (hpc : d.closers.lookup t = some pc) : d.life ≠ .starting := by
  intro hl
  rw [h.starting hl] at hpc
  cases hpc

theorem step {d d' : Driver} {e : DriverEvent} (h : d.ClosersDone) (hw : d.Wired cfg r)
    (hs : Driver.step cfg d e = some d') : d'.ClosersDone := by
  have hbytes := (step_move hs).bytesClosed hw
  have hold : d.closers.All fun _ pc => d'.ClosedBy pc := by
    intro t pc hpc
    rcases (step_move hs).staysClosed hw with hstays | ⟨hl, _⟩
    · exact hstays.closedBy (h.closers t pc hpc)
    · exact absurd hl (h.not_starting hpc)
  cases step_control hs with
  | same hc hg hl =>
    refine ⟨?_, fun cell hcell hp => hbytes (h.of_guards hg hcell hp),
      fun hl' => hc.trans (h.starting (hl hl'))⟩
    rw [hc]
    exact hold
  | start hl => exact h.start hl
  | begin hc hcells hb hl =>
    refine ⟨?_, fun cell hcell hp => hbytes (h.guards cell (hcells ▸ hcell) hp),
      fun hs => absurd hs hl⟩
    rw [hc]
    exact hold.insert (closedBy_congr hcells hb d.closedBy_first)
  | @closer _ t pc hpc hc hcells hb hl =>
    have hg := (d.shutdownStep_control t pc).2.1
    refine ⟨?_, fun cell hcell hp => hbytes (h.of_guards hg (hcells ▸ hcell) hp),
      fun hl' => absurd (hl.symm.trans hl') (h.not_starting hpc)⟩
    rw [hc]
    exact hold.insert (closedBy_congr hcells hb (closedBy_shutdownStep (h.closers t pc hpc)))
  | @guard k cell hcell =>
    obtain ⟨hc, hg, hlife⟩ := d.closeStep_control cell.guard
    refine ⟨?_, fun b hb hp => ?_, fun hl => hc.trans (h.starting (hlife.symm.trans hl))⟩
    · rw [hc]
      exact hold
    · rcases mem_modify_cases hb with ⟨a, _, rfl⟩ | hb
      · exact pastBytes_closeStep (h.guards cell (List.mem_of_getElem? hcell)) hp
      · exact hbytes (h.of_guards hg hb hp)

end ClosersDone

theorem Reach.closersDone {cfg : Config} {r : Option Nat} {d : Driver} (h : Reach cfg r d) :
    d.ClosersDone :=
  h.invariant .init fun _ _ _ hr hi _ hs => hi.step (Reach.wired hr) hs

theorem Move.not_starting {cfg : Config} {d d' : Driver} {e : DriverEvent} (hm : Move cfg d e d')
    (h : d.life ≠ .starting) : d'.life ≠ .starting := by
  cases hm with
  | kept _ _ hl =>
    rcases hl with hl | ⟨hl, _⟩
    · rw [hl]
      exact h
    · exact hl
  | start hl => exact absurd hl h
  | submit => exact h
  | caller =>
    rw [put_life]
    exact h
  | turn => exact h

/-- Closed admission stays closed in every later state. -/
theorem AdmissionClosed.later {cfg : Config} {r : Option Nat} {d d' : Driver} (h : Reach cfg r d)
    (hc : d.AdmissionClosed) (hl : d.life ≠ .starting)
    (h' : Reachable (step cfg) anyLabel d d') : d'.AdmissionClosed ∧ d'.life ≠ .starting := by
  refine h'.invariant (I := fun d => d.AdmissionClosed ∧ d.life ≠ .starting) ⟨hc, hl⟩ ?_
  rintro a e b ha ⟨hca, hla⟩ - hs
  have hm := step_move hs
  refine ⟨?_, hm.not_starting hla⟩
  rcases hm.staysClosed (Reach.wired (h.trans ha)) with hstays | ⟨hstart, _⟩
  · exact hstays.admissionClosed hca
  · exact absurd hstart hla

/-- The view of a shard once admission is closed. -/
theorem AdmissionClosed.view {d : Driver} (h : d.AdmissionClosed) {k : Nat} {v : View}
    (hv : d.view k = some v) :
    v.sem.closed = true ∧ ∀ b, v.bytes = some b → b.closed = true := by
  obtain ⟨cell, hcell, rfl⟩ := view_eq_some hv
  exact ⟨h.counts cell (List.mem_of_getElem? hcell), h.bytes⟩

end Driver

/-! ### A `submit` that begins after the close -/

/-- A `submit` that has met closed semaphores only. -/
def Submit.Late (s : Submit) : Prop :=
  match s.pc with
  | .checkBytes _ | .tryCount _ _ none | .recheckBytes none => True
  | _ => False

/-- The operations such a `submit` has left at most. -/
def Submit.left (s : Submit) : Nat :=
  match s.pc with
  | .checkBytes rest => rest.length + 3
  | .tryCount _ rest _ => rest.length + 2
  | _ => 1

theorem Submit.left_pos (s : Submit) : 0 < s.left := by
  unfold Submit.left
  split <;> omega

/-- One operation of a late `submit` changes nothing; it fails or has less left. -/
theorem Submit.late_step {s : Submit} (id : Nat) (r : Option Nat) {v : View} (h : s.Late)
    (hs : v.sem.closed = true) :
    (s.step id r v).2 = v ∧
      ((∃ k, (s.step id r v).1 = .holding (inertHandle k (.error driverGone))) ∨
        ∃ s' : Submit, (s.step id r v).1 = .submitting s' ∧ s'.Late ∧ s'.left < s.left) := by
  unfold Submit.Late at h
  unfold Submit.step
  split at h
  · rename_i rest hp
    simp only [hp]
    split
    · exact ⟨rfl, Or.inl ⟨_, rfl⟩⟩
    · refine ⟨rfl, Or.inr ⟨_, rfl, trivial, ?_⟩⟩
      simp only [Submit.left, hp]
      omega
  · rename_i k rest hp
    simp only [hp, Semaphore.tryAcquire_closed hs]
    split
    · cases rest with
      | nil =>
        refine ⟨rfl, Or.inr ⟨_, rfl, trivial, ?_⟩⟩
        simp only [Submit.left, hp, List.length_nil]
        omega
      | cons j rest =>
        refine ⟨rfl, Or.inr ⟨_, rfl, trivial, ?_⟩⟩
        simp only [Submit.left, hp, List.length_cons]
        omega
    · exact ⟨rfl, Or.inl ⟨_, rfl⟩⟩
  · rename_i hp
    simp only [hp]
    split
    · exact ⟨rfl, Or.inl ⟨_, rfl⟩⟩
    · exact ⟨rfl, Or.inl ⟨_, rfl⟩⟩
  · exact h.elim

/-- What every `submit` answers once admission is closed. -/
def lateAnswer (cfg : Config) (req : Request) : IoResult :=
  match validateRead cfg.params.usizeMax cfg.limits req.offset req.len req.align
      req.allowCurrentPosition with
  | .error e => .error e
  | .ok _ => .error driverGone

/-- A handle that holds its answer since it was made. -/
def ReadHandle.Holds (answer : IoResult) (h : ReadHandle) : Prop :=
  h.state = .inert answer ∧ (h.finished = none ∨ h.finished = some answer)

/-- A caller that began after the close. -/
def Caller.LateWith (answer : IoResult) : Caller → Prop
  | .submitting s => s.Late ∧ answer = .error driverGone
  | .holding h => h.Holds answer

/-- The operations a late caller has left at most. -/
def Caller.left : Caller → Nat
  | .submitting s => s.left
  | .holding _ => 0

/-- What is left after the caller may be gone. -/
def Caller.leftOf (y : Option Caller) : Nat := (y.map Caller.left).getD 0

@[simp] theorem Caller.leftOf_some (x : Caller) : Caller.leftOf (some x) = x.left := rfl

/-- An operation of a late caller changes nothing but the caller. -/
theorem Caller.lateWith_act {x : Caller} {y : Option Caller} {e : CallerEvent} {id : Nat}
    {r : Option Nat} {v v' : View} {answer : IoResult} (h : x.LateWith answer)
    (hs : v.sem.closed = true) (ha : x.act e id r v = some (y, v')) :
    v' = v ∧ (∀ x', y = some x' → x'.LateWith answer) ∧
      Caller.leftOf y + (if e = .call then 1 else 0) ≤ x.left := by
  unfold Caller.act at ha
  split at ha
  · rename_i s
    obtain ⟨hlate, rfl⟩ := h
    obtain ⟨hv, hnext⟩ := s.late_step id r hlate hs
    cases ha
    refine ⟨hv, ?_⟩
    rcases hnext with ⟨k, hk⟩ | ⟨s', hs', hlate', hlt⟩
    · rw [hk]
      refine ⟨fun x' hx' => ?_, s.left_pos⟩
      cases hx'
      exact ⟨rfl, Or.inl rfl⟩
    · rw [hs']
      refine ⟨fun x' hx' => ?_, hlt⟩
      cases hx'
      exact ⟨hlate', rfl⟩
  · split at ha
    · cases ha
    · cases ha
      unfold ReadHandle.poll
      rw [h.1]
      refine ⟨rfl, fun x' hx' => ?_, le_refl _⟩
      cases hx'
      exact ⟨h.1, Or.inr rfl⟩
  · split at ha
    · cases ha
    · cases ha
      refine ⟨rfl, fun x' hx' => ?_, le_refl _⟩
      cases hx'
      exact h
  · split at ha
    · cases ha
    · cases ha
      unfold ReadHandle.drop
      rw [h.1]
      exact ⟨rfl, nofun, le_refl _⟩
  · cases ha

/-- A poll that begins after the close is over after its first operation, which leaves the
loop alone and finishes a deferred handle with the error. -/
theorem ReadHandle.poll_closed {h : ReadHandle} (id : Nat) {v : View} (hp : h.polling = false)
    (hf : h.finished = none) (hs : v.sem.closed = true)
    (hb : ∀ b, v.bytes = some b → b.closed = true)
    (hstaged : ∀ w p, h.state = .waiting w → w.stage = .bytes p → v.bytes.isSome = true) :
    (h.poll id v).2.loop = v.loop ∧ (h.poll id v).1.polling = false ∧
      ∀ w, h.state = .waiting w → (h.poll id v).1 = h.finish (.error driverGone) := by
  have hdone (r : IoResult) : (h.finish r).polling = false := by
    simp only [ReadHandle.polling, ReadHandle.finish]
    split <;> rfl
  unfold ReadHandle.poll
  cases hstate : h.state with
  | inert value => exact ⟨rfl, hdone _, fun w hw => by cases hw⟩
  | submitted =>
    simp only
    split
    · exact ⟨rfl, hp, fun w hw => by cases hw⟩
    · exact ⟨rfl, hdone _, fun w hw => by cases hw⟩
    · exact ⟨rfl, hdone _, fun w hw => by cases hw⟩
  | waiting w =>
    simp only [ReadHandle.polling, hstate, hf, Option.isNone_none, Bool.true_and] at hp
    simp only
    cases hw : w.stage with
    | count =>
      rw [Semaphore.pollAcquire_closed hs]
      exact ⟨rfl, hdone _, fun _ _ => rfl⟩
    | bytes p =>
      obtain ⟨b, hbytes⟩ := Option.isSome_iff_exists.mp (hstaged w p hstate hw)
      rw [hbytes]
      simp only
      rw [Semaphore.pollAcquire_closed (hb b hbytes)]
      exact ⟨rfl, hdone _, fun _ _ => rfl⟩
    | admitted =>
      rw [hw] at hp
      cases hp

namespace Driver

/-- The operation a caller's label performs. -/
theorem step_caller {cfg : Config} {d d' : Driver} {id : Nat} {c : CallerEvent}
    (h : step cfg d (.caller id c) = some d') : ∃ x v y v', d.callers.lookup id = some x ∧
      d.view x.shard = some v ∧ x.act c id d.reservation v = some (y, v') ∧
      d' = (d.install x.shard v').put id y := by
  cases (step_transition h).2 with
  | caller hx hv ha => exact ⟨_, _, _, _, hx, hv, ha, rfl⟩

/-- A caller's label is refused only by a panic or by the caller itself. -/
theorem step_caller_eq {cfg : Config} {d : Driver} {id : Nat} {c : CallerEvent} {x : Caller}
    {v v' : View} {y : Option Caller} (ha : d.aborted = false) (hx : d.callers.lookup id = some x)
    (hv : d.view x.shard = some v) (hact : x.act c id d.reservation v = some (y, v')) :
    step cfg d (.caller id c) = some ((d.install x.shard v').put id y) := by
  simp [step, ha, hx, hv, hact]

/-- Only its own labels change a caller. -/
theorem Move.lookup {cfg : Config} {d d' : Driver} {e : DriverEvent} (hm : Move cfg d e d')
    {id : Nat} (hid : id < d.nextId) (he : ∀ c, e ≠ .caller id c) :
    d'.callers.lookup id = d.callers.lookup id := by
  cases hm with
  | kept _ hk _ => rw [hk.callers]
  | start => rfl
  | submit => exact AList.lookup_insert_ne (Nat.ne_of_lt hid)
  | @caller j c x y v v' hx hv ha =>
    refine lookup_put_of_ne _ ?_ y
    rintro rfl
    exact he c rfl
  | turn => rfl

/-- Ids are given out in increasing order. -/
theorem Move.nextId_le {cfg : Config} {d d' : Driver} {e : DriverEvent} (hm : Move cfg d e d') :
    d.nextId ≤ d'.nextId := by
  cases hm with
  | kept _ hk _ => exact hk.nextId.ge
  | start => exact le_refl _
  | submit _ hid _ =>
    rw [fetchAdd_of_lt (by unfold cancelBit at hid; omega)]
    exact Nat.le_succ _
  | caller =>
    rw [put_nextId]
    exact le_refl _
  | turn => exact le_refl _

/-- Writing back a view whose loop has sent nothing new. -/
theorem sent_of_install {d : Driver} {k : Nat} {v v' : View} (hv : d.view k = some v) {id j : Nat}
    (hreq : (∃ m ∈ v'.loop.hist.requests, m.id = id) → ∃ m ∈ v.loop.hist.requests, m.id = id)
    (h : (d.install k v').Sent id j) : d.Sent id j := by
  obtain ⟨b, hb, hm⟩ := h
  obtain ⟨cell, hcell, rfl⟩ := view_eq_some hv
  rcases getElem?_modify_cases hb with ⟨rfl, a, ha, rfl⟩ | ⟨_, hb⟩
  · obtain rfl : a = cell := Option.some.inj (ha.symm.trans hcell)
    exact ⟨a, hcell, hreq hm⟩
  · exact ⟨b, hb, hm⟩

/-- Only its own labels send a read. -/
theorem Move.sent {cfg : Config} {r : Option Nat} {d d' : Driver} {e : DriverEvent}
    (hw : d.Wired cfg r) (hm : Move cfg d e d') {id k : Nat} (he : ∀ c, e ≠ .caller id c)
    (h : d'.Sent id k) : d.Sent id k := by
  cases hm with
  | kept _ hk _ =>
    obtain ⟨b, hb, m, hmem, hid⟩ := h
    obtain ⟨a, ha, hab⟩ := forall₂_getElem? hk.cells hb
    exact ⟨a, ha, m, hab.requests ▸ hmem, hid⟩
  | start =>
    obtain ⟨b, hb, m, hmem, hid⟩ := h
    rcases getElem?_concat_cases hb with hb | ⟨_, rfl⟩
    · exact ⟨b, hb, m, hmem, hid⟩
    · cases hmem
  | submit => exact h
  | @caller j c x y v v' hx hv ha =>
    rw [sent_put] at h
    refine sent_of_install hv ?_ h
    rintro ⟨m, hmem, hid⟩
    rcases (Caller.act_cases (c := cfg.params) ha).requests with hreq | ⟨req, charge, res, _, hreq⟩
    · exact ⟨m, hreq ▸ hmem, hid⟩
    · rw [hreq] at hmem
      rcases List.mem_append.mp hmem with hmem | hmem
      · exact ⟨m, hmem, hid⟩
      · rw [List.mem_singleton.mp hmem] at hid
        obtain rfl : j = id := hid
        exact absurd rfl (he c)
  | @turn k e v v' hv hthread ht =>
    refine sent_of_install hv ?_ h
    obtain ⟨freed, hturn⟩ := hw.turn_cases hv hthread ht
    rw [hturn.requests]
    exact fun hm => hm

/-- A `submit` that began after the close, or the handle it returned. -/
structure LateCaller (id : Nat) (answer : IoResult) (d : Driver) : Prop where
  late : ∀ x, d.callers.lookup id = some x → x.LateWith answer
  known : id < d.nextId
  unsent : ∀ k, ¬ d.Sent id k

/-- The operations a late `submit` has left at most. -/
def callsLeft (d : Driver) (id : Nat) : Nat := Caller.leftOf (d.callers.lookup id)

/-- Once admission is closed no transition lets a late `submit` send, and each of its
operations brings it closer to its return. -/
theorem LateCaller.step {cfg : Config} {r : Option Nat} {d d' : Driver} {e : DriverEvent} {id : Nat}
    {answer : IoResult} (h : d.LateCaller id answer) (hw : d.Wired cfg r) (hc : d.AdmissionClosed)
    (hs : Driver.step cfg d e = some d') : d'.LateCaller id answer ∧
      d'.callsLeft id + (if decide (e = .caller id .call) then 1 else 0) ≤ d.callsLeft id := by
  have hm := step_move hs
  by_cases he : ∃ c, e = .caller id c
  · obtain ⟨c, rfl⟩ := he
    obtain ⟨x, v, y, v', hx, hv, hact, rfl⟩ := step_caller hs
    obtain ⟨rfl, hlate, hleft⟩ := Caller.lateWith_act (h.late x hx) (hc.view hv).1 hact
    refine ⟨⟨?_, ?_, fun k => ?_⟩, ?_⟩
    · rw [lookup_put_self]
      exact hlate
    · rw [put_nextId]
      exact h.known
    · rw [sent_put]
      exact fun hsent => h.unsent k (sent_of_install hv (fun hm => hm) hsent)
    · rw [callsLeft, callsLeft, lookup_put_self, hx, Caller.leftOf_some]
      simpa only [DriverEvent.caller.injEq, true_and, decide_eq_true_eq] using hleft
  · have he (c : CallerEvent) : e ≠ .caller id c := fun heq => he ⟨c, heq⟩
    have hlookup := hm.lookup h.known he
    refine ⟨⟨?_, h.known.trans_le hm.nextId_le,
      fun k hsent => h.unsent k (hm.sent hw he hsent)⟩, ?_⟩
    · rw [hlookup]
      exact h.late
    · rw [callsLeft, callsLeft, hlookup, decide_eq_false (he .call)]
      exact le_refl _

/-- A `submit` begins only while the driver runs. -/
theorem step_submit {cfg : Config} {d d' : Driver} {req : Request}
    (h : step cfg d (.submit req) = some d') : d.life = .running ∧ d.nextId < cancelBit ∧
      ∃ x n, Begun cfg d req x ∧ d' = { d with
        nextId := fetchAdd d.nextId, rr := n, callers := d.callers.insert d.nextId x } := by
  cases (step_transition h).2 with
  | submit hl hs =>
    obtain ⟨hid, x, hx, rfl⟩ := beginSubmit_cases hs
    exact ⟨hl, hid, x, _, hx, rfl⟩

/-- A scan visits every shard once. -/
theorem length_scanOrder {d : Driver} {start : Nat} (h : start ≤ d.cells.length) :
    (d.scanOrder start).length = d.cells.length := by
  rw [scanOrder, List.length_append, List.length_range', List.length_range]
  omega

/-- Where a `submit` begins it is late already. -/
theorem Begun.late {cfg : Config} {d : Driver} {req : Request} {x : Caller}
    (h : Begun cfg d req x) (hpos : 0 < d.cells.length) :
    x.LateWith (lateAnswer cfg req) ∧ x.left ≤ d.cells.length + 2 := by
  cases h with
  | invalid he =>
    refine ⟨⟨?_, Or.inl rfl⟩, Nat.zero_le _⟩
    rw [lateAnswer, he]
    rfl
  | valid hn =>
    have hlen := length_scanOrder (Nat.mod_lt d.rr hpos).le
    unfold firstPc
    split
    · refine ⟨⟨trivial, ?_⟩, ?_⟩
      · rw [lateAnswer, hn]
      · simp only [Caller.left, Submit.left, List.length_tail]
        omega
    · refine ⟨⟨trivial, ?_⟩, Nat.le_add_left _ _⟩
      rw [lateAnswer, hn]

/-- A `submit` that begins is a late one from its first operation on. -/
theorem lateCaller_begun {cfg : Config} {r : Option Nat} {d d' : Driver} {req : Request}
    (h : Reach cfg r d) (hs : step cfg d (.submit req) = some d') :
    d'.LateCaller d.nextId (lateAnswer cfg req) ∧ d'.callsLeft d.nextId ≤ d'.cells.length + 2 := by
  obtain ⟨hl, hid, x, n, hx, rfl⟩ := step_submit hs
  have hpos : 0 < d.cells.length := by
    rw [(Reach.allBound h).shards hl, Config.shardCount]
    omega
  obtain ⟨hlate, hleft⟩ := hx.late hpos
  refine ⟨⟨fun x' hlook => ?_, ?_, ?_⟩, ?_⟩
  · rw [AList.lookup_insert] at hlook
    cases hlook
    exact hlate
  · rw [fetchAdd_of_lt (by unfold cancelBit at hid; omega)]
    exact Nat.lt_succ_self _
  · rintro k ⟨cell, hcell, m, hm, heq⟩
    have := (Reach.allBound h).sent_lt cell (List.mem_of_getElem? hcell) m hm
    omega
  · rw [callsLeft, AList.lookup_insert]
    exact hleft

/-- What becomes of the `submit` with id `id` that begins in `d`. -/
structure Answered (cfg : Config) (d : Driver) (id : Nat) (answer : IoResult) : Prop where
  /-- It never sends its read. -/
  unsent : ∀ d', Reachable (step cfg) anyLabel d d' → ∀ k, ¬ d'.Sent id k
  /-- The handle it returns is inert and holds the answer. -/
  handle : ∀ d' h, Reachable (step cfg) anyLabel d d' →
    d'.callers.lookup id = some (.holding h) → h.Holds answer
  /-- It is never blocked. -/
  enabled : ∀ d' s, Reachable (step cfg) anyLabel d d' →
    d'.callers.lookup id = some (.submitting s) → d'.aborted = false →
      ∃ d'' x, step cfg d' (.caller id .call) = some d'' ∧ d''.callers.lookup id = some x
  /-- It returns after as many operations as there are shards and two more. -/
  returns : ∀ es d', run (step cfg) d es = some d' →
    es.countP (fun e => decide (e = .caller id .call)) ≤ d.cells.length + 2

/-- After the close every `submit` is answered. -/
theorem answered_begun {cfg : Config} {r : Option Nat} {d d' : Driver} {req : Request}
    (h : Reach cfg r d) (hc : d.AdmissionClosed) (hl : d.life ≠ .starting)
    (hs : step cfg d (.submit req) = some d') : Answered cfg d' d.nextId (lateAnswer cfg req) := by
  obtain ⟨hlate, hleft⟩ := lateCaller_begun h hs
  have hreach : Reach cfg r d' := h.next trivial hs
  obtain ⟨hc', hl'⟩ := hc.later h hl (.next .start trivial hs)
  -- the invariant of all later states
  have hstep (a b : Driver) (e : DriverEvent)
      (ha : Reachable (step cfg) anyLabel d' a ∧ a.LateCaller d.nextId (lateAnswer cfg req))
      (hs : step cfg a e = some b) :
      (Reachable (step cfg) anyLabel d' b ∧ b.LateCaller d.nextId (lateAnswer cfg req)) ∧
        b.callsLeft d.nextId + (if decide (e = .caller d.nextId .call) then 1 else 0) ≤
          a.callsLeft d.nextId := by
    have hnext := ha.2.step (Reach.wired (hreach.trans ha.1)) (hc'.later hreach hl' ha.1).1 hs
    exact ⟨⟨ha.1.next trivial hs, hnext.1⟩, hnext.2⟩
  have hall (a : Driver) (ha : Reachable (step cfg) anyLabel d' a) :
      a.LateCaller d.nextId (lateAnswer cfg req) :=
    ha.invariant hlate fun s e s' hr hi _ hs => (hstep s s' e ⟨hr, hi⟩ hs).1.2
  refine ⟨fun a ha => (hall a ha).unsent, fun a hd ha hx => (hall a ha).late _ hx, ?_, ?_⟩
  · intro a s ha hx habort
    obtain ⟨v, hv⟩ := (Reach.allBound (hreach.trans ha)).view_of_lookup hx
    exact ⟨_, _, step_caller_eq habort hx hv rfl, lookup_put_self _ _ _⟩
  · intro es a hrun
    have := countP_le_of_run (fun s e s' => hstep s s' e) ⟨.start, hlate⟩ hrun
    omega

/-- Writing back a view with the same loop. -/
theorem loops_install {d : Driver} {k : Nat} {v v' : View} (hv : d.view k = some v)
    (hl : v'.loop = v.loop) : (d.install k v').cells.map Cell.loop = d.cells.map Cell.loop := by
  obtain ⟨cell, hcell, rfl⟩ := view_eq_some hv
  apply List.ext_getElem?
  intro j
  simp only [install, List.getElem?_map, List.getElem?_modify]
  by_cases hj : k = j
  · subst hj
    simp [hcell, hl]
  · simp [hj]

/-- Admission once a call of `request_shutdown` has returned in `d`. -/
structure ShutdownClosed (cfg : Config) (d : Driver) : Prop where
  /-- Both kinds of semaphore are closed and stay closed. -/
  closed : ∀ d', Reachable (step cfg) anyLabel d d' → d'.AdmissionClosed
  /-- A later `submit` of a valid request finds the driver gone. -/
  valid : ∀ d₁ d₂ req n, Reachable (step cfg) anyLabel d d₁ →
    step cfg d₁ (.submit req) = some d₂ →
    validateRead cfg.params.usizeMax cfg.limits req.offset req.len req.align
      req.allowCurrentPosition = .ok n → Answered cfg d₂ d₁.nextId (.error driverGone)
  /-- A later `submit` of an invalid request is told so. -/
  invalid : ∀ d₁ d₂ req e, Reachable (step cfg) anyLabel d d₁ →
    step cfg d₁ (.submit req) = some d₂ →
    validateRead cfg.params.usizeMax cfg.limits req.offset req.len req.align
      req.allowCurrentPosition = .error e →
      (∃ msg, e = .invalidInput msg) ∧ Answered cfg d₂ d₁.nextId (.error e)
  /-- A poll that begins later is over after its first operation, which sends nothing; that of
  a deferred handle returns the error. -/
  poll : ∀ d₁ id h, Reachable (step cfg) anyLabel d d₁ →
    d₁.callers.lookup id = some (.holding h) → h.polling = false → h.finished = none →
    d₁.aborted = false → ∃ d₂ h', step cfg d₁ (.caller id .poll) = some d₂ ∧
      d₂.callers.lookup id = some (.holding h') ∧ h'.polling = false ∧
      d₂.cells.map Cell.loop = d₁.cells.map Cell.loop ∧
      ∀ w, h.state = .waiting w → h' = h.finish (.error driverGone)

/-- When any call of `request_shutdown` has returned, all admission is closed for good, and
no `submit` and no poll that begins later sends a read. -/
theorem shutdown_closed (cfg : Config) (r : Option Nat) (d : Driver) (t : Nat) (h : Reach cfg r d)
    (hret : d.closers.lookup t = some .returned) : ShutdownClosed cfg d := by
  have hdone := Reach.closersDone h
  have hlater (d₁ : Driver) (h₁ : Reachable (step cfg) anyLabel d d₁) :=
    AdmissionClosed.later h (hdone.closers t _ hret) (hdone.not_starting hret) h₁
  refine ⟨fun d₁ h₁ => (hlater d₁ h₁).1, fun d₁ d₂ req n h₁ hs hn => ?_,
    fun d₁ d₂ req e h₁ hs he => ⟨validateRead_error he, ?_⟩, ?_⟩
  · have ha := answered_begun (h.trans h₁) (hlater d₁ h₁).1 (hlater d₁ h₁).2 hs
    rwa [lateAnswer, hn] at ha
  · have ha := answered_begun (h.trans h₁) (hlater d₁ h₁).1 (hlater d₁ h₁).2 hs
    rwa [lateAnswer, he] at ha
  · intro d₁ id hd h₁ hx hp hf habort
    have hbound := Reach.allBound (h.trans h₁)
    obtain ⟨v, hv⟩ := hbound.view_of_lookup hx
    obtain ⟨hsem, hbytes⟩ := (hlater d₁ h₁).1.view hv
    have hv' : v.bytes = d₁.bytes := by
      obtain ⟨cell, _, rfl⟩ := view_eq_some hv
      rfl
    obtain ⟨hloop, hpolling, hwait⟩ := ReadHandle.poll_closed id hp hf hsem hbytes
      fun w p hw hst => hv' ▸ (hbound.callers id _ hx).staged hd w p rfl hw hst
    have hact : (holding hd).act .poll id d₁.reservation v =
        some (some (.holding (hd.poll id v).1), (hd.poll id v).2) := by
      simp [Caller.act, hf]
    refine ⟨_, _, step_caller_eq habort hx hv hact, lookup_put_self _ _ _, hpolling, ?_, hwait⟩
    rw [put_cells]
    exact loops_install hv hloop

/-- A read is deferred behind another one and then a call of `request_shutdown` returns. -/
def closedWhileDeferred : List DriverEvent :=
  deferredRead ++ [.requestShutdown 7, .closer 7, .closer 7, .closer 7, .closer 7, .closer 7,
    .closer 7, .closer 7, .closer 7, .closer 7]

theorem closedWhileDeferred_runs :
    (run (step smallDriver) (init smallDriver none) closedWhileDeferred).isSome = true := by
  decide +kernel

/-- Admission is closed under a handle that is still queued for its permit. -/
theorem shutdown_closed_deferred : ∃ d, Reach smallDriver none d ∧
    d.closers.lookup 7 = some .returned ∧
    d.callers.lookup 2 = some (.holding ⟨0, .waiting ⟨twoBytes, 2, none, 0, .count⟩, none, true⟩) ∧
    ShutdownClosed smallDriver d := by
  have hr := reachable_get closedWhileDeferred_runs
  have hret : ((run (step smallDriver) (init smallDriver none) closedWhileDeferred).get
      closedWhileDeferred_runs).closers.lookup 7 = some .returned := by
    decide +kernel
  refine ⟨_, hr, hret, ?_, shutdown_closed smallDriver none _ 7 hr hret⟩
  decide +kernel

end Driver

end Uring
