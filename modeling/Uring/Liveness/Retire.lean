import Uring.Driver.Budget
import Uring.Liveness.Loops

/-!
# Retirement ends

`shutdown` and the drop of a driver ask every shard to stop and then join one thread after the
other, and so does the drop of the shards behind a failed start. A thread returns when its loop
has exited and its exit guard has closed byte admission. All of this ends, whatever the kernel
does: no caller waits forever for a driver to go away.
-/

namespace Uring

open Uring.Core

namespace Driver

section Step

variable {cfg : Config} {r : Option Nat} {d d' : Driver} {e : DriverEvent}

/-- A call of `request_shutdown` goes on with its own operations only. -/
theorem closers_step (h : step cfg d e = some d') {t : Nat} {pc : Shutdown}
    (hpc : d.closers.lookup t = some pc) :
    (e = .closer t → d'.closers.lookup t = some (d.shutdownStep t pc).1) ∧
      (e ≠ .closer t → d'.closers.lookup t = some pc) := by
  have hsame (hne : e ≠ .closer t) (hc : d'.closers = d.closers) :
      (e = .closer t → d'.closers.lookup t = some (d.shutdownStep t pc).1) ∧
        (e ≠ .closer t → d'.closers.lookup t = some pc) :=
    ⟨fun he => absurd he hne, fun _ => by rw [hc]; exact hpc⟩
  have hnew {t' : Nat} {pc' : Shutdown} (ht : t' ∉ d.closers) :
      (d.closers.insert t' pc').lookup t = some pc := by
    rw [AList.lookup_insert_ne]
    · exact hpc
    · rintro rfl
      exact ht (AList.mem_of_lookup hpc)
  cases (step_transition h).2 with
  | startShard | started | failStart | turn => exact hsame nofun rfl
  | submit hl hs =>
    obtain ⟨_, x, _, rfl⟩ := beginSubmit_cases hs
    exact hsame nofun rfl
  | @caller id ev x v v' y hx hv ha =>
    refine hsame nofun ?_
    cases y <;> rfl
  | @guard k cell leaked hcell hp => exact hsame nofun (d.closeStep_control cell.guard).1
  | requestShutdown _ ht | retire _ _ ht =>
    exact ⟨nofun, fun _ => hnew ht⟩
  | @closer t' pc' hpc' =>
    have hc := (d.shutdownStep_control t' pc').1
    by_cases ht : t' = t
    · subst ht
      obtain rfl : pc' = pc := Option.some.inj (hpc'.symm.trans hpc)
      exact ⟨fun _ => AList.lookup_insert _, fun hne => absurd rfl hne⟩
    · refine ⟨fun he => ?_, fun _ => ?_⟩
      · cases he
        exact absurd rfl ht
      · rw [AList.lookup_insert_ne (Ne.symm ht), hc]
        exact hpc
  | join hj => exact hsame (by simp) (joinStep_control hj).1

/-- An exit guard goes on with its own operations only. -/
theorem guards_step (h : step cfg d e = some d') {k : Nat} {g : Closing}
    (hg : (d.cells.map Cell.guard)[k]? = some g) :
    (e = .guard k → (d'.cells.map Cell.guard)[k]? = some (d.closeStep g).1) ∧
      (e ≠ .guard k → (d'.cells.map Cell.guard)[k]? = some g) := by
  have hsame (hne : e ≠ .guard k) (hc : d'.cells.map Cell.guard = d.cells.map Cell.guard) :
      (e = .guard k → (d'.cells.map Cell.guard)[k]? = some (d.closeStep g).1) ∧
        (e ≠ .guard k → (d'.cells.map Cell.guard)[k]? = some g) :=
    ⟨fun he => absurd he hne, fun _ => by rw [hc]; exact hg⟩
  cases (step_transition h).2 with
  | startShard =>
    refine ⟨(by simp), fun _ => ?_⟩
    rw [startShard, List.map_append, List.getElem?_append_left]
    · exact hg
    · exact (List.getElem?_eq_some_iff.mp hg).1
  | started | failStart | requestShutdown | retire => exact hsame (by simp) rfl
  | submit hl hs =>
    obtain ⟨_, x, _, rfl⟩ := beginSubmit_cases hs
    exact hsame (by simp) rfl
  | caller =>
    refine hsame (by simp) ?_
    rw [put_cells, guards_install]
  | turn => exact hsame (by simp) (guards_install ..)
  | @closer t pc hpc => exact hsame (by simp) (d.shutdownStep_control t pc).2.1
  | join hj => exact hsame (by simp) (joinStep_control hj).2.1
  | @guard j cell leaked hcell hp =>
    have hmap : ((d.closeStep cell.guard).2.cells.modify j fun a =>
        { a with guard := (d.closeStep cell.guard).1 }).map Cell.guard =
          (d.cells.map Cell.guard).modify j fun _ => (d.closeStep cell.guard).1 := by
      rw [← (d.closeStep_control cell.guard).2.1]
      refine map_modify_comm (g := Cell.guard) ?_ _ j
      exact fun _ => rfl
    simp only [hmap, List.getElem?_modify, hg]
    by_cases hj : j = k
    · subst hj
      rw [List.getElem?_map, hcell] at hg
      obtain rfl : cell.guard = g := Option.some.inj hg
      refine ⟨fun _ => ?_, fun hne => absurd rfl hne⟩
      simp only [Option.map_eq_map, Option.map_some, if_true]
    · refine ⟨fun he => ?_, fun _ => ?_⟩
      · cases he
        exact absurd rfl hj
      · simp only [Option.map_eq_map, Option.map_some, if_neg hj]

/-- Joining goes on with its own actions only. -/
theorem joining_step (h : step cfg d e = some d') (hend : d.life.ending = true) :
    (e = .join → d.joinStep cfg = some d') ∧ (e ≠ .join → d'.life = d.life) := by
  have hother (hne : e ≠ .join) (hl : d'.life = d.life) :
      (e = .join → d.joinStep cfg = some d') ∧ (e ≠ .join → d'.life = d.life) :=
    ⟨fun he => absurd he hne, fun _ => hl⟩
  cases (step_transition h).2 with
  | startShard | turn => exact hother (by simp) rfl
  | requestShutdown => exact hother (by simp) rfl
  | started hl | failStart hl | retire hl =>
    rw [hl] at hend
    cases hend
  | submit hl hs =>
    obtain ⟨_, x, _, rfl⟩ := beginSubmit_cases hs
    exact hother (by simp) rfl
  | caller => exact hother (by simp) (put_life _ _ _)
  | @guard k cell leaked hcell hp => exact hother (by simp) (d.closeStep_control cell.guard).2.2
  | @closer t pc hpc => exact hother (by simp) (d.shutdownStep_control t pc).2.2
  | join hj => exact ⟨fun _ => hj, fun hne => absurd rfl hne⟩

theorem not_starting_of_ending {l : Life} (h : l.ending = true) : l ≠ .starting := by
  rintro rfl
  cases h

/-- Asking a shard to stop leaves its loop stopping. -/
theorem stopping_askJoin {s : Shard} (hc : s.Control) (hlive : s.phase ≠ .aborted) (k : Nat) :
    ((s.step cfg.params (.join k)).getD s).Stopping := by
  by_cases hj : s.joined = true
  · have hnone : s.step cfg.params (.join k) = none := by
      simp [Shard.step, hlive, hj]
    rw [hnone]
    exact hc.joined hj
  · simp only [Shard.step, if_neg hlive, if_neg hj]
    cases hsend : s.sendMsg k .shutdown with
    | some t =>
      obtain ⟨_, _, _, rfl⟩ := Shard.sendMsg_eq_some hsend
      exact Or.inr (List.mem_append_right _ (List.mem_singleton_self _))
    | none =>
      -- nobody receives any more
      unfold Shard.sendMsg at hsend
      split at hsend
      · rename_i hrefused
        rcases hrefused with hd | hrecv | ⟨id, hid, _⟩
        · exact hc.joined (hc.disconnected hd)
        · cases hp : s.phase with
          | exited leaked => exact Or.inl (hc.exited leaked hp)
          | aborted => exact absurd hp hlive
          | _ =>
            rw [hp] at hrecv
            cases hrecv
        · exact absurd hid List.not_mem_nil
      · cases hsend

/-- A driver that is going away runs its request, and a shard whose thread is joined was asked to
stop. -/
structure Leaving (d : Driver) : Prop where
  retiring (t : Nat) : d.life = .retiring t → ∃ pc, d.closers.lookup t = some pc
  joining (failed : Bool) (k : Nat) : d.life = .joining failed k true →
    ∀ a, d.cells[k]? = some a → a.loop.Stopping

theorem Leaving.init : (Driver.init cfg r).Leaving := ⟨nofun, nofun⟩

theorem Leaving.step (h : d.Leaving) (hr : Reach cfg r d) (hs : Driver.step cfg d e = some d') :
    d'.Leaving := by
  have hw := Reach.wired hr
  have hsame (hl : d'.life = d.life) : d'.Leaving := by
    refine ⟨fun t ht => ?_, fun failed k hk b hb => ?_⟩
    · obtain ⟨pc, hpc⟩ := h.retiring t (hl ▸ ht)
      by_cases he : e = .closer t
      · exact ⟨_, (closers_step hs hpc).1 he⟩
      · exact ⟨pc, (closers_step hs hpc).2 he⟩
    · rw [hl] at hk
      have hne : d.life ≠ .starting := by
        rw [hk]
        nofun
      have hrow := (step_later hw hs).resolve_left fun hc => hne hc.1
      obtain ⟨a, ha, hab⟩ := forall₂_getElem? hrow hb
      exact (h.joining failed k hk a ha).moves hab.loop
        (hw.loops a (List.mem_of_getElem? ha))
  cases (step_transition hs).2 with
  | startShard | turn | requestShutdown => exact hsame rfl
  | started | failStart => exact ⟨nofun, nofun⟩
  | submit hl hs' =>
    obtain ⟨_, x, _, rfl⟩ := beginSubmit_cases hs'
    exact hsame rfl
  | caller => exact hsame (put_life _ _ _)
  | @guard k cell leaked hcell hp => exact hsame (d.closeStep_control cell.guard).2.2
  | @closer t pc hpc => exact hsame (d.shutdownStep_control t pc).2.2
  | @retire t hl hu ht =>
    refine ⟨fun t' ht' => ?_, nofun⟩
    cases ht'
    exact ⟨_, AList.lookup_insert _⟩
  | join hj =>
    unfold joinStep at hj
    split at hj
    · split at hj <;> cases hj
      exact ⟨nofun, nofun⟩
    · rename_i failed k asked hl
      split at hj
      · cases hj
        exact ⟨nofun, nofun⟩
      · rename_i cell hcell
        split at hj
        · split at hj <;> cases hj
          exact ⟨nofun, nofun⟩
        · cases hj
          refine ⟨nofun, fun failed' k' hk b hb => ?_⟩
          cases hk
          simp only [askJoin, List.getElem?_modify, hcell, Option.map_eq_map, Option.map_some,
            if_true, Option.some.injEq] at hb
          subst hb
          have hmem := List.mem_of_getElem? hcell
          exact stopping_askJoin (Shard.Reach.control (hw.loops cell hmem))
            (live_of_step hs cell hmem) k
    · cases hj

theorem Reach.leaving (h : Reach cfg r d) : d.Leaving :=
  h.invariant .init fun _ _ _ hr hi _ hs => hi.step hr hs

end Step

section Run

variable {cfg : Config} {r : Option Nat}

/-- Every thread of the process runs on: the loops and their exit guards, the calls of
`request_shutdown`, and the thread that joins the others as soon as it may. -/
structure Runs {may : Driver → DriverEvent → Prop} (x : Execution (step cfg) may (init cfg r)) :
    Prop where
  loops (k : Nat) : Scheduled x k
  clocks (k : Nat) : ClockRuns x k
  guards (n k : Nat) (a : Cell) (leaked : Bool) : (x.state n).cells[k]? = some a →
    a.loop.phase = .exited leaked → a.guard ≠ .finished → ∃ m, n ≤ m ∧ x.label m = .guard k
  closers (n t : Nat) (pc : Shutdown) : (x.state n).closers.lookup t = some pc →
    pc ≠ .returned → ∃ m, n ≤ m ∧ x.label m = .closer t
  joins (n : Nat) : (∀ m, n ≤ m → ((x.state m).joinStep cfg).isSome = true) →
    ∃ m, n ≤ m ∧ x.label m = .join

variable {x : Execution (step cfg) anyLabel (init cfg r)}

/-- A running call takes its next operation. -/
theorem Runs.closer (hx : Runs x) {t : Nat} {pc : Shutdown} (hpc : pc ≠ .returned) :
    LeadsTo x.state (fun d => d.closers.lookup t = some pc)
      fun d => ∃ d₀ : Driver, d.closers.lookup t = some (d₀.shutdownStep t pc).1 :=
  x.leadsTo (A := fun e => e = .closer t) (fun n hn hother => (closers_step (x.next n) hn).2 hother)
    (fun n hn hmine => ⟨_, (closers_step (x.next n) hn).1 hmine⟩)
    fun n hforever => hx.closers n t pc (hforever n (le_refl n)) hpc

/-- A call whose next operation, whatever the state, leads to its return, returns. -/
theorem Runs.closer_of_next (hx : Runs x) {t : Nat} {pc : Shutdown} (hpc : pc ≠ .returned)
    (hnext : ∀ d : Driver, LeadsTo x.state
      (fun d' => d'.closers.lookup t = some (d.shutdownStep t pc).1)
      fun d' => d'.closers.lookup t = some .returned) :
    LeadsTo x.state (fun d => d.closers.lookup t = some pc)
      fun d => d.closers.lookup t = some .returned :=
  (hx.closer hpc).trans (.of_exists hnext)

/-- Every call of `request_shutdown` returns. -/
theorem Runs.returned (hx : Runs x) (t : Nat) (pc : Shutdown) :
    LeadsTo x.state (fun d => d.closers.lookup t = some pc)
      fun d => d.closers.lookup t = some .returned := by
  have hdone : LeadsTo x.state (fun d => d.closers.lookup t = some .returned)
      fun d => d.closers.lookup t = some .returned := fun n hn => ⟨n, le_refl n, hn⟩
  have hnotify (rest : List Nat) : LeadsTo x.state
      (fun d => d.closers.lookup t = some (.notify rest))
      fun d => d.closers.lookup t = some .returned := by
    induction rest with
    | nil => exact hx.closer_of_next nofun fun _ => hdone
    | cons k rest ih => exact hx.closer_of_next nofun fun _ => ih
  have hsems (rest : List Nat) : LeadsTo x.state
      (fun d => d.closers.lookup t = some (.sems rest))
      fun d => d.closers.lookup t = some .returned := by
    induction rest with
    | nil => exact hx.closer_of_next nofun fun d => hnotify _
    | cons k rest ih => exact hx.closer_of_next nofun fun _ => ih
  have hfinished : LeadsTo x.state
      (fun d => d.closers.lookup t = some (.admission .finished))
      fun d => d.closers.lookup t = some .returned :=
    hx.closer_of_next nofun fun _ => hsems _
  have hcounts (rest : List Nat) : LeadsTo x.state
      (fun d => d.closers.lookup t = some (.admission (.counts rest)))
      fun d => d.closers.lookup t = some .returned := by
    induction rest with
    | nil => exact hx.closer_of_next nofun fun _ => hfinished
    | cons k rest ih => exact hx.closer_of_next nofun fun _ => ih
  have hbytes (counts : List Nat) : LeadsTo x.state
      (fun d => d.closers.lookup t = some (.admission (.bytes counts)))
      fun d => d.closers.lookup t = some .returned :=
    hx.closer_of_next nofun fun _ => hcounts counts
  cases pc with
  | admission c =>
    cases c with
    | lock => exact hx.closer_of_next nofun fun d => hbytes _
    | bytes counts => exact hbytes counts
    | counts rest => exact hcounts rest
    | finished => exact hfinished
  | sems rest => exact hsems rest
  | notify rest => exact hnotify rest
  | returned => exact hdone

/-- The thread of shard `k` has left its loop, and its exit guard stands at `g`. -/
def Guarding (k : Nat) (g : Closing) (d : Driver) : Prop :=
  ∃ a leaked, d.cells[k]? = some a ∧ a.loop.phase = .exited leaked ∧ a.guard = g

theorem Guarding.step {d d' : Driver} {e : DriverEvent} {k : Nat} {g : Closing}
    (h : d.Guarding k g) (hr : Reach cfg r d) (hs : Driver.step cfg d e = some d') :
    (e = .guard k → d'.Guarding k (d.closeStep g).1) ∧ (e ≠ .guard k → d'.Guarding k g) := by
  obtain ⟨a, leaked, ha, hp, rfl⟩ := h
  have hg : (d.cells.map Cell.guard)[k]? = some a.guard := by rw [List.getElem?_map, ha]; rfl
  have hnext := guards_step hs hg
  obtain ⟨b, hb, hab⟩ := cell_later hr hs ha
  have hlater := hab.loop.exited hp
  refine ⟨fun he => ?_, fun he => ?_⟩
  · have hgb := hnext.1 he
    rw [List.getElem?_map, hb] at hgb
    exact ⟨b, leaked, hb, hlater, Option.some.inj hgb⟩
  · have hgb := hnext.2 he
    rw [List.getElem?_map, hb] at hgb
    exact ⟨b, leaked, hb, hlater, Option.some.inj hgb⟩

/-- A guard whose next operation, whatever the state, leads to its end, ends. -/
theorem Runs.guard_of_next (hx : Runs x) {k : Nat} {g : Closing} (hg : g ≠ .finished)
    (hnext : ∀ d : Driver, LeadsTo x.state (Guarding k (d.closeStep g).1)
      (Guarding k .finished)) : LeadsTo x.state (Guarding k g) (Guarding k .finished) := by
  have hone : LeadsTo x.state (Guarding k g)
      fun d => ∃ d₀ : Driver, d.Guarding k (d₀.closeStep g).1 := by
    refine x.leadsTo (A := fun e => e = .guard k)
      (fun n hn hother => (hn.step (x.reachable n) (x.next n)).2 hother)
      (fun n hn hmine => ⟨_, (hn.step (x.reachable n) (x.next n)).1 hmine⟩) fun n hforever => ?_
    obtain ⟨a, leaked, ha, hp, rfl⟩ := hforever n (le_refl n)
    exact hx.guards n k a leaked ha hp hg
  exact hone.trans (.of_exists hnext)

/-- Every exit guard closes byte admission. -/
theorem Runs.guarded (hx : Runs x) (k : Nat) (g : Closing) :
    LeadsTo x.state (Guarding k g) (Guarding k .finished) := by
  have hdone : LeadsTo x.state (Guarding k .finished) (Guarding k .finished) :=
    fun n hn => ⟨n, le_refl n, hn⟩
  have hcounts (rest : List Nat) :
      LeadsTo x.state (Guarding k (.counts rest)) (Guarding k .finished) := by
    induction rest with
    | nil => exact hx.guard_of_next nofun fun _ => hdone
    | cons j rest ih => exact hx.guard_of_next nofun fun _ => ih
  have hbytes (counts : List Nat) :
      LeadsTo x.state (Guarding k (.bytes counts)) (Guarding k .finished) :=
    hx.guard_of_next nofun fun _ => hcounts counts
  cases g with
  | lock => exact hx.guard_of_next nofun fun d => hbytes _
  | bytes counts => exact hbytes counts
  | counts rest => exact hcounts rest
  | finished => exact hdone

/-- The thread of a shard that was asked to stop returns. -/
theorem Runs.finished (hx : Runs x) {n k : Nat} {a : Cell}
    (ha : (x.state n).cells[k]? = some a) (hstop : a.loop.Stopping) :
    ∃ m, n ≤ m ∧ ∃ b, (x.state m).cells[k]? = some b ∧ b.finished = true := by
  -- the loop's own run knows no condition
  let y : Execution (step cfg) (Within anyLabel fun _ => True) (init cfg r) :=
    x.mono fun _ _ _ => ⟨fun _ _ _ _ _ => trivial, fun _ _ => trivial⟩
  obtain ⟨i, hi, b, leaked, hb, hp⟩ :=
    Scheduled.exits (x := y) (fun _ _ _ => trivial) (hx.loops k) (hx.clocks k) ha hstop
  obtain ⟨m, hm, b', leaked', hb', hp', hg⟩ := hx.guarded k b.guard i ⟨b, leaked, hb, hp, rfl⟩
  exact ⟨m, hi.trans hm, b', hb', Cell.finished_iff.mpr ⟨⟨leaked', hp'⟩, hg⟩⟩

/-- Shard `k` of `n` is next to be joined. -/
def JoinsAt (failed : Bool) (n k : Nat) (asked : Bool) (d : Driver) : Prop :=
  d.life = .joining failed k asked ∧ d.cells.length = n

theorem JoinsAt.other {failed asked : Bool} {n k : Nat} {d d' : Driver} {e : DriverEvent}
    (h : d.JoinsAt failed n k asked) (hr : Reach cfg r d) (hs : step cfg d e = some d')
    (he : e ≠ .join) : d'.JoinsAt failed n k asked := by
  have hend : d.life.ending = true := by
    rw [h.1]
    rfl
  have hrow := (step_later (Reach.wired hr) hs).resolve_left
    fun hc => not_starting_of_ending hend hc.1
  exact ⟨((joining_step hs hend).2 he).trans h.1, hrow.length_eq.symm.trans h.2⟩

/-- The next action of a join. -/
theorem JoinsAt.join {failed asked : Bool} {n k : Nat} {d d' : Driver}
    (h : d.JoinsAt failed n k asked) (hs : d.joinStep cfg = some d') :
    d'.life.dropped = true ∨ k < n ∧ (asked = false ∧ d'.JoinsAt failed n k true ∨
      asked = true ∧ d'.JoinsAt failed n (k + 1) false) := by
  unfold joinStep at hs
  rw [h.1] at hs
  simp only at hs
  split at hs
  · cases hs
    exact Or.inl rfl
  · rename_i cell hcell
    have hlt := (List.getElem?_eq_some_iff.mp hcell).1
    rw [h.2] at hlt
    refine Or.inr ⟨hlt, ?_⟩
    split at hs
    · rename_i hasked
      split at hs <;> cases hs
      exact Or.inr ⟨hasked, rfl, h.2⟩
    · rename_i hasked
      cases hs
      refine Or.inl ⟨Bool.eq_false_iff.mpr hasked, rfl, ?_⟩
      exact (List.length_modify _ _ _).trans h.2

/-- A shard is asked to stop before its thread is joined. -/
theorem Runs.asked (hx : Runs x) (failed : Bool) (n k : Nat) :
    LeadsTo x.state (JoinsAt failed n k false)
      fun d => d.life.dropped = true ∨ k < n ∧ d.JoinsAt failed n k true := by
  refine x.leadsTo (A := fun e => e = .join)
    (fun i hi hother => hi.other (x.reachable i) (x.next i) hother) (fun i hi hmine => ?_)
    fun i hforever => hx.joins i fun m hm => ?_
  · have hend : (x.state i).life.ending = true := by
      rw [hi.1]
      rfl
    refine (hi.join ((joining_step (x.next i) hend).1 hmine)).imp_right ?_
    rintro ⟨hlt, ⟨-, hnext⟩ | ⟨hcontra, -⟩⟩
    · exact ⟨hlt, hnext⟩
    · cases hcontra
  · rw [joinStep, (hforever m hm).1]
    simp only
    split <;> rfl

/-- The thread of a shard that was asked to stop is joined. -/
theorem Runs.joined (hx : Runs x) (failed : Bool) (n k : Nat) :
    LeadsTo x.state (JoinsAt failed n k true)
      fun d => d.life.dropped = true ∨ k < n ∧ d.JoinsAt failed n (k + 1) false := by
  refine x.leadsTo (A := fun e => e = .join)
    (fun i hi hother => hi.other (x.reachable i) (x.next i) hother) (fun i hi hmine => ?_)
    fun i hforever => ?_
  · have hend : (x.state i).life.ending = true := by
      rw [hi.1]
      rfl
    refine (hi.join ((joining_step (x.next i) hend).1 hmine)).imp_right ?_
    rintro ⟨hlt, ⟨hcontra, -⟩ | ⟨-, hnext⟩⟩
    · cases hcontra
    · exact ⟨hlt, hnext⟩
  · -- from some moment on the thread has returned
    obtain ⟨j, hj, hdone⟩ : ∃ j, i ≤ j ∧ ∀ m, j ≤ m → ∀ b, (x.state m).cells[k]? = some b →
        b.finished = true := by
      have hi := hforever i (le_refl i)
      rcases Nat.lt_or_ge k n with hlt | hge
      · obtain ⟨a, ha⟩ : ∃ a, (x.state i).cells[k]? = some a :=
          ⟨_, List.getElem?_eq_getElem (hi.2 ▸ hlt)⟩
        obtain ⟨j, hj, b, hb, hfin⟩ :=
          hx.finished ha ((Reach.leaving (x.reachable i)).joining _ _ hi.1 a ha)
        refine ⟨j, hj, fun m hm c hc => ?_⟩
        obtain ⟨c', hc', hbc⟩ := cell_stays x hm hb
        obtain rfl : c = c' := Option.some.inj (hc.symm.trans hc')
        exact hbc.finished hfin
      · refine ⟨i, le_refl i, fun m hm b hb => ?_⟩
        have hlt := (List.getElem?_eq_some_iff.mp hb).1
        rw [(hforever m hm).2] at hlt
        omega
    obtain ⟨m, hm, hlabel⟩ := hx.joins j fun m hm => by
      rw [joinStep, (hforever m (hj.trans hm)).1]
      simp only [if_true]
      split
      · rfl
      · rename_i b hb
        rw [if_pos (hdone m hm b hb)]
        rfl
    exact ⟨m, hj.trans hm, hlabel⟩

/-- Every thread is joined, and then the value or its shards are dropped. -/
theorem Runs.dropped (hx : Runs x) (failed : Bool) (n k : Nat) :
    LeadsTo x.state (JoinsAt failed n k false) fun d => d.life.dropped = true := by
  have hvariant (left : Nat) : LeadsTo x.state
      (fun d => ∃ k, n - k = left ∧ JoinsAt failed n k false d)
      fun d => d.life.dropped = true := by
    refine LeadsTo.of_variant
      (P := fun left d => ∃ k, n - k = left ∧ JoinsAt failed n k false d) (fun left => ?_) left
    rintro i ⟨k, rfl, hi⟩
    obtain ⟨j, hj, hgone | ⟨-, hasked⟩⟩ := hx.asked failed n k i hi
    · exact ⟨j, hj, Or.inl hgone⟩
    · obtain ⟨m, hm, hgone | ⟨hlt, hnext⟩⟩ := hx.joined failed n k j hasked
      · exact ⟨m, hj.trans hm, Or.inl hgone⟩
      · exact ⟨m, hj.trans hm, Or.inr ⟨n - (k + 1), by omega, k + 1, rfl, hnext⟩⟩
  exact fun i hi => hvariant (n - k) i ⟨k, rfl, hi⟩

/-- A value whose shutdown request has returned is joined. -/
theorem Runs.retired (hx : Runs x) (t : Nat) :
    LeadsTo x.state (fun d => d.life = .retiring t)
      fun d => ∃ n, d.JoinsAt false n 0 false := by
  have hkeeps (i : Nat) (hi : (x.state i).life = .retiring t) (hother : x.label i ≠ .join) :
      (x.state (i + 1)).life = .retiring t :=
    ((joining_step (x.next i) (by rw [hi]; rfl)).2 hother).trans hi
  refine x.leadsTo (A := fun e => e = .join) hkeeps (fun i hi hmine => ?_) fun i hforever => ?_
  · have hjoin := (joining_step (x.next i) (by rw [hi]; rfl)).1 hmine
    rw [joinStep, hi] at hjoin
    simp only at hjoin
    split at hjoin
    · rw [← Option.some.inj hjoin]
      exact ⟨_, rfl, rfl⟩
    · cases hjoin
  · obtain ⟨pc, hpc⟩ := (Reach.leaving (x.reachable i)).retiring t (hforever i (le_refl i))
    obtain ⟨j, hj, hret⟩ := hx.returned t pc i hpc
    have hstays (m : Nat) (hm : j ≤ m) : (x.state m).closers.lookup t = some .returned := by
      induction m, hm using Nat.le_induction with
      | base => exact hret
      | succ m _ ih =>
        by_cases he : x.label m = .closer t
        · exact (closers_step (x.next m) ih).1 he
        · exact (closers_step (x.next m) ih).2 he
    obtain ⟨m, hm, hlabel⟩ := hx.joins j fun m hm => by
      rw [joinStep, hforever m (hj.trans hm)]
      simp only [hstays m hm, if_true]
      rfl
    exact ⟨m, hj.trans hm, hlabel⟩

/-- A driver that is shut down or dropped, or whose start failed, goes away: the joining thread
comes back, whatever the kernel does or leaves undone, and by then every read ever sent to a
shard has been answered or its sender dropped. -/
theorem retire_returns (cfg : Config) (r : Option Nat)
    (x : Execution (step cfg) anyLabel (init cfg r)) (hx : Runs x) (n : Nat)
    (hend : (x.state n).life.ending = true) :
    ∃ m, n ≤ m ∧ (x.state m).life.dropped = true ∧ ∀ cell ∈ (x.state m).cells,
      cell.finished = true ∧ ∀ id ∈ cell.loop.hist.issued, cell.loop.mail.Settled id := by
  obtain ⟨m, hm, hgone⟩ : ∃ m, n ≤ m ∧ (x.state m).life.dropped = true := by
    cases hl : (x.state n).life with
    | starting | running =>
      rw [hl] at hend
      cases hend
    | retiring t =>
      obtain ⟨i, hi, k, hjoins⟩ := hx.retired t n hl
      obtain ⟨m, hm, hgone⟩ := hx.dropped false k 0 i hjoins
      exact ⟨m, hi.trans hm, hgone⟩
    | joining failed k asked =>
      cases asked with
      | false => exact hx.dropped failed _ k n ⟨hl, rfl⟩
      | true =>
        obtain ⟨i, hi, hgone | ⟨-, hnext⟩⟩ := hx.joined failed _ k n ⟨hl, rfl⟩
        · exact ⟨i, hi, hgone⟩
        · obtain ⟨m, hm, hgone⟩ := hx.dropped failed _ (k + 1) i hnext
          exact ⟨m, hi.trans hm, hgone⟩
    | gone failed => exact ⟨n, le_refl n, by rw [hl]; rfl⟩
  refine ⟨m, hm, hgone, fun cell hcell => ?_⟩
  have hr := x.reachable m
  have hfin := (Reach.ended hr).gone hgone cell hcell
  obtain ⟨⟨leaked, hp⟩, _⟩ := Cell.finished_iff.mp hfin
  exact ⟨hfin, fun id hid => Shard.Reach.settled ((Reach.wired hr).loops cell hcell) hp hid⟩

end Run

theorem shutDownLeaking_runs :
    (run (step smallDriver) (init smallDriver none) Sharing.shutDownLeaking).isSome = true := by
  decide +kernel

/-- The driver after its device hung and it was shut down. -/
def hungUp : Driver :=
  (run (step smallDriver) (init smallDriver none) Sharing.shutDownLeaking).get shutDownLeaking_runs

theorem hungUp_closer : run (step smallDriver) hungUp [.closer 5] = some hungUp := by
  have hlive : hungUp.aborted = false := by decide +kernel
  have hsame : hungUp.step smallDriver (.closer 5) = some hungUp := by
    refine closer_returned hlive ?_ (AList.ext ?_) <;> decide +kernel
  simp [run, hsame]

/-- A device hangs and the driver is shut down; the request is polled forever. -/
def hungDriver : Execution (step smallDriver) anyLabel (init smallDriver none) :=
  .lasso (by decide) (Option.some_get shutDownLeaking_runs).symm hungUp_closer (admitted_any _)

theorem hungDriver_state {n : Nat} (hn : n < Sharing.shutDownLeaking.length) :
    run (step smallDriver) (init smallDriver none) (Sharing.shutDownLeaking.take n) =
      some (hungDriver.state n) :=
  Execution.lasso_prefix (by decide) (Option.some_get shutDownLeaking_runs).symm hungUp_closer
    (admitted_any _) hn

theorem hungDriver_end {n : Nat} (hn : Sharing.shutDownLeaking.length ≤ n) :
    hungDriver.state n = hungUp := by
  obtain ⟨k, hk, hrun⟩ := Execution.lasso_tail (by decide)
    (Option.some_get shutDownLeaking_runs).symm hungUp_closer (admitted_any _) hn
  obtain rfl : k = 0 := Nat.lt_one_iff.mp hk
  exact (Option.some.inj hrun).symm

/-- The only shard is the first one. -/
theorem hungDriver_shard {n k : Nat} {a : Cell} (ha : (hungDriver.state n).cells[k]? = some a) :
    k = 0 := by
  obtain ⟨b, hb, _⟩ := cell_stays hungDriver (le_max_left n Sharing.shutDownLeaking.length) ha
  rw [hungDriver_end (le_max_right _ _)] at hb
  have hlt := (List.getElem?_eq_some_iff.mp hb).1
  have hone : hungUp.cells.length = 1 := by decide +kernel
  omega

/-- Its thread has left the loop after the 32nd label, and its guard is done after the 35th. -/
theorem hungDriver_exited {n : Nat} (hn : 32 ≤ n) {a : Cell}
    (ha : (hungDriver.state n).cells[0]? = some a) :
    a.loop.phase = .exited true ∧ (35 ≤ n → a.guard = .finished) := by
  have hexited : (run (step smallDriver) (init smallDriver none)
      (Sharing.shutDownLeaking.take 32)).all (fun d =>
        d.cells.map (fun c => c.loop.phase) == [.exited true]) = true := by
    decide +kernel
  have hguarded : (run (step smallDriver) (init smallDriver none)
      (Sharing.shutDownLeaking.take 35)).all (fun d =>
        d.cells.map (fun c => c.guard) == [.finished]) = true := by
    decide +kernel
  rw [hungDriver_state (by decide), Option.all_some, beq_iff_eq, List.map_eq_singleton_iff]
    at hexited hguarded
  obtain ⟨b, hb, hp⟩ := hexited
  have hlater {m : Nat} {c : Cell} (hm : m ≤ n) (hc : (hungDriver.state m).cells = [c]) :
      c.Later smallDriver.params a := by
    obtain ⟨a', ha', hca⟩ := cell_stays hungDriver hm (k := 0) (by rw [hc]; rfl)
    obtain rfl : a = a' := Option.some.inj (ha.symm.trans ha')
    exact hca
  refine ⟨(hlater hn hb).loop.exited hp, fun hlate => ?_⟩
  obtain ⟨c, hc, hg⟩ := hguarded
  exact (hlater hlate hc).guard hg

theorem hungDriver_closer {n : Nat} (hn : 24 ≤ n) :
    (hungDriver.state n).closers.lookup 7 = some .returned := by
  induction n, hn using Nat.le_induction with
  | base =>
    have hret : (run (step smallDriver) (init smallDriver none)
        (Sharing.shutDownLeaking.take 24)).all (fun d =>
          d.closers.lookup 7 == some .returned) = true := by
      decide +kernel
    rw [hungDriver_state (by decide), Option.all_some, beq_iff_eq] at hret
    exact hret
  | succ n _ ih =>
    by_cases he : hungDriver.label n = .closer 7
    · exact (closers_step (hungDriver.next n) ih).1 he
    · exact (closers_step (hungDriver.next n) ih).2 he

/-- There are two requests, the one that shuts the driver down and one before it. -/
theorem hungDriver_request {n t : Nat} {pc : Shutdown}
    (hpc : (hungDriver.state n).closers.lookup t = some pc) : t = 5 ∨ t = 7 := by
  have hstays (m : Nat) (hm : n ≤ m) : ∃ pc, (hungDriver.state m).closers.lookup t = some pc := by
    induction m, hm using Nat.le_induction with
    | base => exact ⟨pc, hpc⟩
    | succ m _ ih =>
      obtain ⟨pc', hpc'⟩ := ih
      by_cases he : hungDriver.label m = .closer t
      · exact ⟨_, (closers_step (hungDriver.next m) hpc').1 he⟩
      · exact ⟨_, (closers_step (hungDriver.next m) hpc').2 he⟩
  obtain ⟨pc', hlast⟩ := hstays _ (le_max_left n Sharing.shutDownLeaking.length)
  rw [hungDriver_end (le_max_right _ _)] at hlast
  have hkeys : hungUp.closers.keys = [5, 7] := by decide +kernel
  have hmem : t ∈ hungUp.closers.keys := AList.mem_of_lookup hlast
  rw [hkeys] at hmem
  simpa using hmem

/-- Every thread runs until it returns. -/
theorem hungDriver_runs : Runs hungDriver where
  loops k := by
    intro n a ha hrecv
    obtain rfl := hungDriver_shard ha
    rcases Nat.lt_or_ge 31 n with hlt | hle
    · rw [(hungDriver_exited hlt ha).1] at hrecv
      cases hrecv
    · have hlabel : hungDriver.label 31 = .turn 0 .dropRx := by decide +kernel
      exact ⟨31, hle, _, hlabel, rfl⟩
  clocks k := by
    refine fun t => ⟨Sharing.shutDownLeaking.length, fun m hm overflow now now' hlabel => ?_⟩
    have hmem := Execution.lasso_label (by decide) (Option.some_get shutDownLeaking_runs).symm
      hungUp_closer (admitted_any _) hm
    rw [List.mem_singleton] at hmem
    exact absurd (hmem.symm.trans hlabel) nofun
  guards n k a leaked ha hp hg := by
    obtain rfl := hungDriver_shard ha
    rcases Nat.lt_or_ge 34 n with hlt | hle
    · exact absurd ((hungDriver_exited (by omega) ha).2 hlt) hg
    · exact ⟨34, hle, by decide +kernel⟩
  closers n t pc hpc hne := by
    rcases hungDriver_request hpc with rfl | rfl
    · exact Execution.lasso_recurs (by decide) (Option.some_get shutDownLeaking_runs).symm
        hungUp_closer (admitted_any _) List.mem_cons_self n
    · rcases Nat.lt_or_ge 23 n with hlt | hle
      · exact absurd (Option.some.inj (hpc.symm.trans (hungDriver_closer hlt))) hne
      · exact ⟨23, hle, by decide +kernel⟩
  joins n hforever := by
    have hjoin := hforever (max n Sharing.shutDownLeaking.length) (le_max_left _ _)
    have hnone : (hungUp.joinStep smallDriver).isSome = false := by decide +kernel
    rw [hungDriver_end (le_max_right _ _), hnone] at hjoin
    cases hjoin

/-- The device keeps the read forever, and the driver goes away all the same. -/
theorem retire_returns_hung : (hungDriver.state 39).life.ending = true ∧
    ∃ m, 39 ≤ m ∧ (hungDriver.state m).life.dropped = true ∧
      ∀ cell ∈ (hungDriver.state m).cells,
        cell.finished = true ∧ ∀ id ∈ cell.loop.hist.issued, cell.loop.mail.Settled id := by
  have hend : (run (step smallDriver) (init smallDriver none)
      (Sharing.shutDownLeaking.take 39)).all (fun d => d.life.ending) = true := by
    decide +kernel
  rw [hungDriver_state (by decide), Option.all_some] at hend
  exact ⟨hend, retire_returns smallDriver none hungDriver hungDriver_runs 39 hend⟩

end Driver

end Uring
