import Uring.Driver.Service

/-!
# Why a call fails

A driver answers a call with an error only for a cause in its run: the validation refused the
request, a shutdown had begun, the receiver of the result was closed, or the loop that took the
read in had its reason, which the kernel's completions for that read explain. With this the
read service that a driver refines permits no error at will.
-/

namespace Uring

open Uring.Core Caller

/-- A used sender stays used, and a lost one lost. -/
theorem Move.mail_mono {c : Params} {w : Answers} {l l' : Ledger} {a : Actor}
    (h : Move c w l a l') : l.mail.sends ⊆ l'.mail.sends ∧ l.mail.lost ⊆ l'.mail.lost := by
  have hsame {m : Mail} (hs : m.sends = l.mail.sends) (hl : m.lost = l.mail.lost) :
      l.mail.sends ⊆ m.sends ∧ l.mail.lost ⊆ m.lost :=
    ⟨hs ▸ List.Subset.refl _, hl ▸ List.Subset.refl _⟩
  cases h with
  | idle | overflow | send | closeRx | postCancel | accept | cancelMiss | submit | reapCancel
    | reapStale | resubmit => exact hsame rfl rfl
  | @postRead k ud file len off ptr data res hk hd hw =>
    obtain ⟨t, ht⟩ := l.postRead_frame k ⟨_, res⟩ ptr data
    rw [ht]
    exact hsame rfl rfl
  | cancelHit =>
    rw [(Ledger.queueCancel_frame _ _).mail]
    exact hsame rfl rfl
  | shutdown | submitSweep =>
    rw [Ledger.shutdown, (Ledger.queueCancels_frame _ _).mail]
    exact hsame rfl rfl
  | reject => exact ⟨List.subset_append_left _ _, List.Subset.refl _⟩
  | finish late => cases late <;> exact ⟨List.subset_append_left _ _, List.Subset.refl _⟩
  | leak => exact ⟨List.subset_append_left _ _, List.Subset.refl _⟩
  | dropChan => exact ⟨List.Subset.refl _, List.subset_append_left _ _⟩

namespace Shard

variable {c : Params} {s s' : Shard}

theorem Moves.mail (h : s.Moves c s') (hr : Reach c s) :
    s.mail.sends ⊆ s'.mail.sends ∧ s.mail.lost ⊆ s'.mail.lost := by
  induction h with
  | start => exact ⟨List.Subset.refl _, List.Subset.refl _⟩
  | @next t t' e ht _ hstep ih =>
    have hctl := Reach.control (hr.trans ht)
    have hmono := (step_move hctl (any_allows t e) hstep).1.mail_mono
    exact ⟨List.Subset.trans ih.1 hmono.1, List.Subset.trans ih.2 hmono.2⟩

/-- Labels from outside the thread make no attempt. -/
theorem tries_outside {e : Event} (he : e.ofThread = false) (id : Nat) : s.tries id e = [] := by
  cases e with
  | reap => cases he
  | _ => rfl

end Shard

namespace Driver

variable {cfg : Config} {r : Option Nat} {d d' : Driver} {e : DriverEvent} {i : Nat}

/-- What a driver in state `d` shows for an error that was answered to the read `id`. -/
inductive Reason (d : Driver) (id : Nat) : IoError → Prop
  | invalid (msg : String) : Reason d id (.invalidInput msg)
  | gone (h : d.ShutdownBegun) : Reason d id driverGone
  | lost {cell : Cell} (hcell : cell ∈ d.cells) (h : id ∈ cell.loop.mail.lost) :
      Reason d id driverGoneBeforeCompletion
  | closed {cell : Cell} {x : Uring.Sent} (hcell : cell ∈ d.cells)
      (hx : x ∈ cell.loop.mail.sends) (hid : x.id = id) (hc : x.arrived = false) :
      Reason d id driverGoneBeforeCompletion
  | sent {cell : Cell} {x : Uring.Sent} {err : IoError} (hcell : cell ∈ d.cells)
      (hx : x ∈ cell.loop.mail.sends) (hid : x.id = id) (ho : x.outcome = .error err) :
      Reason d id err

theorem Reason.step {id : Nat} {err : IoError} (h : d.Reason id err) (hr : Reach cfg r d)
    (hs : step cfg d e = some d') : d'.Reason id err := by
  have hlater {cell : Cell} (hcell : cell ∈ d.cells) : ∃ b ∈ d'.cells,
      cell.loop.mail.sends ⊆ b.loop.mail.sends ∧ cell.loop.mail.lost ⊆ b.loop.mail.lost := by
    obtain ⟨k, hk⟩ := List.mem_iff_getElem?.mp hcell
    obtain ⟨b, hb, hl⟩ := cell_later hr hs hk
    exact ⟨b, List.mem_of_getElem? hb, hl.loop.mail ((Reach.wired hr).loops cell hcell)⟩
  cases h with
  | invalid msg => exact .invalid msg
  | gone h => exact .gone (h.step hr hs)
  | lost hcell h =>
    obtain ⟨b, hb, _, hlost⟩ := hlater hcell
    exact .lost hb (hlost h)
  | closed hcell hx hid hc =>
    obtain ⟨b, hb, hsends, _⟩ := hlater hcell
    exact .closed hb (hsends hx) hid hc
  | sent hcell hx hid ho =>
    obtain ⟨b, hb, hsends, _⟩ := hlater hcell
    exact .sent hb (hsends hx) hid ho

/-- An answer is what a poll returns. -/
theorem mem_seen_answer {res : IoResult} (h : Seen.answer i res ∈ seen cfg d e) :
    ∃ id hd v, e = .caller id .poll ∧ d.callers.lookup id = some (.holding hd) ∧
      d.view hd.shard = some v ∧ hd.finished = none ∧
      (hd.poll id v).1.finished = some res ∧ i = id - 1 := by
  unfold seen at h
  split at h
  · cases List.mem_singleton.mp h
  · rename_i id
    split at h
    · cases h
    · rename_i d' hs
      obtain ⟨x, v, y, v', hx, hv, ha, rfl⟩ := step_caller hs
      rw [lookup_put_self] at h
      cases x with
      | submitting c => cases ha
      | holding hd =>
        unfold Caller.act at ha
        simp only at ha
        split at ha <;> cases ha
        rename_i hf
        rw [Option.not_isSome_iff_eq_none] at hf
        simp only [Option.elim_some, Caller.returned, Option.mem_toList, Option.map_eq_some_iff,
          Seen.answer.injEq] at h
        obtain ⟨res', hres, hid, rfl⟩ := h
        exact ⟨id, hd, v, rfl, hx, hv, hf, hres, hid.symm⟩
  · cases h

/-- An error that a poll returns has its reason. -/
theorem reason_of_seen (hr : Reach cfg r d) (hs : step cfg d e = some d') {err : IoError}
    (h : Seen.answer i (.error err) ∈ seen cfg d e) : d.Reason (i + 1) err := by
  obtain ⟨id, hd, v, rfl, hx, hv, hf, hres, rfl⟩ := mem_seen_answer h
  rw [Nat.sub_add_cancel ((Reach.fresh hr).positive id _ hx)]
  obtain ⟨cell, hcell, heq⟩ := view_eq_some hv
  have hmem := List.mem_of_getElem? hcell
  cases ReadHandle.poll_returns hf hres with
  | inert hst =>
    rcases Reach.inertError hr id _ hx _ hst with hgone | ⟨msg, hinvalid⟩
    · cases hgone
      refine .gone ((Reach.open_or_begun hr).resolve_right fun hopen => ?_)
      exact hopen.callers id _ hx hst
    · cases hinvalid
      exact .invalid msg
  | gone _ href =>
    rcases Reach.open_or_begun hr with hbegun | hopen
    · exact .gone hbegun
    · exact .gone (hopen.begun_of_refuses hr (live_of_step hs) hx hv href)
  | dropped _ hm =>
    rw [heq] at hm
    rcases hm with hlost | ⟨x, hsent, hid, harr⟩
    · exact .lost hmem hlost
    · exact .closed hmem hsent hid harr
  | sent _ hsent hid _ ho =>
    rw [heq] at hsent
    exact .sent hmem hsent hid ho

/-- Every error that a run has answered has its reason. -/
theorem reason_of_run {es : List DriverEvent} (hrun : run (step cfg) (init cfg r) es = some d)
    {err : IoError} (h : Seen.answer i (.error err) ∈
      outputs (step cfg) (seen cfg) (init cfg r) es) : d.Reason (i + 1) err := by
  refine run_history (P := fun es d => Seen.answer i (.error err) ∈
    outputs (step cfg) (seen cfg) (init cfg r) es → d.Reason (i + 1) err) nofun ?_ hrun h
  intro es t e t' hrun hi hs hmem
  have hr : Reach cfg r t := reachable_of_run_any hrun
  rw [outputs_concat hrun] at hmem
  rcases List.mem_append.mp hmem with hold | hnew
  · exact (hi hold).step hr hs
  · exact (reason_of_seen hr hs hnew).step hr hs

/-- The attempts that the loop of shard `k` makes for the read `id` at one transition. -/
def triesAt (k id : Nat) (d : Driver) (e : DriverEvent) : List Attempt :=
  match e with
  | .turn j a => if j = k then (d.loopOf k).tries id a else []
  | _ => []

/-- The attempts that the loop of shard `k` has made for the read `id` in a run. -/
def attemptsAt (cfg : Config) (r : Option Nat) (es : List DriverEvent) (k id : Nat) :
    List Attempt :=
  outputs (step cfg) (triesAt k id) (init cfg r) es

/-- A loop of a driver has made a run of its own, with the attempts that the driver's run shows. -/
theorem exists_loop_run {ok : Shard → Event → Prop} {asks : Request → Prop}
    (hout : ∀ s e, Outside (Asked cfg asks) s e → ok s e) {es : List DriverEvent}
    (hrun : run (step cfg) (init cfg r) es = some d)
    (ha : Admitted (step cfg) (Within ok asks) (init cfg r) es) (k : Nat) :
    ∃ w, run (Shard.step cfg.params) .init w = some (d.loopOf k) ∧
      Admitted (Shard.step cfg.params) ok .init w ∧
      ∀ id, Shard.attempts cfg.params w id = attemptsAt cfg r es k id := by
  refine admitted_history (P := fun es d => ∃ w,
    run (Shard.step cfg.params) .init w = some (d.loopOf k) ∧
      Admitted (Shard.step cfg.params) ok .init w ∧
      ∀ id, Shard.attempts cfg.params w id = attemptsAt cfg r es k id)
    ⟨[], rfl, trivial, fun _ => rfl⟩ ?_ hrun ha
  rintro es t e t' hrun ha ⟨w, hw, hadm, has⟩ he hs
  obtain ⟨w', hw', hadm', hown, hother⟩ := loopOf_run hout (reachable_of_run hrun ha) he hs k
  refine ⟨w ++ w', ?_, hadm.append hw hadm', fun id => ?_⟩
  · rw [run_append, hw]
    exact hw'
  · have hmore : Shard.attempts cfg.params (w ++ w') id = Shard.attempts cfg.params w id ++
        outputs (Shard.step cfg.params) (Shard.tries id) (t.loopOf k) w' := outputs_append hw w'
    rw [hmore, has, attemptsAt, attemptsAt, outputs_concat hrun]
    congr 1
    by_cases hturn : ∃ ev, e = .turn k ev
    · obtain ⟨ev, rfl⟩ := hturn
      rw [hown ev rfl, triesAt, if_pos rfl, outputs]
      cases Shard.step cfg.params (t.loopOf k) ev <;> exact List.append_nil _
    · push Not at hturn
      rw [outputs_eq_nil fun ev hev _ => Shard.tries_outside (hother hturn ev hev) id]
      unfold triesAt
      split
      · rename_i j ev
        rw [if_neg]
        rintro rfl
        exact hturn ev rfl
      · rfl

/-- Why a run that ends in `d` has answered call `i`, of `req`, with an error. -/
inductive Cause (cfg : Config) (r : Option Nat) (es : List DriverEvent) (d : Driver) (i : Nat)
    (req : Request) : IoError → Prop
  /-- The validation refused the request. -/
  | invalid {err : IoError} (h : validateRead cfg.params.usizeMax cfg.limits req.offset req.len
      req.align req.allowCurrentPosition = .error err) : Cause cfg r es d i req err
  /-- Admission was closed or the thread gone: a shutdown had begun. -/
  | gone (h : d.ShutdownBegun) : Cause cfg r es d i req driverGone
  /-- The thread exited with the read in its channel. -/
  | lost {cell : Cell} {leaked : Bool} (hcell : cell ∈ d.cells)
      (h : i + 1 ∈ cell.loop.mail.lost) (hexit : cell.loop.phase = .exited leaked) :
      Cause cfg r es d i req driverGoneBeforeCompletion
  /-- The result found its receiver closed: the handle was being dropped. -/
  | closed {cell : Cell} {x : Uring.Sent} (hcell : cell ∈ d.cells)
      (hx : x ∈ cell.loop.mail.sends) (hid : x.id = i + 1) (hc : x.arrived = false) :
      Cause cfg r es d i req driverGoneBeforeCompletion
  /-- The loop of shard `k` failed the read, for a reason that its attempts give. -/
  | failed {k : Nat} {cell : Cell} {err : IoError} (hcell : d.cells[k]? = some cell)
      (h : cell.loop.Failure cfg.params (i + 1) (attemptsAt cfg r es k (i + 1)) err) :
      Cause cfg r es d i req err

/-- What the read service of a run answers: what a read service permits, and an error only for
its cause in the run. -/
def RunSpec (cfg : Config) (r : Option Nat) (F G : Nat → List UInt8) (es : List DriverEvent)
    (d : Driver) (i : Nat) (req : Request) (res : IoResult) : Prop :=
  ReadSpec cfg F G i req res ∧ ∀ err, res = .error err → Cause cfg r es d i req err

/-- A permitted error that has a reason has a cause. -/
theorem cause_of_reason {F G : Nat → List UInt8} (hu : WideUsize cfg.params.usizeMax)
    {es : List DriverEvent} (hrun : run (step cfg) (init cfg r) es = some d)
    (ha : Admitted (step cfg) (Within (Shard.Faithful cfg.params F G) Request.Public)
      (init cfg r) es) {req : Request} {err : IoError}
    (hspec : ReadSpec cfg F G i req (.error err)) (h : d.Reason (i + 1) err) :
    Cause cfg r es d i req err := by
  -- the attempts explain each loop
  have hexplained {k : Nat} {cell : Cell} (hcell : d.cells[k]? = some cell) :
      cell.loop.Explained cfg.params fun id => attemptsAt cfg r es k id := by
    obtain ⟨w, hw, hadm, has⟩ := exists_loop_run faithful_of_outside hrun ha k
    rw [loopOf_eq hcell] at hw
    have hx := Shard.explained_of_run hu hw (hadm.mono fun _ _ he => he.contract)
    rwa [funext has] at hx
  cases h with
  | invalid msg =>
    unfold ReadSpec at hspec
    split at hspec
    · rename_i e he
      cases hspec
      exact .invalid he
    · cases hspec
  | gone h => exact .gone h
  | lost hcell hlost =>
    obtain ⟨k, hk⟩ := List.mem_iff_getElem?.mp hcell
    obtain ⟨_, leaked, hexit⟩ := (hexplained hk).lost _ hlost
    exact .lost hcell hlost hexit
  | closed hcell hx hid hc => exact .closed hcell hx hid hc
  | @sent cell x _ hcell hx hid ho =>
    obtain ⟨k, hk⟩ := List.mem_iff_getElem?.mp hcell
    have hfail := (hexplained hk).sends x hx err ho
    rw [hid] at hfail
    exact .failed hk hfail

/-- What the callers of a driver see of any run is a trace of a read service: calls are numbered
in order, each is answered at most once and with what the service permits, and an error has its
cause in the run. No loop panics. -/
theorem driver_refines_read_service (cfg : Config) (hu : WideUsize cfg.params.usizeMax)
    (r : Option Nat) (F G : Nat → List UInt8) {es : List DriverEvent} {d : Driver}
    (hrun : run (step cfg) (init cfg r) es = some d)
    (ha : Admitted (step cfg) (Within (Shard.Faithful cfg.params F G) Request.Public)
      (init cfg r) es) :
    (∃ q, q.calls = submitted es ∧ Service.Trace (RunSpec cfg r F G es d) .idle
      (outputs (step cfg) (seen cfg) (init cfg r) es) q) ∧ d.aborted = false := by
  refine ⟨?_, alive_of_run hu hrun ha⟩
  obtain ⟨q, hcalls, htrace⟩ := trace_of_run hu hrun ha
  refine ⟨q, hcalls, htrace.strengthen fun i req res hmem hspec => ⟨hspec, ?_⟩⟩
  rintro err rfl
  exact cause_of_reason hu hrun ha hspec (reason_of_run hrun hmem)

/-- After a served read the kernel fails the next one with errno 5. -/
def failedRead : List DriverEvent :=
  [.turn 0 (.reap (.ok 5) false), .turn 0 (.submit false (.ok 0) []), .turn 0 (.endTurn 0 0 0),
    .submit twoBytes, .caller 2 .call, .caller 2 .call, .caller 2 .call, .turn 0 (.signal 2),
    .turn 0 .wake, .turn 0 .drainCq, .turn 0 .drainWake, .turn 0 (.intake 4096 []),
    .turn 0 (.intake 4096 [2]), .turn 0 (.submit false (.ok 1) [2]), .turn 0 (.post 0 (-5) []),
    .turn 0 (.reap (.ok 5) false), .caller 2 .poll]

/-- A third read comes while a shutdown closes admission. -/
def refusedRead : List DriverEvent :=
  [.requestShutdown 7, .closer 7, .closer 7, .closer 7, .closer 7, .closer 7, .closer 7,
    .submit twoBytes, .caller 3 .call, .caller 3 .poll]

/-- One read is served, one fails and one is refused. -/
def mixedReads : List DriverEvent := servedRead ++ failedRead ++ refusedRead

theorem mixedReads_runs : (run (step smallDriver) (init smallDriver none) mixedReads).isSome =
    true := by
  decide +kernel

/-- The errno is that of the only attempt, and the refusal comes from the shutdown. -/
theorem driver_refines_read_service_mixed : ∃ d,
    run (step smallDriver) (init smallDriver none) mixedReads = some d ∧
    outputs (step smallDriver) (seen smallDriver) (init smallDriver none) mixedReads =
      [.call twoBytes, .answer 0 (.ok [10, 20])] ++ [.call twoBytes, .answer 1 (.error (.os 5))] ++
        [.call twoBytes, .answer 2 (.error driverGone)] ∧
    (attemptsAt smallDriver none mixedReads 0 2).map Attempt.res = [-5] ∧
    Cause smallDriver none mixedReads d 1 twoBytes (.os 5) ∧
    Cause smallDriver none mixedReads d 2 twoBytes driverGone := by
  have hrun := (Option.some_get mixedReads_runs).symm
  have ha : admittedBool (step smallDriver)
      (keepsWithin smallDriver.params fun _ => [10, 20, 30, 40, 50]) (init smallDriver none)
      mixedReads = true := by
    decide +kernel
  have hseen : outputs (step smallDriver) (seen smallDriver) (init smallDriver none) mixedReads =
      [.call twoBytes, .answer 0 (.ok [10, 20])] ++ [.call twoBytes, .answer 1 (.error (.os 5))] ++
        [.call twoBytes, .answer 2 (.error driverGone)] := by
    decide +kernel
  have hwide : WideUsize smallDriver.params.usizeMax := by
    unfold WideUsize smallDriver Shard.oneSlot
    decide
  obtain ⟨q, _, htrace⟩ := (driver_refines_read_service smallDriver hwide none _ (fun _ => []) hrun
    (admitted_of_admittedBool (fun _ _ he => within_of_keepsWithin he) ha)).1
  rw [hseen] at htrace
  have hspec := htrace.sound.2
  refine ⟨_, hrun, hseen, by decide +kernel, ?_, ?_⟩
  · obtain ⟨req, hreq, _, hcause⟩ := hspec [.call twoBytes, .answer 0 (.ok [10, 20]),
      .call twoBytes] 1 (.error (.os 5)) [.call twoBytes, .answer 2 (.error driverGone)] rfl
    cases hreq
    exact hcause _ rfl
  · obtain ⟨req, hreq, _, hcause⟩ := hspec [.call twoBytes, .answer 0 (.ok [10, 20]),
      .call twoBytes, .answer 1 (.error (.os 5)), .call twoBytes] 2 (.error driverGone) [] rfl
    cases hreq
    exact hcause _ rfl

end Driver

end Uring
