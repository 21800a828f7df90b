import Uring.Driver.Service
import Uring.Prefetch.Content

/-!
# Ordered prefetch over a driver

A session is an ordered reader whose source is `read_at` of a driver, and the consumer that
checks what it returns. The transitions of the driver, those for the reader's own reads among
them, interleave in any way with the polls of the reader; a poll of the reader is one
transition, taken when it returns. Its source calls are reads that the driver was asked for
before that, and its slots are answered by what polls of their handles have returned.
-/

namespace Uring.Prefetch

open Uring.Core

/-- What a session is run with: the driver, the file it reads and the range it prefetches. -/
structure Setup where
  driver : Uring.Config
  file : Nat
  policy : ShardPolicy
  reader : Config

/-- The source of the reader: `driver.read_at(Arc::clone(&file), offset, len)`. -/
def Setup.source (u : Setup) (range : Nat × Nat) : Request :=
  (ReadRequest.mk u.file range.1 range.2).request u.policy

/-- The ranges that the reader requests from its source at the start of its next poll. -/
def OrderedReader.requests (r : OrderedReader) : List (Nat × Nat) :=
  if r.finished then []
  else r.fillWindow.elim [] fun r' => r'.hist.calls.drop r.hist.calls.length

/-- The answer to call `i` among what was seen. -/
def answerOf (xs : List (Seen Request IoResult)) (i : Nat) : Option IoResult :=
  xs.findSome? fun
    | .call _ => none
    | .answer j res => if j = i then some res else none

/-- A driver, what its callers have seen, the reader, the numbers of the reads behind its ranges,
and the consumer. -/
structure Session where
  driver : Driver
  seen : List (Seen Request IoResult)
  reader : OrderedReader
  handles : List ((Nat × Nat) × Nat)
  consumer : Consumer

inductive SessionEvent
  /-- A transition of the driver, in any of its threads. -/
  | driver (e : DriverEvent)
  /-- A poll of the reader returns. The reads that its source has begun have the numbers `calls`,
  and `answers` are for the reference read of the consumer. -/
  | next (calls : List Nat) (answers : List Pread)

namespace Session

/-- What a poll of the future of a range has returned. -/
def poll (s : Session) : Poll := fun a len => (s.handles.lookup (a, len)).bind (answerOf s.seen)

/-- The session before its first transition. -/
def start (u : Setup) (r : Option Nat) : Except IoError Session := do
  let reader ← OrderedReader.new u.reader
  return ⟨Driver.init u.driver r, [], reader, [], ⟨0, 0, none⟩⟩

/-- The handles that the source returned for new ranges are those of its reads. -/
def attach (u : Setup) (calls : List Nat) (s : Session) : Option Session :=
  let ranges := s.reader.requests
  if calls.length = ranges.length ∧
      ∀ h ∈ ranges.zip calls, (Seen.calls s.seen)[h.2]? = some (u.source h.1) then
    some { s with handles := s.handles ++ ranges.zip calls }
  else none

/-- A poll of the reader, and what the consumer does with its value. -/
def pollNext (F : Nat → List UInt8) (u : Setup) (answers : List Pread) (s : Session) :
    Option Session :=
  match s.reader.pollNext s.poll with
  | none => some { s with consumer := s.consumer.stop .panicked }
  | some reader =>
    match reader.hist.returned.drop s.reader.hist.returned.length with
    | [] => some { s with reader := reader }
    | out :: _ =>
      (s.consumer.take (F u.file) answers u.reader s.reader.rangeEnd out).map fun consumer =>
        { s with reader := reader, consumer := consumer }

/-- One transition over files `F`; after a verdict the reader is polled no more. -/
def step (F : Nat → List UInt8) (u : Setup) (s : Session) : SessionEvent → Option Session
  | .driver e => (s.driver.step u.driver e).map fun d =>
    { s with driver := d, seen := s.seen ++ Driver.seen u.driver s.driver e }
  | .next calls answers =>
    if s.consumer.verdict.isSome then none else (s.attach u calls).bind (pollNext F u answers)

/-- The driver's loops face a faithful kernel, and the reference reads fail with the errors in
`reference` only. -/
def Allowed (u : Setup) (F G : Nat → List UInt8) (reference : IoError → Prop) (s : Session) :
    SessionEvent → Prop
  | .driver e =>
    Driver.Within (Shard.Faithful u.driver.params F G) Request.Public s.driver e
  | .next _ answers => ∀ e, Pread.error e ∈ answers → reference e

/-- The errors that a session may fail with: one that a read of a part of the range is answered
with, or one of the reference reads. -/
def Fails (u : Setup) (F G : Nat → List UInt8) (reference : IoError → Prop) (e : IoError) : Prop :=
  reference e ∨ ∃ i a len, u.reader.offset ≤ a ∧ a + len ≤ u.reader.offset + u.reader.length ∧
    ReadSpec u.driver F G i (u.source (a, len)) (.error e)

/-- What a session keeps: its driver refines the read service with what was seen, its handles
are those of the reader's ranges, the reader is in order over every source that extends the
answers so far, and its consumer has checked what it returned. -/
structure Sound (u : Setup) (r : Option Nat) (F G : Nat → List UInt8) (fails : IoError → Prop)
    (last : Nat) (s : Session) (q : Service Request) : Prop where
  driver : Reachable (Driver.step u.driver)
    (Driver.Within (Shard.Faithful u.driver.params F G) Request.Public) (Driver.init u.driver r)
    s.driver
  serves : s.driver.Serves u.driver F G q
  trace : Service.Trace (ReadSpec u.driver F G) .idle s.seen q
  handles : ∀ h ∈ s.handles, (Seen.calls s.seen)[h.2]? = some (u.source h.1)
  ordered : ∀ g, Follows g s.poll → s.reader.Ordered g u.reader last
  checked : s.consumer.Checked (F u.file) u.reader last fails s.reader.hist.returned

variable {u : Setup} {r : Option Nat} {F G : Nat → List UInt8} {fails reference : IoError → Prop}
    {last : Nat} {s s' : Session} {q : Service Request}

/-- A source that extends the later answers extends the earlier ones. -/
theorem follows_mono {g : Nat → Nat → IoResult} (h : Follows g s'.poll)
    (hseen : s.seen <+: s'.seen) (hhandles : s.handles <+: s'.handles) : Follows g s.poll := by
  intro a len res hres
  obtain ⟨i, hi, hfound⟩ := Option.bind_eq_some_iff.mp hres
  obtain ⟨xs, hxs⟩ := hseen
  obtain ⟨hs, hhs⟩ := hhandles
  refine h a len res (Option.bind_eq_some_iff.mpr ⟨i, ?_, ?_⟩)
  · rw [← hhs, List.lookup_append, hi]
    rfl
  · rw [answerOf] at hfound ⊢
    rw [← hxs, List.findSome?_append, hfound]
    rfl

/-- What a handle of the reader has returned is an answer to the read of its range. -/
theorem Sound.answer (h : s.Sound u r F G fails last q) {a len : Nat} {res : IoResult}
    (hres : s.poll a len = some res) :
    ∃ i, ReadSpec u.driver F G i (u.source (a, len)) res := by
  obtain ⟨i, hi, hfound⟩ := Option.bind_eq_some_iff.mp hres
  obtain ⟨l₁, l₂, hlist, _⟩ := List.lookup_eq_some_iff.mp hi
  have hcall := h.handles ((a, len), i) (by rw [hlist]; simp)
  obtain ⟨before, x, after, hseen, hx, _⟩ := List.findSome?_eq_some_iff.mp hfound
  cases x with
  | call req => cases hx
  | answer j res' =>
    simp only [Option.ite_none_right_eq_some, Option.some.injEq] at hx
    obtain ⟨rfl, rfl⟩ := hx
    obtain ⟨req, hreq, hspec⟩ := h.trace.sound.2 before j res' after hseen
    have hsame : (Seen.calls s.seen)[j]? = some req :=
      hseen ▸ Seen.getElem?_calls_append hreq _
    obtain rfl : u.source (a, len) = req := Option.some.inj (hcall.symm.trans hsame)
    exact ⟨j, hspec⟩

/-- A source of a session: the answers so far, and the ranges of the file for all others. -/
def completed (F : Nat → List UInt8) (u : Setup) (s : Session) (a len : Nat) : IoResult :=
  (s.poll a len).getD (.ok (window (F u.file) a len))

theorem follows_completed : Follows (completed F u s) s.poll := by
  intro a len res hres
  rw [completed, hres]
  rfl

/-- A permitted answer with bytes is the range of the file. -/
theorem window_of_spec {i a len : Nat} {bytes : List UInt8}
    (h : ReadSpec u.driver F G i (u.source (a, len)) (.ok bytes)) :
    bytes = window (F u.file) a len := by
  unfold ReadSpec at h
  split at h
  · cases h
  · exact h

theorem Sound.exact (h : s.Sound u r F G fails last q) :
    Exact (F u.file) (completed F u s) := by
  intro a len bytes hres
  cases hpoll : s.poll a len with
  | none =>
    rw [completed, hpoll] at hres
    exact (Except.ok.inj hres).symm
  | some res =>
    rw [completed, hpoll] at hres
    obtain rfl : res = .ok bytes := hres
    obtain ⟨i, hspec⟩ := h.answer hpoll
    exact window_of_spec hspec

/-- A transition of the driver changes neither the reader nor the consumer. -/
theorem Sound.driverStep (h : s.Sound u r F G fails last q)
    (hu : WideUsize u.driver.params.usizeMax) {e : DriverEvent} {d : Driver}
    (he : Driver.Within (Shard.Faithful u.driver.params F G) Request.Public s.driver e)
    (hs : s.driver.step u.driver e = some d) :
    ∃ q', Sound u r F G fails last
      { s with driver := d, seen := s.seen ++ Driver.seen u.driver s.driver e } q' := by
  obtain ⟨q', htrace, hserves⟩ := h.serves.transition hu
    (Driver.Reach.wired (h.driver.mono fun _ _ _ => trivial))
    (Driver.Reach.looped Driver.faithful_of_outside h.driver) he hs
  refine ⟨q', h.driver.next he hs, hserves, h.trace.append htrace, ?_, ?_, h.checked⟩
  · exact fun x hx => Seen.getElem?_calls_append (h.handles x hx) _
  · exact fun g hg => h.ordered g (follows_mono hg (List.prefix_append _ _) List.prefix_rfl)

/-- New handles are those of reads of their ranges. -/
theorem Sound.attached (h : s.Sound u r F G fails last q) {calls : List Nat}
    (hs : s.attach u calls = some s') :
    s'.Sound u r F G fails last q ∧ s'.reader = s.reader ∧ s'.consumer = s.consumer := by
  unfold attach at hs
  simp only at hs
  split at hs
  · rename_i hcond
    cases hs
    refine ⟨⟨h.driver, h.serves, h.trace, ?_, ?_, h.checked⟩, rfl, rfl⟩
    · intro x hx
      rcases List.mem_append.mp hx with hold | hnew
      · exact h.handles x hold
      · exact hcond.2 x hnew
    · exact fun g hg => h.ordered g (follows_mono hg List.prefix_rfl (List.prefix_append _ _))
  · cases hs

/-- A poll of the reader returns what comes next in the file, and the consumer's checks pass. -/
theorem Sound.polled (h : s.Sound u r F G fails last q) (hc : u.reader.Valid last)
    (hv : s.consumer.verdict = none) {answers : List Pread}
    (hfails : ∀ i a len e, u.reader.offset ≤ a → a + len ≤ last →
      ReadSpec u.driver F G i (u.source (a, len)) (.error e) → fails e)
    (hanswers : ∀ e, Pread.error e ∈ answers → fails e)
    (hs : s.pollNext F u answers = some s') : s'.Sound u r F G fails last q := by
  have hp := follows_completed (F := F) (u := u) (s := s)
  have hordered := h.ordered _ hp
  obtain ⟨reader, hreader, hordered', hcases⟩ := hordered.pollNext hc hp
  have hall : ∀ g, Follows g s.poll → reader.Ordered g u.reader last := by
    intro g hg
    obtain ⟨reader', hreader', hg', _⟩ := (h.ordered g hg).pollNext hc hg
    obtain rfl : reader = reader' := Option.some.inj (hreader.symm.trans hreader')
    exact hg'
  unfold pollNext at hs
  rw [hreader] at hs
  simp only at hs
  rcases hcases with ⟨out, hout⟩ | ⟨_, _, _, hsame⟩
  · rw [hout, List.drop_left] at hs
    obtain ⟨x, hx, rfl⟩ := Option.map_eq_some_iff.mp hs
    refine ⟨h.driver, h.serves, h.trace, h.handles, hall, ?_⟩
    have hchecked := h.checked
    rw [Consumer.Checked, hv] at hchecked
    obtain ⟨k, hk⟩ := hordered'.returned
    rw [hout, List.append_assoc] at hk
    obtain ⟨_, _, hnext⟩ := next_of_outcomes h.exact hc.chunk_pos hk hchecked.1 (by omega)
    rw [hordered.windowed.rangeEnd] at hx
    change x.Checked (F u.file) u.reader last fails reader.hist.returned
    rw [hout]
    refine h.checked.take hv hnext (fun a len e ha hlen he => ?_) hanswers hx
    cases hpoll : s.poll a len with
    | none =>
      rw [completed, hpoll] at he
      cases he
    | some res =>
      rw [completed, hpoll] at he
      obtain rfl : res = .error e := he
      obtain ⟨i, hspec⟩ := h.answer hpoll
      exact hfails i a len e ha hlen hspec
  · rw [hsame, List.drop_length] at hs
    cases hs
    exact ⟨h.driver, h.serves, h.trace, h.handles, hall, hsame ▸ h.checked⟩

/-- A session starts in order. -/
theorem start_sound (hstart : start u r = .ok s) :
    u.reader.Valid (u.reader.offset + u.reader.length) ∧
      s.Sound u r F G fails (u.reader.offset + u.reader.length) .idle := by
  unfold start at hstart
  cases hnew : OrderedReader.new u.reader with
  | error e =>
    rw [hnew] at hstart
    cases hstart
  | ok reader =>
    rw [hnew] at hstart
    obtain rfl : _ = s := Except.ok.inj hstart
    have hordered (g : Nat → Nat → IoResult) : u.reader.Valid (u.reader.offset + u.reader.length) ∧
        reader.Ordered g u.reader (u.reader.offset + u.reader.length) := by
      obtain ⟨last, hc, ho⟩ := OrderedReader.new_ordered g hnew
      exact hc.last_eq ▸ ⟨hc, ho⟩
    have hhist : reader.hist.returned = [] := by
      cases hvalidate : u.reader.validate with
      | error e =>
        simp only [OrderedReader.new, hvalidate] at hnew
        cases hnew
      | ok last =>
        obtain ⟨reader', hreader', _, _, _, _, _, hhist⟩ := OrderedReader.new_windowed hvalidate
        obtain rfl : reader = reader' := Except.ok.inj (hnew.symm.trans hreader')
        rw [hhist]
    refine ⟨(hordered (fun _ _ => .ok [])).1, .start, .init, .nil, ?_,
      fun g _ => (hordered g).2, ?_⟩
    · intro _ h
      cases h
    change Consumer.Checked _ _ _ _ reader.hist.returned _
    rw [hhist]
    exact .init (Nat.le_add_right _ _)

/-- Every run of a session is sound. -/
theorem run_sound (hu : WideUsize u.driver.params.usizeMax) {s₀ : Session}
    (hstart : start u r = .ok s₀)
    (h : Reachable (step F u) (Allowed u F G reference) s₀ s) :
    ∃ q, s.Sound u r F G (Fails u F G reference) (u.reader.offset + u.reader.length) q := by
  obtain ⟨hc, hsound⟩ : _ ∧ s₀.Sound u r F G (Fails u F G reference)
    (u.reader.offset + u.reader.length) .idle := start_sound hstart
  refine h.invariant (I := fun s => ∃ q, s.Sound u r F G (Fails u F G reference)
    (u.reader.offset + u.reader.length) q) ⟨.idle, hsound⟩ ?_
  rintro s e s' - ⟨q, hsound⟩ he hs
  cases e with
  | driver e =>
    obtain ⟨d, hd, rfl⟩ := Option.map_eq_some_iff.mp hs
    exact hsound.driverStep hu he hd
  | next calls answers =>
    unfold step at hs
    simp only at hs
    split at hs
    · cases hs
    · rename_i hv
      obtain ⟨s₁, hattach, hpoll⟩ := Option.bind_eq_some_iff.mp hs
      obtain ⟨hsound₁, -, hconsumer⟩ := hsound.attached hattach
      refine ⟨q, hsound₁.polled hc ?_ (fun i a len e ha hlen hspec => Or.inr ⟨i, a, len, ha, hlen,
        hspec⟩) (fun e hmem => Or.inl (he e hmem)) hpoll⟩
      rw [hconsumer]
      exact Option.not_isSome_iff_eq_none.mp hv

/-- Ordered prefetch over a driver yields the file: in every run of a session, whatever the
shards, the policy, the limits, the interleaving and the order of completions, every check of the
consumer passes. It is at the right place of the file as long as the reader yields chunks, it
ends when it has seen the whole range, or all of it before the end of the file, and it fails only
with an error of one of its reads. -/
theorem session_reads_file (F G : Nat → List UInt8) (reference : IoError → Prop) {s₀ : Session}
    {es : List SessionEvent} (hu : WideUsize u.driver.params.usizeMax)
    (hstart : start u r = .ok s₀) (hrun : run (step F u) s₀ es = some s)
    (ha : Admitted (step F u) (Allowed u F G reference) s₀ es) :
    s.consumer.Checked (F u.file) u.reader (u.reader.offset + u.reader.length)
      (Fails u F G reference) s.reader.hist.returned := by
  obtain ⟨q, hsound⟩ := run_sound hu hstart (reachable_of_run hrun ha)
  exact hsound.checked

/-- Files of five bytes. -/
def fiveBytes : Nat → List UInt8 := fun _ => [10, 20, 30, 40, 50]

/-- Two bytes of a file are prefetched in one range. -/
def twoByteSetup : Setup := ⟨Driver.smallDriver, 0, .roundRobin, ⟨0, 2, 2, 1, 2⟩⟩

/-- Its session before the first transition. -/
def twoByteStart : Session :=
  ⟨Driver.init Driver.smallDriver none, [],
    ⟨⟨0, 2, 2, 1, 2⟩, 2, 0, 0, [], false, false, ⟨[], [], []⟩⟩, [], ⟨0, 0, none⟩⟩

/-- The reader is polled before and after its read completes, and once more at the end. -/
def polledTwice : List SessionEvent :=
  (Driver.servedRead.take 6).map .driver ++ [.next [0] []] ++
    (Driver.servedRead.drop 6).map .driver ++ [.next [] [.data 1], .next [] []]

/-- Check one label of a session whose reference reads never fail. -/
def keepsAllowed (u : Setup) (F : Nat → List UInt8) (s : Session) : SessionEvent → Bool
  | .driver e => Driver.keepsWithin u.driver.params F s.driver e
  | .next _ answers => answers.all fun
    | .error _ => false
    | _ => true

theorem allowed_of_keepsAllowed {e : SessionEvent} (h : keepsAllowed u F s e = true) :
    Allowed u F G (fun _ => False) s e := by
  cases e with
  | driver e => exact Driver.within_of_keepsWithin h
  | next calls answers =>
    intro e hmem
    cases List.all_eq_true.mp h _ hmem

/-- The two bytes are delivered in one chunk. -/
theorem session_reads_file_twice : ∃ s, run (step fiveBytes twoByteSetup) twoByteStart polledTwice =
      some s ∧ s.consumer.verdict = some (.delivered 2 1) ∧
    s.consumer.Checked (fiveBytes twoByteSetup.file) twoByteSetup.reader
      (twoByteSetup.reader.offset + twoByteSetup.reader.length)
      (Fails twoByteSetup fiveBytes (fun _ => []) fun _ => False) s.reader.hist.returned := by
  have hverdict : (run (step fiveBytes twoByteSetup) twoByteStart polledTwice).map
      (fun s => s.consumer.verdict) = some (some (.delivered 2 1)) := by
    decide +kernel
  have ha : admittedBool (step fiveBytes twoByteSetup) (keepsAllowed twoByteSetup fiveBytes)
      twoByteStart polledTwice = true := by
    decide +kernel
  have hwide : WideUsize twoByteSetup.driver.params.usizeMax := by
    unfold WideUsize twoByteSetup Driver.smallDriver Shard.oneSlot
    decide
  have hstart : start twoByteSetup none = .ok twoByteStart := rfl
  obtain ⟨s, hrun, hs⟩ := Option.map_eq_some_iff.mp hverdict
  exact ⟨s, hrun, hs, session_reads_file fiveBytes (fun _ => []) (fun _ => False) hwide hstart hrun
    (admitted_of_admittedBool (fun _ _ he => allowed_of_keepsAllowed he) ha)⟩

end Session

end Uring.Prefetch
