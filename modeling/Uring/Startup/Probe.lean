import Uring.Core.Eventually
import Uring.Driver.Budget

/-!
# Starting a shard

`start_shard` asks for a ring and, on a driver's first shard, checks it with one real read
before any work is accepted. The kernel may write the read's buffer at any later point until
it completes the entry, so the probe frees the buffer only behind the completion and leaks it
when it cannot wait for one. A kernel with `EXT_ARG` ends the wait at the probe's deadline; an
older one ends it with a completion or a signal only. A ring handed to a loop is empty.
-/

namespace Uring

open Uring.Core

/-- `ENOSYS` and `ETIME`. -/
def eNoSys : Nat := 38
def eTime : Nat := 62

/-- The bytes of the probe file. -/
def probePattern : List UInt8 := (List.range 512).map fun i => UInt8.ofNat (i * 7 + 13)

/-- `PROBE_TIMEOUT` in nanoseconds. -/
def probeTimeout : Nat := 2 * 1000000000

/-- The `user_data` of the probe's entry. -/
def probeId : Nat := 0xB0BE

/-- The probe's entry, for a buffer at address `base`. -/
def probeSqe (file base : Nat) : Sqe := .read probeId file ⟨probeId, base, 0⟩ probePattern.length 0

/-- `io::ErrorKind`; the standard library knows the kind of each errno. -/
inductive ErrorKind
  | ofErrno (errno : Nat)
  | other
  | invalidInput
  | wouldBlock
  | invalidData
  deriving DecidableEq, Repr

/-- `io::Error::kind`. -/
def IoError.kind : IoError → ErrorKind
  | .os errno => .ofErrno errno
  | .other _ => .other
  | .invalidInput _ => .invalidInput
  | .wouldBlock _ => .wouldBlock
  | .invalidData _ => .invalidData

/-- `io::Error::raw_os_error`. -/
def IoError.rawOsError : IoError → Option Nat
  | .os errno => some errno
  | _ => none

/-- `IoWqRegistration`. -/
inductive IoWqRegistration
  | registered (previousLimits : Nat × Nat)
  | failed (errorKind : ErrorKind) (rawOsError : Option Nat)
  deriving DecidableEq, Repr

/-- `IoWqSetup`. -/
structure IoWqSetup where
  requested : Nat × Nat
  result : IoWqRegistration
  deriving DecidableEq, Repr

/-- `register_iowq_setup`, with the kernel's answer to the requested limits. -/
def registerIowqSetup (register : Nat × Nat → Except IoError (Nat × Nat)) : IoWqSetup :=
  let requested := (16, 0)
  match register requested with
  | .ok limits => ⟨requested, .registered limits⟩
  | .error e => ⟨requested, .failed e.kind e.rawOsError⟩

/-- The probe's buffer. -/
inductive Memory
  | unallocated
  | live
  | freed
  | leaked
  deriving DecidableEq, Repr

/-- The calls after the probe that fail the start. -/
inductive SetupCall
  | cqEventfd
  | registerEventfd
  | wakeEventfd
  | spawn
  deriving DecidableEq, Repr

/-- The features of a new ring that a start looks at. -/
structure RingFeatures where
  nodrop : Bool
  extArg : Bool
  deriving DecidableEq, Repr

/-- The next action of `start_shard`. -/
inductive StartPhase
  /-- `IoUring::new` and the NODROP check. -/
  | ring
  | openFile
  | push
  /-- `drain_probe_cqe` sets its deadline. -/
  | arm
  /-- It reads the time that remains. -/
  | clock
  /-- It submits and waits, with `EXT_ARG` until the deadline at most. -/
  | wait
  /-- It looks for the completion. -/
  | next
  | call (k : SetupCall)
  | iowq
  | done (r : Except ProbeFailure Unit)
  deriving DecidableEq

/-- A running `start_shard`: its ring, its probe's buffer and what it has set up. -/
structure Starting where
  sq : List Sqe
  held : List Sqe
  cq : List Cqe
  memory : Memory
  bytes : List UInt8
  file : Nat
  deadline : Nat
  extArg : Bool
  iowqSetup : Option IoWqSetup
  /-- The count semaphore is in the admission registry. -/
  registered : Bool
  phase : StartPhase
  /-- What the completion said and the buffer held when it was consumed; nothing reads it. -/
  answer : Option (Int × List UInt8)

/-- The labels of a start: the thread's own calls, and the kernel's two actions. -/
inductive StartEvent
  /-- `IoUring::new` returns. -/
  | ring (r : Except IoError RingFeatures)
  /-- `open_probe_file` returns. -/
  | openFile (r : Except IoError Nat)
  /-- The buffer is allocated at `base` and the entry pushed, unless the queue is full. -/
  | push (base : Nat) (full : Bool)
  | arm (now : Nat)
  | clock (now : Nat)
  /-- `submit_with_args` or `submit_and_wait` returns. -/
  | waited (r : Except IoError Nat)
  | next
  | call (r : Except IoError Unit)
  | iowq (r : Except IoError (Nat × Nat))
  /-- The kernel takes the entry during the call. -/
  | consume
  /-- The kernel completes the entry, at any time. -/
  | post (res : Int) (data : List UInt8)
  deriving DecidableEq

namespace Starting

/-- Where a start begins. -/
def init : Starting where
  sq := []
  held := []
  cq := []
  memory := .unallocated
  bytes := []
  file := 0
  deadline := 0
  extArg := false
  iowqSetup := none
  registered := false
  phase := .ring
  answer := none

/-- Return an error. -/
def fail (s : Starting) (e : ProbeFailure) : Starting := { s with phase := .done (.error e) }

/-- Forget the buffer and the file, and return an error. -/
def forget (s : Starting) (e : IoError) : Starting :=
  { s with memory := .leaked }.fail (.readOp e)

/-- An interrupted or expired wait is retried without another push. -/
def retriesWait : IoError → Bool
  | .os e => decide (e = eIntr) || decide (e = eTime)
  | _ => false

/-- What `probe_real_read` makes of the completion's result. -/
def probeVerdict (res : Int) (bytes : List UInt8) : Except IoError Unit :=
  if res < 0 then .error (.os (-res).toNat)
  else if res.toNat ≠ probePattern.length ∨ bytes ≠ probePattern then
    .error (.other "probe: read completed but data mismatched")
  else .ok ()

/-- The action after a successful setup call. -/
def afterCall (s : Starting) : SetupCall → Starting
  | .cqEventfd => { s with phase := .call .registerEventfd }
  | .registerEventfd => { s with phase := .iowq }
  | .wakeEventfd => { s with registered := true, phase := .call .spawn }
  | .spawn => { s with phase := .done (.ok ()) }

/-- One transition; `probe` is set for a driver's first shard. -/
def step (probe : Bool) (s : Starting) (e : StartEvent) : Option Starting :=
  match s.phase, e with
  | .ring, .ring (.error e) => some (s.fail (.setup e))
  | .ring, .ring (.ok features) =>
    if !features.nodrop then some (s.fail (.setup (.os eNoSys)))
    else some { s with
      extArg := features.extArg
      phase := if probe then .openFile else .call .cqEventfd }
  | .openFile, .openFile (.error e) => some (s.fail (.readOp e))
  | .openFile, .openFile (.ok file) => some { s with file := file, phase := .push }
  | .push, .push base full =>
    if full then
      -- the kernel never got the entry
      some ({ s with memory := .freed }.fail (.readOp (.other "probe: submission queue full")))
    else some { s with
      sq := s.sq ++ [probeSqe s.file base]
      memory := .live
      bytes := List.replicate probePattern.length 0
      phase := .arm }
  | .arm, .arm now => some { s with deadline := now + probeTimeout, phase := .clock }
  | .clock, .clock now =>
    if s.deadline ≤ now then some (s.forget (.other "probe: no CQE within the bounded wait"))
    else some { s with phase := .wait }
  | .wait, .waited (.ok _) => some { s with phase := .next }
  | .wait, .waited (.error e) =>
    -- only a wait with a timeout expires
    if e = .os eTime ∧ ¬ s.extArg then none
    else if retriesWait e then some { s with phase := .next }
    else some (s.forget e)
  | .next, .next =>
    match s.cq with
    | [] => some { s with phase := .clock }
    | q :: rest =>
      let s := { s with cq := rest, memory := .freed, answer := some (q.res, s.bytes) }
      match probeVerdict q.res s.bytes with
      | .error e => some (s.fail (.readOp e))
      | .ok () => some { s with phase := .call .cqEventfd }
  | .call _, .call (.error e) => some (s.fail (.setup e))
  | .call k, .call (.ok ()) => some (s.afterCall k)
  | .iowq, .iowq r =>
    some { s with iowqSetup := some (registerIowqSetup fun _ => r), phase := .call .wakeEventfd }
  | .wait, .consume =>
    match s.sq with
    | [] => none
    | e :: rest => some { s with sq := rest, held := s.held ++ [e] }
  | _, .post res data =>
    match s.held with
    | [] => none
    | e :: rest =>
      if probePattern.length < data.length then none
      else some { s with
        held := rest
        cq := s.cq ++ [⟨e, res⟩]
        bytes := overwrite s.bytes 0 data }
  | _, _ => none

section Step

variable {probe : Bool} {s s' : Starting} {e : StartEvent}

/-- What one step can do. -/
inductive Transition (probe : Bool) (s : Starting) : StartEvent → Starting → Prop
  | ringFailed {e : IoError} (hp : s.phase = .ring) :
      Transition probe s (.ring (.error e)) (s.fail (.setup e))
  | ringDrops {features : RingFeatures} (hp : s.phase = .ring) (hdrop : features.nodrop = false) :
      Transition probe s (.ring (.ok features)) (s.fail (.setup (.os eNoSys)))
  | ring {features : RingFeatures} (hp : s.phase = .ring) (hkeep : features.nodrop = true) :
      Transition probe s (.ring (.ok features)) { s with
        extArg := features.extArg
        phase := if probe then .openFile else .call .cqEventfd }
  | openFailed {e : IoError} (hp : s.phase = .openFile) :
      Transition probe s (.openFile (.error e)) (s.fail (.readOp e))
  | openFile {file : Nat} (hp : s.phase = .openFile) :
      Transition probe s (.openFile (.ok file)) { s with file := file, phase := .push }
  | queueFull {base : Nat} (hp : s.phase = .push) : Transition probe s (.push base true)
      ({ s with memory := .freed }.fail (.readOp (.other "probe: submission queue full")))
  | push {base : Nat} (hp : s.phase = .push) : Transition probe s (.push base false) { s with
      sq := s.sq ++ [probeSqe s.file base]
      memory := .live
      bytes := List.replicate probePattern.length 0
      phase := .arm }
  | arm {now : Nat} (hp : s.phase = .arm) :
      Transition probe s (.arm now) { s with deadline := now + probeTimeout, phase := .clock }
  | expired {now : Nat} (hp : s.phase = .clock) (hlate : s.deadline ≤ now) :
      Transition probe s (.clock now) (s.forget (.other "probe: no CQE within the bounded wait"))
  | clock {now : Nat} (hp : s.phase = .clock) (hearly : now < s.deadline) :
      Transition probe s (.clock now) { s with phase := .wait }
  | waited {r : Except IoError Nat} (hp : s.phase = .wait)
      (htimed : r = .error (.os eTime) → s.extArg = true) :
      Transition probe s (.waited r) { s with phase := .next }
  | waitFailed {e : IoError} (hp : s.phase = .wait) (hr : retriesWait e = false) :
      Transition probe s (.waited (.error e)) (s.forget e)
  | empty (hp : s.phase = .next) (hcq : s.cq = []) :
      Transition probe s .next { s with phase := .clock }
  | refused {q : Cqe} {rest : List Cqe} {e : IoError} (hp : s.phase = .next)
      (hcq : s.cq = q :: rest) (hv : probeVerdict q.res s.bytes = .error e) :
      Transition probe s .next ({ s with
        cq := rest, memory := .freed, answer := some (q.res, s.bytes) }.fail (.readOp e))
  | answered {q : Cqe} {rest : List Cqe} (hp : s.phase = .next)
      (hcq : s.cq = q :: rest) (hv : probeVerdict q.res s.bytes = .ok ()) :
      Transition probe s .next { s with
        cq := rest, memory := .freed, answer := some (q.res, s.bytes), phase := .call .cqEventfd }
  | callFailed {k : SetupCall} {e : IoError} (hp : s.phase = .call k) :
      Transition probe s (.call (.error e)) (s.fail (.setup e))
  | called {k : SetupCall} (hp : s.phase = .call k) :
      Transition probe s (.call (.ok ())) (s.afterCall k)
  | iowq {r : Except IoError (Nat × Nat)} (hp : s.phase = .iowq) :
      Transition probe s (.iowq r) { s with
        iowqSetup := some (registerIowqSetup fun _ => r), phase := .call .wakeEventfd }
  | consume {e : Sqe} {rest : List Sqe} (hp : s.phase = .wait) (hsq : s.sq = e :: rest) :
      Transition probe s .consume { s with sq := rest, held := s.held ++ [e] }
  | post {e : Sqe} {rest : List Sqe} {res : Int} {data : List UInt8}
      (hheld : s.held = e :: rest) (hlen : data.length ≤ probePattern.length) :
      Transition probe s (.post res data) { s with
        held := rest
        cq := s.cq ++ [⟨e, res⟩]
        bytes := overwrite s.bytes 0 data }

theorem step_transition (h : step probe s e = some s') : Transition probe s e s' := by
  unfold step at h
  split at h
  next hp => cases h; exact .ringFailed hp
  next features hp =>
    split at h <;> rename_i hdrop <;> cases h
    · exact .ringDrops hp (by simpa using hdrop)
    · exact .ring hp (by simpa using hdrop)
  next hp => cases h; exact .openFailed hp
  next hp => cases h; exact .openFile hp
  next base full hp =>
    cases full <;> cases h
    · exact .push hp
    · exact .queueFull hp
  next hp => cases h; exact .arm hp
  next now hp =>
    split at h <;> rename_i hlate <;> cases h
    · exact .expired hp hlate
    · exact .clock hp (not_le.mp hlate)
  next hp => cases h; exact .waited hp nofun
  next e hp =>
    split at h
    · cases h
    · rename_i htimed
      split at h <;> rename_i hr <;> cases h
      · refine .waited hp fun he => ?_
        cases he
        simpa using htimed
      · exact .waitFailed hp (Bool.eq_false_iff.mpr hr)
  next hp =>
    split at h
    · rename_i hcq
      cases h
      exact .empty hp hcq
    · rename_i q rest hcq
      simp only at h
      split at h <;> rename_i hv <;> cases h
      · exact .refused hp hcq hv
      · exact .answered hp hcq hv
  next k _ hp => cases h; exact .callFailed hp
  next k hp => cases h; exact .called hp
  next hp => cases h; exact .iowq hp
  next hp =>
    split at h <;> cases h
    rename_i hsq
    exact .consume hp hsq
  next =>
    split at h
    · cases h
    · rename_i hheld
      split at h <;> rename_i hlen <;> cases h
      exact .post hheld (not_lt.mp hlen)
  next => cases h

/-- The entries of the ring, wherever they are. -/
def entries (s : Starting) : List Sqe := s.sq ++ s.held ++ s.cq.map Cqe.sqe

/-- Nothing is in flight and no buffer is held. -/
structure Clean (s : Starting) : Prop where
  entries : s.entries = []
  memory : s.memory = .unallocated ∨ s.memory = .freed

/-- The probe's entry is in the ring, and its buffer is in the state `m`. -/
structure Pushed (s : Starting) (m : Memory) : Prop where
  memory : s.memory = m
  entry : ∃ base, s.entries = [probeSqe s.file base]

/-- The probe, if it was asked for, read the whole pattern. -/
def Verified (probe : Bool) (s : Starting) : Prop :=
  probe = true → s.answer = some ((probePattern.length : Int), probePattern)

/-- The limits were asked of the kernel. -/
def Capped (s : Starting) : Prop := ∃ r, s.iowqSetup = some (registerIowqSetup fun _ => r)

/-- What a start owns at each of its actions. -/
def Sound (probe : Bool) (s : Starting) : Prop :=
  match s.phase with
  | .ring => s.Clean
  | .openFile | .push => probe = true ∧ s.Clean
  | .arm | .clock | .wait | .next => probe = true ∧ s.Pushed .live
  | .call .cqEventfd | .call .registerEventfd | .iowq => s.Clean ∧ s.Verified probe
  | .call .wakeEventfd | .call .spawn | .done (.ok ()) => s.Clean ∧ s.Verified probe ∧ s.Capped
  | .done (.error e) => s.Clean ∨ probe = true ∧ s.Pushed .leaked ∧ ∃ err, e = .readOp err

theorem Clean.queues (h : s.Clean) : s.sq = [] ∧ s.held = [] ∧ s.cq = [] := by
  have hnil := h.entries
  simpa only [Starting.entries, List.append_eq_nil_iff, List.map_eq_nil_iff, and_assoc] using hnil

theorem init_sound : Sound probe .init := ⟨rfl, Or.inl rfl⟩

/-- The verdict accepts the whole pattern only. -/
theorem probeVerdict_ok {res : Int} {bytes : List UInt8} (h : probeVerdict res bytes = .ok ()) :
    res = probePattern.length ∧ bytes = probePattern := by
  unfold probeVerdict at h
  split at h
  · cases h
  · split at h
    · cases h
    · rename_i hpos hv
      push Not at hv
      exact ⟨by omega, hv.2⟩

/-- An entry that the kernel takes or completes stays in the ring. -/
theorem entries_move {x : Sqe} (h : s.entries = [x]) (hp : s'.entries.Perm s.entries) :
    s'.entries = [x] := by
  rw [h] at hp
  exact List.perm_singleton.mp hp

theorem entries_consume {x : Sqe} {rest : List Sqe} (h : s.sq = x :: rest) :
    ({ s with sq := rest, held := s.held ++ [x] } : Starting).entries.Perm s.entries := by
  simp only [entries, h, List.append_assoc]
  rw [← List.append_assoc]
  exact (List.perm_middle (a := x)).trans (by simp)

theorem entries_post {x : Sqe} {rest : List Sqe} {res : Int} {bytes : List UInt8}
    (h : s.held = x :: rest) : ({ s with
      held := rest, cq := s.cq ++ [⟨x, res⟩], bytes := bytes } : Starting).entries.Perm
        s.entries := by
  simp only [entries, h, List.map_append, List.map_cons, List.map_nil, List.append_assoc]
  refine List.Perm.append_left _ ?_
  rw [← List.append_assoc]
  exact (List.perm_append_singleton x _)

/-- A step changes the place of the entry only, or ends the use of the buffer. -/
theorem Pushed.move {m : Memory} (h : s.Pushed m) (hmem : s'.memory = s.memory)
    (hfile : s'.file = s.file) (hp : s'.entries.Perm s.entries) : s'.Pushed m := by
  obtain ⟨base, hb⟩ := h.entry
  refine ⟨hmem.trans h.memory, base, ?_⟩
  rw [hfile]
  exact entries_move hb hp

theorem Clean.move (h : s.Clean) (hmem : s'.memory = s.memory)
    (hp : s'.entries.Perm s.entries) : s'.Clean := by
  rw [h.entries] at hp
  refine ⟨hp.eq_nil, ?_⟩
  rw [hmem]
  exact h.memory

/-- The kernel's two actions move the entry and touch nothing that the start has recorded. -/
theorem Sound.move (h : s.Sound probe) (hphase : s'.phase = s.phase)
    (hmem : s'.memory = s.memory) (hfile : s'.file = s.file)
    (hsetup : s'.iowqSetup = s.iowqSetup) (hanswer : s'.answer = s.answer)
    (hp : s'.entries.Perm s.entries) : s'.Sound probe := by
  have hpush {m : Memory} (hm : s.Pushed m) : s'.Pushed m := hm.move hmem hfile hp
  have hclean (hm : s.Clean) : s'.Clean := hm.move hmem hp
  have hread (hv : s.Verified probe) : s'.Verified probe := by rwa [Verified, hanswer]
  have hcap (hc : s.Capped) : s'.Capped := by rwa [Capped, hsetup]
  unfold Sound at h ⊢
  rw [hphase]
  rcases hph : s.phase with _ | _ | _ | _ | _ | _ | _ | k | _ | r <;> simp only [hph] at h ⊢
  case ring => exact hclean h
  case openFile | push => exact ⟨h.1, hclean h.2⟩
  case arm | clock | wait | next => exact ⟨h.1, hpush h.2⟩
  case iowq => exact ⟨hclean h.1, hread h.2⟩
  case call =>
    cases k with
    | cqEventfd | registerEventfd => exact ⟨hclean h.1, hread h.2⟩
    | wakeEventfd | spawn => exact ⟨hclean h.1, hread h.2.1, hcap h.2.2⟩
  case done =>
    cases r with
    | error e => exact h.imp hclean fun h => ⟨h.1, hpush h.2.1, h.2.2⟩
    | ok => exact ⟨hclean h.1, hread h.2.1, hcap h.2.2⟩

/-- Consuming the completion leaves the ring empty. -/
theorem Pushed.consumed {m : Memory} (h : s.Pushed m) {q : Cqe} {rest : List Cqe}
    (hcq : s.cq = q :: rest) : s.sq = [] ∧ s.held = [] ∧ rest = [] := by
  obtain ⟨base, hb⟩ := h.entry
  have hlen : s.entries.length = 1 := by rw [hb]; rfl
  simp only [entries, hcq, List.length_append, List.length_map, List.length_cons] at hlen
  refine ⟨?_, ?_, ?_⟩ <;> apply List.eq_nil_of_length_eq_zero <;> omega

theorem Sound.step (h : s.Sound probe) (hs : Transition probe s e s') : s'.Sound probe := by
  unfold Sound at h
  cases hs with
  | ringFailed hp | ringDrops hp =>
    rw [hp] at h
    exact Or.inl ⟨h.entries, h.memory⟩
  | ring hp =>
    rw [hp] at h
    cases probe
    · exact ⟨⟨h.entries, h.memory⟩, nofun⟩
    · exact ⟨rfl, h.entries, h.memory⟩
  | openFailed hp =>
    rw [hp] at h
    exact Or.inl ⟨h.2.entries, h.2.memory⟩
  | openFile hp =>
    rw [hp] at h
    exact ⟨h.1, h.2.entries, h.2.memory⟩
  | queueFull hp =>
    rw [hp] at h
    exact Or.inl ⟨h.2.entries, Or.inr rfl⟩
  | push hp =>
    rw [hp] at h
    obtain ⟨hsq, hheld, hcq⟩ := h.2.queues
    exact ⟨h.1, rfl, _, by simp [entries, hsq, hheld, hcq]; rfl⟩
  | arm hp | clock hp | waited hp | empty hp =>
    rw [hp] at h
    exact ⟨h.1, h.2.move rfl rfl (List.Perm.refl _)⟩
  | expired hp =>
    rw [hp] at h
    exact Or.inr ⟨h.1, ⟨rfl, h.2.entry⟩, _, rfl⟩
  | waitFailed hp =>
    rw [hp] at h
    exact Or.inr ⟨h.1, ⟨rfl, h.2.entry⟩, _, rfl⟩
  | refused hp hcq =>
    rw [hp] at h
    obtain ⟨hsq, hheld, hrest⟩ := h.2.consumed hcq
    exact Or.inl ⟨by simp [entries, fail, hsq, hheld, hrest], Or.inr rfl⟩
  | answered hp hcq hv =>
    rw [hp] at h
    obtain ⟨hsq, hheld, hrest⟩ := h.2.consumed hcq
    obtain ⟨hres, hbytes⟩ := probeVerdict_ok hv
    refine ⟨⟨by simp [entries, hsq, hheld, hrest], Or.inr rfl⟩, fun _ => ?_⟩
    rw [hres, hbytes]
  | @callFailed k _ hp =>
    rw [hp] at h
    refine Or.inl ⟨?_, ?_⟩ <;> cases k <;> first | exact h.1.entries | exact h.1.memory
  | @called k hp =>
    rw [hp] at h
    cases k with
    | cqEventfd | registerEventfd => exact ⟨⟨h.1.entries, h.1.memory⟩, h.2⟩
    | wakeEventfd | spawn => exact ⟨⟨h.1.entries, h.1.memory⟩, h.2.1, h.2.2⟩
  | iowq hp =>
    rw [hp] at h
    exact ⟨⟨h.1.entries, h.1.memory⟩, h.2, _, rfl⟩
  | consume hp hsq => exact Sound.move h rfl rfl rfl rfl rfl (entries_consume hsq)
  | post hheld => exact Sound.move h rfl rfl rfl rfl rfl (entries_post hheld)

/-- The kernel may complete the entry of a start that is over. -/
theorem Sound.post (h : s.Sound probe) {other : Bool} {res : Int} {data : List UInt8}
    (hs : Starting.step other s (.post res data) = some s') :
    s'.Sound probe ∧ s'.phase = s.phase := by
  cases step_transition hs with
  | post hheld => exact ⟨Sound.move h rfl rfl rfl rfl rfl (entries_post hheld), rfl⟩

/-- The entry is nowhere, or its buffer is owned. -/
theorem Sound.place (h : s.Sound probe) : s.Clean ∨ s.Pushed .live ∨ s.Pushed .leaked := by
  unfold Sound at h
  rcases hph : s.phase with _ | _ | _ | _ | _ | _ | _ | k | _ | r <;> simp only [hph] at h
  case ring => exact Or.inl h
  case openFile | push => exact Or.inl h.2
  case arm | clock | wait | next => exact Or.inr (Or.inl h.2)
  case iowq => exact Or.inl h.1
  case call => cases k <;> exact Or.inl h.1
  case done =>
    cases r with
    | error e => exact h.imp_right fun h => Or.inr h.2.1
    | ok => exact Or.inl h.1

/-- An entry that the kernel has or may take is the probe's, alone, and its buffer is not
freed. -/
theorem Sound.owned (h : s.Sound probe) {x : Sqe} (hx : x ∈ s.sq ++ s.held) :
    (s.memory = .live ∨ s.memory = .leaked) ∧ ∃ base, s.entries = [probeSqe s.file base] := by
  have hmem : x ∈ s.entries := List.mem_append_left _ hx
  rcases h.place with hc | hp | hp
  · rw [hc.entries] at hmem
    exact absurd hmem List.not_mem_nil
  · exact ⟨Or.inl hp.memory, hp.entry⟩
  · exact ⟨Or.inr hp.memory, hp.entry⟩

/-- Only a start that is over has leaked its buffer. -/
theorem Sound.leaked (h : s.Sound probe) (hmem : s.memory = .leaked) :
    probe = true ∧ ∃ err, s.phase = .done (.error (.readOp err)) := by
  have hclean (hc : s.Clean) : False := by
    rcases hc.memory with hm | hm <;> rw [hmem] at hm <;> cases hm
  have hlive (hl : s.Pushed .live) : False := by
    have hm := hl.memory
    rw [hmem] at hm
    cases hm
  unfold Sound at h
  rcases hph : s.phase with _ | _ | _ | _ | _ | _ | _ | k | _ | r <;> simp only [hph] at h
  case ring => exact (hclean h).elim
  case openFile | push => exact (hclean h.2).elim
  case arm | clock | wait | next => exact (hlive h.2).elim
  case iowq => exact (hclean h.1).elim
  case call => cases k <;> exact (hclean h.1).elim
  case done =>
    cases r with
    | ok => exact (hclean h.1).elim
    | error e =>
      rcases h with hc | ⟨hprobe, -, err, rfl⟩
      · exact (hclean hc).elim
      · exact ⟨hprobe, err, rfl⟩

/-- A shard that was started has an empty ring. -/
theorem Sound.ready (h : s.Sound probe) (hp : s.phase = .done (.ok ())) :
    s.Clean ∧ s.Verified probe ∧ s.Capped := by
  unfold Sound at h
  rwa [hp] at h

end Step

end Starting

end Uring
