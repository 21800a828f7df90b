import Uring.Core.Run
import Uring.Driver.State

/-!
# Registration against terminal closure

`ByteAdmission` with any number of `register` and `close` calls running on it. A call
stops before its section under the registry lock and before each `Semaphore::close`, so
that every interleaving of these is a run.
-/

namespace Uring

open Uring.Core

/-- Where a `register` call is. -/
inductive Registering
  | lock
  /-- The registry was closed: the semaphore is closed outside the lock. -/
  | closeCount
  | returned
  deriving DecidableEq, Repr

/-- A call on a `ByteAdmission`. -/
inductive AdmissionCall
  /-- `register` of the count semaphore of shard `k`. -/
  | register (k : Nat) (pc : Registering)
  | close (pc : Closing)
  deriving DecidableEq, Repr

def AdmissionCall.returned : AdmissionCall → Bool
  | .register _ pc => decide (pc = .returned)
  | .close pc => decide (pc = .finished)

/-- A call that will still deal with the semaphore of shard `k`. -/
def AdmissionCall.Owes (k : Nat) : AdmissionCall → Prop
  | .register j pc => j = k ∧ pc ≠ .returned
  | .close (.bytes counts) => k ∈ counts
  | .close (.counts rest) => k ∈ rest
  | .close _ => False

/-- The operations on the registry lock and the closures, as they are executed. -/
inductive LockOp
  | lock
  | unlock
  | closeBytes
  | closeCount (k : Nat)
  deriving DecidableEq, Repr

/-- A `Semaphore::close`. -/
def LockOp.isClose : LockOp → Bool
  | .lock | .unlock => false
  | .closeBytes | .closeCount _ => true

/-- Whether the registry lock is held after these operations. -/
def lockHeld (ops : List LockOp) : Bool :=
  ops.foldl (fun held op => match op with
    | .lock => true
    | .unlock => false
    | _ => held) false

/-- No `Semaphore::close` was executed under the lock, which is free again. -/
structure ClosedOutside (ops : List LockOp) : Prop where
  free : lockHeld ops = false
  outside : ∀ pre op post, ops = pre ++ op :: post → op.isClose = true → lockHeld pre = false

namespace ClosedOutside

theorem nil : ClosedOutside [] := ⟨rfl, by simp⟩

/-- What one more operation needs. -/
theorem outside_concat {ops : List LockOp} {x : LockOp}
    (h : ∀ pre op post, ops = pre ++ op :: post → op.isClose = true → lockHeld pre = false)
    (hx : x.isClose = true → lockHeld ops = false) : ∀ pre op post,
      ops ++ [x] = pre ++ op :: post → op.isClose = true → lockHeld pre = false := by
  intro pre op post heq hop
  rcases List.eq_nil_or_concat post with rfl | ⟨post, y, rfl⟩
  · obtain ⟨rfl, hlast⟩ := List.append_inj' heq rfl
    obtain rfl := List.singleton_inj.mp hlast
    exact hx hop
  · rw [List.concat_eq_append, ← List.cons_append, ← List.append_assoc] at heq
    exact h pre op post (List.append_inj' heq rfl).1 hop

theorem close {ops : List LockOp} (h : ClosedOutside ops) {x : LockOp} (hx : x.isClose = true) :
    ClosedOutside (ops ++ [x]) := by
  refine ⟨?_, outside_concat h.outside fun _ => h.free⟩
  have hfree := h.free
  cases x with
  | lock | unlock => cases hx
  | closeBytes | closeCount => simpa [lockHeld, List.foldl_append] using hfree

/-- A whole section under the lock. -/
theorem locked {ops : List LockOp} (h : ClosedOutside ops) :
    ClosedOutside (ops ++ [.lock, .unlock]) := by
  refine ⟨by simp [lockHeld, List.foldl_append], ?_⟩
  have hlock := outside_concat (x := .lock) h.outside nofun
  have hunlock := outside_concat (x := .unlock) hlock nofun
  rw [List.append_assoc] at hunlock
  exact hunlock

end ClosedOutside

/-- `ByteAdmission`, the count semaphores of the shards and the calls running on it. -/
structure ByteAdmission where
  bytes : Semaphore
  registry : AdmissionRegistry
  counts : Table Semaphore
  calls : Table AdmissionCall
  /-- The semaphores ever passed to `register`. -/
  registered : List Nat
  /-- What was executed so far. -/
  trace : List LockOp

/-- The labels: a shard creates its semaphore, a call starts, a call goes on. -/
inductive AdmissionEvent
  | newCount (k n : Nat)
  | register (t k : Nat)
  | close (t : Nat)
  | proceed (t : Nat)
  deriving DecidableEq, Repr

namespace ByteAdmission

/-- `ByteAdmission::new`. -/
def init (bytes : Nat) : ByteAdmission := ⟨.new bytes, ⟨false, []⟩, ∅, ∅, [], []⟩

/-- Close the count semaphore of shard `k`. -/
def closeCount (a : ByteAdmission) (k : Nat) : ByteAdmission :=
  { a with
    counts := match a.counts.lookup k with
      | none => a.counts
      | some sem => a.counts.insert k sem.close
    trace := a.trace ++ [.closeCount k] }

/-- The next operation of a call: its section under the lock, one `Semaphore::close`, or
the return. -/
def next (a : ByteAdmission) : AdmissionCall → AdmissionCall × ByteAdmission
  | .register k .lock =>
    if a.registry.closed then
      (.register k .closeCount, { a with trace := a.trace ++ [.lock, .unlock] })
    else
      (.register k .returned, { a with
        registry := { a.registry with counts := a.registry.counts ++ [k] }
        trace := a.trace ++ [.lock, .unlock] })
  | .register k .closeCount => (.register k .returned, a.closeCount k)
  | .register k .returned => (.register k .returned, a)
  | .close .lock => (.close (.bytes a.registry.counts), { a with
      registry := ⟨true, []⟩
      trace := a.trace ++ [.lock, .unlock] })
  | .close (.bytes counts) => (.close (.counts counts), { a with
      bytes := a.bytes.close
      trace := a.trace ++ [.closeBytes] })
  | .close (.counts []) => (.close .finished, a)
  | .close (.counts (k :: rest)) => (.close (.counts rest), a.closeCount k)
  | .close .finished => (.close .finished, a)

/-- One transition; a call number is used once. -/
def step (a : ByteAdmission) : AdmissionEvent → Option ByteAdmission
  | .newCount k n => if k ∈ a.counts then none
      else some { a with counts := a.counts.insert k (.new n) }
  | .register t k => if t ∈ a.calls ∨ k ∉ a.counts then none
      else some { a with
        calls := a.calls.insert t (.register k .lock)
        registered := a.registered ++ [k] }
  | .close t => if t ∈ a.calls then none
      else some { a with calls := a.calls.insert t (.close .lock) }
  | .proceed t => do
    let c ← a.calls.lookup t
    let (c', b) := a.next c
    return { b with calls := b.calls.insert t c' }

/-- The count semaphore of shard `k` is closed. -/
def CountClosed (a : ByteAdmission) (k : Nat) : Prop :=
  ∃ sem, a.counts.lookup k = some sem ∧ sem.closed = true

/-- What holds in every interleaving. -/
structure Registered (a : ByteAdmission) : Prop where
  /-- The registry is closed by the section of the first close. -/
  closed : a.registry.closed = true ↔ ∃ t pc, a.calls.lookup t = some (.close pc) ∧ pc ≠ .lock
  empty : a.registry.closed = true → a.registry.counts = []
  /-- The byte semaphore is closed or about to be. -/
  bytes : a.registry.closed = true → a.bytes.closed = true ∨
    ∃ t counts, a.calls.lookup t = some (.close (.bytes counts))
  exist : ∀ k ∈ a.registered, k ∈ a.counts
  known : ∀ t k pc, a.calls.lookup t = some (.register k pc) → k ∈ a.registered
  /-- A registered semaphore is closed, in the registry, or some call will deal with it. -/
  covered : ∀ k ∈ a.registered, a.CountClosed k ∨ k ∈ a.registry.counts ∨
    ∃ t c, a.calls.lookup t = some c ∧ c.Owes k
  outside : ClosedOutside a.trace

variable {a : ByteAdmission}

/-- Closing one count semaphore keeps the others closed. -/
theorem CountClosed.closeCount {j : Nat} (h : a.CountClosed j) (k : Nat) :
    (a.closeCount k).CountClosed j := by
  obtain ⟨sem, hsem, hclosed⟩ := h
  unfold CountClosed
  simp only [ByteAdmission.closeCount]
  split
  · exact ⟨sem, hsem, hclosed⟩
  · by_cases hj : j = k
    · subst hj
      exact ⟨_, AList.lookup_insert _, rfl⟩
    · exact ⟨sem, (AList.lookup_insert_ne hj).trans hsem, hclosed⟩

theorem countClosed_closeCount {k : Nat} (hk : k ∈ a.counts) : (a.closeCount k).CountClosed k := by
  obtain ⟨sem, hsem⟩ := AList.mem_iff_lookup.mp hk
  unfold CountClosed
  simp only [closeCount, hsem]
  exact ⟨_, AList.lookup_insert _, rfl⟩

theorem mem_closeCount {k j : Nat} : j ∈ (a.closeCount k).counts ↔ j ∈ a.counts := by
  simp only [closeCount]
  split
  · rfl
  · rename_i sem hsem
    rw [AList.mem_insert]
    exact or_iff_right_of_imp fun h => h ▸ AList.mem_of_lookup hsem

namespace Registered

theorem init (n : Nat) : (ByteAdmission.init n).Registered where
  closed := by simp [ByteAdmission.init]
  empty := nofun
  bytes := nofun
  exist := by simp [ByteAdmission.init]
  known := by simp [ByteAdmission.init]
  covered := by simp [ByteAdmission.init]
  outside := .nil

/-- One call goes from `c` to `c'`: what the new state has to provide. -/
theorem replace {b : ByteAdmission} {t : Nat} {c c' : AdmissionCall} (h : a.Registered)
    (hc : a.calls.lookup t = some c) (hcalls : b.calls = a.calls.insert t c')
    (hreg : b.registered = a.registered) (hcounts : ∀ k, k ∈ a.counts → k ∈ b.counts)
    (hkind : ∀ k pc, c' = .register k pc → ∃ pc', c = .register k pc')
    (hpast : ∀ pc, c = .close pc → pc ≠ .lock → ∃ pc', c' = .close pc' ∧ pc' ≠ .lock)
    (hclosed : b.registry.closed = true ↔
      a.registry.closed = true ∨ ∃ pc, c' = .close pc ∧ pc ≠ .lock)
    (hempty : b.registry.closed = true → b.registry.counts = [])
    (hbytes : b.bytes.closed = true ∨ (∃ counts, c' = .close (.bytes counts)) ∨
      (b.registry.closed = a.registry.closed ∧ b.bytes = a.bytes ∧
        ∀ counts, c ≠ .close (.bytes counts)))
    (hkeep : ∀ k, a.CountClosed k → b.CountClosed k)
    (hqueue : ∀ k ∈ a.registry.counts, k ∈ b.registry.counts ∨ c'.Owes k)
    (howes : ∀ k, c.Owes k → k ∈ a.counts →
      b.CountClosed k ∨ k ∈ b.registry.counts ∨ c'.Owes k)
    (htrace : ClosedOutside b.trace) : b.Registered := by
  have hself : b.calls.lookup t = some c' := by
    rw [hcalls, AList.lookup_insert]
  have hother {j : Nat} (hj : j ≠ t) : b.calls.lookup j = a.calls.lookup j := by
    rw [hcalls, AList.lookup_insert_ne hj]
  refine ⟨?_, hempty, fun hcl => ?_, ?_, fun j k pc hj => ?_, fun k hk => ?_, htrace⟩
  · rw [hclosed, h.closed]
    constructor
    · rintro (⟨j, pc, hj, hne⟩ | ⟨pc, rfl, hne⟩)
      · by_cases hjt : j = t
        · subst hjt
          rw [hc] at hj
          obtain ⟨pc', rfl, hne'⟩ := hpast pc (Option.some.inj hj) hne
          exact ⟨j, pc', hself, hne'⟩
        · exact ⟨j, pc, (hother hjt).trans hj, hne⟩
      · exact ⟨t, pc, hself, hne⟩
    · rintro ⟨j, pc, hj, hne⟩
      by_cases hjt : j = t
      · subst hjt
        rw [hself] at hj
        exact Or.inr ⟨pc, Option.some.inj hj, hne⟩
      · exact Or.inl ⟨j, pc, (hother hjt).symm.trans hj, hne⟩
  · rcases hbytes with hb | ⟨counts, rfl⟩ | ⟨hsame, hb, hnot⟩
    · exact Or.inl hb
    · exact Or.inr ⟨t, counts, hself⟩
    · rcases h.bytes (hsame ▸ hcl) with hdone | ⟨j, counts, hj⟩
      · exact Or.inl (hb ▸ hdone)
      · have hjt : j ≠ t := by
          rintro rfl
          rw [hc] at hj
          exact hnot counts (Option.some.inj hj)
        exact Or.inr ⟨j, counts, (hother hjt).trans hj⟩
  · rw [hreg]
    exact fun k hk => hcounts k (h.exist k hk)
  · rw [hreg]
    by_cases hjt : j = t
    · subst hjt
      rw [hself] at hj
      obtain ⟨pc', rfl⟩ := hkind k pc (Option.some.inj hj)
      exact h.known j k pc' hc
    · exact h.known j k pc ((hother hjt).symm.trans hj)
  · rw [hreg] at hk
    rcases h.covered k hk with hdone | hq | ⟨j, x, hj, hx⟩
    · exact Or.inl (hkeep k hdone)
    · exact Or.inr ((hqueue k hq).imp_right fun ho => ⟨t, c', hself, ho⟩)
    · by_cases hjt : j = t
      · subst hjt
        rw [hc] at hj
        obtain rfl := Option.some.inj hj
        exact (howes k hx (h.exist k hk)).imp_right (Or.imp_right fun ho => ⟨j, c', hself, ho⟩)
      · exact Or.inr (Or.inr ⟨j, x, (hother hjt).trans hj, hx⟩)

/-- Every operation of every call keeps the invariant. -/
theorem proceed {t : Nat} {c : AdmissionCall} (h : a.Registered) (hc : a.calls.lookup t = some c) :
    ({ (a.next c).2 with calls := (a.next c).2.calls.insert t (a.next c).1 } :
      ByteAdmission).Registered := by
  cases c with
  | register k pc =>
    cases pc with
    | lock =>
      cases hcl : a.registry.closed with
      | true =>
        simp only [next, hcl, if_true]
        refine h.replace hc rfl rfl (fun _ hk => hk) ?_ nofun ?_ h.empty ?_ (fun _ hk => hk)
          (fun _ hk => Or.inl hk) ?_ h.outside.locked
        · rintro _ _ ⟨⟩
          exact ⟨_, rfl⟩
        · simp [hcl]
        · exact Or.inr (Or.inr ⟨rfl, rfl, nofun⟩)
        · exact fun j hj _ => Or.inr (Or.inr ⟨hj.1, nofun⟩)
      | false =>
        simp only [next, hcl, Bool.false_eq_true, if_false]
        refine h.replace hc rfl rfl (fun _ hk => hk) ?_ nofun ?_ ?_ ?_ (fun _ hk => hk)
          (fun _ hk => Or.inl (List.mem_append_left _ hk)) ?_ h.outside.locked
        · rintro _ _ ⟨⟩
          exact ⟨_, rfl⟩
        · simp [hcl]
        · simp
        · exact Or.inr (Or.inr ⟨hcl.symm ▸ rfl, rfl, nofun⟩)
        · rintro j ⟨rfl, _⟩ _
          exact Or.inr (Or.inl (List.mem_append_right _ (List.mem_singleton_self _)))
    | closeCount =>
      refine h.replace hc rfl rfl (fun _ => mem_closeCount.mpr) ?_ nofun ?_ h.empty ?_
        (fun _ hj => hj.closeCount k) (fun _ hj => Or.inl hj) ?_
        (h.outside.close rfl)
      · rintro _ _ ⟨⟩
        exact ⟨_, rfl⟩
      · simp [next, closeCount]
      · exact Or.inr (Or.inr ⟨rfl, rfl, nofun⟩)
      · rintro j ⟨rfl, _⟩ hj
        exact Or.inl (countClosed_closeCount hj)
    | returned =>
      refine h.replace hc rfl rfl (fun _ hk => hk) ?_ nofun ?_ h.empty ?_ (fun _ hk => hk)
        (fun _ hk => Or.inl hk) ?_ h.outside
      · rintro _ _ ⟨⟩
        exact ⟨_, rfl⟩
      · simp [next]
      · exact Or.inr (Or.inr ⟨rfl, rfl, nofun⟩)
      · exact fun j hj _ => absurd rfl hj.2
  | close pc =>
    cases pc with
    | lock =>
      refine h.replace hc rfl rfl (fun _ hk => hk) nofun ?_ ?_ (fun _ => rfl) ?_ (fun _ hk => hk)
        (fun _ hk => Or.inr hk) nofun h.outside.locked
      · rintro _ ⟨⟩ hne
        exact absurd rfl hne
      · simp [next]
      · exact Or.inr (Or.inl ⟨_, rfl⟩)
    | bytes counts =>
      have hcl : a.registry.closed = true := h.closed.mpr ⟨t, _, hc, nofun⟩
      refine h.replace hc rfl rfl (fun _ hk => hk) nofun ?_ ?_ h.empty (Or.inl rfl) (fun _ hk => hk)
        (fun _ hk => Or.inl hk) ?_ (h.outside.close rfl)
      · exact fun _ _ _ => ⟨_, rfl, nofun⟩
      · simp [next, hcl]
      · exact fun j hj _ => Or.inr (Or.inr hj)
    | counts rest =>
      have hcl : a.registry.closed = true := h.closed.mpr ⟨t, _, hc, nofun⟩
      cases rest with
      | nil =>
        refine h.replace hc rfl rfl (fun _ hk => hk) nofun ?_ ?_ h.empty ?_ (fun _ hk => hk)
          (fun _ hk => Or.inl hk) ?_ h.outside
        · exact fun _ _ _ => ⟨_, rfl, nofun⟩
        · simp [next, hcl]
        · exact Or.inr (Or.inr ⟨rfl, rfl, nofun⟩)
        · exact fun j hj _ => absurd hj List.not_mem_nil
      | cons k rest =>
        refine h.replace hc rfl rfl (fun _ => mem_closeCount.mpr) nofun ?_ ?_ h.empty ?_
          (fun _ hj => hj.closeCount k) (fun _ hj => Or.inl hj) ?_ (h.outside.close rfl)
        · exact fun _ _ _ => ⟨_, rfl, nofun⟩
        · simp [next, closeCount, hcl]
        · exact Or.inr (Or.inr ⟨rfl, rfl, nofun⟩)
        · intro j hj hmem
          rcases List.mem_cons.mp hj with rfl | hj
          · exact Or.inl (countClosed_closeCount hmem)
          · exact Or.inr (Or.inr hj)
    | finished =>
      have hcl : a.registry.closed = true := h.closed.mpr ⟨t, _, hc, nofun⟩
      refine h.replace hc rfl rfl (fun _ hk => hk) nofun ?_ ?_ h.empty ?_ (fun _ hk => hk)
        (fun _ hk => Or.inl hk) nofun h.outside
      · exact fun _ _ _ => ⟨_, rfl, nofun⟩
      · simp [next, hcl]
      · exact Or.inr (Or.inr ⟨rfl, rfl, nofun⟩)

/-- A call starts, before its section under the lock. -/
theorem start {t : Nat} {c : AdmissionCall} (ks : List Nat) (h : a.Registered)
    (ht : t ∉ a.calls) (hlock : ∀ pc, c = .close pc → pc = .lock)
    (hks : ∀ k ∈ ks, k ∈ a.counts ∧ c.Owes k) (hknown : ∀ k pc, c = .register k pc → k ∈ ks) :
    ({ a with calls := a.calls.insert t c, registered := a.registered ++ ks } :
      ByteAdmission).Registered := by
  have hself : (a.calls.insert t c).lookup t = some c := AList.lookup_insert _
  have hother {j : Nat} {x : AdmissionCall} (hj : a.calls.lookup j = some x) :
      (a.calls.insert t c).lookup j = some x := by
    have hjt : j ≠ t := fun heq => ht (heq ▸ AList.mem_of_lookup hj)
    rw [AList.lookup_insert_ne hjt, hj]
  have hcases {j : Nat} {x : AdmissionCall} (hj : (a.calls.insert t c).lookup j = some x) :
      x = c ∨ a.calls.lookup j = some x := by
    by_cases hjt : j = t
    · subst hjt
      rw [hself] at hj
      exact Or.inl (Option.some.inj hj).symm
    · rw [AList.lookup_insert_ne hjt] at hj
      exact Or.inr hj
  refine ⟨?_, h.empty, fun hcl => ?_, fun k hk => ?_, fun j k pc hj => ?_, fun k hk => ?_,
    h.outside⟩
  · rw [h.closed]
    constructor
    · rintro ⟨j, pc, hj, hne⟩
      exact ⟨j, pc, hother hj, hne⟩
    · rintro ⟨j, pc, hj, hne⟩
      rcases hcases hj with heq | hj
      · exact absurd (hlock pc heq.symm) hne
      · exact ⟨j, pc, hj, hne⟩
  · refine (h.bytes hcl).imp_right ?_
    rintro ⟨j, counts, hj⟩
    exact ⟨j, counts, hother hj⟩
  · rcases List.mem_append.mp hk with hk | hk
    · exact h.exist k hk
    · exact (hks k hk).1
  · rcases hcases hj with heq | hj
    · exact List.mem_append_right _ (hknown k pc heq.symm)
    · exact List.mem_append_left _ (h.known j k pc hj)
  · rcases List.mem_append.mp hk with hk | hk
    · refine (h.covered k hk).imp_right (Or.imp_right ?_)
      rintro ⟨j, x, hj, hx⟩
      exact ⟨j, x, hother hj, hx⟩
    · exact Or.inr (Or.inr ⟨t, c, hself, (hks k hk).2⟩)

/-- Every step keeps the invariant. -/
theorem step {b : ByteAdmission} {e : AdmissionEvent} (h : a.Registered)
    (hs : a.step e = some b) : b.Registered := by
  cases e with
  | newCount k n =>
    simp only [ByteAdmission.step] at hs
    split at hs
    · cases hs
    · rename_i hnew
      cases hs
      refine ⟨h.closed, h.empty, h.bytes, fun j hj => ?_, h.known, fun j hj => ?_, h.outside⟩
      · exact (AList.mem_insert _).mpr (Or.inr (h.exist j hj))
      · refine (h.covered j hj).imp_left ?_
        rintro ⟨sem, hsem, hclosed⟩
        have hjk : j ≠ k := fun heq => hnew (heq ▸ AList.mem_of_lookup hsem)
        exact ⟨sem, (AList.lookup_insert_ne hjk).trans hsem, hclosed⟩
  | register t k =>
    simp only [ByteAdmission.step] at hs
    split at hs
    · cases hs
    · rename_i hok
      cases hs
      rw [not_or, not_not] at hok
      refine h.start [k] hok.1 nofun ?_ ?_
      · intro j hj
        rw [List.mem_singleton.mp hj]
        exact ⟨hok.2, rfl, nofun⟩
      · rintro _ _ ⟨⟩
        exact List.mem_singleton_self _
  | close t =>
    simp only [ByteAdmission.step] at hs
    split at hs
    · cases hs
    · rename_i hnew
      cases hs
      have hstart := h.start (c := .close .lock) [] hnew (fun _ heq => by cases heq; rfl)
        (fun _ hk => absurd hk List.not_mem_nil) nofun
      rw [List.append_nil] at hstart
      exact hstart
  | proceed t =>
    simp only [ByteAdmission.step, Option.bind_eq_bind, Option.bind_eq_some_iff, Option.pure_def,
      Option.some.injEq] at hs
    obtain ⟨c, hc, rfl⟩ := hs
    exact h.proceed hc

end Registered

/-- A closed registry is never opened again and stays empty. -/
theorem closed_step {b : ByteAdmission} {e : AdmissionEvent} (hs : a.step e = some b)
    (h : a.registry.closed = true) : b.registry.closed = true := by
  cases e with
  | newCount k n =>
    simp only [step] at hs
    split at hs <;> cases hs
    exact h
  | register t k =>
    simp only [step] at hs
    split at hs <;> cases hs
    exact h
  | close t =>
    simp only [step] at hs
    split at hs <;> cases hs
    exact h
  | proceed t =>
    simp only [step, Option.bind_eq_bind, Option.bind_eq_some_iff, Option.pure_def,
      Option.some.injEq] at hs
    obtain ⟨c, _, rfl⟩ := hs
    rcases c with ⟨k, _ | _ | _⟩ | (_ | _ | (_ | _) | _) <;> simp [next, closeCount, h]

theorem Reach.registered {n : Nat} (h : Reachable step anyLabel (init n) a) : a.Registered :=
  h.invariant (.init n) fun _ _ _ _ hi _ hs => hi.step hs

/-- No `Semaphore::close` runs under the registry lock. Once some close has executed its
section, the registry is empty and stays empty, and when all started calls have returned,
the byte semaphore and every registered count semaphore are closed. -/
theorem registration_cannot_escape (n : Nat) (a : ByteAdmission)
    (h : Reachable step anyLabel (init n) a) :
    (∀ pre op post, a.trace = pre ++ op :: post → op.isClose = true → lockHeld pre = false) ∧
      ((∃ t pc, a.calls.lookup t = some (.close pc) ∧ pc ≠ .lock) →
        (∀ b, Reachable step anyLabel a b → b.registry.counts = []) ∧
        ((∀ t c, a.calls.lookup t = some c → c.returned = true) →
          a.bytes.closed = true ∧ ∀ k ∈ a.registered, a.CountClosed k)) := by
  have hr := Reach.registered h
  refine ⟨hr.outside.outside, fun hsome => ?_⟩
  have hclosed := hr.closed.mpr hsome
  refine ⟨fun b hb => ?_, fun hret => ⟨?_, fun k hk => ?_⟩⟩
  · have hb' : b.registry.closed = true :=
      hb.invariant (I := fun b => b.registry.closed = true) hclosed
        fun _ _ _ _ hi _ hs => closed_step hs hi
    exact (Reach.registered (h.trans hb)).empty hb'
  · rcases hr.bytes hclosed with hdone | ⟨t, counts, ht⟩
    · exact hdone
    · cases hret t _ ht
  · rcases hr.covered k hk with hdone | hq | ⟨t, c, ht, ho⟩
    · exact hdone
    · rw [hr.empty hclosed] at hq
      cases hq
    · have hdone := hret t c ht
      rcases c with ⟨j, _ | _ | _⟩ | (_ | _ | _ | _)
      · cases hdone
      · cases hdone
      · exact absurd rfl ho.2
      · cases hdone
      · cases hdone
      · cases hdone
      · cases ho

/-- Shard 0 registers before the close, shard 1 while its semaphores are being closed. -/
def lateRegistration : List AdmissionEvent :=
  [.newCount 0 4, .register 10 0, .proceed 10, .newCount 1 4, .close 20, .proceed 20,
    .register 11 1, .proceed 11, .proceed 20, .proceed 11, .proceed 20, .proceed 20]

theorem lateRegistration_runs : (run step (init 8) lateRegistration).isSome = true := by
  decide +kernel

/-- Both semaphores are closed, one by the close and one by its own registration. -/
theorem registration_cannot_escape_late : ∃ a, Reachable step anyLabel (init 8) a ∧
    a.registered = [0, 1] ∧ a.bytes.closed = true ∧ a.CountClosed 0 ∧
    a.CountClosed 1 := by
  have hr := reachable_get lateRegistration_runs
  have hreg : ((run step (init 8) lateRegistration).get lateRegistration_runs).registered =
      [0, 1] := by
    decide +kernel
  have hcalls : ((run step (init 8) lateRegistration).get lateRegistration_runs).calls.entries.all
      (fun e => e.2.returned) = true := by
    decide +kernel
  have hclose : ((run step (init 8) lateRegistration).get lateRegistration_runs).calls.lookup 20 =
      some (.close .finished) := by
    decide +kernel
  have hend := ((registration_cannot_escape 8 _ hr).2 ⟨20, _, hclose, nofun⟩).2 fun t c hc =>
    List.all_eq_true.mp hcalls ⟨t, c⟩ (AList.mem_lookup_iff.mp hc)
  refine ⟨_, hr, hreg, hend.1, hend.2 0 ?_, hend.2 1 ?_⟩
  · rw [hreg]
    exact List.mem_cons_self
  · rw [hreg]
    exact List.mem_cons_of_mem _ List.mem_cons_self

end ByteAdmission

end Uring
