import Uring.Driver.Hold

/-!
# Exchanges keep the accounts

For each exchange of a caller: the count permits of its shard, free, granted, in its
hand or sent, stay the same number, and so do the bytes. Nobody else's place in a
queue changes, and nothing is opened or closed.
-/

namespace Uring

open Uring.Core Caller

/-- The bytes among the permits of a read. -/
def ReadPermits.byteCount (p : ReadPermits) : Nat := p.bytes.getD 0

/-- The bytes sent with the reads of a shard so far. -/
def Shard.bytesSent (s : Shard) : Nat := (s.hist.requests.map fun m => m.permit.byteCount).sum

/-- The count permits of a view's shard outside the loop: free, granted, or in the hand of
one caller. -/
structure CountKept (id : Nat) (x : Caller) (y : Option Caller) (v v' : View) : Prop where
  total : v'.sem.value + heldBy y x.shard + v'.loop.hist.requests.length =
    v.sem.value + x.held x.shard + v.loop.hist.requests.length
  elsewhere : ∀ k, k ≠ x.shard → heldBy y k = x.held k
  closed : v'.sem.closed = v.sem.closed
  others : ∀ j, j ≠ id → v'.sem.claim j = v.sem.claim j
  own : ∀ n, v'.sem.claim id = some n → n = 1 ∧ ∃ x', y = some x' ∧ x'.AwaitsCount x.shard

/-- The bytes of a limited view outside the loop. -/
structure BytesKept (id : Nat) (x : Caller) (y : Option Caller) (v v' : View) (b b' : Semaphore) :
    Prop where
  total : b'.value + bytesHeldBy y + v'.loop.bytesSent = b.value + x.bytesHeld + v.loop.bytesSent
  closed : b'.closed = b.closed
  others : ∀ j, j ≠ id → b'.claim j = b.claim j
  own : ∀ n, b'.claim id = some n → ∃ x', y = some x' ∧ x'.AwaitsBytes n

/-- Who awaits a count permit acts on its own shard. -/
theorem Caller.AwaitsCount.shard_eq {x : Caller} {k : Nat} (h : x.AwaitsCount k) : x.shard = k := by
  obtain ⟨h', w, rfl, _, _, _, hk⟩ := h
  exact hk

/-- Who awaits a count permit has nothing in hand. -/
theorem Caller.AwaitsCount.held_eq {x : Caller} {k : Nat} (h : x.AwaitsCount k) (j : Nat) :
    x.held j = 0 := by
  obtain ⟨h', w, rfl, hs, hf, hw, _⟩ := h
  rw [held_waiting hs hf, if_neg]
  rw [hw]
  exact fun hc => hc.1 rfl

/-- What a sent read changes in its view. -/
theorem View.sendRead_eq_some {v v' : View} {m : ReadMsg} (h : v.sendRead m = some v') :
    v'.sem = v.sem ∧ v'.bytes = v.bytes ∧ v.loop.phase.receiving = true ∧
      v.loop.sendMsg m.id (.read m) = some v'.loop ∧
      v'.loop.hist.requests = v.loop.hist.requests ++ [m] ∧
      v'.loop.hist.issued = v.loop.hist.issued ++ [m.id] ∧ v.loop.SameThread v'.loop := by
  obtain ⟨loop, hs, rfl⟩ := Option.map_eq_some_iff.mp h
  obtain ⟨_, hrecv, _, rfl⟩ := Shard.sendMsg_eq_some hs
  exact ⟨rfl, rfl, hrecv, hs, rfl, rfl, rfl, rfl, rfl, rfl⟩

namespace Act

variable {c : Params} {id : Nat} {r : Option Nat} {x : Caller} {y : Option Caller} {v v' : View}

/-- The loop moves by its own steps, and its thread stays where it is. -/
theorem loop (h : Act c id r v x y v') :
    (v.loop.phase ≠ .aborted → v.loop.Moves c v'.loop) ∧ v.loop.SameThread v'.loop := by
  cases h with
  | send hh hx hw hq hm hy hs =>
    obtain ⟨_, _, _, hsend, _, _, hrel⟩ := View.sendRead_eq_some hs
    exact ⟨fun ha => Shard.moves_of_sendMsg ha hsend, hrel⟩
  | @pollCount hd w hs hf hw =>
    unfold ReadHandle.poll
    rw [hs]
    simp only [hw]
    split <;> exact ⟨fun _ => .start, .refl _⟩
  | @pollBytes hd w p b hs hf hw hv =>
    unfold ReadHandle.poll
    rw [hs]
    simp only [hw, hv]
    split <;> exact ⟨fun _ => .start, .refl _⟩
  | dropSubmitted hs hl hr ht => exact ⟨hl, ht⟩
  | _ => exact ⟨fun _ => .start, .refl _⟩

/-- No caller opens or closes a semaphore. -/
theorem closed (h : Act c id r v x y v') : v'.sem.closed = v.sem.closed ∧
    ∀ b', v'.bytes = some b' → ∃ b, v.bytes = some b ∧ b'.closed = b.closed := by
  cases h with
  | takeCount hp hs =>
    obtain ⟨hopen, hopen', _⟩ := Semaphore.tryAcquire_ok hs
    exact ⟨hopen'.trans hopen.symm, fun b hb => ⟨b, hb, rfl⟩⟩
  | takeBytes hp hv hb =>
    obtain ⟨hopen, hopen', _⟩ := Semaphore.tryAcquire_ok hb
    refine ⟨rfl, fun b' hb' => ⟨_, hv, ?_⟩⟩
    cases hb'
    exact hopen'.trans hopen.symm
  | dropCount hp => exact ⟨Semaphore.closed_release _ _, fun b hb => ⟨b, hb, rfl⟩⟩
  | send hh hx hw hq hm hy hs =>
    obtain ⟨hsem, hbytes, _⟩ := View.sendRead_eq_some hs
    exact ⟨by rw [hsem], fun b hb => ⟨b, hbytes ▸ hb, rfl⟩⟩
  | sendFailed hh hx hw hq hy =>
    refine ⟨Semaphore.closed_release _ _, fun b' hb' => ?_⟩
    obtain ⟨b, hb, rfl⟩ := Option.map_eq_some_iff.mp hb'
    exact ⟨b, hb, Semaphore.closed_release _ _⟩
  | @pollCount hd w hs hf hw =>
    have hpoll := v.sem.closed_pollAcquire id 1
    unfold ReadHandle.poll
    rw [hs]
    simp only [hw]
    split
    all_goals
      rename_i sem heq
      rw [heq] at hpoll
    · exact ⟨hpoll, fun b hb => ⟨b, hb, rfl⟩⟩
    · exact ⟨(Semaphore.closed_cancel _ _).trans hpoll, fun b hb => ⟨b, hb, rfl⟩⟩
    · exact ⟨hpoll, fun b hb => ⟨b, hb, rfl⟩⟩
  | @pollBytes hd w p b hs hf hw hv =>
    have hpoll := b.closed_pollAcquire id w.charge
    unfold ReadHandle.poll
    rw [hs]
    simp only [hw, hv]
    split
    all_goals
      rename_i sem heq
      rw [heq] at hpoll
    · exact ⟨rfl, fun b' hb' => ⟨b, rfl, Option.some.inj hb' ▸ hpoll⟩⟩
    · refine ⟨Semaphore.closed_release _ _, fun b' hb' => ⟨b, rfl, ?_⟩⟩
      exact Option.some.inj hb' ▸ (Semaphore.closed_cancel _ _).trans hpoll
    · exact ⟨rfl, fun b' hb' => ⟨b, rfl, Option.some.inj hb' ▸ hpoll⟩⟩
  | dropQueued hs hf hw => exact ⟨Semaphore.closed_cancel _ _, fun b hb => ⟨b, hb, rfl⟩⟩
  | dropPartial hs hf hw =>
    refine ⟨Semaphore.closed_release _ _, fun b' hb' => ?_⟩
    obtain ⟨b, hb, rfl⟩ := Option.map_eq_some_iff.mp hb'
    exact ⟨b, hb, Semaphore.closed_cancel _ _⟩
  | _ => exact ⟨rfl, fun b hb => ⟨b, hb, rfl⟩⟩

/-- A caller sends at most its own read, once it holds the read's permits. -/
theorem requests (h : Act c id r v x y v') :
    v'.loop.hist.requests = v.loop.hist.requests ∨ ∃ req charge res, x.Carries r req charge res ∧
      v'.loop.hist.requests =
        v.loop.hist.requests ++ [req.msg id (v.permitsFor charge res)] := by
  cases h with
  | send hh hx hw hq hm hy hs =>
    exact Or.inr ⟨_, _, _, hm, (View.sendRead_eq_some hs).2.2.2.2.1⟩
  | @pollCount hd w hs hf hw =>
    left
    unfold ReadHandle.poll
    rw [hs]
    simp only [hw]
    split <;> rfl
  | @pollBytes hd w p b hs hf hw hv =>
    left
    unfold ReadHandle.poll
    rw [hs]
    simp only [hw, hv]
    split <;> rfl
  | dropSubmitted hs hl hr hd => exact Or.inl hr
  | _ => exact Or.inl rfl

/-- Count permits through one exchange. -/
theorem count (h : Act c id r v x y v')
    (hc : ∀ n, v.sem.claim id = some n → n = 1 ∧ x.AwaitsCount x.shard) :
    CountKept id x y v v' := by
  -- a caller that awaits no count permit is in no queue
  have hnone (hw : ¬ x.AwaitsCount x.shard) : v.sem.claim id = none := by
    cases hclaim : v.sem.claim id with
    | none => rfl
    | some n => exact absurd (hc n hclaim).2 hw
  have hout {n : Nat} (hw : ¬ x.AwaitsCount x.shard) {P : Prop}
      (h : v.sem.claim id = some n) : P := by
    rw [hnone hw] at h
    cases h
  cases h with
  | quiet hh hb hw hq =>
    refine ⟨?_, fun k _ => hh k, rfl, fun _ _ => rfl, fun n hn => ?_⟩
    · rw [hh]
    · exact ⟨(hc n hn).1, hw _ (hc n hn).2⟩
  | @takeCount s k rest waiting sem hp hs =>
    obtain ⟨hopen, hopen', hvalue, hclaims⟩ := Semaphore.tryAcquire_ok hs
    have hheld (j : Nat) : (s.goto (if v.bytes.isSome then .tryBytes k else .send k)).held j =
        if k = j then 1 else 0 := by
      cases v.bytes <;> rfl
    have hshard : (submitting s).shard = k := by simp only [Caller.shard, Submit.shard, hp]
    have hzero (j : Nat) : (submitting s).held j = 0 := by simp only [held, hp]
    refine ⟨?_, fun j hj => ?_, hopen'.trans hopen.symm, fun j _ => congrFun hclaims j,
      fun n hn => ?_⟩
    · rw [heldBy_some, hheld, hshard, if_pos rfl, hzero]
      simp only
      omega
    · rw [heldBy_some, hheld, hzero, if_neg]
      rw [hshard] at hj
      exact Ne.symm hj
    · rw [hclaims] at hn
      exact hout ((not_awaits_submitting s).1 _) hn
  | @takeBytes s k b b' hp hv hb =>
    refine ⟨?_, fun j hj => ?_, rfl, fun _ _ => rfl, fun n => hout ((not_awaits_submitting s).1 _)⟩
    · simp only [heldBy_some, Submit.goto, held, hp]
    · simp only [heldBy_some, Submit.goto, held, hp]
  | @dropCount s k e hp =>
    have hshard : (submitting s).shard = k := by simp only [Caller.shard, Submit.shard, hp]
    obtain ⟨hheld, _⟩ := held_refused s r k e
    have hone (j : Nat) : (submitting s).held j = if k = j then 1 else 0 := by simp only [held, hp]
    refine ⟨?_, fun j hj => ?_, Semaphore.closed_release _ _,
      fun j _ => Semaphore.claim_release _ _ _, fun n hn => ?_⟩
    · rw [heldBy_some, hheld, hone, if_pos hshard.symm, Semaphore.value_release, Nat.add_zero]
    · rw [heldBy_some, hheld, hone, if_neg]
      exact fun hk => hj (hk ▸ hshard.symm)
    · rw [Semaphore.claim_release] at hn
      exact hout ((not_awaits_submitting s).1 _) hn
  | @send _ y req charge res _ hh hx hw hq hm hy hs =>
    obtain ⟨hsem, _, _, _, hreq, _, _⟩ := View.sendRead_eq_some hs
    have hyheld : ∀ k, (holding y).held k = 0 :=
      (settled_holding fun w hw => absurd hw (ReadHandle.not_waiting hy w)).1
    refine ⟨?_, fun k hk => ?_, by rw [hsem], fun j _ => by rw [hsem], fun n hn => ?_⟩
    · rw [heldBy_some, hyheld, hh, if_pos rfl, hsem, hreq, List.length_append,
        List.length_singleton]
      omega
    · rw [heldBy_some, hyheld, hh, if_neg (Ne.symm hk)]
    · rw [hsem] at hn
      exact hout (hw _) hn
  | @sendFailed _ y charge res hh hx hw hq hy =>
    obtain ⟨hyheld, _⟩ := settled_holding hy
    refine ⟨?_, fun k hk => ?_, Semaphore.closed_release _ _,
      fun j _ => Semaphore.claim_release _ _ _, fun n hn => ?_⟩
    · rw [heldBy_some, hyheld, hh, if_pos rfl]
      simp only [View.dropPermits, View.permitsFor, Semaphore.value_release, Nat.add_zero]
    · rw [heldBy_some, hyheld, hh, if_neg (Ne.symm hk)]
    · simp only [View.dropPermits, Semaphore.claim_release] at hn
      exact hout (hw _) hn
  | @pollCount hd w hs hf hw =>
    have hawait : (holding hd).AwaitsCount hd.shard := (awaitsCount_waiting hs hf _).mpr ⟨hw, rfl⟩
    have hzero := hawait.held_eq
    have hclaim : v.sem.claim id = none ∨ v.sem.claim id = some 1 := by
      cases hn : v.sem.claim id with
      | none => exact Or.inl rfl
      | some n => exact Or.inr (congrArg some (hc n hn).1)
    unfold ReadHandle.poll
    rw [hs]
    simp only [hw]
    rcases Semaphore.pollAcquire_cases hclaim with
      ⟨hclosed, heq⟩ | ⟨hopen, sem, heq, hopen', hvalue, hcl⟩ |
      ⟨hopen, sem, heq, hopen', hvalue, hcl⟩
    · rw [heq]
      simp only
      have hsettled := settled_holding (hd.finish_settled (.error driverGone))
      refine ⟨?_, fun k _ => ?_, Semaphore.closed_cancel _ _, fun j hj => ?_, fun n hn => ?_⟩
      · rw [heldBy_some, hsettled.1, hzero, Semaphore.value_cancel]
      · rw [heldBy_some, hsettled.1, hzero]
      · rw [Semaphore.claim_cancel, if_neg hj]
      · rw [Semaphore.claim_cancel, if_pos rfl] at hn
        cases hn
    · rw [heq]
      simp only
      refine ⟨?_, fun k _ => rfl, hopen'.trans hopen.symm, fun j hj => ?_, fun n hn => ?_⟩
      · rw [heldBy_some, hvalue]
      · rw [hcl, if_neg hj]
      · rw [hcl, if_pos rfl] at hn
        exact ⟨(Option.some.inj hn).symm, _, rfl, hawait⟩
    · rw [heq]
      simp only
      have hone (k : Nat) : (holding (hd.await w
          (if v.bytes.isSome then .bytes true else .admitted))).held k =
            if (holding hd).shard = k then 1 else 0 := by
        refine held_partial (h := hd.await w _) rfl hf ?_ k
        cases v.bytes with
        | none => exact Stage.admitted_ne_count
        | some b => exact Stage.bytes_ne_count true
      refine ⟨?_, fun k hk => ?_, hopen'.trans hopen.symm, fun j hj => ?_, fun n hn => ?_⟩
      · rw [heldBy_some, hone, hzero, if_pos rfl]
        simp only
        omega
      · rw [heldBy_some, hone, hzero, if_neg (Ne.symm hk)]
      · rw [hcl, if_neg hj]
      · rw [hcl, if_pos rfl] at hn
        cases hn
  | @pollBytes hd w p b hs hf hw hv =>
    have hne : w.stage ≠ .count := by
      rw [hw]
      exact Stage.bytes_ne_count p
    have hno : ¬ (holding hd).AwaitsCount (holding hd).shard := by
      rw [awaitsCount_waiting hs hf]
      exact fun hk => hne hk.1
    have hone := held_partial hs hf hne
    have hkeep (stage : Stage) (hst : stage ≠ .count) (k : Nat) :
        (holding (hd.await w stage)).held k = (holding hd).held k := by
      rw [hone, held_partial (h := hd.await w stage) rfl hf hst]
      rfl
    unfold ReadHandle.poll
    rw [hs]
    simp only [hw, hv]
    split
    · refine ⟨?_, fun k _ => hkeep (.bytes false) (Stage.bytes_ne_count false) k, rfl,
        fun _ _ => rfl, fun n => hout hno⟩
      rw [heldBy_some, hkeep (.bytes false) (Stage.bytes_ne_count false)]
    · have hsettled := settled_holding (hd.finish_settled (.error driverGone))
      refine ⟨?_, fun k hk => ?_, Semaphore.closed_release _ _,
        fun j _ => Semaphore.claim_release _ _ _, fun n hn => ?_⟩
      · rw [heldBy_some, hsettled.1, hone, Semaphore.value_release, if_pos rfl, Nat.add_zero]
      · rw [heldBy_some, hsettled.1, hone, if_neg (Ne.symm hk)]
      · rw [Semaphore.claim_release] at hn
        exact hout hno hn
    · refine ⟨?_, fun k _ => hkeep .admitted Stage.admitted_ne_count k, rfl, fun _ _ => rfl,
        fun n => hout hno⟩
      rw [heldBy_some, hkeep .admitted Stage.admitted_ne_count]
  | @dropQueued hd w hs hf hw =>
    have hzero := ((awaitsCount_waiting hs hf _).mpr ⟨hw, rfl⟩).held_eq
    refine ⟨?_, fun k _ => (hzero k).symm, Semaphore.closed_cancel _ _, fun j hj => ?_,
      fun n hn => ?_⟩
    · rw [heldBy_none, hzero, Semaphore.value_cancel]
    · rw [Semaphore.claim_cancel, if_neg hj]
    · rw [Semaphore.claim_cancel, if_pos rfl] at hn
      cases hn
  | @dropPartial hd w hs hf hw =>
    have hne : w.stage ≠ .count := by
      rw [hw]
      exact Stage.bytes_ne_count false
    have hno : ¬ (holding hd).AwaitsCount (holding hd).shard := by
      rw [awaitsCount_waiting hs hf]
      exact fun hk => hne hk.1
    have hone := held_partial hs hf hne
    refine ⟨?_, fun k hk => ?_, Semaphore.closed_release _ _,
      fun j _ => Semaphore.claim_release _ _ _, fun n hn => ?_⟩
    · rw [heldBy_none, hone, Semaphore.value_release, if_pos rfl, Nat.add_zero]
    · rw [heldBy_none, hone, if_neg (Ne.symm hk)]
    · rw [Semaphore.claim_release] at hn
      exact hout hno hn
  | @dropSubmitted hd loop hs hl hr hdd =>
    obtain ⟨hheld, _, hw, _⟩ :=
      settled_holding (h := hd) fun w hw => absurd hw (ReadHandle.not_waiting hs w)
    refine ⟨?_, fun k _ => (hheld k).symm, rfl, fun _ _ => rfl, fun n => hout (hw _)⟩
    rw [heldBy_none, hheld, hr]

/-- A view stays limited or unlimited. -/
theorem isSome_bytes (h : Act c id r v x y v') : v'.bytes.isSome = v.bytes.isSome := by
  cases h with
  | takeBytes hp hv hb => rw [hv]; rfl
  | send hh hx hw hq hm hy hs => rw [(View.sendRead_eq_some hs).2.1]
  | sendFailed | dropPartial => exact Option.isSome_map
  | @pollCount hd w hs hf hw =>
    unfold ReadHandle.poll
    rw [hs]
    simp only [hw]
    split <;> rfl
  | @pollBytes hd w p b hs hf hw hv =>
    unfold ReadHandle.poll
    rw [hs]
    simp only [hw, hv]
    split <;> rfl
  | _ => rfl

/-- Bytes through one exchange. -/
theorem bytes (h : Act c id r v x y v') {b b' : Semaphore} (hv : v.bytes = some b)
    (hv' : v'.bytes = some b') (hc : ∀ n, b.claim id = some n → x.AwaitsBytes n) :
    BytesKept id x y v v' b b' := by
  have hsome : v.bytes.isSome = true := by rw [hv]; rfl
  have hout {n : Nat} (hw : ∀ n, ¬ x.AwaitsBytes n) {P : Prop} (h : b.claim id = some n) : P :=
    absurd (hc n h) (hw n)
  -- an exchange that leaves the byte semaphore and the hand's bytes alone
  have hsame (hb : v'.bytes = v.bytes) (hl : v'.loop.hist.requests = v.loop.hist.requests)
      (hh : bytesHeldBy y = x.bytesHeld) (hw : ∀ n, ¬ x.AwaitsBytes n) :
      BytesKept id x y v v' b b' := by
    obtain rfl : b' = b := Option.some.inj (hv'.symm.trans (hb.trans hv))
    refine ⟨?_, rfl, fun _ _ => rfl, fun n => hout hw⟩
    rw [hh, Shard.bytesSent, Shard.bytesSent, hl]
  cases h with
  | quiet hh hb hw hq =>
    obtain rfl : b' = b := Option.some.inj (hv'.symm.trans hv)
    refine ⟨by rw [hb hsome], rfl, fun _ _ => rfl, fun n hn => hq hsome n (hc n hn)⟩
  | @takeCount s k rest waiting sem hp hs =>
    refine hsame rfl rfl ?_ (not_awaits_submitting s).2
    rw [hsome, if_pos rfl, bytesHeldBy_some]
    simp only [Submit.goto, bytesHeld, hp]
  | @takeBytes s k b₁ b₂ hp hb₁ hb₂ =>
    obtain rfl : b₁ = b := Option.some.inj (hb₁.symm.trans hv)
    obtain rfl : b₂ = b' := Option.some.inj hv'
    obtain ⟨hopen, hopen', hvalue, hclaims⟩ := Semaphore.tryAcquire_ok hb₂
    refine ⟨?_, hopen'.trans hopen.symm, fun j _ => congrFun hclaims j, fun n hn => ?_⟩
    · simp only [bytesHeldBy_some, Submit.goto, bytesHeld, hp]
      omega
    · rw [hclaims] at hn
      exact hout (not_awaits_submitting s).2 hn
  | @dropCount s k e hp =>
    refine hsame rfl rfl ?_ (not_awaits_submitting s).2
    rw [bytesHeldBy_some, (held_refused s r k e).2]
    simp only [bytesHeld, hp]
  | @send _ y req charge res _ hh hx hw hq hm hy hs =>
    obtain ⟨_, hbytes, _, _, hreq, _, _⟩ := View.sendRead_eq_some hs
    obtain rfl : b' = b := Option.some.inj (hv'.symm.trans (hbytes.trans hv))
    have hyheld : (holding y).bytesHeld = 0 :=
      (settled_holding fun w hw => absurd hw (ReadHandle.not_waiting hy w)).2.1
    refine ⟨?_, rfl, fun _ _ => rfl, fun n => hout hq⟩
    simp only [bytesHeldBy_some, hyheld, hx, Shard.bytesSent, hreq, List.map_append,
      List.sum_append, List.map_cons, List.map_nil, List.sum_cons, List.sum_nil, Request.msg,
      View.permitsFor, ReadPermits.byteCount, hv, Option.map_some, Option.getD_some]
    omega
  | @sendFailed _ y charge res hh hx hw hq hy =>
    obtain rfl : b.release charge = b' := by
      simpa [View.dropPermits, View.permitsFor, hv] using hv'
    refine ⟨?_, Semaphore.closed_release _ _, fun j _ => Semaphore.claim_release _ _ _,
      fun n hn => ?_⟩
    · rw [bytesHeldBy_some, (settled_holding hy).2.1, hx, Semaphore.value_release]
      rfl
    · rw [Semaphore.claim_release] at hn
      exact hout hq hn
  | @pollCount hd w hs hf hw =>
    have hno (n : Nat) : ¬ (holding hd).AwaitsBytes n := by
      rw [awaitsBytes_waiting hs hf, hw]
      rintro ⟨⟨p, hp⟩, _⟩
      cases hp
    have hzero : (holding hd).bytesHeld = 0 := by
      rw [bytesHeld_waiting hs hf, hw]
      rfl
    unfold ReadHandle.poll at hv' hsame ⊢
    rw [hs] at hv' hsame ⊢
    simp only [hw] at hv' hsame ⊢
    revert hv' hsame
    split <;> intro hv' hsame
    · exact hsame rfl rfl rfl hno
    · refine hsame rfl rfl ?_ hno
      rw [bytesHeldBy_some, hzero]
      exact (settled_holding (hd.finish_settled (.error driverGone))).2.1
    · refine hsame rfl rfl ?_ hno
      rw [bytesHeldBy_some, hzero, hsome, if_pos rfl]
      exact bytesHeld_waiting (h := hd.await w (.bytes true)) rfl hf
  | @pollBytes hd w p b₁ hs hf hw hb₁ =>
    obtain rfl : b₁ = b := Option.some.inj (hb₁.symm.trans hv)
    have hawait : (holding hd).AwaitsBytes w.charge :=
      (awaitsBytes_waiting hs hf _).mpr ⟨⟨p, hw⟩, rfl⟩
    have hzero : (holding hd).bytesHeld = 0 := by
      rw [bytesHeld_waiting hs hf, hw]
      rfl
    have hclaim : b₁.claim id = none ∨ b₁.claim id = some w.charge := by
      cases hn : b₁.claim id with
      | none => exact Or.inl rfl
      | some n =>
        obtain ⟨_, hcharge⟩ := (awaitsBytes_waiting hs hf n).mp (hc n hn)
        exact Or.inr (congrArg some hcharge.symm)
    unfold ReadHandle.poll at hv' ⊢
    rw [hs] at hv' ⊢
    simp only [hw, hv] at hv' ⊢
    rcases Semaphore.pollAcquire_cases hclaim with ⟨hclosed, heq⟩ |
      ⟨hopen, sem, heq, hopen', hvalue, hcl⟩ | ⟨hopen, sem, heq, hopen', hvalue, hcl⟩
    · rw [heq] at hv' ⊢
      obtain rfl : b₁.cancel id = b' := Option.some.inj hv'
      refine ⟨?_, Semaphore.closed_cancel _ _, fun j hj => ?_, fun n hn => ?_⟩
      · rw [bytesHeldBy_some, hzero, Semaphore.value_cancel]
        simp only
        rw [(settled_holding (hd.finish_settled (.error driverGone))).2.1]
      · rw [Semaphore.claim_cancel, if_neg hj]
      · rw [Semaphore.claim_cancel, if_pos rfl] at hn
        cases hn
    · rw [heq] at hv' ⊢
      obtain rfl : sem = b' := Option.some.inj hv'
      refine ⟨?_, hopen'.trans hopen.symm, fun j hj => ?_, fun n hn => ?_⟩
      · rw [bytesHeldBy_some, hzero, hvalue]
        simp only
        rw [bytesHeld_waiting (h := hd.await w (.bytes false)) rfl hf]
        rfl
      · rw [hcl, if_neg hj]
      · rw [hcl, if_pos rfl] at hn
        exact ⟨_, rfl, (awaitsBytes_waiting (h := hd.await w (.bytes false)) rfl hf n).mpr
          ⟨⟨false, rfl⟩, Option.some.inj hn⟩⟩
    · rw [heq] at hv' ⊢
      obtain rfl : sem = b' := Option.some.inj hv'
      refine ⟨?_, hopen'.trans hopen.symm, fun j hj => ?_, fun n hn => ?_⟩
      · rw [bytesHeldBy_some, hzero]
        simp only
        rw [bytesHeld_waiting (h := hd.await w .admitted) rfl hf, if_pos rfl]
        simp only
        omega
      · rw [hcl, if_neg hj]
      · rw [hcl, if_pos rfl] at hn
        cases hn
  | @dropQueued hd w hs hf hw =>
    refine hsame rfl rfl ?_ fun n => ?_
    · rw [bytesHeldBy_none, bytesHeld_waiting hs hf, hw]
      rfl
    · rw [awaitsBytes_waiting hs hf, hw]
      rintro ⟨⟨p, hp⟩, _⟩
      cases hp
  | @dropPartial hd w hs hf hw =>
    obtain rfl : b.cancel id = b' := by simpa [hv] using hv'
    refine ⟨?_, Semaphore.closed_cancel _ _, fun j hj => ?_, fun n hn => ?_⟩
    · rw [bytesHeldBy_none, bytesHeld_waiting hs hf, hw, Semaphore.value_cancel]
      rfl
    · rw [Semaphore.claim_cancel, if_neg hj]
    · rw [Semaphore.claim_cancel, if_pos rfl] at hn
      cases hn
  | @dropSubmitted hd loop hs hl hr hdd =>
    obtain ⟨_, hheld, _, hq⟩ :=
      settled_holding (h := hd) fun w hw => absurd hw (ReadHandle.not_waiting hs w)
    exact hsame rfl hr hheld.symm hq

end Act

/-- A semaphore that was given `n` permits back. -/
structure Core.Semaphore.Given (s s' : Semaphore) (n : Nat) : Prop where
  value : s'.value = s.value + n
  claim : s'.claim = s.claim
  closed : s'.closed = s.closed

theorem Core.Semaphore.given_release (s : Semaphore) (n : Nat) : s.Given (s.release n) n :=
  ⟨s.value_release n, funext (s.claim_release n), s.closed_release n⟩

/-- Dropping permits one after another gives back their counts and their bytes. -/
theorem View.foldl_dropPermits (freed : List ReadPermits) (v : View) :
    (freed.foldl View.dropPermits v).loop = v.loop ∧
      v.sem.Given (freed.foldl View.dropPermits v).sem (freed.map ReadPermits.count).sum ∧
      (v.bytes = none → (freed.foldl View.dropPermits v).bytes = none) ∧
      ∀ b, v.bytes = some b → ∃ b', (freed.foldl View.dropPermits v).bytes = some b' ∧
        b.Given b' (freed.map ReadPermits.byteCount).sum := by
  induction freed generalizing v with
  | nil => exact ⟨rfl, ⟨rfl, rfl, rfl⟩, id, fun b hb => ⟨b, hb, rfl, rfl, rfl⟩⟩
  | cons p freed ih =>
    obtain ⟨hloop, hsem, hnone, hsome⟩ := ih (v.dropPermits p)
    have hcount := v.sem.given_release p.count
    refine ⟨hloop, ⟨?_, hsem.claim.trans hcount.claim, hsem.closed.trans hcount.closed⟩,
      fun hv => hnone ?_, fun b hb => ?_⟩
    · have hcount' : (v.dropPermits p).sem.value = v.sem.value + p.count := hcount.value
      rw [List.foldl_cons, List.map_cons, List.sum_cons, hsem.value, hcount']
      omega
    · rw [View.dropPermits, hv]
      rfl
    · have hbytes := b.given_release p.byteCount
      obtain ⟨b', hb', hgiven⟩ := hsome (b.release p.byteCount) (by rw [View.dropPermits, hb]; rfl)
      refine ⟨b', hb', ?_, hgiven.claim.trans hbytes.claim, hgiven.closed.trans hbytes.closed⟩
      rw [hgiven.value, hbytes.value, List.map_cons, List.sum_cons]
      omega

/-- What a step of a loop changes in its view: it sends nothing, and the permits it drops
are given back. -/
structure LoopTurn (c : Params) (e : Event) (v v' : View) (freed : List ReadPermits) : Prop where
  step : v.loop.step c e = some v'.loop
  requests : v'.loop.hist.requests = v.loop.hist.requests
  released : v'.loop.hist.released = v.loop.hist.released ++ freed
  value : v'.sem.value = v.sem.value + (freed.map ReadPermits.count).sum
  claim : v'.sem.claim = v.sem.claim
  closed : v.sem.closed = true → v'.sem.closed = true
  closeSem : e = .closeSem → v'.sem.closed = true
  keepsSem : e ≠ .closeSem → v'.sem.closed = v.sem.closed
  unlimited : v.bytes = none → v'.bytes = none
  bytes : ∀ b, v.bytes = some b → ∃ b', v'.bytes = some b' ∧
    b.Given b' (freed.map ReadPermits.byteCount).sum

/-- A label of the thread sends no read. -/
theorem Shard.requests_of_ofThread {c : Params} {s s' : Shard} {e : Event} (hc : s.Control)
    (he : e.ofThread = true) (h : s.step c e = some s') :
    s'.hist.requests = s.hist.requests := by
  have hm := (Shard.step_move hc (Shard.any_allows s e) h).1
  cases e with
  | signal p =>
    unfold Shard.step at h
    split at h
    · cases h
    · cases h
      rfl
  | send | join | hangup | closeRx => cases he
  | _ => exact hm.history.2 nofun

theorem View.turn_cases {c : Params} {v v' : View} {e : Event} (hc : v.loop.Control)
    (he : e.ofThread = true) (h : v.turn c e = some v') : ∃ freed, LoopTurn c e v v' freed := by
  simp only [View.turn, Option.bind_eq_bind, Option.bind_eq_some_iff, Option.pure_def,
    Option.some.injEq] at h
  obtain ⟨loop, hs, rfl⟩ := h
  have hm := (Shard.step_move hc (Shard.any_allows v.loop e) hs).1
  refine ⟨loop.hist.released.drop v.loop.hist.released.length, ?_⟩
  obtain ⟨hloop, hsem, hnone, hsome⟩ := View.foldl_dropPermits
    (loop.hist.released.drop v.loop.hist.released.length)
    { v with loop := loop, sem := if e = .closeSem then v.sem.close else v.sem }
  have hkept : (if e = .closeSem then v.sem.close else v.sem).value = v.sem.value ∧
      (if e = .closeSem then v.sem.close else v.sem).claim = v.sem.claim := by
    split <;> exact ⟨rfl, rfl⟩
  refine ⟨by rw [hloop]; exact hs, ?_, ?_, ?_, hsem.claim.trans hkept.2, ?_, ?_, ?_, hnone, hsome⟩
  · rw [hloop]
    exact Shard.requests_of_ofThread hc he hs
  · rw [hloop]
    exact (List.prefix_iff_eq_append.mp hm.history.1).symm
  · rw [hsem.value, hkept.1]
  · intro hclosed
    rw [hsem.closed]
    simp only
    split
    · rfl
    · exact hclosed
  · intro hclose
    rw [hsem.closed, if_pos hclose]
    rfl
  · intro hopen
    rw [hsem.closed, if_neg hopen]

end Uring
