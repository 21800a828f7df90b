import Uring.Liveness.Progress

/-!
# Every read is answered

A read passes four queues: the channel, the ring's submission side, the kernel and the
completion queue, and it may pass the last three again for the part it still misses. The
thread empties the first and the last, the kernel accepts entries and completes what it
holds, and every further round leaves fewer rounds. So a read that was sent is answered.
-/

namespace Uring

open Uring.Core

/-- A read entry of this id. -/
def Sqe.Reads (e : Sqe) (id : Nat) : Prop := e.isRead = true ∧ e.userData = id

/-- What leaves a queue at its front has come out of it, and the rest moves up. -/
theorem getElem?_of_fifo {α : Type} {queue more out queue' : List α}
    (h : queue ++ more = out ++ queue') {i : Nat} {a : α} (ha : queue[i]? = some a) :
    a ∈ out ∨ ∃ j, j + out.length = i ∧ queue'[j]? = some a := by
  have hmore : (out ++ queue')[i]? = some a := by
    rw [← h, List.getElem?_append_left (List.getElem?_eq_some_iff.mp ha).1]
    exact ha
  rcases lt_or_ge i out.length with hlt | hge
  · rw [List.getElem?_append_left hlt] at hmore
    exact Or.inl (List.mem_of_getElem? hmore)
  · rw [List.getElem?_append_right hge] at hmore
    exact Or.inr ⟨i - out.length, by omega, hmore⟩

namespace Ledger

/-- The read is in the table with its sender and this many completions left to use up. -/
def Waiting (id n : Nat) (l : Ledger) : Prop :=
  ∃ p, l.pending.lookup id = some p ∧ p.done = some id ∧ p.left = n

/-- No entry has spent more retries than it has. -/
def Retrying (l : Ledger) : Prop :=
  l.pending.All fun _ p => p.transientRetries ≤ maxTransientRetries

/-- What waits to be submitted, in order. -/
def unsubmitted (l : Ledger) : List Sqe := l.sq ++ l.backlog

section Move

variable {c : Params} {w : Answers} {l l' : Ledger} {a : Actor}

theorem Retrying.move (h : l.Retrying) (hm : Move c w l a l') : l'.Retrying := by
  cases hm with
  | idle | overflow | send | closeRx | postCancel | reject | cancelMiss | submit | reapCancel
    | reapStale | dropChan => exact h
  | @postRead k ud file len off ptr data res hk hd ha =>
    unfold writeBlock
    split
    · exact h
    · rename_i p hp
      exact AList.All.insert h (h ptr.block p hp)
  | accept hc hd hp hs =>
    refine AList.All.insert h ?_
    obtain ⟨base, k, hd, r, cap, rfl, _⟩ := hp.built
    exact Nat.zero_le _
  | @cancelHit id rest p hc hp =>
    unfold Retrying
    rw [queueCancel_pending]
    exact AList.All.insert h (h id p hp)
  | shutdown hc ho =>
    unfold Retrying
    rw [shutdown_pending]
    exact h
  | submitSweep errors hd ho =>
    unfold Retrying
    rw [shutdown_pending]
    exact h
  | resubmit hq hb hp hf hr =>
    refine AList.All.insert h ?_
    rcases reapRead_retries hr with ⟨_, hzero⟩ | ⟨_, _, hle⟩
    · rw [hzero]
      exact Nat.zero_le _
    · exact hle
  | finish late hq hb hp hf hr ht => exact AList.All.erase h _
  | leak n hd => exact AList.All.mapVal h

/-- A resubmission leaves fewer completions to use up. -/
theorem Contracted.left_lt (h : l.Contracted c) (hu : WideUsize c.usizeMax) (hretry : l.Retrying)
    {q : Cqe} {rest : List Cqe} (hq : l.cq = q :: rest) (hb : q.userData &&& cancelBit = 0)
    {p p' : Pending} (hp : l.pending.lookup q.userData = some p) {down closed : Bool}
    {fileLen : Except IoError Nat} {sqe : Sqe}
    (hr : reapRead c.usizeMax p q.userData q.res down closed fileLen =
      some (p', .resubmit sqe)) : p'.left < p.left := by
  obtain ⟨_, m, _, _, _, hsound, hbounds⟩ := h.entry hp
  -- the result is an `i32`, as in the account of one read's completions
  have hlow : -(2 : Int) ^ 31 < q.res := by
    rcases lt_or_ge q.res 0 with hneg | hpos
    · have hread := (h.accounted.ownership.isRead_iff (Ownership.reap_mem hq)).mpr hb
      have hsqe := h.ranged.sqe _ (Ownership.reap_mem hq) hread p hp
      rw [hsound.readSqe_eq hbounds hu] at hsqe
      have hans := h.ranged.answer q (by rw [hq]; exact List.mem_cons_self)
      rw [← Option.some.inj hsqe] at hans
      rcases hans with ⟨_, hle⟩ | ⟨hle, _⟩ <;> omega
    · omega
  have hhigh : q.res < (2 : Int) ^ 31 := by
    rcases lt_or_ge q.res 0 with hneg | hpos
    · omega
    · have hfit := h.answer_fits hu hq hb hp hpos
      have hregion := hbounds.region_le
      unfold maxReadLen at hregion
      omega
  have hres : (Int32.ofInt q.res).toInt = q.res := Int32.toInt_ofInt_of_le hlow.le hhigh
  have hne : Int32.ofInt q.res ≠ Int32.minValue := by
    intro heq
    have hmin : (Int32.minValue).toInt = -(2 : Int) ^ 31 := by decide
    rw [← heq, hres] at hmin
    omega
  have hreap : p.reap c.usizeMax q.userData ⟨Int32.ofInt q.res, hne, false, down, closed, fileLen⟩ =
      some (p', .resubmit sqe) := by
    rw [Pending.reap, Bool.or_false, hres]
    exact hr
  obtain ⟨q', next, hsome, hnext⟩ := hsound.reap q.userData hbounds hu
    ⟨Int32.ofInt q.res, hne, false, down, closed, fileLen⟩
  rw [hreap] at hsome
  obtain ⟨rfl, rfl⟩ := Prod.mk.inj (Option.some.inj hsome)
  obtain ⟨_, hregion, _, hlt, hcont⟩ := hnext sqe rfl
  exact hcont.left_lt hsound (Nat.pos_of_isPowerOfTwo hbounds.pow) hregion hlt hbounds.dvd_region
    (hretry _ p hp)

/-- The read is answered, or waits with fewer completions left. -/
def Nearer (id n : Nat) (l : Ledger) : Prop :=
  l.mail.Settled id ∨ ∃ k, k < n ∧ l.Waiting id k

/-- The entry of another id changes, or this one in a field that its sender and its progress
do not depend on. -/
theorem Waiting.insert {id n k : Nat} {p q : Pending} (h : l.Waiting id n)
    (hp : l.pending.lookup k = some p) (ht : l'.pending = l.pending.insert k q)
    (hd : q.done = p.done) (hl : q.left = p.left) : l'.Waiting id n := by
  obtain ⟨p₀, hlook, hdone, hleft⟩ := h
  unfold Waiting
  rw [ht]
  by_cases hk : id = k
  · subst hk
    obtain rfl : p₀ = p := Option.some.inj (hlook.symm.trans hp)
    exact ⟨q, AList.lookup_insert _, hd.trans hdone, hl.trans hleft⟩
  · exact ⟨p₀, (AList.lookup_insert_ne hk).trans hlook, hdone, hleft⟩

theorem Waiting.congr {id n : Nat} (h : l.Waiting id n) (ht : l'.pending = l.pending) :
    l'.Waiting id n := by
  unfold Waiting
  rw [ht]
  exact h

/-- A waiting read is answered, gets nearer, or is not the one whose completion is consumed. -/
theorem Waiting.move {id n : Nat} (h : l.Waiting id n) (hl : l.Contracted c)
    (hu : WideUsize c.usizeMax) (hretry : l.Retrying) (hm : Move c w l a l') :
    l'.Nearer id n ∨ (l'.Waiting id n ∧ ∀ q rest, a = .reap → l.cq = q :: rest → l'.cq = rest →
      q.userData ≠ id) := by
  obtain ⟨p₀, hlook, hdone, hleft⟩ := h
  have hw : l.Waiting id n := ⟨p₀, hlook, hdone, hleft⟩
  have hid : id &&& cancelBit = 0 :=
    and_cancelBit_of_lt (hl.accounted.ownership.pending_lt (AList.mem_of_lookup hlook))
  cases hm with
  | idle =>
    refine Or.inr ⟨hw, fun q rest _ hq hrest => ?_⟩
    have hlen := congrArg List.length (hq.symm.trans hrest)
    rw [List.length_cons] at hlen
    omega
  | overflow | send | closeRx | postCancel | reject | cancelMiss | submit | dropChan =>
    exact Or.inr ⟨hw.congr rfl, nofun⟩
  | @postRead k ud file len off ptr data res hk hd ha =>
    refine Or.inr ⟨?_, nofun⟩
    unfold writeBlock
    split
    · exact hw.congr rfl
    · rename_i p hp
      exact hw.insert (k := ptr.block) hp rfl rfl rfl
  | @accept m rest p sqe hc hd hp hs =>
    refine Or.inr ⟨⟨p₀, ?_, hdone, hleft⟩, nofun⟩
    have hne : id ≠ m.id := fun heq =>
      hl.accounted.ownership.queued_notMem hc (heq ▸ AList.mem_of_lookup hlook)
    exact (AList.lookup_insert_ne hne).trans hlook
  | @cancelHit k rest p hc hp =>
    refine Or.inr ⟨hw.insert (k := k) (q := { p with cancelRequested := true }) hp ?_ rfl rfl,
      nofun⟩
    rw [queueCancel_pending]
  | shutdown | submitSweep => exact Or.inr ⟨hw.congr (shutdown_pending _ _), nofun⟩
  | @reapCancel q rest hq hb =>
    refine Or.inr ⟨hw.congr rfl, fun q' rest' _ hq' _ heq => hb ?_⟩
    obtain rfl := (List.cons.inj (hq.symm.trans hq')).1
    rw [heq]
    exact hid
  | @reapStale q rest hq hb hp =>
    refine Or.inr ⟨hw.congr rfl, fun q' rest' _ hq' _ heq => ?_⟩
    obtain rfl := (List.cons.inj (hq.symm.trans hq')).1
    rw [heq, hlook] at hp
    cases hp
  | @resubmit q rest p p' sqe fileLen hq hb hp hf hr =>
    by_cases heq : q.userData = id
    · left
      rw [heq, hlook] at hp
      obtain rfl := Option.some.inj hp
      have hlt := hl.left_lt hu hretry hq hb (heq ▸ hlook) hr
      refine Or.inr ⟨p'.left, hleft ▸ hlt, p', ?_, ?_, rfl⟩
      · rw [← heq]
        exact AList.lookup_insert _
      · exact (reapRead_resubmit hr).2.1.done.trans hdone
    · refine Or.inr ⟨⟨p₀, (AList.lookup_insert_ne (Ne.symm heq)).trans hlook, hdone, hleft⟩, ?_⟩
      intro q' rest' _ hq' _
      rw [(List.cons.inj (hq'.symm.trans hq)).1]
      exact heq
  | @finish q rest p p' outcome tx fileLen late hq hb hp hf hr ht =>
    by_cases heq : q.userData = id
    · left
      rw [heq, hlook] at hp
      obtain rfl := Option.some.inj hp
      have htx : tx = id := Option.some.inj
        (ht.symm.trans ((reapRead_finish hr).1.done.trans hdone))
      refine Or.inl (Or.inl ?_)
      simp only [finish, Mail.send, List.map_append, List.mem_append, htx]
      exact Or.inr (List.mem_singleton_self _)
    · refine Or.inr ⟨⟨p₀, (AList.lookup_erase_ne (Ne.symm heq)).trans hlook, hdone, hleft⟩, ?_⟩
      intro q' rest' _ hq' _
      rw [(List.cons.inj (hq'.symm.trans hq)).1]
      exact heq
  | leak k hd =>
    refine Or.inl (Or.inl (Or.inl ?_))
    simp only [leak, List.map_append, List.map_map, List.mem_append, List.mem_map]
    refine Or.inr ⟨id, List.mem_filterMap.mpr ⟨⟨id, p₀⟩, ?_, hdone⟩, rfl⟩
    exact AList.mem_lookup_iff.mp hlook

/-- What the kernel holds stays with it or is posted. -/
theorem held_of_move {e : Sqe} (hm : Move c w l a l') (he : e ∈ l.held) :
    e ∈ l'.held ∨ ∃ res, Cqe.mk e res ∈ l'.cq := by
  have herase {k : Nat} {e' : Sqe} (hk : l.held[k]? = some e') :
      e ∈ l.held.eraseIdx k ∨ e = e' := by
    obtain ⟨hlt, rfl⟩ := List.getElem?_eq_some_iff.mp hk
    rcases List.mem_cons.mp ((List.getElem_cons_eraseIdx_perm hlt).mem_iff.mpr he) with heq | hmem
    · exact Or.inr heq
    · exact Or.inl hmem
  cases hm with
  | idle | overflow | send | closeRx | reject | accept | cancelMiss | reapCancel | reapStale
    | resubmit | finish | leak | dropChan => exact Or.inl he
  | postRead res hk hd ha =>
    obtain ⟨t, ht⟩ := l.postRead_frame _ ⟨_, res⟩ _ _
    rw [ht]
    rcases herase hk with hmem | rfl
    · exact Or.inl hmem
    · exact Or.inr ⟨res, List.mem_append_right _ (List.mem_singleton_self _)⟩
  | postCancel res hk =>
    rcases herase hk with hmem | rfl
    · exact Or.inl hmem
    · exact Or.inr ⟨res, List.mem_append_right _ (List.mem_singleton_self _)⟩
  | cancelHit hc hp =>
    rw [(queueCancel_frame _ _).held]
    exact Or.inl he
  | shutdown | submitSweep =>
    left
    unfold shutdown
    rw [(queueCancels_frame _ _).held]
    exact he
  | submit => exact Or.inl (List.mem_append_left _ he)

/-- What the kernel accepts is held by it. -/
theorem consumed_of_move (hm : Move c w l a l') :
    ∃ es, l'.hist.consumed = l.hist.consumed ++ es ∧ ∀ e ∈ es, e ∈ l'.held := by
  have hsame (h : l'.hist.consumed = l.hist.consumed) :
      ∃ es, l'.hist.consumed = l.hist.consumed ++ es ∧ ∀ e ∈ es, e ∈ l'.held :=
    ⟨[], by rw [h, List.append_nil], nofun⟩
  cases hm with
  | idle | overflow | send | closeRx | reject | accept | cancelMiss | reapCancel | reapStale
    | resubmit | finish | leak | dropChan | postCancel => exact hsame rfl
  | postRead res hk hd ha =>
    obtain ⟨t, ht⟩ := l.postRead_frame _ ⟨_, res⟩ _ _
    refine hsame ?_
    rw [ht]
  | cancelHit hc hp => exact hsame (queueCancel_frame _ _).consumed
  | shutdown | submitSweep => exact hsame (queueCancels_frame _ _).consumed
  | submit k errors => exact ⟨_, rfl, fun e he => List.mem_append_right _ he⟩

/-- An entry moves towards the kernel as the kernel accepts what is ahead of it. -/
theorem unsubmitted_of_move (hm : Move c w l a l') (hb : l.OrderBook) (hb' : l'.OrderBook)
    {i : Nat} {e : Sqe} (he : l.unsubmitted[i]? = some e) :
    e ∈ l'.held ∨ ∃ j, l'.unsubmitted[j]? = some e ∧
      l'.hist.consumed.length + j = l.hist.consumed.length + i := by
  obtain ⟨es, hcons, hheld⟩ := consumed_of_move hm
  obtain ⟨more, hmore⟩ := (grows_of_move hm).1
  have hflow : l.unsubmitted ++ more = es ++ l'.unsubmitted := by
    have h := hb'.flow
    rw [← hmore, ← hb.flow, inFlow, inFlow, hcons] at h
    simp only [List.append_assoc, List.append_cancel_left_eq] at h
    simp only [unsubmitted, List.append_assoc]
    exact h.symm
  rcases getElem?_of_fifo hflow he with hmem | ⟨j, hj, hpos⟩
  · exact Or.inl (hheld e hmem)
  · refine Or.inr ⟨j, hpos, ?_⟩
    rw [hcons, List.length_append]
    omega

end Move

end Ledger

namespace Shard

section Channel

variable {c : Params} {ok : Shard → Event → Prop} {x : Execution (step c) ok init} {s s' : Shard}
  {e : Event}

/-- A message is taken or dropped, keeps its place or moves up. -/
theorem chan_step (hb : s.Budgeted c) (h : step c s e = some s') (halive : s'.phase ≠ .aborted)
    {i : Nat} {m : Msg} (hm : s.chan[i]? = some m) : m ∈ (s.takes c e).map Prod.fst ∨
      e = .dropRx ∨ (s.takes c e = [] ∧ s'.chan[i]? = some m) ∨
      ∃ j, j < i ∧ s'.chan[j]? = some m := by
  rcases (flow_step hb h halive).2 with hfifo | hdrop
  · rcases getElem?_of_fifo hfifo hm with hmem | ⟨j, hj, hpos⟩
    · exact Or.inl hmem
    · right; right
      rw [List.length_map] at hj
      rcases Nat.eq_zero_or_pos (s.takes c e).length with hzero | hpos'
      · left
        have hji : j = i := by omega
        exact ⟨List.eq_nil_of_length_eq_zero hzero, hji ▸ hpos⟩
      · exact Or.inr ⟨j, by omega, hpos⟩
  · exact Or.inr (Or.inl hdrop)

theorem chan_dropRx (h : step c s .dropRx = some s') : s'.chan = [] := by
  cases (step_transition h).2 with
  | dropRx => rfl

/-- A message that waits in the channel is taken, or dropped with the receiver. -/
theorem Scheduled.taken (hs : Scheduled x) {m : Msg} {Q : Shard → Prop}
    (htake : ∀ n, m ∈ ((x.state n).takes c (x.label n)).map Prod.fst → Q (x.state (n + 1)))
    (hdrop : ∀ n, m ∈ (x.state n).chan → x.label n = .dropRx → Q (x.state (n + 1))) (i : Nat) :
    LeadsTo x.state (fun s => s.chan[i]? = some m) Q := by
  refine LeadsTo.of_variant (P := fun i (s : Shard) => s.chan[i]? = some m) (fun i => ?_) i
  have hstep (n : Nat) (hm : (x.state n).chan[i]? = some m) :
      (Q (x.state (n + 1)) ∨ ∃ j, j < i ∧ (x.state (n + 1)).chan[j]? = some m) ∨
        ((x.state n).takes c (x.label n) = [] ∧ (x.state (n + 1)).chan[i]? = some m) := by
    rcases chan_step (Reach.budgeted (x.reachable n)) (x.next n) (alive x (n + 1)) hm with hmem |
      hlabel | hstays | hup
    · exact Or.inl (Or.inl (htake n hmem))
    · exact Or.inl (Or.inl (hdrop n (List.mem_of_getElem? hm) hlabel))
    · exact Or.inr hstays
    · exact Or.inl (Or.inr hup)
  refine LeadsTo.of_unless (fun n hm => (hstep n hm).imp_right And.right) fun n hforever => ?_
  have hchan : ∀ k, n ≤ k → (x.state k).chan ≠ [] := fun k hk hnil => by
    have hm := hforever k hk
    simp only [hnil] at hm
    cases hm
  obtain ⟨k, hk, hne⟩ := hs.takes hchan
  exact ⟨k + 1, by omega, (hstep k (hforever k hk)).resolve_right fun h => hne h.1⟩

end Channel

/-- The completion of the read's entry is the `i`-th to be consumed. -/
def CompletedAt (id n i : Nat) (s : Shard) : Prop :=
  s.toLedger.Waiting id n ∧ ∃ q : Cqe, s.cq[i]? = some q ∧ q.sqe.Reads id

/-- The read's entry is the `i`-th to be submitted. -/
def QueuedAt (id n i : Nat) (e : Sqe) (s : Shard) : Prop :=
  s.toLedger.Waiting id n ∧ s.unsubmitted[i]? = some e

section Read

variable {c : Params} {x : Execution (step c) (Contract c) init} {s : Shard} {id n : Nat}

/-- Where the entry of a waiting read is. -/
theorem waiting_stage (hw : s.toLedger.Waiting id n) (ho : s.toLedger.Ownership) :
    ∃ e : Sqe, e.Reads id ∧ ((∃ i, s.QueuedAt id n i e) ∨ e ∈ s.held ∨
      ∃ i, s.CompletedAt id n i) := by
  have ⟨p, hp, _⟩ := hw
  have hcount := ho.one id
  rw [if_pos (AList.mem_of_lookup hp)] at hcount
  obtain ⟨e, he, hread⟩ := List.countP_pos_iff.mp (by
    rw [← Ledger.readCount, hcount]
    exact one_pos)
  simp only [Bool.and_eq_true, beq_iff_eq] at hread
  refine ⟨e, hread, ?_⟩
  simp only [Ledger.outstanding, List.append_assoc, List.mem_append, List.mem_map] at he
  rcases he with he | he | he | ⟨q, hq, heq⟩
  · obtain ⟨i, hi⟩ := List.mem_iff_getElem?.mp (List.mem_append_right s.sq he)
    exact Or.inl ⟨i, hw, hi⟩
  · obtain ⟨i, hi⟩ := List.mem_iff_getElem?.mp (List.mem_append_left s.backlog he)
    exact Or.inl ⟨i, hw, hi⟩
  · exact Or.inr (Or.inl he)
  · obtain ⟨i, hi⟩ := List.mem_iff_getElem?.mp hq
    exact Or.inr (Or.inr ⟨i, hw, q, hi, heq ▸ hread⟩)

/-- While a read waits the thread has its receiver. -/
theorem receiving_of_waiting (h : Reachable (step c) (Contract c) init s)
    (halive : s.phase ≠ .aborted) (hw : s.toLedger.Waiting id n) : s.phase.receiving = true := by
  cases hp : s.phase with
  | exited leaked =>
    obtain ⟨p, hlook, hdone, _⟩ := hw
    have hmem : id ∈ senders s.pending :=
      List.mem_filterMap.mpr ⟨⟨id, p⟩, AList.mem_lookup_iff.mp hlook, hdone⟩
    rw [Reach.senders_exiting (h.mono fun _ _ _ => trivial) (Or.inr hp)] at hmem
    cases hmem
  | aborted => exact absurd hp halive
  | _ => rfl

theorem Reach.retrying (h : Reachable (step c) (Contract c) init s) : s.toLedger.Retrying :=
  ledger_invariant AList.all_empty (fun _ _ _ hi hm => hi.move hm) h

/-- What an execution's step does to a waiting read. -/
theorem waiting_step (x : Execution (step c) (Contract c) init) (hu : WideUsize c.usizeMax)
    {k : Nat} (hw : (x.state k).toLedger.Waiting id n) :
    (x.state (k + 1)).toLedger.Nearer id n ∨ ((x.state (k + 1)).toLedger.Waiting id n ∧
      ∀ q rest, (x.label k).actor = .reap → (x.state k).cq = q :: rest →
        (x.state (k + 1)).cq = rest → q.userData ≠ id) := by
  have hr := x.reachable k
  have hm := (step_move (Reach.control hr) (any_allows _ _) (x.next k)).1
  exact hw.move (Reach.contracted hr) hu (Reach.retrying hr) hm

/-- The completion that a label consumes is the oldest one. -/
theorem reaps_head {e : Event} {q : Cqe} (h : q ∈ s.reaps e) :
    e.actor = .reap ∧ s.reaps e = [q] ∧ s.posts e = [] ∧ ∃ rest, s.cq = q :: rest := by
  cases e with
  | reap fileLen late =>
    by_cases hb : s.budget.canReap = true
    · rw [reaps, if_pos hb] at h ⊢
      rcases hq : s.cq with - | ⟨q', rest⟩
      · rw [hq] at h
        cases h
      · rw [hq] at h
        obtain rfl := List.mem_singleton.mp h
        exact ⟨rfl, rfl, rfl, rest, rfl⟩
    · rw [reaps, if_neg hb] at h
      cases h
  | _ => cases h

/-- The environment is fair: the thread is scheduled, a kernel that is asked again and again
to accept entries accepts some again and again, and what it holds it completes. -/
structure Fair (x : Execution (step c) (Contract c) init) : Prop where
  scheduled : Scheduled x
  accepts : (∀ n, ∃ m, n ≤ m ∧ (x.state m).unsubmitted ≠ [] ∧
      ∃ kernelWork r order, x.label m = .submit kernelWork r order) →
    ∀ n, ∃ m, n ≤ m ∧ (x.state m).acceptedSqes < (x.state (m + 1)).acceptedSqes
  completes : ∀ n, ∀ e ∈ (x.state n).held, ∃ m, n ≤ m ∧ e ∉ (x.state m).held

/-- A completed entry is consumed. -/
theorem Scheduled.completed (hs : Scheduled x) (hu : WideUsize c.usizeMax) (i : Nat) :
    LeadsTo x.state (CompletedAt id n i) fun s => s.toLedger.Nearer id n := by
  refine LeadsTo.of_variant (P := CompletedAt id n) (fun i => ?_) i
  have hstep (k : Nat) (hp : (x.state k).CompletedAt id n i) :
      ((x.state (k + 1)).toLedger.Nearer id n ∨
          ∃ j, j < i ∧ (x.state (k + 1)).CompletedAt id n j) ∨
        ((x.state k).reaps (x.label k) = [] ∧ (x.state (k + 1)).CompletedAt id n i) := by
    obtain ⟨hw, q, hq, hread⟩ := hp
    rcases waiting_step x hu hw with hnear | ⟨hw', hother⟩
    · exact Or.inl (Or.inl hnear)
    have hfifo := (flow_step (Reach.budgeted (x.reachable k)) (x.next k) (alive x (k + 1))).1
    rcases getElem?_of_fifo hfifo hq with hmem | ⟨j, hj, hpos⟩
    · -- the completion of this very read is consumed
      obtain ⟨hactor, hone, hno, rest, hcq⟩ := reaps_head hmem
      rw [hcq, hone, hno, List.append_nil] at hfifo
      exact absurd hread.2 (hother q rest hactor hcq (List.cons.inj hfifo).2.symm)
    · rcases Nat.eq_zero_or_pos ((x.state k).reaps (x.label k)).length with hzero | hone
      · have hji : j = i := by omega
        exact Or.inr ⟨List.eq_nil_of_length_eq_zero hzero, hw', q, hji ▸ hpos, hread⟩
      · exact Or.inl (Or.inr ⟨j, by omega, hw', q, hpos, hread⟩)
  refine LeadsTo.of_unless (fun k hp => (hstep k hp).imp_right And.right) fun k hforever => ?_
  have hcq : ∀ m, k ≤ m → (x.state m).cq ≠ [] := fun m hm hnil => by
    obtain ⟨_, q, hq, _⟩ := hforever m hm
    rw [hnil] at hq
    cases hq
  obtain ⟨m, hm, hne⟩ := hs.reaps (fun m hm =>
    receiving_of_waiting (x.reachable m) (alive x m) (hforever m hm).1) hcq
  exact ⟨m + 1, by omega, (hstep m (hforever m hm)).resolve_right fun h => hne h.1⟩

/-- A held entry is completed. -/
theorem Fair.held (hf : Fair x) (hu : WideUsize c.usizeMax) {e : Sqe} (he : e.Reads id) :
    LeadsTo x.state (fun s => s.toLedger.Waiting id n ∧ e ∈ s.held)
      fun s => s.toLedger.Nearer id n := by
  have hposted : LeadsTo x.state (fun s => s.toLedger.Waiting id n ∧ e ∈ s.held) fun s =>
      s.toLedger.Nearer id n ∨ ∃ i, s.CompletedAt id n i := by
    refine LeadsTo.of_unless (fun k hp => ?_) fun k hforever => ?_
    · rcases waiting_step x hu hp.1 with hnear | ⟨hw, _⟩
      · exact Or.inl (Or.inl hnear)
      have hm := (step_move (Reach.control (x.reachable k)) (any_allows _ _) (x.next k)).1
      rcases Ledger.held_of_move hm hp.2 with hheld | ⟨res, hcq⟩
      · exact Or.inr ⟨hw, hheld⟩
      · obtain ⟨i, hi⟩ := List.mem_iff_getElem?.mp hcq
        exact Or.inl (Or.inr ⟨i, hw, _, hi, he⟩)
    · obtain ⟨m, hm, hgone⟩ := hf.completes k e (hforever k (le_refl k)).2
      exact absurd (hforever m hm).2 hgone
  exact hposted.or_trans (LeadsTo.of_exists fun i => hf.scheduled.completed hu i)

/-- A queued entry is accepted by the kernel. -/
theorem Fair.accepted (hf : Fair x) (hu : WideUsize c.usizeMax) {e : Sqe} (i : Nat) :
    LeadsTo x.state (QueuedAt id n i e) fun s =>
      s.toLedger.Nearer id n ∨ (s.toLedger.Waiting id n ∧ e ∈ s.held) := by
  refine LeadsTo.of_variant (P := fun i => QueuedAt id n i e) (fun i => ?_) i
  have hstep (k : Nat) (hp : (x.state k).QueuedAt id n i e) :
      (((x.state (k + 1)).toLedger.Nearer id n ∨
          ((x.state (k + 1)).toLedger.Waiting id n ∧ e ∈ (x.state (k + 1)).held)) ∨
        ∃ j, j < i ∧ (x.state (k + 1)).QueuedAt id n j e) ∨
      ((x.state (k + 1)).acceptedSqes ≤ (x.state k).acceptedSqes ∧
        (x.state (k + 1)).QueuedAt id n i e) := by
    rcases waiting_step x hu hp.1 with hnear | ⟨hw, _⟩
    · exact Or.inl (Or.inl (Or.inl hnear))
    have hm := (step_move (Reach.control (x.reachable k)) (any_allows _ _) (x.next k)).1
    rcases Ledger.unsubmitted_of_move hm (Reach.orderBook (x.reachable k))
      (Reach.orderBook (x.reachable (k + 1))) hp.2 with hheld | ⟨j, hj, hsum⟩
    · exact Or.inl (Or.inl (Or.inr ⟨hw, hheld⟩))
    · rcases lt_or_ge j i with hlt | hge
      · exact Or.inl (Or.inr ⟨j, hlt, hw, hj⟩)
      · have hle := (Ledger.grows_of_move hm).2.length_le
        have hji : j = i := by omega
        refine Or.inr ⟨?_, hw, hji ▸ hj⟩
        unfold acceptedSqes
        omega
  refine LeadsTo.of_unless (fun k hp => (hstep k hp).imp_right And.right) fun k hforever => ?_
  -- the thread submits again and again, so the kernel accepts entries
  have hsubmits : ∀ l, ∃ m, l ≤ m ∧ (x.state m).unsubmitted ≠ [] ∧
      ∃ kernelWork r order, x.label m = .submit kernelWork r order := by
    intro l
    obtain ⟨m, hm, hsubmit⟩ := hf.scheduled.submits (n := max k l) fun m hm =>
      receiving_of_waiting (x.reachable m) (alive x m) (hforever m (by omega)).1
    refine ⟨m, by omega, fun hnil => ?_, hsubmit⟩
    have hq := (hforever m (by omega)).2
    rw [hnil] at hq
    cases hq
  obtain ⟨m, hm, hlt⟩ := hf.accepts hsubmits k
  exact ⟨m + 1, by omega, (hstep m (hforever m hm)).resolve_right fun h => by omega⟩

/-- A waiting read is answered. -/
theorem Fair.waiting (hf : Fair x) (hu : WideUsize c.usizeMax) (n : Nat) :
    LeadsTo x.state (fun s => s.toLedger.Waiting id n) fun s => s.mail.Settled id := by
  refine LeadsTo.of_variant (P := fun n (s : Shard) => s.toLedger.Waiting id n) (fun n => ?_) n
  intro k hw
  obtain ⟨e, he, ⟨i, hi⟩ | hheld | ⟨i, hi⟩⟩ := waiting_stage hw (Reach.ownership (x.reachable k))
  · exact (hf.accepted hu i).or_trans (hf.held hu he) k hi
  · exact hf.held hu he k ⟨hw, hheld⟩
  · exact hf.scheduled.completed hu i k hi

/-- A read that has left the channel is answered, dropped or in the table. -/
theorem Reach.located (h : Reachable (step c) (Contract c) init s) (hid : id ∈ s.hist.issued)
    (hchan : id ∉ readIds s.chan) : s.mail.Settled id ∨ ∃ n, s.toLedger.Waiting id n := by
  have hsenders := (Reach.accounted h).senders
  have hplace := hsenders.places.mem_iff.mp hid
  simp only [Ledger.senderPlaces, List.mem_append] at hplace
  rcases hplace with ((hsent | hlost) | hqueued) | htable
  · exact Or.inl (Or.inl hsent)
  · exact Or.inl (Or.inr hlost)
  · exact absurd hqueued hchan
  · right
    obtain ⟨⟨k, p⟩, hmem, hdone⟩ := List.mem_filterMap.mp htable
    have hlook := AList.mem_lookup_iff.mpr hmem
    have hown : some id = some k := by
      rcases hsenders.own k p hlook with hk | hnone
      · exact hdone.symm.trans hk
      · exact absurd (hdone.symm.trans hnone) (Option.some_ne_none id)
    obtain rfl := Option.some.inj hown
    exact ⟨p.left, p, hlook, hdone, rfl⟩

/-- The message that a label takes is the oldest one, and its sender's id is queued once. -/
theorem takes_read {s' : Shard} {e : Event} {m : ReadMsg} (ho : s.toLedger.Ownership)
    (hb : s.Budgeted c) (h : step c s e = some s') (halive : s'.phase ≠ .aborted)
    (hm : Msg.read m ∈ (s.takes c e).map Prod.fst) : m.id ∉ readIds s'.chan := by
  have hfifo := (flow_step hb h halive).2
  cases e with
  | intake base order =>
    unfold takes at hm hfifo
    by_cases hcan : s.budget.canTakeMessage = true
    · rcases hchan : s.chan with - | ⟨m', rest⟩
      · simp [hchan] at hm
      · simp only [hcan, if_true, hchan, Event.sends] at hm hfifo
        simp only [List.take_succ_cons, List.take_zero, List.map_cons, List.map_nil,
          List.mem_singleton, List.append_nil, List.singleton_append] at hm hfifo
        subst hm
        rcases hfifo with hfifo | hlabel
        · rw [← (List.cons.inj hfifo).2]
          have hfresh := ho.fresh
          rw [hchan, readIds_read, List.cons_append] at hfresh
          exact fun hmem => (List.nodup_cons.mp hfresh).1 (List.mem_append_left _ hmem)
        · cases hlabel
    · simp [hcan] at hm
  | _ => cases hm

/-- A sender is dropped unused only by a thread that is shutting down. -/
theorem Reach.lost (h : Reachable (step c) (Contract c) init s) :
    s.mail.lost ≠ [] → s.shuttingDown = true := by
  refine ledger_invariant (I := fun l => l.mail.lost ≠ [] → l.shuttingDown = true)
    (fun hne => absurd rfl hne) (fun l a l' hi hm hne => ?_) h
  have hmono := hm.shutdown_mono.1
  cases hm with
  | dropChan hd => exact hd
  | finish late =>
    cases late <;> exact hi hne
  | postRead res hk hd ha =>
    obtain ⟨t, ht⟩ := l.postRead_frame _ ⟨_, res⟩ _ _
    rw [ht] at hne
    exact hmono (hi hne)
  | cancelHit hc hp =>
    rw [(Ledger.queueCancel_frame _ _).mail] at hne
    exact hmono (hi hne)
  | shutdown | submitSweep =>
    unfold Ledger.shutdown at hne
    rw [(Ledger.queueCancels_frame _ _).mail] at hne
    exact hmono (hi hne)
  | _ => exact hmono (hi hne)

/-- A request's id is issued. -/
theorem Reach.issued_of_request (h : Reachable (step c) (Contract c) init s) {m : ReadMsg}
    (hm : m ∈ s.hist.requests) : m.id ∈ s.hist.issued := by
  rw [← (Reach.contracted h).book.ids]
  exact List.mem_map_of_mem hm

/-- Requests are kept in the history. -/
theorem requests_mono (x : Execution (step c) (Contract c) init) {k l : Nat} (hkl : k ≤ l)
    {m : ReadMsg} (hm : m ∈ (x.state k).hist.requests) : m ∈ (x.state l).hist.requests := by
  induction l, hkl using Nat.le_induction with
  | base => exact hm
  | succ l hl ih =>
    rcases step_requests (Reach.control (x.reachable l)) (x.next l) with heq | ⟨p, r, _, heq⟩
    · exact heq ▸ ih
    · rw [heq]
      exact List.mem_append_left _ ih

/-- In a fair environment every read that was sent is answered, or its sender is dropped with
the receiver of a thread that is shutting down. -/
theorem every_read_answered (c : Params) (hu : WideUsize c.usizeMax)
    (x : Execution (step c) (Contract c) init) (hf : Fair x) (n : Nat) (m : ReadMsg)
    (hm : m ∈ (x.state n).hist.requests) : ∃ k, n ≤ k ∧
      ((∃ y ∈ (x.state k).mail.sends, y.id = m.id) ∨
        (m.id ∈ (x.state k).mail.lost ∧ (x.state k).shuttingDown = true)) := by
  have hleft : ∃ k, n ≤ k ∧ m.id ∉ readIds (x.state k).chan := by
    by_cases hchan : m.id ∈ readIds (x.state n).chan
    · rw [readIds_eq_map] at hchan
      obtain ⟨r, hr, hid⟩ := List.mem_map.mp hchan
      obtain ⟨msg, hmsg, hread⟩ := List.mem_filterMap.mp hr
      cases msg with
      | cancel | shutdown => cases hread
      | read r' =>
        obtain rfl := Option.some.inj hread
        obtain ⟨i, hi⟩ := List.mem_iff_getElem?.mp hmsg
        refine hf.scheduled.taken (Q := fun s => m.id ∉ readIds s.chan) (fun k htake => ?_)
          (fun k _ hlabel => ?_) i n hi
        · rw [← hid]
          exact takes_read (Reach.ownership (x.reachable k)) (Reach.budgeted (x.reachable k))
            (x.next k) (alive x (k + 1)) htake
        · rw [chan_dropRx (hlabel ▸ x.next k)]
          exact List.not_mem_nil
    · exact ⟨n, le_refl n, hchan⟩
  obtain ⟨k, hk, hout⟩ := hleft
  have hissued := Reach.issued_of_request (x.reachable k) (requests_mono x hk hm)
  have hsettled : ∃ l, k ≤ l ∧ (x.state l).mail.Settled m.id := by
    rcases Reach.located (x.reachable k) hissued hout with hdone | ⟨left, hw⟩
    · exact ⟨k, le_refl k, hdone⟩
    · exact hf.waiting hu left k hw
  obtain ⟨l, hl, hsent | hlost⟩ := hsettled
  · obtain ⟨y, hy, hid⟩ := List.mem_map.mp hsent
    exact ⟨l, hk.trans hl, Or.inl ⟨y, hy, hid⟩⟩
  · exact ⟨l, hk.trans hl, Or.inr ⟨hlost, Reach.lost (x.reachable l) (List.ne_nil_of_mem hlost)⟩⟩

end Read

/-- Nothing is to be done, and the last turn found nothing to do. -/
structure Idle (s : Shard) : Prop where
  phase : s.phase = .wait
  budget : s.budget = .fresh
  chan : s.chan = []
  unsubmitted : s.backlog = [] ∧ s.sq = []
  cq : s.cq = []
  pending : s.pending.keys = []
  running : s.shuttingDown = false ∧ s.disconnected = false
  eventfds : s.wake.cqEfd = 0 ∧ s.wake.wakeEfd = 0
  overflow : s.previousCqOverflow = 0
  submitted : s.submittedBeforeReap = 0 ∧ s.submittedAfterReap = 0
  rest : s.continueWithoutWait = false

/-- A turn without work. -/
def idleTurn : List Event :=
  [.wake, .drainCq, .drainWake, .intake 0 [], .submit false (.ok 0) [], .reap (.ok 0) false,
    .submit false (.ok 0) [], .endTurn 0 0 0]

/-- A turn without work leaves everything as it was. -/
theorem Idle.turn {s : Shard} (h : s.Idle) (c : Params) :
    run (step c) s idleTurn = some s := by
  obtain ⟨⟨pending, backlog, sq, held, cq, queuedCancels, shuttingDown, chan, stats, mail, hist⟩,
    phase, drainDeadline, consecutive, logged, overflow, rest, budget, before, after, semClosed,
    joined, disconnected, ⟨wakeEfd, cqEfd, owing, cqOwing⟩⟩ := s
  obtain ⟨rfl, rfl, rfl, ⟨rfl, rfl⟩, rfl, hkeys, ⟨rfl, rfl⟩, ⟨rfl, rfl⟩, rfl, ⟨rfl, rfl⟩, rfl⟩ := h
  simp only at hkeys
  simp [idleTurn, run, step, hkeys, intake, TurnBudget.canTakeMessage, TurnBudget.fresh,
    turnMessages, turnAllocationBytes, submitRing, Ledger.flush, flushBacklog, reap,
    TurnBudget.canReap, turnCompletions, updateCqOverflow, finishTurn, nextTurn,
    TurnBudget.continueWithoutWait]

/-- A read is sent, served and answered, and a turn without work follows. -/
def servedRead : List Event :=
  [.send 0 (.read ⟨1, 0, 5, 6, 1, ⟨0, none, none⟩⟩), .signal 0, .wake, .drainCq, .drainWake,
    .intake 64 [], .intake 64 [1], .submit false (.ok 1) [1], .post 0 6 [1, 2, 3, 4, 5, 6],
    .cqSignal, .reap (.ok 12) false, .reap (.ok 12) false, .submit false (.ok 0) [],
    .endTurn 0 0 0] ++ idleTurn

theorem servedRead_runs : (run (step oneSlot) init servedRead).isSome = true := by
  decide +kernel

/-- The state after the read was served. -/
def served : Shard := (run (step oneSlot) init servedRead).get servedRead_runs

theorem served_idle : served.Idle := by
  constructor <;> decide +kernel

theorem servedRead_admitted :
    Admitted (step oneSlot) (Contract oneSlot) init (servedRead ++ idleTurn) := by
  have ha : admittedBool (step oneSlot) (keepsContract oneSlot) init (servedRead ++ idleTurn) =
      true := by
    decide +kernel
  exact admitted_of_admittedBool (fun _ _ he => contract_of_keepsContract he) ha

/-- A read is served, and then the thread turns without work forever. -/
def servedForever : Execution (step oneSlot) (Contract oneSlot) init :=
  .lasso (by decide) (Option.some_get servedRead_runs).symm (served_idle.turn oneSlot)
    servedRead_admitted

/-- Behind the served read nothing waits for the kernel. -/
theorem servedForever_quiet {n : Nat} (hn : servedRead.length ≤ n) :
    (servedForever.state n).held = [] ∧ (servedForever.state n).unsubmitted = [] := by
  obtain ⟨k, hk, hrun⟩ := Execution.lasso_tail (by decide) (Option.some_get servedRead_runs).symm
    (served_idle.turn oneSlot) servedRead_admitted hn
  have hquiet : ∀ k < idleTurn.length, (run (step oneSlot) served (idleTurn.take k)).all
      (fun s => s.held == [] && s.unsubmitted == []) = true := by
    decide +kernel
  have hstate := hquiet k hk
  rw [served, hrun, Option.all_some, Bool.and_eq_true, beq_iff_eq, beq_iff_eq] at hstate
  exact hstate

theorem servedForever_fair : Fair servedForever where
  scheduled n _ := by
    obtain ⟨m, hm, hlabel⟩ := Execution.lasso_recurs (by decide)
      (Option.some_get servedRead_runs).symm (served_idle.turn oneSlot) servedRead_admitted
      (List.mem_cons_self : Event.wake ∈ idleTurn) n
    exact ⟨m, hm, by rw [servedForever, hlabel]; rfl⟩
  accepts hsubmits := by
    obtain ⟨m, hm, hne, _⟩ := hsubmits servedRead.length
    exact absurd (servedForever_quiet hm).2 hne
  completes n e _ := by
    refine ⟨max n servedRead.length, le_max_left _ _, ?_⟩
    rw [(servedForever_quiet (le_max_right n servedRead.length)).1]
    exact List.not_mem_nil

/-- The read is answered, and before it is served it was not. -/
theorem every_read_answered_served : ∃ n m, m ∈ (servedForever.state n).hist.requests ∧
    (servedForever.state n).mail.sends = [] ∧ ∃ k, n ≤ k ∧
      ((∃ y ∈ (servedForever.state k).mail.sends, y.id = m.id) ∨
        (m.id ∈ (servedForever.state k).mail.lost ∧
          (servedForever.state k).shuttingDown = true)) := by
  have hwide : WideUsize oneSlot.usizeMax := by
    unfold WideUsize oneSlot
    decide
  have hrun := Execution.lasso_prefix (by decide) (Option.some_get servedRead_runs).symm
    (served_idle.turn oneSlot) servedRead_admitted (by decide : 1 < servedRead.length)
  have hsent : (run (step oneSlot) init (servedRead.take 1)).all (fun s =>
      s.hist.requests == [⟨1, 0, 5, 6, 1, ⟨0, none, none⟩⟩] && s.mail.sends == []) = true := by
    decide +kernel
  rw [hrun, Option.all_some, Bool.and_eq_true, beq_iff_eq, beq_iff_eq] at hsent
  have hmem : ⟨1, 0, 5, 6, 1, ⟨0, none, none⟩⟩ ∈ (servedForever.state 1).hist.requests := by
    rw [servedForever, hsent.1]
    exact List.mem_singleton_self _
  exact ⟨1, _, hmem, hsent.2,
    every_read_answered oneSlot hwide servedForever servedForever_fair 1 _ hmem⟩

end Shard

end Uring
