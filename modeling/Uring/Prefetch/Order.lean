import Uring.Prefetch.Window

/-!
# Ordered prefetch is sequential reading

The sequential reader awaits one range after the other and stops at the first result that is
not of full length. Whatever the order in which the futures of the window become ready, the
prefetching reader returns the same values, polls no future after it was ready, and calls its
source once for each range, in order.
-/

namespace Uring.Prefetch

open Uring.Core

/-- The consecutive ranges of `chunk` bytes from `a` to `last`; the last one may be shorter. -/
def cut (chunk last a : Nat) : List (Nat × Nat) :=
  if a < last ∧ 0 < chunk then
    (a, min (last - a) chunk) :: cut chunk last (a + min (last - a) chunk)
  else []
termination_by last - a
decreasing_by omega

/-- What sequential reading returns before it returns `Ok(None)` forever, where `g` gives the
result of each range. -/
def outcomes (g : Nat → Nat → IoResult) : List (Nat × Nat) → List Output
  | [] => []
  | (a, len) :: rest =>
    match g a len with
    | .error e => [.error e]
    | .ok bytes =>
      if len < bytes.length then
        [.error (.invalidData "source returned more bytes than requested")]
      else if bytes.length = len then .ok (some ⟨a, bytes⟩) :: outcomes g rest
      else if bytes = [] then []
      else [.ok (some ⟨a, bytes⟩)]

/-- The answers at one moment are those of futures that yield `g`. -/
def Follows (g : Nat → Nat → IoResult) (p : Poll) : Prop :=
  ∀ a len result, p a len = some result → result = g a len

theorem cut_cons {chunk last a : Nat} (hchunk : 0 < chunk) (ha : a < last) :
    cut chunk last a =
      (a, min (last - a) chunk) :: cut chunk last (a + min (last - a) chunk) := by
  rw [cut, if_pos ⟨ha, hchunk⟩]

theorem cut_nil {chunk last a : Nat} (ha : last ≤ a) : cut chunk last a = [] := by
  rw [cut, if_neg (by omega)]

/-- What covers a part of the file is the beginning of its cut. -/
theorem Covers.cut_eq {chunk last a b : Nat} {xs : List (Nat × Nat)} (h : Covers chunk last a xs b)
    (hchunk : 0 < chunk) : cut chunk last a = xs ++ cut chunk last b := by
  induction xs generalizing a with
  | nil =>
    obtain rfl : a = b := h
    rfl
  | cons x xs ih =>
    rw [cut_cons hchunk h.2.1, ih h.2.2, h.1]
    rfl

/-- Consecutive ranges start at increasing offsets. -/
theorem Covers.increasing {chunk last a b : Nat} {xs : List (Nat × Nat)}
    (h : Covers chunk last a xs b) (hchunk : 0 < chunk) : xs.Pairwise fun x y => x.1 < y.1 := by
  induction xs generalizing a with
  | nil => exact List.Pairwise.nil
  | cons x xs ih =>
    refine List.pairwise_cons.mpr ⟨?_, ih h.2.2⟩
    intro y hy
    have hlow := (h.2.2.mem hchunk hy).1
    have hlt := h.2.1
    have hx : x.1 = a := congrArg Prod.fst h.1
    omega

section Outcomes

variable {g : Nat → Nat → IoResult} {a len : Nat} {rest : List (Nat × Nat)}

/-- A range whose result has the full length yields it, and reading goes on. -/
theorem outcomes_full (hlen : 0 < len) (h : isFull len (checkLength len (g a len)) = true) :
    outcomes g ((a, len) :: rest) = value a (checkLength len (g a len)) :: outcomes g rest := by
  rw [outcomes]
  cases hg : g a len with
  | error e =>
    rw [hg] at h
    cases h
  | ok bytes =>
    rw [hg] at h
    by_cases hlong : len < bytes.length
    · simp only [checkLength, hlong, if_true, isFull, Bool.false_eq_true] at h
    · simp only [checkLength, hlong, if_false, isFull, decide_eq_true_eq] at h
      have hne : bytes ≠ [] := List.ne_nil_of_length_pos (by omega)
      simp only [checkLength, h, lt_irrefl, if_false, if_true, value, hne]

/-- Any other result is the last, with `Ok(None)` in the place of an empty one. -/
theorem outcomes_last (rest : List (Nat × Nat))
    (h : isFull len (checkLength len (g a len)) = false) :
    ∃ k, outcomes g ((a, len) :: rest) ++ List.replicate k (.ok none) =
      [value a (checkLength len (g a len))] := by
  rw [outcomes]
  cases hg : g a len with
  | error e => exact ⟨0, rfl⟩
  | ok bytes =>
    rw [hg] at h
    by_cases hlong : len < bytes.length
    · simp only [checkLength, hlong, if_true]
      exact ⟨0, rfl⟩
    · simp only [checkLength, hlong, if_false, isFull, decide_eq_false_iff_not] at h
      simp only [checkLength, hlong, if_false, h, value]
      by_cases hempty : bytes = []
      · simp only [hempty, if_true]
        exact ⟨1, rfl⟩
      · simp only [hempty, if_false]
        exact ⟨0, rfl⟩

end Outcomes

/-- Every poll of the loop is of a slot that was pending. -/
theorem mem_polledIn {p : Poll} {slots : List Slot} {x : Polled} (h : x ∈ polledIn p slots) :
    ∃ s ∈ slots, s.state = .pending ∧ (x.offset, x.len) = s.range := by
  induction slots with
  | nil => cases h
  | cons s rest ih =>
    rw [polledIn_cons] at h
    rcases List.mem_append.mp h with h | h
    · rcases s.poll_cases p with ⟨_, _, hpoll⟩ | ⟨hstate, _, hpoll⟩ | ⟨_, hstate, _, hpoll⟩
      · rw [hpoll] at h
        cases h
      all_goals
        rw [hpoll] at h
        rw [List.mem_singleton.mp h]
        exact ⟨s, List.mem_cons_self, hstate, rfl⟩
    · split at h
      · cases h
      · obtain ⟨t, ht, hpending, hrange⟩ := ih h
        exact ⟨t, List.mem_cons_of_mem _ ht, hpending, hrange⟩

/-- The loop polls the slots from the front to the back. -/
theorem polledIn_increasing {p : Poll} {slots : List Slot}
    (h : (slots.map Slot.range).Pairwise fun x y => x.1 < y.1) :
    (polledIn p slots).Pairwise fun x y => x.offset < y.offset := by
  induction slots with
  | nil => exact List.Pairwise.nil
  | cons s rest ih =>
    obtain ⟨hfront, hrest⟩ := List.pairwise_cons.mp h
    have hone : ∀ x ∈ (s.poll p).2, x.offset = s.offset := by
      intro x hx
      rcases s.poll_cases p with ⟨_, _, hpoll⟩ | ⟨_, _, hpoll⟩ | ⟨_, _, _, hpoll⟩
      · rw [hpoll] at hx
        cases hx
      all_goals
        rw [hpoll] at hx
        rw [List.mem_singleton.mp hx]
    have hpair : (s.poll p).2.Pairwise fun x y => x.offset < y.offset := by
      rcases s.poll_cases p with ⟨_, _, hpoll⟩ | ⟨_, _, hpoll⟩ | ⟨_, _, _, hpoll⟩
      all_goals
        rw [hpoll]
      · exact List.Pairwise.nil
      · exact List.pairwise_singleton _ _
      · exact List.pairwise_singleton _ _
    rw [polledIn_cons]
    refine List.pairwise_append.mpr ⟨hpair, ?_, ?_⟩
    · split
      · exact List.Pairwise.nil
      · exact ih hrest
    · intro x hx y hy
      split at hy
      · cases hy
      · obtain ⟨t, ht, _, hrange⟩ := mem_polledIn hy
        rw [hone x hx, show y.offset = t.offset from congrArg Prod.fst hrange]
        exact hfront t.range (List.mem_map_of_mem ht)

/-- No slot that the loop leaves pending was ready when it was polled. -/
theorem not_ready_of_pending {p : Poll} {slots : List Slot}
    (h : (slots.map Slot.range).Pairwise fun x y => x.1 < y.1) {s : Slot} (hs : s ∈ keep p slots)
    (hpending : s.state = .pending) {x : Polled} (hx : x ∈ polledIn p slots)
    (hready : x.ready = true) : x.offset ≠ s.offset := by
  intro hoffset
  have hnodup : ((polledIn p slots).map Polled.offset).Nodup :=
    (List.pairwise_map.mpr (polledIn_increasing h)).imp Nat.ne_of_lt
  have heq : x = ⟨s.offset, s.len, false⟩ :=
    List.inj_on_of_nodup_map hnodup hx (polled_of_pending hs hpending).1 hoffset
  rw [heq] at hready
  cases hready

namespace OrderedReader

/-- The ranges that are still to be delivered. -/
def left (r : OrderedReader) : List (Nat × Nat) :=
  if r.finished then [] else cut r.config.chunk r.rangeEnd r.position

/-- What the prefetching reader has done agrees with sequential reading. -/
structure Ordered (g : Nat → Nat → IoResult) (c : Config) (last : Nat) (r : OrderedReader) :
    Prop where
  windowed : r.Windowed c last
  calls : Covers c.chunk last c.offset r.hist.calls r.nextOffset
  called : ∀ s ∈ r.slots, s.range ∈ r.hist.calls
  polled : ∀ x ∈ r.hist.polls, (x.offset, x.len) ∈ r.hist.calls
  results : ∀ s ∈ r.slots, ∀ result, s.state = .ready result →
    result = checkLength s.len (g s.offset s.len)
  once : r.hist.polls.Pairwise fun x y => x.ready = true → x.offset ≠ y.offset
  fresh : ∀ s ∈ r.slots, s.state = .pending → ∀ x ∈ r.hist.polls, x.ready = true →
    x.offset ≠ s.offset
  returned : ∃ k, outcomes g (cut c.chunk last c.offset) ++ List.replicate k (.ok none) =
    r.hist.returned ++ outcomes g r.left

variable {g : Nat → Nat → IoResult} {c : Config} {last : Nat} {r r' : OrderedReader} {p : Poll}

/-- Requests do not move the next byte to deliver. -/
theorem Filled.position (h : Filled c last r r') : r'.position = r.position := by
  obtain ⟨fresh, hslots, -, -, hcovers⟩ := h.slots
  unfold OrderedReader.position
  rw [hslots]
  cases r.slots with
  | cons s rest => rfl
  | nil =>
    cases fresh with
    | nil => exact hcovers.symm
    | cons t fresh => exact congrArg Prod.fst hcovers.1

/-- `fill_window` only adds pending slots. -/
theorem Ordered.fill (h : r.Ordered g c last) (hc : c.Valid last) (hfilled : Filled c last r r') :
    r'.Ordered g c last := by
  obtain ⟨fresh, hslots, hpending, hcalls, hcovers⟩ := hfilled.slots
  have hleft : r'.left = r.left := by
    simp only [left, hfilled.finished, hfilled.position, hfilled.windowed.config,
      hfilled.windowed.rangeEnd, h.windowed.config, h.windowed.rangeEnd]
  refine ⟨hfilled.windowed, ?_, ?_, ?_, ?_, ?_, ?_, ?_⟩
  · rw [hcalls]
    exact h.calls.append hcovers
  · intro s hs
    rw [hcalls]
    rw [hslots] at hs
    rcases List.mem_append.mp hs with hs | hs
    · exact List.mem_append_left _ (h.called s hs)
    · exact List.mem_append_right _ (List.mem_map_of_mem hs)
  · rw [hfilled.polls, hcalls]
    intro x hx
    exact List.mem_append_left _ (h.polled x hx)
  · intro s hs result hready
    rw [hslots] at hs
    rcases List.mem_append.mp hs with hs | hs
    · exact h.results s hs result hready
    · rw [hpending s hs] at hready
      cases hready
  · rw [hfilled.polls]
    exact h.once
  · rw [hfilled.polls]
    intro s hs hstate x hx hready
    rw [hslots] at hs
    rcases List.mem_append.mp hs with hs | hs
    · exact h.fresh s hs hstate x hx hready
    · -- the poll was of an earlier call, and the slot is a later one
      have hold := h.calls.mem hc.chunk_pos (h.polled x hx)
      have hnew := hcovers.mem hc.chunk_pos (List.mem_map_of_mem hs)
      change c.offset ≤ x.offset ∧ 0 < x.len ∧ _ ∧ x.offset + x.len ≤ r.nextOffset at hold
      change r.nextOffset ≤ s.offset ∧ _ at hnew
      omega
  · rw [hfilled.returned, hleft]
    exact h.returned

/-- The loop over the slots keeps results of the source and polls what is pending. -/
theorem Ordered.keep (h : r.Ordered g c last) (hc : c.Valid last) (hp : Follows g p)
    (hkept : Kept c last p r r') : r'.Ordered g c last := by
  have hleft : r'.left = r.left := by
    simp only [left, hkept.finished, hkept.position, hkept.windowed.config,
      hkept.windowed.rangeEnd, h.windowed.config, h.windowed.rangeEnd]
  obtain ⟨b, hcovers, _⟩ := h.windowed.cover
  have hincreasing := hcovers.increasing hc.chunk_pos
  refine ⟨hkept.windowed, ?_, ?_, ?_, ?_, ?_, ?_, ?_⟩
  · rw [hkept.calls, hkept.nextOffset]
    exact h.calls
  · intro s hs
    rw [hkept.slots] at hs
    obtain ⟨t, ht, rfl⟩ := mem_keep hs
    rw [hkept.calls, t.poll_range]
    exact h.called t ht
  · rw [hkept.polls, hkept.calls]
    intro x hx
    rcases List.mem_append.mp hx with hx | hx
    · exact h.polled x hx
    · obtain ⟨s, hs, _, hrange⟩ := mem_polledIn hx
      exact hrange ▸ h.called s hs
  · intro s hs result hready
    rw [hkept.slots] at hs
    obtain ⟨t, ht, rfl⟩ := mem_keep hs
    rcases t.poll_cases p with ⟨_, _, hpoll⟩ | ⟨_, _, hpoll⟩ | ⟨answer, _, hanswer, hpoll⟩
    all_goals rw [hpoll] at hready ⊢
    · exact h.results t ht result hready
    · exact h.results t ht result hready
    · rw [← hp _ _ _ hanswer]
      exact (State.ready.inj hready).symm
  · rw [hkept.polls]
    refine List.pairwise_append.mpr ⟨h.once, ?_, ?_⟩
    · exact (polledIn_increasing hincreasing).imp fun {x y} hlt (_ : x.ready = true) =>
        Nat.ne_of_lt hlt
    · intro x hx y hy hready
      obtain ⟨s, hs, hpending, hrange⟩ := mem_polledIn hy
      rw [show y.offset = s.offset from congrArg Prod.fst hrange]
      exact h.fresh s hs hpending x hx hready
  · rw [hkept.polls, hkept.slots]
    intro s hs hpending x hx hready
    rcases List.mem_append.mp hx with hx | hx
    · obtain ⟨t, ht, rfl⟩ := mem_keep hs
      rcases t.poll_cases p with ⟨_, _, hpoll⟩ | ⟨_, _, hpoll⟩ | ⟨_, _, _, hpoll⟩
      all_goals rw [hpoll] at hpending ⊢
      · exact h.fresh t ht hpending x hx hready
      · exact h.fresh t ht hpending x hx hready
      · cases hpending
    · exact not_ready_of_pending hincreasing hs hpending hx hready
  · rw [hkept.returned, hleft]
    exact h.returned

/-- With nothing left, the reader ends. -/
theorem Ordered.ended (h : r.Ordered g c last) (hleft : r.left = []) :
    Ordered g c last ({ r with finished := true }.emit (.ok none)) := by
  refine ⟨h.windowed.finish.emit _, h.calls, h.called, h.polled, h.results, h.once, h.fresh, ?_⟩
  obtain ⟨k, hk⟩ := h.returned
  refine ⟨k + 1, ?_⟩
  rw [List.replicate_succ', ← List.append_assoc, hk, hleft]
  change r.hist.returned ++ [] ++ [_] = r.hist.returned ++ [_] ++ []
  rw [List.append_nil, List.append_nil]

/-- The front slot is the next range to deliver. -/
theorem Windowed.left_cons (h : r.Windowed c last) (hc : c.Valid last)
    (hfinished : r.finished = false) {s : Slot} {rest : List Slot} (hslots : r.slots = s :: rest) :
    r.left = s.range :: cut c.chunk last (s.offset + s.len) ∧ 0 < s.len ∧
      (s.isTerminal = false → frontOffset r.nextOffset rest = s.offset + s.len) := by
  obtain ⟨b, hcovers, _, hfull⟩ := h.cover
  have hmem : s.range ∈ r.slots.map Slot.range :=
    List.mem_map_of_mem (hslots ▸ List.mem_cons_self)
  have hpos : 0 < s.len := (hcovers.mem hc.chunk_pos hmem).2.1
  rw [hslots] at hcovers
  obtain ⟨hrange, hlt, hrest⟩ := hcovers
  have hoffset : s.offset = r.position := congrArg Prod.fst hrange
  have hlen : s.len = min (last - r.position) c.chunk := congrArg Prod.snd hrange
  rw [← hoffset] at hlt
  rw [← hlen, ← hoffset] at hrest
  refine ⟨?_, hpos, ?_⟩
  · simp only [left, hfinished, Bool.false_eq_true, if_false, h.config, h.rangeEnd]
    rw [← hoffset, cut_cons hc.chunk_pos hlt, hoffset, ← hlen, hrange, ← hlen]
  · intro hterminal
    cases rest with
    | cons t rest => exact congrArg Prod.fst hrest.1
    | nil =>
      have hsched : r.stopScheduling = false := by
        by_contra hstop
        rcases h.stopped (Bool.not_eq_false _ ▸ hstop) with hdone | ⟨t, ht, hterm⟩
        · rw [hfinished] at hdone
          cases hdone
        · rw [hslots] at ht
          rw [List.mem_singleton.mp ht, hterminal] at hterm
          cases hterm
      rw [frontOffset, ← hfull hsched]
      exact hrest.symm

/-- Delivery of a ready front slot returns what sequential reading returns next. -/
theorem Ordered.deliver (h : r.Ordered g c last) (hc : c.Valid last)
    (hfinished : r.finished = false) {s : Slot} {rest : List Slot} {result : IoResult}
    (hslots : r.slots = s :: rest) (hstate : s.state = .ready result) :
    Ordered g c last ({ r with
      slots := rest
      reserved := charged rest
      finished := r.finished || !isFull s.len result }.emit (value s.offset result)) := by
  have hmem {t : Slot} (ht : t ∈ rest) : t ∈ r.slots := hslots ▸ List.mem_cons_of_mem s ht
  obtain ⟨hleft, hlen, hfront⟩ := h.windowed.left_cons hc hfinished hslots
  have hresult := h.results s (hslots ▸ List.mem_cons_self) result hstate
  obtain ⟨k, hk⟩ := h.returned
  refine ⟨h.windowed.deliver hslots hstate _, h.calls, fun t ht => h.called t (hmem ht), h.polled,
    fun t ht => h.results t (hmem ht), h.once, fun t ht => h.fresh t (hmem ht), ?_⟩
  rw [hleft, Slot.range] at hk
  by_cases hfull : isFull s.len result = true
  · have hterminal : s.isTerminal = false := by
      rw [Slot.isTerminal, hstate]
      simp only [hfull, Bool.not_true]
    have hleft' : left ({ r with
        slots := rest
        reserved := charged rest
        finished := r.finished || !isFull s.len result }.emit (value s.offset result)) =
        cut c.chunk last (s.offset + s.len) := by
      rw [← hfront hterminal, ← h.windowed.config, ← h.windowed.rangeEnd]
      simp only [left, OrderedReader.emit, OrderedReader.position, hfinished, hfull, Bool.not_true,
        Bool.or_false, Bool.false_eq_true, if_false]
    refine ⟨k, ?_⟩
    rw [hk, hleft', outcomes_full hlen (hresult ▸ hfull), ← hresult]
    exact (List.append_assoc _ [_] _).symm
  · have hshort : isFull s.len result = false := Bool.eq_false_iff.mpr hfull
    obtain ⟨k', hk'⟩ := outcomes_last (cut c.chunk last (s.offset + s.len))
      (hresult ▸ hshort : isFull s.len (checkLength s.len (g s.offset s.len)) = false)
    have hleft' : left ({ r with
        slots := rest
        reserved := charged rest
        finished := r.finished || !isFull s.len result }.emit (value s.offset result)) = [] := by
      simp only [left, OrderedReader.emit, hshort, Bool.not_false, Bool.or_true, if_true]
    refine ⟨k + k', ?_⟩
    rw [← List.replicate_append_replicate, ← List.append_assoc, hk, List.append_assoc, hk',
      ← hresult, hleft', outcomes, List.append_nil]
    rfl

/-- One poll agrees with sequential reading. If it returns nothing, the next range to deliver was
polled and is not ready. -/
theorem Ordered.pollNext (h : r.Ordered g c last) (hc : c.Valid last) (hp : Follows g p) :
    ∃ r', r.pollNext p = some r' ∧ r'.Ordered g c last ∧
      ((∃ out, r'.hist.returned = r.hist.returned ++ [out]) ∨
        ((r.position, min (last - r.position) c.chunk) ∈ r'.hist.calls ∧
          p r.position (min (last - r.position) c.chunk) = none ∧ r'.position = r.position ∧
          r'.hist.returned = r.hist.returned)) := by
  by_cases hfinished : r.finished = true
  · have hleft : r.left = [] := by rw [left, if_pos hfinished]
    have hsame : { r with finished := true } = r := by rw [← hfinished]
    refine ⟨r.emit (.ok none), by rw [OrderedReader.pollNext, if_pos hfinished], ?_,
      Or.inl ⟨_, rfl⟩⟩
    exact hsame ▸ h.ended hleft
  · have hfinished := Bool.eq_false_iff.mpr hfinished
    obtain ⟨r₁, r₂, hfilled, hprogress, hkept, hcases⟩ :=
      h.windowed.pollNext_cases hc hfinished p
    have hordered := (h.fill hc hfilled).keep hc hp hkept
    have hfinished₂ := (hkept.finished.trans hfilled.finished).trans hfinished
    have hreturned := hkept.returned.trans hfilled.returned
    rcases hcases with ⟨hnil, heq⟩ | ⟨s, rest, hfront, hstate, heq⟩ |
      ⟨s, rest, result, hfront, hstate, heq⟩
    · refine ⟨_, heq, hordered.ended ?_, Or.inl ⟨.ok none, ?_⟩⟩
      · -- an empty window means that there was nothing to request
        have hnil₁ : r₁.slots = [] := by
          by_contra hne
          exact keep_ne_nil hne (hkept.slots ▸ hnil)
        obtain ⟨fresh, hslots, -, -, hcovers⟩ := hfilled.slots
        rw [hnil₁] at hslots
        obtain ⟨hempty, rfl⟩ := List.append_eq_nil_iff.mp hslots.symm
        have hnext : r.nextOffset = r₁.nextOffset := hcovers
        have hend : last ≤ r.nextOffset := by
          by_contra hmore
          refine hprogress ?_ (not_le.mp hmore) hnil₁
          by_contra hstop
          rcases h.windowed.stopped (Bool.not_eq_false _ ▸ hstop) with hdone | ⟨s, hs, _⟩
          · rw [hfinished] at hdone
            cases hdone
          · rw [hempty] at hs
            cases hs
        rw [left, hfinished₂, OrderedReader.position, hnil, hkept.windowed.rangeEnd, frontOffset,
          hkept.nextOffset, ← hnext]
        exact cut_nil hend
      · rw [← hreturned]
        rfl
    · have hmem : s ∈ r₂.slots := hfront ▸ List.mem_cons_self
      have hposition := hkept.position.trans hfilled.position
      obtain ⟨b, hcovers, _⟩ := hordered.windowed.cover
      rw [hfront, hposition] at hcovers
      have hrange : s.range = (r.position, min (last - r.position) c.chunk) := hcovers.1
      refine ⟨r₂, heq, hordered, Or.inr ⟨?_, ?_, hposition, hreturned⟩⟩
      · rw [← hrange]
        exact hordered.called s hmem
      · have hnone := (polled_of_pending (hkept.slots ▸ hmem) hstate).2
        rwa [show s.offset = r.position from congrArg Prod.fst hrange,
          show s.len = min (last - r.position) c.chunk from congrArg Prod.snd hrange] at hnone
    · refine ⟨_, heq, hordered.deliver hc hfinished₂ hfront hstate,
        Or.inl ⟨value s.offset result, ?_⟩⟩
      rw [← hreturned]
      rfl

/-- A fresh reader has returned nothing and has everything left. -/
theorem new_ordered (g : Nat → Nat → IoResult) (hnew : new c = .ok r) :
    ∃ last, c.Valid last ∧ r.Ordered g c last := by
  cases hvalidate : c.validate with
  | error e =>
    simp only [new, hvalidate] at hnew
    cases hnew
  | ok last =>
    obtain ⟨r₁, hr₁, hwindowed, hslots, _, hfinished, hnext, hhist⟩ := new_windowed hvalidate
    cases hnew.symm.trans hr₁
    refine ⟨last, Config.valid_of_validate hvalidate, hwindowed, ?_, ?_, ?_, ?_, ?_, ?_, 0, ?_⟩
    · rw [hhist, hnext]
      rfl
    · rw [hslots]
      exact fun s hs => absurd hs List.not_mem_nil
    · rw [hhist]
      exact fun s hs => absurd hs List.not_mem_nil
    · rw [hslots]
      exact fun s hs => absurd hs List.not_mem_nil
    · rw [hhist]
      exact List.Pairwise.nil
    · rw [hslots]
      exact fun s hs => absurd hs List.not_mem_nil
    · rw [hhist, left, hfinished, OrderedReader.position, hslots, frontOffset, hnext,
        hwindowed.config, hwindowed.rangeEnd]
      exact List.append_nil _

/-- Any polls of futures that yield `g` keep the agreement. -/
theorem Ordered.run (h : r.Ordered g c last) (hc : c.Valid last) {polls : List Poll}
    (hp : ∀ p ∈ polls, Follows g p) :
    ∃ r', run OrderedReader.pollNext r polls = some r' ∧ r'.Ordered g c last := by
  induction polls generalizing r with
  | nil => exact ⟨r, rfl, h⟩
  | cons p polls ih =>
    obtain ⟨r₁, hr₁, hordered, -⟩ := h.pollNext hc (hp p List.mem_cons_self)
    obtain ⟨r', hr', hlast⟩ := ih hordered fun q hq => hp q (List.mem_cons_of_mem _ hq)
    refine ⟨r', ?_, hlast⟩
    rw [Core.run, hr₁]
    exact hr'

/-- The first label of a schedule. -/
theorem run_one {schedule : Nat → Poll} (h : r.pollNext (schedule 0) = some r') :
    Core.run OrderedReader.pollNext r ((List.range 1).map schedule) = some r' := by
  change (r.pollNext (schedule 0)).bind some = some r'
  rw [h]
  rfl

/-- A poll that returns something is a run that does. -/
theorem Ordered.returns_now {schedule : Nat → Poll} (h : r'.Ordered g c last)
    (hr' : r.pollNext (schedule 0) = some r') {out : Output}
    (hout : r'.hist.returned = r.hist.returned ++ [out]) :
    ∃ m r', Core.run OrderedReader.pollNext r ((List.range m).map schedule) = some r' ∧
      r'.Ordered g c last ∧ r.hist.returned.length < r'.hist.returned.length := by
  refine ⟨1, r', run_one hr', h, ?_⟩
  rw [hout, List.length_append]
  exact Nat.lt_succ_self _

/-- A schedule that answers the next range to deliver makes the reader return. -/
theorem Ordered.returns (h : r.Ordered g c last) (hc : c.Valid last) (schedule : Nat → Poll)
    (hp : ∀ n, Follows g (schedule n)) {d : Nat}
    (hready : schedule d r.position (min (last - r.position) c.chunk) ≠ none) :
    ∃ m r', Core.run OrderedReader.pollNext r ((List.range m).map schedule) = some r' ∧
      r'.Ordered g c last ∧ r.hist.returned.length < r'.hist.returned.length := by
  induction d generalizing r schedule with
  | zero =>
    obtain ⟨r₁, hr₁, hordered, ⟨out, hout⟩ | ⟨_, hnone, _⟩⟩ := h.pollNext hc (hp 0)
    · exact hordered.returns_now hr₁ hout
    · exact absurd hnone hready
  | succ d ih =>
    obtain ⟨r₁, hr₁, hordered, ⟨out, hout⟩ | ⟨_, _, hposition, hsame⟩⟩ := h.pollNext hc (hp 0)
    · exact hordered.returns_now hr₁ hout
    · obtain ⟨m, r', hr', hlast, hlonger⟩ := ih hordered (fun i => schedule (1 + i))
        (fun n => hp (1 + n)) (by rw [hposition, Nat.add_comm 1 d]; exact hready)
      refine ⟨1 + m, r', ?_, hlast, hsame ▸ hlonger⟩
      rw [run_range_add, run_one hr₁]
      exact hr'

/-- A schedule under which every range becomes ready makes the reader return. -/
theorem Ordered.returns_of_fair (h : r.Ordered g c last) (hc : c.Valid last)
    {schedule : Nat → Poll} (hp : ∀ n, Follows g (schedule n))
    (hready : ∀ x ∈ cut c.chunk last c.offset, ∀ n, ∃ m, n ≤ m ∧ schedule m x.1 x.2 ≠ none) :
    ∃ m r', Core.run OrderedReader.pollNext r ((List.range m).map schedule) = some r' ∧
      r'.Ordered g c last ∧ r.hist.returned.length < r'.hist.returned.length := by
  obtain ⟨r₁, hr₁, hordered, ⟨out, hout⟩ | ⟨hcalled, _, _, _⟩⟩ := h.pollNext hc (hp 0)
  · exact hordered.returns_now hr₁ hout
  · have hmem : (r.position, min (last - r.position) c.chunk) ∈ cut c.chunk last c.offset := by
      rw [hordered.calls.cut_eq hc.chunk_pos]
      exact List.mem_append_left _ hcalled
    obtain ⟨m, _, hne⟩ := hready _ hmem 0
    exact h.returns hc schedule hp hne

/-- Ordered prefetch refines sequential reading: whatever the order in which the futures become
ready, the values returned are those of sequential reading, no future is polled after it was
ready, and the source is called once for each range, in order. When every future becomes ready,
every value of sequential reading is returned. -/
theorem ordered_refines (hnew : new c = .ok r) (g : Nat → Nat → IoResult) :
    (∀ polls : List Poll, (∀ p ∈ polls, Follows g p) →
      ∃ r' k, Core.run OrderedReader.pollNext r polls = some r' ∧
        r'.hist.returned <+: outcomes g (cut c.chunk (c.offset + c.length) c.offset) ++
          List.replicate k (.ok none) ∧
        r'.hist.calls <+: cut c.chunk (c.offset + c.length) c.offset ∧
        r'.hist.calls.Nodup ∧
        (∀ x ∈ r'.hist.polls, (x.offset, x.len) ∈ r'.hist.calls) ∧
        r'.hist.polls.Pairwise fun x y => x.ready = true → x.offset ≠ y.offset) ∧
    ∀ schedule : Nat → Poll, (∀ n, Follows g (schedule n)) →
      (∀ x ∈ cut c.chunk (c.offset + c.length) c.offset, ∀ n, ∃ m, n ≤ m ∧
        schedule m x.1 x.2 ≠ none) →
      ∀ k, ∃ n r', Core.run OrderedReader.pollNext r ((List.range n).map schedule) = some r' ∧
        k ≤ r'.hist.returned.length := by
  obtain ⟨last, hc, hordered⟩ := new_ordered g hnew
  rw [← hc.last_eq]
  refine ⟨?_, ?_⟩
  · intro polls hp
    obtain ⟨r', hr', h⟩ := hordered.run hc hp
    obtain ⟨k, hk⟩ := h.returned
    refine ⟨r', k, hr', ⟨_, hk.symm⟩, ⟨_, (h.calls.cut_eq hc.chunk_pos).symm⟩, ?_,
      h.polled, h.once⟩
    exact (h.calls.increasing hc.chunk_pos).imp fun hlt heq =>
      Nat.ne_of_lt hlt (congrArg Prod.fst heq)
  · intro schedule hp hready k
    suffices h : ∃ n r', Core.run OrderedReader.pollNext r ((List.range n).map schedule) =
        some r' ∧ r'.Ordered g c last ∧ k ≤ r'.hist.returned.length by
      obtain ⟨n, r', hr', _, hlength⟩ := h
      exact ⟨n, r', hr', hlength⟩
    induction k with
    | zero => exact ⟨0, r, rfl, hordered, Nat.zero_le _⟩
    | succ k ih =>
      obtain ⟨n, r₁, hr₁, h₁, hlength⟩ := ih
      have hlater : ∀ x ∈ cut c.chunk last c.offset, ∀ i, ∃ m, i ≤ m ∧
          schedule (n + m) x.1 x.2 ≠ none := by
        intro x hx i
        obtain ⟨m, hm, hne⟩ := hready x hx (n + i)
        exact ⟨m - n, by omega, by rwa [Nat.add_sub_cancel' (by omega)]⟩
      obtain ⟨m, r', hr', h', hlonger⟩ := h₁.returns_of_fair hc (fun i => hp (n + i)) hlater
      refine ⟨n + m, r', ?_, h', by omega⟩
      rw [run_range_add, hr₁]
      exact hr'

/-- The bytes of a file of two ranges, the second one shorter. -/
def twoRanges : Nat → Nat → IoResult := fun a _ => .ok (if a = 0 then [7, 8] else [9])

/-- The second range is ready before the first one. -/
theorem ordered_refines_late : ∃ r : OrderedReader, new ⟨0, 3, 2, 2, 4⟩ = .ok r ∧
    ∃ r' k, Core.run OrderedReader.pollNext r
        [fun a len => if a = 2 then some (twoRanges a len) else none,
          fun a len => some (twoRanges a len), fun _ _ => none, fun _ _ => none] = some r' ∧
      r'.hist.returned <+: [.ok (some ⟨0, [7, 8]⟩), .ok (some ⟨2, [9]⟩)] ++
        List.replicate k (.ok none) := by
  let r : OrderedReader := ⟨⟨0, 3, 2, 2, 4⟩, 3, 0, 0, [], false, false, ⟨[], [], []⟩⟩
  have hnew : new ⟨0, 3, 2, 2, 4⟩ = .ok r := rfl
  refine ⟨r, hnew, ?_⟩
  obtain ⟨r', k, hrun, hreturned, -⟩ := (ordered_refines hnew twoRanges).1
    [fun a len => if a = 2 then some (twoRanges a len) else none,
      fun a len => some (twoRanges a len), fun _ _ => none, fun _ _ => none] (by
    intro p hp a len result hresult
    simp only [List.mem_cons, List.not_mem_nil, or_false] at hp
    rcases hp with rfl | rfl | rfl | rfl
    · simp only at hresult
      split at hresult
      · exact (Option.some.inj hresult).symm
      · cases hresult
    · exact (Option.some.inj hresult).symm
    · cases hresult
    · cases hresult)
  refine ⟨r', k, hrun, ?_⟩
  have hranges : cut 2 3 0 = [(0, 2), (2, 1)] := by
    rw [cut_cons (by decide) (by decide), cut_cons (by decide) (by decide), cut_nil (by decide)]
    rfl
  have houtcomes : outcomes twoRanges [(0, 2), (2, 1)] =
      [.ok (some ⟨0, [7, 8]⟩), .ok (some ⟨2, [9]⟩)] := rfl
  simpa only [hranges, houtcomes] using hreturned

end OrderedReader

end Uring.Prefetch
