import Uring.Prefetch.Reader

/-!
# The window of the ordered prefetch reader

The slots are consecutive ranges, charged by what was requested, and a terminal slot is the
last. The slots leave from the front when they are delivered and from the back when a
terminal slot cuts the tail off; the charge follows them either way.
-/

namespace Uring.Prefetch

open Uring.Core

/-- The range of a slot. -/
def Slot.range (s : Slot) : Nat × Nat := (s.offset, s.len)

/-- Consecutive ranges from `a` to `b` as `fill_window` cuts them. -/
def Covers (chunk last : Nat) : Nat → List (Nat × Nat) → Nat → Prop
  | a, [], b => a = b
  | a, x :: rest, b =>
    x = (a, min (last - a) chunk) ∧ a < last ∧ Covers chunk last (a + min (last - a) chunk) rest b

namespace Covers

variable {chunk last a b d : Nat} {xs ys : List (Nat × Nat)}

theorem append (h : Covers chunk last a xs b) (h' : Covers chunk last b ys d) :
    Covers chunk last a (xs ++ ys) d := by
  induction xs generalizing a with
  | nil =>
    obtain rfl : a = b := h
    exact h'
  | cons x xs ih => exact ⟨h.1, h.2.1, ih h.2.2⟩

/-- A prefix covers up to some earlier point. -/
theorem split (h : Covers chunk last a (xs ++ ys) b) :
    ∃ m, Covers chunk last a xs m ∧ Covers chunk last m ys b := by
  induction xs generalizing a with
  | nil => exact ⟨a, rfl, h⟩
  | cons x xs ih =>
    obtain ⟨m, hm, hrest⟩ := ih h.2.2
    exact ⟨m, ⟨h.1, h.2.1, hm⟩, hrest⟩

theorem le (h : Covers chunk last a xs b) : a ≤ b := by
  induction xs generalizing a with
  | nil => exact h.le
  | cons x xs ih =>
    have hrest := ih h.2.2
    omega

/-- Every range lies between the two ends. -/
theorem mem (h : Covers chunk last a xs b) (hchunk : 0 < chunk) {x : Nat × Nat} (hx : x ∈ xs) :
    a ≤ x.1 ∧ 0 < x.2 ∧ x.2 ≤ chunk ∧ x.1 + x.2 ≤ b := by
  induction xs generalizing a with
  | nil => cases hx
  | cons y xs ih =>
    have hle := h.2.2.le
    rcases List.mem_cons.mp hx with rfl | hx
    · rw [h.1]
      have hlt := h.2.1
      refine ⟨le_refl _, ?_, Nat.min_le_right _ _, hle⟩
      exact Nat.lt_min.mpr ⟨by omega, hchunk⟩
    · obtain ⟨hlow, hpos, hcap, hhigh⟩ := ih h.2.2 hx
      exact ⟨by omega, hpos, hcap, hhigh⟩

/-- The ranges are contiguous. -/
theorem isChain (h : Covers chunk last a xs b) :
    xs.IsChain fun x y => x.1 + x.2 = y.1 := by
  induction xs generalizing a with
  | nil => exact List.isChain_nil
  | cons x xs ih =>
    cases xs with
    | nil => exact List.isChain_singleton x
    | cons y xs =>
      refine List.isChain_cons_cons.mpr ⟨?_, ih h.2.2⟩
      rw [h.1, h.2.2.1]

theorem last_eq (h : Covers chunk last a xs b) {x : Nat × Nat} (hx : xs.getLast? = some x) :
    x.1 + x.2 = b := by
  induction xs generalizing a with
  | nil => cases hx
  | cons y xs ih =>
    cases xs with
    | nil =>
      obtain rfl : y = x := by simpa using hx
      have hend : a + min (last - a) chunk = b := h.2.2
      rw [h.1]
      exact hend
    | cons z xs => exact ih h.2.2 (by simpa using hx)

end Covers

/-- The slots that remain after the loop over them: none behind a terminal one. -/
def keep (p : Poll) : List Slot → List Slot
  | [] => []
  | s :: rest => if (s.poll p).1.isTerminal then [(s.poll p).1] else (s.poll p).1 :: keep p rest

/-- The value that a kept result yields. -/
def value (offset : Nat) : IoResult → Output
  | .ok bytes => .ok (if bytes = [] then none else some ⟨offset, bytes⟩)
  | .error e => .error e

/-- The bytes charged for slots. -/
def charged (slots : List Slot) : Nat := (slots.map Slot.len).sum

theorem charged_append (xs ys : List Slot) : charged (xs ++ ys) = charged xs + charged ys := by
  simp [charged]

theorem charged_cons (s : Slot) (rest : List Slot) :
    charged (s :: rest) = s.len + charged rest := by
  simp [charged]

/-- Polling a slot does not change its range. -/
theorem Slot.poll_range (p : Poll) (s : Slot) : (s.poll p).1.range = s.range := by
  unfold Slot.poll
  split
  · rfl
  · split <;> rfl

theorem Slot.poll_len (p : Poll) (s : Slot) : (s.poll p).1.len = s.len :=
  congrArg Prod.snd (s.poll_range p)

/-- The polls of one slot: none when its result is kept, else one, with its answer. -/
theorem Slot.poll_cases (p : Poll) (s : Slot) :
    (∃ result, s.state = .ready result ∧ s.poll p = (s, [])) ∨
      (s.state = .pending ∧ p s.offset s.len = none ∧
        s.poll p = (s, [⟨s.offset, s.len, false⟩])) ∨
      (∃ result, s.state = .pending ∧ p s.offset s.len = some result ∧ s.poll p =
        ({ s with state := .ready (checkLength s.len result) }, [⟨s.offset, s.len, true⟩])) := by
  unfold Slot.poll
  cases hstate : s.state with
  | ready result => exact Or.inl ⟨result, rfl, rfl⟩
  | pending =>
    cases hp : p s.offset s.len with
    | none => exact Or.inr (Or.inl ⟨rfl, rfl, rfl⟩)
    | some result => exact Or.inr (Or.inr ⟨result, rfl, rfl, rfl⟩)

/-- What the loop over the slots finds, in terms of what remains. -/
theorem pollSlots_eq (p : Poll) (slots : List Slot) :
    charged (pollSlots p slots).1 = charged slots ∧
    match (pollSlots p slots).2.1 with
    | none => (pollSlots p slots).1 = keep p slots ∧ ∀ s ∈ keep p slots, s.isTerminal = false
    | some i => (pollSlots p slots).1.take (i + 1) = keep p slots ∧
        ∃ s ∈ keep p slots, s.isTerminal = true := by
  induction slots with
  | nil => exact ⟨rfl, rfl, nofun⟩
  | cons s rest ih =>
    obtain ⟨hcharged, hcase⟩ := ih
    rw [pollSlots, keep]
    by_cases ht : (s.poll p).1.isTerminal = true
    · simp only [ht, if_true]
      refine ⟨?_, rfl, _, List.mem_singleton_self _, ht⟩
      rw [charged_cons, charged_cons, s.poll_len]
    · simp only [ht, Bool.false_eq_true, if_false]
      refine ⟨?_, ?_⟩
      · rw [charged_cons, charged_cons, s.poll_len, hcharged]
      · cases hterm : (pollSlots p rest).2.1 with
        | none =>
          rw [hterm] at hcase
          refine ⟨by rw [hcase.1], ?_⟩
          intro t hmem
          rcases List.mem_cons.mp hmem with rfl | hmem
          · exact Bool.eq_false_iff.mpr ht
          · exact hcase.2 t hmem
        | some i =>
          rw [hterm] at hcase
          obtain ⟨htake, t, hmem, hterminal⟩ := hcase
          refine ⟨?_, t, List.mem_cons_of_mem _ hmem, hterminal⟩
          exact congrArg ((s.poll p).1 :: ·) htake

/-- Giving back the slots at the back leaves the charge of the others. -/
theorem releaseBack_eq (xs : List Slot) (n : Nat) :
    releaseBack xs (n + charged xs) = some n := by
  induction xs generalizing n with
  | nil => rfl
  | cons s rest ih =>
    have hsplit : n + charged (s :: rest) = (n + s.len) + charged rest := by
      rw [charged_cons]
      omega
    rw [releaseBack, hsplit, ih]
    simp only [Option.bind_eq_bind, Option.bind_some]
    rw [if_neg (by omega), Nat.add_sub_cancel]

/-- What remains is a prefix of the slots, as polled. -/
theorem keep_isPrefix (p : Poll) (slots : List Slot) :
    keep p slots <+: slots.map fun s => (s.poll p).1 := by
  induction slots with
  | nil => exact List.prefix_refl _
  | cons s rest ih =>
    rw [keep, List.map_cons]
    by_cases ht : (s.poll p).1.isTerminal = true
    · rw [if_pos ht]
      exact (List.prefix_append [_] _)
    · rw [if_neg ht]
      exact (List.prefix_cons_inj _).mpr ih

theorem map_poll_range (p : Poll) (slots : List Slot) :
    (slots.map fun s => (s.poll p).1).map Slot.range = slots.map Slot.range := by
  rw [List.map_map]
  exact List.map_congr_left fun s _ => s.poll_range p

theorem keep_ranges (p : Poll) (slots : List Slot) :
    (keep p slots).map Slot.range <+: slots.map Slot.range := by
  rw [← map_poll_range p slots]
  exact (keep_isPrefix p slots).map Slot.range

theorem mem_keep {p : Poll} {slots : List Slot} {s : Slot} (h : s ∈ keep p slots) :
    ∃ t ∈ slots, s = (t.poll p).1 := by
  obtain ⟨t, ht, rfl⟩ := List.mem_map.mp ((keep_isPrefix p slots).subset h)
  exact ⟨t, ht, rfl⟩

/-- Every slot remains when none is terminal. -/
theorem keep_eq_map {p : Poll} {slots : List Slot} (h : ∀ s ∈ keep p slots, s.isTerminal = false) :
    keep p slots = slots.map fun s => (s.poll p).1 := by
  induction slots with
  | nil => rfl
  | cons s rest ih =>
    rw [keep] at h ⊢
    by_cases ht : (s.poll p).1.isTerminal = true
    · rw [if_pos ht] at h
      rw [h _ (List.mem_singleton_self _)] at ht
      cases ht
    · rw [if_neg ht] at h ⊢
      rw [ih fun t hmem => h t (List.mem_cons_of_mem _ hmem)]
      rfl

/-- A terminal slot that remains is the last. -/
theorem keep_terminal {p : Poll} {slots pre post : List Slot} {s : Slot}
    (h : keep p slots = pre ++ s :: post) (hs : s.isTerminal = true) : post = [] := by
  induction slots generalizing pre with
  | nil => exact absurd h.symm (List.append_ne_nil_of_right_ne_nil _ (List.cons_ne_nil _ _))
  | cons t rest ih =>
    rw [keep] at h
    by_cases ht : (t.poll p).1.isTerminal = true
    · rw [if_pos ht] at h
      have hlength := congrArg List.length h
      simp only [List.length_append, List.length_cons, List.length_nil] at hlength
      exact List.eq_nil_of_length_eq_zero (by omega)
    · rw [if_neg ht] at h
      cases pre with
      | nil =>
        obtain ⟨rfl, -⟩ := List.cons.inj h
        exact absurd hs ht
      | cons y pre => exact ih (List.cons.inj h).2

/-- Something remains of a nonempty window. -/
theorem keep_ne_nil {p : Poll} {slots : List Slot} (h : slots ≠ []) : keep p slots ≠ [] := by
  cases slots with
  | nil => exact h
  | cons s rest =>
    rw [keep]
    split <;> exact List.cons_ne_nil _ _

/-- The offset of the front slot, or of the next request when there is none. -/
def frontOffset (next : Nat) : List Slot → Nat
  | [] => next
  | s :: _ => s.offset

/-- The front slot stays in front. -/
theorem frontOffset_keep (p : Poll) (next : Nat) (slots : List Slot) :
    frontOffset next (keep p slots) = frontOffset next slots := by
  cases slots with
  | nil => rfl
  | cons s rest =>
    have hoffset : (s.poll p).1.offset = s.offset := congrArg Prod.fst (s.poll_range p)
    rw [keep]
    split <;> exact hoffset

/-- A window with a terminal slot keeps one. -/
theorem keep_of_terminal {p : Poll} {slots : List Slot}
    (h : ∃ s ∈ slots, s.isTerminal = true) : ∃ s ∈ keep p slots, s.isTerminal = true := by
  obtain ⟨s, hs, hterminal⟩ := h
  by_contra hnone
  have hnone : ∀ t ∈ keep p slots, t.isTerminal = false :=
    fun t ht => Bool.eq_false_iff.mpr fun hterm => hnone ⟨t, ht, hterm⟩
  have hmem : (s.poll p).1 ∈ keep p slots := by
    rw [keep_eq_map hnone]
    exact List.mem_map_of_mem hs
  have hpoll : (s.poll p).1 = s := by
    rcases s.poll_cases p with ⟨result, _, hpoll⟩ | ⟨hstate, _, _⟩ | ⟨result, hstate, _, _⟩
    · rw [hpoll]
    all_goals
      rw [Slot.isTerminal, hstate] at hterminal
      cases hterminal
  rw [hpoll] at hmem
  rw [hnone s hmem] at hterminal
  cases hterminal

/-- The polls made by the loop over the slots. -/
def polledIn (p : Poll) (slots : List Slot) : List Polled := (pollSlots p slots).2.2

theorem polledIn_cons (p : Poll) (s : Slot) (rest : List Slot) :
    polledIn p (s :: rest) =
      (s.poll p).2 ++ if (s.poll p).1.isTerminal then [] else polledIn p rest := by
  rw [polledIn, pollSlots]
  by_cases ht : (s.poll p).1.isTerminal = true
  · simp only [ht, if_true, List.append_nil]
  · simp only [ht, Bool.false_eq_true, if_false, polledIn]

/-- A checked result is not over-long. -/
theorem checkLength_fits {len : Nat} {result : IoResult} {bytes : List UInt8}
    (h : checkLength len result = .ok bytes) : bytes.length ≤ len := by
  unfold checkLength at h
  split at h
  · split at h
    · cases h
    · cases h
      omega
  · cases h

/-- Every slot still pending after the loop was polled by it. -/
theorem polled_of_pending {p : Poll} {slots : List Slot} {s : Slot} (hs : s ∈ keep p slots)
    (hpending : s.state = .pending) :
    ⟨s.offset, s.len, false⟩ ∈ polledIn p slots ∧ p s.offset s.len = none := by
  induction slots with
  | nil => cases hs
  | cons t rest ih =>
    rw [keep] at hs
    rw [polledIn_cons]
    have hfront : s = (t.poll p).1 →
        (⟨s.offset, s.len, false⟩ : Polled) ∈ (t.poll p).2 ∧ p s.offset s.len = none := by
      intro heq
      rcases t.poll_cases p with ⟨result, hstate, hpoll⟩ | ⟨hstate, hp, hpoll⟩ |
        ⟨result, hstate, hp, hpoll⟩
      · rw [heq, hpoll, hstate] at hpending
        cases hpending
      · rw [heq, hpoll]
        exact ⟨List.mem_singleton_self _, hp⟩
      · rw [heq, hpoll] at hpending
        cases hpending
    by_cases ht : (t.poll p).1.isTerminal = true
    · rw [if_pos ht] at hs
      obtain ⟨hmem, hp⟩ := hfront (List.mem_singleton.mp hs)
      exact ⟨List.mem_append_left _ hmem, hp⟩
    · rw [if_neg ht] at hs
      rw [if_neg ht]
      rcases List.mem_cons.mp hs with heq | hs
      · obtain ⟨hmem, hp⟩ := hfront heq
        exact ⟨List.mem_append_left _ hmem, hp⟩
      · obtain ⟨hmem, hp⟩ := ih hs
        exact ⟨List.mem_append_right _ hmem, hp⟩

/-- The loop over the slots and the truncation, in terms of what remains. -/
theorem OrderedReader.pollWindow_eq {r : OrderedReader} (p : Poll)
    (h : r.reserved = charged r.slots) : ∃ stopped, r.pollWindow p = some { r with
      slots := keep p r.slots
      reserved := charged (keep p r.slots)
      stopScheduling := stopped
      hist := { r.hist with polls := r.hist.polls ++ polledIn p r.slots } } ∧
    (stopped = true ↔ r.stopScheduling = true ∨ ∃ s ∈ keep p r.slots, s.isTerminal = true) := by
  obtain ⟨hcharged, hcase⟩ := pollSlots_eq p r.slots
  unfold pollWindow
  simp only
  cases hterm : (pollSlots p r.slots).2.1 with
  | none =>
    rw [hterm] at hcase
    obtain ⟨hkeep, hnone⟩ := hcase
    refine ⟨r.stopScheduling, ?_, ?_⟩
    · rw [h, ← hcharged, hkeep]
      rfl
    · constructor
      · exact Or.inl
      · rintro (hstop | ⟨s, hs, ht⟩)
        · exact hstop
        · rw [hnone s hs] at ht
          cases ht
  | some i =>
    rw [hterm] at hcase
    obtain ⟨hkeep, hsome⟩ := hcase
    refine ⟨true, ?_, fun _ => Or.inr hsome, fun _ => rfl⟩
    have hsplit : r.reserved =
        charged (keep p r.slots) + charged ((pollSlots p r.slots).1.drop (i + 1)) := by
      rw [h, ← hcharged, ← hkeep, ← charged_append, List.take_append_drop]
    simp only [truncate, hsplit, releaseBack_eq, Option.bind_eq_bind, Option.bind_some, hkeep,
      Option.pure_def]
    rfl

/-- What validation guarantees. -/
structure Config.Valid (c : Config) (last : Nat) : Prop where
  chunk_pos : 0 < c.chunk
  window_pos : 0 < c.window
  chunk_le : c.chunk ≤ c.maxBytes
  last_eq : last = c.offset + c.length

theorem Config.valid_of_validate {c : Config} {last : Nat} (h : c.validate = .ok last) :
    c.Valid last := by
  unfold validate at h
  split at h
  · cases h
  · rename_i hgeometry
    split at h
    · cases h
    · rename_i hbytes
      split at h
      · rename_i n hn
        cases h
        simp only [Option.filter_eq_some_iff, checkedAdd_eq_some] at hn
        obtain ⟨⟨hsum, _⟩, _⟩ := hn
        exact ⟨by omega, by omega, by omega, hsum.symm⟩
      · cases h

namespace OrderedReader

/-- The offset of the next byte to deliver. -/
def position (r : OrderedReader) : Nat := frontOffset r.nextOffset r.slots

/-- The window invariant. -/
structure Windowed (c : Config) (last : Nat) (r : OrderedReader) : Prop where
  config : r.config = c
  rangeEnd : r.rangeEnd = last
  reserved : r.reserved = charged r.slots
  bytes : r.reserved ≤ c.maxBytes
  count : r.slots.length ≤ c.window
  /-- The slots are consecutive ranges, and reach the next offset unless the tail was cut. -/
  cover : ∃ b, Covers c.chunk last r.position (r.slots.map Slot.range) b ∧ b ≤ r.nextOffset ∧
    (r.stopScheduling = false → b = r.nextOffset)
  start : c.offset ≤ r.position
  next_le : r.nextOffset ≤ last
  terminal_last : ∀ pre s post, r.slots = pre ++ s :: post → s.isTerminal = true → post = []
  scheduling : r.stopScheduling = false → ∀ s ∈ r.slots, s.isTerminal = false
  stopped : r.stopScheduling = true → r.finished = true ∨ ∃ s ∈ r.slots, s.isTerminal = true
  /-- An over-long result is not kept. -/
  fits : ∀ s ∈ r.slots, ∀ bytes, s.state = .ready (.ok bytes) → bytes.length ≤ s.len

/-- A fresh reader has an empty window. -/
theorem new_windowed {c : Config} {last : Nat} (h : c.validate = .ok last) :
    ∃ r, new c = .ok r ∧ r.Windowed c last ∧ r.slots = [] ∧ r.stopScheduling = false ∧
      r.finished = false ∧ r.nextOffset = c.offset ∧ r.hist = ⟨[], [], []⟩ := by
  have hvalid := Config.valid_of_validate h
  refine ⟨⟨c, last, c.offset, 0, [], false, false, ⟨[], [], []⟩⟩, ?_, ?_, rfl, rfl, rfl, rfl, rfl⟩
  · simp only [new, h]
    rfl
  · refine ⟨rfl, rfl, rfl, Nat.zero_le _, Nat.zero_le _, ⟨c.offset, rfl, le_refl _, fun _ => rfl⟩,
      le_refl _, ?_, ?_, nofun, nofun, nofun⟩
    · rw [hvalid.last_eq]
      exact Nat.le_add_right _ _
    · intro pre s post hsplit
      exact absurd hsplit.symm (List.append_ne_nil_of_right_ne_nil _ (List.cons_ne_nil _ _))

/-- What the loop of `fill_window` adds: fresh requests for the ranges that follow. -/
structure Filled (c : Config) (last : Nat) (r r' : OrderedReader) : Prop where
  windowed : r'.Windowed c last
  slots : ∃ fresh, r'.slots = r.slots ++ fresh ∧ (∀ s ∈ fresh, s.state = .pending) ∧
    r'.hist.calls = r.hist.calls ++ fresh.map Slot.range ∧
    Covers c.chunk last r.nextOffset (fresh.map Slot.range) r'.nextOffset
  stopScheduling : r'.stopScheduling = r.stopScheduling
  finished : r'.finished = r.finished
  polls : r'.hist.polls = r.hist.polls
  returned : r'.hist.returned = r.hist.returned

theorem Filled.refl {c : Config} {last : Nat} {r : OrderedReader} (h : r.Windowed c last) :
    Filled c last r r :=
  ⟨h, ⟨[], (List.append_nil _).symm, nofun, (List.append_nil _).symm, rfl⟩, rfl, rfl, rfl, rfl⟩

theorem Filled.trans {c : Config} {last : Nat} {r r' r'' : OrderedReader} (h : Filled c last r r')
    (h' : Filled c last r' r'') : Filled c last r r'' := by
  obtain ⟨fresh, hslots, hpending, hcalls, hcovers⟩ := h.slots
  obtain ⟨fresh', hslots', hpending', hcalls', hcovers'⟩ := h'.slots
  refine ⟨h'.windowed, ⟨fresh ++ fresh', ?_, ?_, ?_, ?_⟩, h'.stopScheduling.trans h.stopScheduling,
    h'.finished.trans h.finished, h'.polls.trans h.polls, h'.returned.trans h.returned⟩
  · rw [hslots', hslots, List.append_assoc]
  · intro s hs
    rcases List.mem_append.mp hs with hs | hs
    · exact hpending s hs
    · exact hpending' s hs
  · rw [hcalls', hcalls, List.map_append, List.append_assoc]
  · rw [List.map_append]
    exact hcovers.append hcovers'

/-- One iteration of `fill_window`. -/
theorem Windowed.request {c : Config} {last : Nat} {r : OrderedReader} (h : r.Windowed c last)
    (hwants : r.wantsMore = true) (hfits : r.nextLen ≤ c.maxBytes - r.reserved) :
    Filled c last r (r.request r.nextLen) := by
  simp only [wantsMore, Bool.and_eq_true, Bool.not_eq_true', decide_eq_true_eq] at hwants
  obtain ⟨⟨hsched, hmore⟩, hroom⟩ := hwants
  have hbytes := h.bytes
  obtain ⟨b, hcovers, _, hb⟩ := h.cover
  obtain rfl := hb hsched
  have hlen : r.nextLen = min (last - r.nextOffset) c.chunk := by
    rw [nextLen, h.rangeEnd, h.config]
  have hone : Covers c.chunk last r.nextOffset [(r.nextOffset, r.nextLen)]
      (r.nextOffset + r.nextLen) := by
    rw [hlen]
    exact ⟨rfl, h.rangeEnd ▸ hmore, rfl⟩
  have hposition : (r.request r.nextLen).position = r.position := by
    unfold position OrderedReader.request
    cases r.slots with
    | nil => rfl
    | cons s rest => rfl
  refine ⟨⟨h.config, h.rangeEnd, ?_, ?_, ?_, ⟨_, ?_, le_refl _, fun _ => rfl⟩,
    ?_, ?_, ?_, ?_, ?_, ?_⟩,
    ⟨[⟨r.nextOffset, r.nextLen, .pending⟩], rfl, ?_, rfl, hone⟩, rfl, rfl, rfl, rfl⟩
  · change r.reserved + r.nextLen = charged (r.slots ++ [_])
    rw [charged_append, h.reserved]
    rfl
  · change r.reserved + r.nextLen ≤ c.maxBytes
    omega
  · change (r.slots ++ [_]).length ≤ c.window
    rw [List.length_append, ← h.config]
    exact hroom
  · rw [hposition]
    change Covers _ _ _ ((r.slots ++ [_]).map Slot.range) _
    rw [List.map_append]
    exact hcovers.append hone
  · rw [hposition]
    exact h.start
  · change r.nextOffset + r.nextLen ≤ last
    have hnext := h.next_le
    omega
  · intro pre s post hsplit hterminal
    have hmem : s ∈ r.slots ++ [⟨r.nextOffset, r.nextLen, .pending⟩] := by
      change r.slots ++ [_] = _ at hsplit
      rw [hsplit]
      exact List.mem_append_right _ List.mem_cons_self
    rcases List.mem_append.mp hmem with hs | hs
    · rw [h.scheduling hsched s hs] at hterminal
      cases hterminal
    · rw [List.mem_singleton.mp hs] at hterminal
      cases hterminal
  · intro _ s hs
    rcases List.mem_append.mp hs with hs | hs
    · exact h.scheduling hsched s hs
    · rw [List.mem_singleton.mp hs]
      rfl
  · intro hstop
    rw [show (r.request r.nextLen).stopScheduling = r.stopScheduling from rfl, hsched] at hstop
    cases hstop
  · intro s hs bytes hready
    rcases List.mem_append.mp hs with hs | hs
    · exact h.fits s hs bytes hready
    · rw [List.mem_singleton.mp hs] at hready
      cases hready
  · intro s hs
    rw [List.mem_singleton.mp hs]

/-- `fill_window` does not panic; it stops when no slot is free, no byte is left to request,
or the next range does not fit the byte budget. -/
theorem Windowed.fillLoop {c : Config} {last : Nat} {r : OrderedReader} (h : r.Windowed c last)
    (fuel : Nat) (hfuel : c.window ≤ fuel + r.slots.length) :
    ∃ r', r.fillLoop fuel = some r' ∧ Filled c last r r' ∧
      (r'.wantsMore = false ∨ c.maxBytes - r'.reserved < r'.nextLen) := by
  induction fuel generalizing r with
  | zero =>
    refine ⟨r, rfl, .refl h, Or.inl ?_⟩
    simp only [wantsMore, h.config, Bool.and_eq_false_iff, decide_eq_false_iff_not]
    omega
  | succ fuel ih =>
    rw [OrderedReader.fillLoop]
    by_cases hwants : r.wantsMore = true
    · rw [if_pos hwants, h.config, if_neg (not_lt.mpr h.bytes)]
      by_cases hfits : c.maxBytes - r.reserved < r.nextLen
      · rw [if_pos hfits]
        exact ⟨r, rfl, .refl h, Or.inr hfits⟩
      · rw [if_neg hfits]
        have hone := h.request hwants (not_lt.mp hfits)
        have hgrown : (r.request r.nextLen).slots.length = r.slots.length + 1 :=
          List.length_append
        obtain ⟨r', hr', hfilled, hstop⟩ := ih hone.windowed (by omega)
        exact ⟨r', hr', hone.trans hfilled, hstop⟩
    · rw [if_neg hwants]
      exact ⟨r, rfl, .refl h, Or.inl (Bool.eq_false_iff.mpr hwants)⟩

/-- `fill_window` leaves a slot while bytes remain to be scheduled. -/
theorem Windowed.fillWindow {c : Config} {last : Nat} {r : OrderedReader} (h : r.Windowed c last)
    (hc : c.Valid last) : ∃ r', r.fillWindow = some r' ∧ Filled c last r r' ∧
      (r.stopScheduling = false → r.nextOffset < last → r'.slots ≠ []) := by
  obtain ⟨r', hr', hfilled, hstop⟩ := h.fillLoop c.window (by omega)
  refine ⟨r', by rw [OrderedReader.fillWindow, h.config]; exact hr', hfilled, ?_⟩
  intro hsched hmore hnil
  obtain ⟨fresh, hslots, -, -, hcovers⟩ := hfilled.slots
  rw [hnil] at hslots
  obtain ⟨-, rfl⟩ := List.append_eq_nil_iff.mp hslots.symm
  have hnext : r.nextOffset = r'.nextOffset := hcovers
  have hwindowed := hfilled.windowed
  have hempty : r'.reserved = 0 := by
    rw [hwindowed.reserved, hnil]
    rfl
  rcases hstop with hwants | hfits
  · have hroom : r'.slots.length < r'.config.window := by
      rw [hnil, hwindowed.config]
      exact hc.window_pos
    simp only [wantsMore, hfilled.stopScheduling, hsched, hwindowed.rangeEnd, ← hnext, hmore, hroom,
      decide_true, Bool.not_false, Bool.and_self, Bool.true_eq_false] at hwants
  · -- the budget is at least a chunk, so the next range fits an empty window
    have hchunk : r'.nextLen ≤ c.chunk := by
      rw [nextLen, hwindowed.config]
      exact Nat.min_le_right _ _
    have hbudget := hc.chunk_le
    omega

/-- What the loop over the slots and the truncation change. -/
structure Kept (c : Config) (last : Nat) (p : Poll) (r r' : OrderedReader) : Prop where
  windowed : r'.Windowed c last
  slots : r'.slots = keep p r.slots
  position : r'.position = r.position
  nextOffset : r'.nextOffset = r.nextOffset
  finished : r'.finished = r.finished
  calls : r'.hist.calls = r.hist.calls
  polls : r'.hist.polls = r.hist.polls ++ polledIn p r.slots
  returned : r'.hist.returned = r.hist.returned

/-- The loop over the slots and the truncation keep the window. -/
theorem Windowed.pollWindow {c : Config} {last : Nat} {r : OrderedReader} (h : r.Windowed c last)
    (p : Poll) : ∃ r', r.pollWindow p = some r' ∧ Kept c last p r r' := by
  obtain ⟨stopped, heq, hstopped⟩ := pollWindow_eq p h.reserved
  have hranges := keep_ranges p r.slots
  obtain ⟨tail, htail⟩ := hranges
  have hlength : (keep p r.slots).length ≤ r.slots.length := by
    simpa only [List.length_map] using (keep_ranges p r.slots).length_le
  have hcharged : charged (keep p r.slots) ≤ charged r.slots := by
    have hsum := congrArg (fun ranges => (ranges.map Prod.snd).sum) htail
    simp only [List.map_append, List.map_map, List.sum_append] at hsum
    change charged (keep p r.slots) + _ = charged r.slots at hsum
    omega
  have hposition := frontOffset_keep p r.nextOffset r.slots
  obtain ⟨b, hcovers, hb, hfull⟩ := h.cover
  refine ⟨_, heq, ⟨⟨h.config, h.rangeEnd, rfl, ?_, ?_, ?_, ?_, h.next_le, ?_, ?_, ?_, ?_⟩, rfl,
    hposition, rfl, rfl, rfl, rfl, rfl⟩⟩
  · have hbytes := h.bytes
    have hreserved := h.reserved
    change charged (keep p r.slots) ≤ c.maxBytes
    omega
  · exact hlength.trans h.count
  · change ∃ b, Covers c.chunk last (frontOffset r.nextOffset (keep p r.slots)) _ b ∧ _
    rw [hposition]
    by_cases hs : stopped = true
    · obtain ⟨m, hkept, hcut⟩ := Covers.split (htail ▸ hcovers)
      exact ⟨m, hkept, hcut.le.trans hb, fun hsched => absurd hs (Bool.eq_false_iff.mp hsched)⟩
    · have hnone : ∀ s ∈ keep p r.slots, s.isTerminal = false := fun s hmem =>
        Bool.eq_false_iff.mpr fun hterm => hs (hstopped.mpr (Or.inr ⟨s, hmem, hterm⟩))
      have hsched : r.stopScheduling = false :=
        Bool.eq_false_iff.mpr fun hstop => hs (hstopped.mpr (Or.inl hstop))
      refine ⟨b, ?_, hb, fun _ => hfull hsched⟩
      rw [keep_eq_map hnone, map_poll_range]
      exact hcovers
  · rw [position, hposition]
    exact h.start
  · intro pre s post hsplit hterminal
    exact keep_terminal hsplit hterminal
  · intro hsched s hs
    by_contra hterminal
    rw [hstopped.mpr (Or.inr ⟨s, hs, Bool.not_eq_false _ ▸ hterminal⟩)] at hsched
    cases hsched
  · intro hstop
    rcases hstopped.mp hstop with hstop | hterminal
    · exact (h.stopped hstop).imp_right keep_of_terminal
    · exact Or.inr hterminal
  · intro s hs bytes hready
    obtain ⟨t, ht, rfl⟩ := mem_keep hs
    rcases t.poll_cases p with ⟨result, _, hpoll⟩ | ⟨_, _, hpoll⟩ | ⟨result, _, _, hpoll⟩
    all_goals rw [hpoll] at hready ⊢
    · exact h.fits t ht bytes hready
    · exact h.fits t ht bytes hready
    · exact checkLength_fits (State.ready.inj hready)

/-- Delivery of a ready front slot. -/
theorem deliverFront_ready {r : OrderedReader} {s : Slot} {rest : List Slot} {result : IoResult}
    (hslots : r.slots = s :: rest) (hstate : s.state = .ready result)
    (hreserved : r.reserved = charged r.slots)
    (hfits : ∀ bytes, result = .ok bytes → bytes.length ≤ s.len) :
    r.deliverFront = some ({ r with
      slots := rest
      reserved := charged rest
      finished := r.finished || !isFull s.len result }.emit (value s.offset result)) := by
  rw [hslots, charged_cons] at hreserved
  unfold deliverFront
  rw [hslots]
  simp only [hstate]
  rw [if_neg (by omega), hreserved, Nat.add_sub_cancel_left]
  cases result with
  | error e => simp only [isFull, value, Bool.not_false, Bool.or_true]
  | ok bytes =>
    have hle := hfits bytes rfl
    by_cases hshort : bytes.length < s.len
    · have hne : bytes.length ≠ s.len := by omega
      simp only [hshort, if_true, isFull, hne, decide_false, Bool.not_false, Bool.or_true, value]
    · have heq : bytes.length = s.len := by omega
      simp only [isFull, heq, lt_irrefl, if_false, decide_true, Bool.not_true, Bool.or_false, value]

/-- Delivery keeps the window. -/
theorem Windowed.deliver {c : Config} {last : Nat} {r : OrderedReader} (h : r.Windowed c last)
    {s : Slot} {rest : List Slot} {result : IoResult} (hslots : r.slots = s :: rest)
    (hstate : s.state = .ready result) (out : Output) : Windowed c last ({ r with
      slots := rest
      reserved := charged rest
      finished := r.finished || !isFull s.len result }.emit out) := by
  have hmem {t : Slot} (ht : t ∈ rest) : t ∈ r.slots := hslots ▸ List.mem_cons_of_mem s ht
  have hreserved := h.reserved
  have hbytes := h.bytes
  have hcount := h.count
  have hstart := h.start
  rw [hslots, charged_cons] at hreserved
  rw [hslots, List.length_cons] at hcount
  obtain ⟨b, hcovers, hb, hfull⟩ := h.cover
  rw [hslots] at hcovers
  obtain ⟨hrange, hlt, hrest⟩ := hcovers
  refine ⟨h.config, h.rangeEnd, rfl, ?_, ?_, ?_, ?_, h.next_le, ?_, ?_, ?_, ?_⟩
  · change charged rest ≤ c.maxBytes
    omega
  · change rest.length ≤ c.window
    omega
  · change ∃ b, Covers c.chunk last (frontOffset r.nextOffset rest) (rest.map Slot.range) b ∧ _
    cases rest with
    | nil => exact ⟨r.nextOffset, rfl, le_refl _, fun _ => rfl⟩
    | cons t rest =>
      have hfront : t.offset = r.position + min (last - r.position) c.chunk :=
        congrArg Prod.fst hrest.1
      rw [frontOffset, hfront]
      exact ⟨b, hrest, hb, hfull⟩
  · change c.offset ≤ frontOffset r.nextOffset rest
    cases rest with
    | nil =>
      have hle := hrest.le
      rw [frontOffset]
      omega
    | cons t rest =>
      have hfront : t.offset = r.position + min (last - r.position) c.chunk :=
        congrArg Prod.fst hrest.1
      rw [frontOffset]
      omega
  · intro pre t post hsplit hterminal
    change rest = _ at hsplit
    exact h.terminal_last (s :: pre) t post (by rw [hslots, hsplit]; rfl) hterminal
  · intro hsched t ht
    exact h.scheduling hsched t (hmem ht)
  · intro hstop
    change (r.finished || !isFull s.len result) = true ∨ _
    rcases h.stopped hstop with hfinished | ⟨t, ht, hterminal⟩
    · exact Or.inl (by rw [hfinished, Bool.true_or])
    · rw [hslots] at ht
      rcases List.mem_cons.mp ht with rfl | ht
      · have hshort : (!isFull t.len result) = true := by
          rw [Slot.isTerminal, hstate] at hterminal
          exact hterminal
        exact Or.inl (by rw [hshort, Bool.or_true])
      · exact Or.inr ⟨t, ht, hterminal⟩
  · intro t ht
    exact h.fits t (hmem ht)

/-- The poll of an unfinished reader: `fill_window`, the loop over the slots, and the front slot. -/
theorem Windowed.pollNext_cases {c : Config} {last : Nat} {r : OrderedReader}
    (h : r.Windowed c last) (hc : c.Valid last) (hfinished : r.finished = false) (p : Poll) :
    ∃ r₁ r₂, Filled c last r r₁ ∧
      (r.stopScheduling = false → r.nextOffset < last → r₁.slots ≠ []) ∧ Kept c last p r₁ r₂ ∧
      ((r₂.slots = [] ∧ r.pollNext p = some ({ r₂ with finished := true }.emit (.ok none))) ∨
        (∃ s rest, r₂.slots = s :: rest ∧ s.state = .pending ∧ r.pollNext p = some r₂) ∨
        ∃ s rest result, r₂.slots = s :: rest ∧ s.state = .ready result ∧
          r.pollNext p = some ({ r₂ with
            slots := rest
            reserved := charged rest
            finished := r₂.finished || !isFull s.len result }.emit (value s.offset result))) := by
  obtain ⟨r₁, hr₁, hfilled, hprogress⟩ := h.fillWindow hc
  obtain ⟨r₂, hr₂, hkept⟩ := hfilled.windowed.pollWindow p
  refine ⟨r₁, r₂, hfilled, hprogress, hkept, ?_⟩
  have heq : r.pollNext p = r₂.deliverFront := by
    simp only [OrderedReader.pollNext, hfinished, Bool.false_eq_true, if_false, hr₁, hr₂,
      Option.bind_eq_bind, Option.bind_some]
  rw [heq]
  cases hfront : r₂.slots with
  | nil =>
    refine Or.inl ⟨rfl, ?_⟩
    rw [deliverFront]
    simp only [hfront]
  | cons s rest =>
    refine Or.inr ?_
    cases hstate : s.state with
    | pending =>
      refine Or.inl ⟨s, rest, rfl, hstate, ?_⟩
      rw [deliverFront]
      simp only [hfront, hstate]
    | ready result =>
      refine Or.inr ⟨s, rest, result, rfl, hstate, ?_⟩
      refine deliverFront_ready hfront hstate hkept.windowed.reserved ?_
      intro bytes hok
      exact hkept.windowed.fits s (hfront ▸ List.mem_cons_self) bytes (hok ▸ hstate)

/-- A finished reader keeps its window, with an empty front or not. -/
theorem Windowed.emit {c : Config} {last : Nat} {r : OrderedReader} (h : r.Windowed c last)
    (out : Output) : (r.emit out).Windowed c last :=
  ⟨h.config, h.rangeEnd, h.reserved, h.bytes, h.count, h.cover, h.start, h.next_le,
    h.terminal_last, h.scheduling, h.stopped, h.fits⟩

theorem Windowed.finish {c : Config} {last : Nat} {r : OrderedReader} (h : r.Windowed c last) :
    Windowed c last { r with finished := true } :=
  ⟨h.config, h.rangeEnd, h.reserved, h.bytes, h.count, h.cover, h.start, h.next_le,
    h.terminal_last, h.scheduling, fun _ => Or.inl rfl, h.fits⟩

/-- One poll keeps the window. A poll that returns nothing leaves a pending front slot, and has
polled every slot that it leaves pending. -/
theorem Windowed.pollNext {c : Config} {last : Nat} {r : OrderedReader} (h : r.Windowed c last)
    (hc : c.Valid last) (p : Poll) : ∃ r', r.pollNext p = some r' ∧ r'.Windowed c last ∧
      (r'.hist.returned = r.hist.returned →
        (∃ s rest, r'.slots = s :: rest ∧ s.state = .pending) ∧
        ∃ polls, r'.hist.polls = r.hist.polls ++ polls ∧
          ∀ s ∈ r'.slots, s.state = .pending → ⟨s.offset, s.len, false⟩ ∈ polls) := by
  have hemit (returned : List Output) (out : Output) (heq : returned = r.hist.returned) :
      returned ++ [out] ≠ r.hist.returned := by
    rw [heq]
    exact fun happend => List.cons_ne_nil _ _ (List.append_right_eq_self.mp happend)
  by_cases hfinished : r.finished = true
  · refine ⟨r.emit (.ok none), by rw [OrderedReader.pollNext, if_pos hfinished], h.emit _, ?_⟩
    intro hsame
    exact absurd hsame (hemit _ _ rfl)
  · obtain ⟨r₁, r₂, hfilled, -, hkept, hcases⟩ :=
      h.pollNext_cases hc (Bool.eq_false_iff.mpr hfinished) p
    have hreturned := hkept.returned.trans hfilled.returned
    rcases hcases with ⟨_, heq⟩ | ⟨s, rest, hfront, hstate, heq⟩ |
      ⟨s, rest, result, hfront, hstate, heq⟩
    · refine ⟨_, heq, hkept.windowed.finish.emit _, ?_⟩
      intro hsame
      exact absurd hsame (hemit _ _ hreturned)
    · refine ⟨r₂, heq, hkept.windowed, fun _ => ⟨⟨s, rest, hfront, hstate⟩,
        polledIn p r₁.slots, ?_, ?_⟩⟩
      · rw [hkept.polls, hfilled.polls]
      · intro t ht hpending
        exact (polled_of_pending (hkept.slots ▸ ht) hpending).1
    · refine ⟨_, heq, hkept.windowed.deliver hfront hstate _, ?_⟩
      intro hsame
      exact absurd hsame (hemit _ _ hreturned)

/-- In every reachable state the charge is that of the slots, within the budget; the slots are
contiguous ranges, at most a window of them, that reach the next offset unless the tail was cut;
and `fill_window` leaves one while bytes remain. A poll never fails, and one that returns
`Pending` leaves a pending front slot and has polled every slot that it leaves pending. -/
theorem window_invariant {c : Config} {r₀ r : OrderedReader} (hnew : new c = .ok r₀)
    (h : Reachable OrderedReader.pollNext anyLabel r₀ r) :
    (r.config = c ∧ r.rangeEnd = c.offset + c.length) ∧
    (r.reserved = (r.slots.map Slot.len).sum ∧ r.reserved ≤ c.maxBytes) ∧
    r.slots.length ≤ c.window ∧
    (r.slots.IsChain fun s t => s.offset + s.len = t.offset) ∧
    (∀ s ∈ r.slots, 0 < s.len ∧ c.offset ≤ s.offset ∧ s.offset + s.len ≤ r.rangeEnd) ∧
    (r.stopScheduling = false → ∀ s, r.slots.getLast? = some s → s.offset + s.len = r.nextOffset) ∧
    (∀ i s, r.slots[i]? = some s → s.isTerminal = true → i + 1 = r.slots.length) ∧
    (∃ r', r.fillWindow = some r' ∧
      (r.stopScheduling = false → r.nextOffset < r.rangeEnd → r'.slots ≠ [])) ∧
    ∀ p, ∃ r', r.pollNext p = some r' ∧
      (r'.hist.returned = r.hist.returned →
        (∃ s rest, r'.slots = s :: rest ∧ s.state = .pending) ∧
        ∃ polls, r'.hist.polls = r.hist.polls ++ polls ∧
          ∀ s ∈ r'.slots, s.state = .pending → ⟨s.offset, s.len, false⟩ ∈ polls) := by
  obtain ⟨last, hvalidate, hwindowed₀⟩ : ∃ last, c.validate = .ok last ∧ r₀.Windowed c last := by
    cases hvalidate : c.validate with
    | error e =>
      simp only [new, hvalidate] at hnew
      cases hnew
    | ok last =>
      obtain ⟨r₁, hr₁, hwindowed, -⟩ := new_windowed hvalidate
      cases hnew.symm.trans hr₁
      exact ⟨last, rfl, hwindowed⟩
  have hc := Config.valid_of_validate hvalidate
  have hwindowed : r.Windowed c last := by
    induction h with
    | start => exact hwindowed₀
    | next _ _ hstep ih =>
      obtain ⟨r', hr', hwindowed, -⟩ := ih.pollNext hc _
      cases hstep.symm.trans hr'
      exact hwindowed
  obtain ⟨b, hcovers, hb, hfull⟩ := hwindowed.cover
  refine ⟨⟨hwindowed.config, hwindowed.rangeEnd.trans hc.last_eq⟩,
    ⟨hwindowed.reserved, hwindowed.bytes⟩, hwindowed.count, ?_, ?_, ?_, ?_, ?_, ?_⟩
  · exact (List.isChain_map Slot.range).mp hcovers.isChain
  · intro s hs
    obtain ⟨hlow, hpos, -, hhigh⟩ := hcovers.mem hc.chunk_pos (List.mem_map_of_mem hs)
    have hstart := hwindowed.start
    have hnext := hwindowed.next_le
    rw [hwindowed.rangeEnd]
    exact ⟨hpos, hstart.trans hlow, hhigh.trans (hb.trans hnext)⟩
  · intro hsched s hlast
    rw [← hfull hsched]
    refine hcovers.last_eq (x := s.range) ?_
    rw [List.getLast?_map, hlast]
    rfl
  · intro i s hi hterminal
    have hlt : i < r.slots.length := (List.getElem?_eq_some_iff.mp hi).1
    have hsplit : r.slots = r.slots.take i ++ s :: r.slots.drop (i + 1) := by
      rw [← (List.getElem?_eq_some_iff.mp hi).2, List.getElem_cons_drop, List.take_append_drop]
    have hnil := hwindowed.terminal_last _ _ _ hsplit hterminal
    have hdrop := List.drop_eq_nil_iff.mp hnil
    omega
  · obtain ⟨r', hr', -, hprogress⟩ := hwindowed.fillWindow hc
    rw [hwindowed.rangeEnd]
    exact ⟨r', hr', hprogress⟩
  · intro p
    obtain ⟨r', hr', -, hpending⟩ := hwindowed.pollNext hc p
    exact ⟨r', hr', hpending⟩

/-- The answer of a source whose second range of two bytes ends early. -/
def shortTail : Poll := fun offset _ => if offset = 2 then some (.ok [7]) else none

/-- The second of two ranges ends early while the first one is pending. -/
theorem window_invariant_shortTail : ∃ r₀ r : OrderedReader, new ⟨0, 6, 2, 2, 4⟩ = .ok r₀ ∧
    r₀.pollNext shortTail = some r ∧ (r.stopScheduling = true ∧ r.slots.length = 2) ∧
    r.reserved = (r.slots.map Slot.len).sum ∧ r.reserved ≤ 4 :=
  let r₀ : OrderedReader := ⟨⟨0, 6, 2, 2, 4⟩, 6, 0, 0, [], false, false, ⟨[], [], []⟩⟩
  let r : OrderedReader := ⟨⟨0, 6, 2, 2, 4⟩, 6, 4, 4,
    [⟨0, 2, .pending⟩, ⟨2, 2, .ready (.ok [7])⟩], true, false,
    ⟨[(0, 2), (2, 2)], [⟨0, 2, false⟩, ⟨2, 2, true⟩], []⟩⟩
  have hnew : new ⟨0, 6, 2, 2, 4⟩ = .ok r₀ := rfl
  have hpoll : r₀.pollNext shortTail = some r := rfl
  ⟨r₀, r, hnew, hpoll, ⟨rfl, rfl⟩, (window_invariant hnew (.next .start trivial hpoll)).2.1⟩

end OrderedReader

end Uring.Prefetch
