import Uring.Core.Run

/-!
# Services that answer numbered calls

A service is called any number of times and answers each call at most once, in any order
and possibly never. Its specification says which answers a call permits. A system refines
a service when what its steps show is a trace of the service; a relation between the
states of both that every step keeps is enough for this.
-/

namespace Uring.Core

variable {α β : Type}

/-- What is seen of a service: a call, or the answer to the call of a number. -/
inductive Seen (α β : Type)
  | call (a : α)
  | answer (i : Nat) (b : β)
  deriving DecidableEq, Repr

/-- The calls so far, the first one first, and the numbers of those that are answered. -/
structure Service (α : Type) where
  calls : List α
  answered : List Nat

/-- A service that was never called. -/
def Service.idle : Service α := ⟨[], []⟩

/-- One step of a service: a call is given the next number, and an answer permitted for its
call is the only one the call gets. -/
inductive Service.Step (spec : Nat → α → β → Prop) (q : Service α) :
    Seen α β → Service α → Prop
  | call (a : α) : Step spec q (.call a) { q with calls := q.calls ++ [a] }
  | answer {i : Nat} {a : α} {b : β} (ha : q.calls[i]? = some a) (hn : i ∉ q.answered)
      (hb : spec i a b) : Step spec q (.answer i b) { q with answered := i :: q.answered }

/-- A trace of a service, with the states at its ends. -/
inductive Service.Trace (spec : Nat → α → β → Prop) :
    Service α → List (Seen α β) → Service α → Prop
  | nil {q : Service α} : Trace spec q [] q
  | cons {q q' q'' : Service α} {x : Seen α β} {xs : List (Seen α β)} (hx : q.Step spec x q')
      (hxs : Trace spec q' xs q'') : Trace spec q (x :: xs) q''

namespace Service

variable {spec : Nat → α → β → Prop}

theorem Trace.append {q q' q'' : Service α} {xs ys : List (Seen α β)} (h : Trace spec q xs q')
    (h' : Trace spec q' ys q'') : Trace spec q (xs ++ ys) q'' := by
  induction h with
  | nil => exact h'
  | cons hx _ ih => exact .cons hx (ih h')

theorem Trace.single {q q' : Service α} {x : Seen α β} (h : q.Step spec x q') :
    Trace spec q [x] q' :=
  .cons h .nil

/-- A trace whose answers satisfy a stronger specification is a trace of that one. -/
theorem Trace.strengthen {spec' : Nat → α → β → Prop} {q q' : Service α} {xs : List (Seen α β)}
    (h : Trace spec q xs q')
    (hspec : ∀ i a b, .answer i b ∈ xs → spec i a b → spec' i a b) : Trace spec' q xs q' := by
  induction h with
  | nil => exact .nil
  | cons hx _ ih =>
    have hrest := ih fun i a b hmem => hspec i a b (List.mem_cons_of_mem _ hmem)
    cases hx with
    | call a => exact .cons (.call a) hrest
    | answer ha hn hb => exact .cons (.answer ha hn (hspec _ _ _ List.mem_cons_self hb)) hrest

end Service

/-- The calls seen in a trace. -/
def Seen.calls (xs : List (Seen α β)) : List α :=
  xs.filterMap fun
    | .call a => some a
    | .answer _ _ => none

/-- The numbers answered in a trace. -/
def Seen.answers (xs : List (Seen α β)) : List Nat :=
  xs.filterMap fun
    | .call _ => none
    | .answer i _ => some i

/-- A call keeps its number. -/
theorem Seen.getElem?_calls_append {xs : List (Seen α β)} {i : Nat} {a : α}
    (h : (Seen.calls xs)[i]? = some a) (ys : List (Seen α β)) :
    (Seen.calls (xs ++ ys))[i]? = some a := by
  have happend : Seen.calls (xs ++ ys) = Seen.calls xs ++ Seen.calls ys := List.filterMap_append
  rw [happend, List.getElem?_append_left (List.getElem?_eq_some_iff.mp h).1]
  exact h

namespace Service

variable {spec : Nat → α → β → Prop}

/-- A trace accounts for its calls and its answers. -/
theorem Trace.eq {q q' : Service α} {xs : List (Seen α β)} (h : Trace spec q xs q') :
    q' = ⟨q.calls ++ Seen.calls xs, (Seen.answers xs).reverse ++ q.answered⟩ := by
  induction h with
  | @nil q => simp [Seen.calls, Seen.answers]
  | cons hx _ ih =>
    cases hx with
    | call a => rw [ih]; simp [Seen.calls, Seen.answers]
    | answer ha hn hb => rw [ih]; simp [Seen.calls, Seen.answers]

/-- In a trace every answer is permitted for a call made before it, and no call is answered
twice. -/
theorem Trace.sound {q' : Service α} {xs : List (Seen α β)} (h : Trace spec idle xs q') :
    (Seen.answers xs).Nodup ∧ ∀ before i b after, xs = before ++ .answer i b :: after →
      ∃ a, (Seen.calls before)[i]? = some a ∧ spec i a b := by
  -- the same from any state, by induction on the trace
  have hgen : ∀ {q q' : Service α} {xs : List (Seen α β)}, Trace spec q xs q' →
      ((Seen.answers xs).Nodup ∧ ∀ i ∈ Seen.answers xs, i ∉ q.answered) ∧
        ∀ before i b after, xs = before ++ .answer i b :: after →
          ∃ a, (q.calls ++ Seen.calls before)[i]? = some a ∧ spec i a b := by
    intro q q' xs h
    induction h with
    | nil => simp [Seen.answers]
    | @cons q q₁ q₂ x xs hx hxs ih =>
      obtain ⟨⟨hnodup, hnew⟩, hspec⟩ := ih
      cases hx with
      | call a =>
        refine ⟨⟨hnodup, hnew⟩, fun before i b after heq => ?_⟩
        cases before with
        | nil => cases heq
        | cons y before =>
          obtain ⟨rfl, rfl⟩ := List.cons.inj heq
          obtain ⟨a', ha', hb⟩ := hspec before i b after rfl
          exact ⟨a', by simpa [Seen.calls] using ha', hb⟩
      | @answer i a b ha hn hb =>
        have hcons : Seen.answers (.answer i b :: xs) = i :: Seen.answers xs := rfl
        refine ⟨⟨?_, ?_⟩, fun before j c after heq => ?_⟩
        · rw [hcons]
          exact List.nodup_cons.mpr ⟨fun hi => hnew i hi List.mem_cons_self, hnodup⟩
        · rw [hcons]
          intro j hj
          rcases List.mem_cons.mp hj with rfl | hj
          · exact hn
          · exact fun hin => hnew j hj (List.mem_cons_of_mem _ hin)
        · cases before with
          | nil =>
            cases heq
            exact ⟨a, by simpa [Seen.calls] using ha, hb⟩
          | cons y before =>
            obtain ⟨rfl, rfl⟩ := List.cons.inj heq
            obtain ⟨a', ha', hc⟩ := hspec before j c after rfl
            exact ⟨a', by simpa [Seen.calls] using ha', hc⟩
  obtain ⟨⟨hnodup, _⟩, hspec⟩ := hgen h
  exact ⟨hnodup, fun before i b after heq => by simpa [idle] using hspec before i b after heq⟩

/-- The simulation rule: a relation that holds initially and that every admitted step keeps,
while the service makes the steps that are seen, makes what is seen of a run a trace. -/
theorem trace_of_simulation {σ ε : Type} {step : σ → ε → Option σ} {ok : σ → ε → Prop}
    {out : σ → ε → List (Seen α β)} {s₀ : σ} (R : σ → Service α → Prop)
    (hstep : ∀ s e s' q, Reachable step ok s₀ s → ok s e → step s e = some s' → R s q →
      ∃ q', Trace spec q (out s e) q' ∧ R s' q') {s t : σ} {es : List ε} {q : Service α}
    (hr : Reachable step ok s₀ s) (hR : R s q) (ha : Admitted step ok s es)
    (h : run step s es = some t) : ∃ q', Trace spec q (outputs step out s es) q' ∧ R t q' := by
  induction es generalizing s q with
  | nil =>
    obtain rfl : s = t := Option.some.inj h
    exact ⟨q, .nil, hR⟩
  | cons e es ih =>
    simp only [run, Option.bind_eq_some_iff] at h
    obtain ⟨s', hs, hrest⟩ := h
    obtain ⟨q₁, htrace, hR'⟩ := hstep s e s' q hr ha.1 hs hR
    obtain ⟨q₂, htrace', hR''⟩ := ih (hr.next ha.1 hs) hR' (ha.2 s' hs) hrest
    refine ⟨q₂, ?_, hR''⟩
    simp only [outputs, hs]
    exact htrace.append htrace'

end Service

end Uring.Core
