import Uring.Core.Bytes
import Uring.Prefetch.Order

/-!
# Prefetched content

The consumer of an ordered reader checks every chunk against positioned reads of the file,
made outside the reader, and stops at the first value that is no chunk. Over a source whose
ranges are those of the file, or errors, each chunk is the next one of the file, `Ok(None)`
comes at its end, and an error is that of the next range.
-/

namespace Uring.Prefetch

open Uring.Core

/-- What one positioned read of the reference file returns: at most `n + 1` bytes, no bytes only
at the end of the file, or an error. -/
inductive Pread
  | data (n : Nat)
  | interrupted
  | error (e : IoError)
  deriving DecidableEq, Repr

/-- The loop of `reference_read`; `none` while it has more to read than there are answers. -/
def referenceLoop (file : List UInt8) (offset : Nat) :
    List Pread → List UInt8 → Nat → Option IoResult
  | [], bytes, read => if read < bytes.length then none else some (.ok (bytes.take read))
  | answer :: rest, bytes, read =>
    if read < bytes.length then
      match answer with
      | .interrupted => referenceLoop file offset rest bytes read
      | .error e => some (.error e)
      | .data n =>
        let data := window file (offset + read) (min (n + 1) (bytes.length - read))
        if data.length = 0 then some (.ok (bytes.take read))
        else referenceLoop file offset rest (overwrite bytes read data) (read + data.length)
    else some (.ok (bytes.take read))

/-- `reference_read`. -/
def referenceRead (file : List UInt8) (answers : List Pread) (offset len : Nat) :
    Option IoResult :=
  referenceLoop file offset answers (List.replicate len 0) 0

/-- What the checks of the consumer end with: the bytes and chunks delivered, or an error. -/
inductive Verdict
  | delivered (bytes chunks : Nat)
  | failed (e : IoError)
  /-- An overflow or a panic in the reader. -/
  | panicked
  deriving DecidableEq, Repr

/-- The local state of the loop over `next()` in `run`. -/
structure Consumer where
  delivered : Nat
  chunks : Nat
  verdict : Option Verdict
  deriving DecidableEq, Repr

namespace Consumer

/-- The loop has ended. -/
def stop (x : Consumer) (v : Verdict) : Consumer := { x with verdict := some v }

/-- The body of the loop, for a chunk. -/
def check (file : List UInt8) (answers : List Pread) (c : Config) (last : Nat) (x : Consumer)
    (chunk : Chunk) : Option Consumer :=
  let expected := c.offset + x.delivered
  if chunk.offset ≠ expected then
    some (x.stop (.failed (.other "non-contiguous output offsets")))
  else if last < expected then some (x.stop .panicked)
  else
    (referenceRead file answers expected (min (last - expected) c.chunk)).map fun
      | .error e => x.stop (.failed e)
      | .ok bytes =>
        if chunk.bytes ≠ bytes then
          x.stop (.failed (.other "byte mismatch against positioned std read"))
        else { x with delivered := x.delivered + chunk.bytes.length, chunks := x.chunks + 1 }

/-- What follows the loop. -/
def ended (file : List UInt8) (answers : List Pread) (c : Config) (last : Nat) (x : Consumer) :
    Option Consumer :=
  if c.offset + x.delivered < last then
    (referenceRead file answers (c.offset + x.delivered) 1).map fun
      | .error e => x.stop (.failed e)
      | .ok bytes =>
        if bytes ≠ [] then
          x.stop (.failed (.other "ordered reader terminated before reference EOF"))
        else x.stop (.delivered x.delivered x.chunks)
  else some (x.stop (.delivered x.delivered x.chunks))

/-- One value of `next()`; the reference read of its check is answered by `answers`. -/
def take (file : List UInt8) (answers : List Pread) (c : Config) (last : Nat) (x : Consumer) :
    Output → Option Consumer
  | .error e => some (x.stop (.failed e))
  | .ok none => x.ended file answers c last
  | .ok (some chunk) => x.check file answers c last chunk

end Consumer

/-- The bytes of the chunks among the values returned. -/
def content (xs : List Output) : List UInt8 :=
  xs.flatMap fun
    | .ok (some chunk) => chunk.bytes
    | _ => []

/-- A value that is a chunk. -/
def IsChunk (out : Output) : Prop := ∃ chunk, out = .ok (some chunk)

/-- Every range that `g` gives is the one of the file. -/
def Exact (file : List UInt8) (g : Nat → Nat → IoResult) : Prop :=
  ∀ a len bytes, g a len = .ok bytes → bytes = window file a len

/-- What sequential reading returns at `pos`: the next chunk of the file, `Ok(None)` with nothing
left, or the error of the next range. -/
inductive Next (file : List UInt8) (g : Nat → Nat → IoResult) (chunk last pos : Nat) :
    Output → Prop
  | chunk (h : pos < last) :
      Next file g chunk last pos (.ok (some ⟨pos, window file pos (min (last - pos) chunk)⟩))
  | done (h : window file pos (last - pos) = []) : Next file g chunk last pos (.ok none)
  | error {e : IoError} (h : pos < last) (he : g pos (min (last - pos) chunk) = .error e) :
      Next file g chunk last pos (.error e)

section Reference

variable {file : List UInt8} {offset : Nat}

/-- A store behind what was read adds to the front of the buffer. -/
theorem front_overwrite {bytes data : List UInt8} {read n : Nat}
    (hfront : bytes.take read = window file offset read)
    (hdata : data = window file (offset + read) n) (hfits : read + data.length ≤ bytes.length) :
    (overwrite bytes read data).take (read + data.length) =
      window file offset (read + data.length) := by
  have hwindow : window file (offset + read) data.length = data := hdata ▸ window_self _ _ _
  have hstored := window_overwrite bytes data hfits
  rw [window] at hstored
  rw [List.take_add, take_overwrite, hfront, hstored, window_add, hwindow]

/-- The loop keeps what it has read in the front of its buffer. -/
theorem referenceLoop_ok {answers : List Pread} {bytes result : List UInt8} {read : Nat}
    (hread : read ≤ bytes.length) (hfront : bytes.take read = window file offset read)
    (h : referenceLoop file offset answers bytes read = some (.ok result)) :
    result = window file offset bytes.length := by
  have hfull (hf : ¬ read < bytes.length) : bytes.take read = window file offset bytes.length := by
    rw [hfront, show read = bytes.length by omega]
  induction answers generalizing bytes read with
  | nil =>
    rw [referenceLoop] at h
    split at h
    · cases h
    · rename_i hf
      cases h
      exact hfull hf
  | cons answer rest ih =>
    unfold referenceLoop at h
    split at h
    · rename_i hmore
      cases answer with
      | interrupted => exact ih hread hfront h hfull
      | error e => cases h
      | data n =>
        simp only at h
        generalize hdata : window file (offset + read) (min (n + 1) (bytes.length - read)) = data
          at h
        split at h
        · rename_i hnil
          cases h
          rw [List.length_eq_zero_iff.mp hnil, window_eq_nil (by omega)] at hdata
          rw [hfront]
          exact window_clamp file offset (by omega)
        · have hle : data.length ≤ min (n + 1) (bytes.length - read) :=
            hdata ▸ length_window_le _ _ _
          have hlen := length_overwrite bytes read data
          have hnext := front_overwrite hfront hdata.symm (by omega)
          rw [← hlen]
          refine ih (by omega) hnext h fun hf => ?_
          rw [hnext, show read + data.length = (overwrite bytes read data).length by omega]
    · rename_i hf
      cases h
      exact hfull hf

/-- The reference read fails only with an error that one of its reads returned. -/
theorem referenceLoop_error {answers : List Pread} {bytes : List UInt8} {read : Nat} {e : IoError}
    (h : referenceLoop file offset answers bytes read = some (.error e)) :
    Pread.error e ∈ answers := by
  induction answers generalizing bytes read with
  | nil =>
    rw [referenceLoop] at h
    split at h <;> cases h
  | cons answer rest ih =>
    unfold referenceLoop at h
    split at h
    · cases answer with
      | interrupted => exact List.mem_cons_of_mem _ (ih h)
      | error e' =>
        cases h
        exact List.mem_cons_self
      | data n =>
        simp only at h
        split at h
        · cases h
        · exact List.mem_cons_of_mem _ (ih h)
    · cases h

/-- The reference read returns the range of the file. -/
theorem referenceRead_ok {answers : List Pread} {len : Nat} {result : List UInt8}
    (h : referenceRead file answers offset len = some (.ok result)) :
    result = window file offset len := by
  have hread := referenceLoop_ok (Nat.zero_le _) (by simp) h
  rwa [List.length_replicate] at hread

end Reference

@[simp] theorem content_append (xs ys : List Output) :
    content (xs ++ ys) = content xs ++ content ys :=
  List.flatMap_append

@[simp] theorem content_chunk (chunk : Chunk) (xs : List Output) :
    content (.ok (some chunk) :: xs) = chunk.bytes ++ content xs :=
  rfl

section Sequential

variable {file : List UInt8} {g : Nat → Nat → IoResult} {chunk last : Nat}

/-- Nothing but `Ok(None)` follows the last chunk. -/
theorem eq_nil_of_replicate {k : Nat} {pre post : List Output} {out : Output}
    (h : List.replicate k (.ok none) = pre ++ out :: post) (hpre : ∀ x ∈ pre, IsChunk x) :
    pre = [] ∧ out = .ok none := by
  have hall : ∀ x ∈ pre ++ out :: post, x = .ok none := by
    rw [← h]
    exact fun x hx => (List.mem_replicate.mp hx).2
  refine ⟨?_, hall out (by simp)⟩
  cases pre with
  | nil => rfl
  | cons x pre =>
    obtain ⟨ch, hch⟩ := hpre x List.mem_cons_self
    cases hch.symm.trans (hall x (by simp))

/-- One range of an exact source: its error, the whole range, the last bytes of the file, or
nothing at its end. -/
theorem outcomes_exact (hg : Exact file g) (hchunk : 0 < chunk) {a : Nat} (ha : a < last) :
    let len := min (last - a) chunk
    let bytes := window file a len
    (∃ e, g a len = .error e ∧ outcomes g (cut chunk last a) = [.error e]) ∨
      (bytes.length = len ∧ outcomes g (cut chunk last a) =
        .ok (some ⟨a, bytes⟩) :: outcomes g (cut chunk last (a + len))) ∨
      (bytes.length < len ∧ outcomes g (cut chunk last a) = [.ok (some ⟨a, bytes⟩)]) ∨
      (bytes = [] ∧ outcomes g (cut chunk last a) = []) := by
  intro len bytes
  have hle : bytes.length ≤ len := length_window_le file a len
  rw [cut_cons hchunk ha, outcomes]
  cases hres : g a len with
  | error e => exact Or.inl ⟨e, rfl, rfl⟩
  | ok bytes' =>
    obtain rfl : bytes' = bytes := hg a len bytes' hres
    refine Or.inr ?_
    have hno : ¬ min (last - a) chunk < bytes.length := not_lt.mpr hle
    simp only [hno, if_false]
    by_cases hfull : bytes.length = len
    · exact Or.inl ⟨hfull, by rw [if_pos hfull]⟩
    · rw [if_neg hfull]
      by_cases hnil : bytes = []
      · exact Or.inr (Or.inr ⟨hnil, by rw [if_pos hnil]⟩)
      · exact Or.inr (Or.inl ⟨by omega, by rw [if_neg hnil]⟩)

/-- Behind any number of chunks, sequential reading returns what comes next in the file. -/
theorem next_of_outcomes (hg : Exact file g) (hchunk : 0 < chunk) {a k : Nat}
    {pre post : List Output} {out : Output}
    (h : outcomes g (cut chunk last a) ++ List.replicate k (.ok none) = pre ++ out :: post)
    (hpre : ∀ x ∈ pre, IsChunk x) (ha : a ≤ last) :
    content pre = window file a (content pre).length ∧ a + (content pre).length ≤ last ∧
      Next file g chunk last (a + (content pre).length) out := by
  -- with nothing left, only `Ok(None)` follows
  have hends {a : Nat} {pre : List Output} (ha : a ≤ last) (hend : window file a (last - a) = [])
      (hrest : List.replicate k (.ok none) = pre ++ out :: post) (hpre : ∀ x ∈ pre, IsChunk x) :
      content pre = window file a (content pre).length ∧ a + (content pre).length ≤ last ∧
        Next file g chunk last (a + (content pre).length) out := by
    obtain ⟨rfl, rfl⟩ := eq_nil_of_replicate hrest hpre
    exact ⟨by simp [content], ha, .done hend⟩
  induction pre generalizing a with
  | nil =>
    by_cases hlt : a < last
    · refine ⟨by simp [content], ha, ?_⟩
      change Next file g chunk last a out
      rcases outcomes_exact hg hchunk hlt with ⟨e, he, hout⟩ | ⟨_, hout⟩ | ⟨_, hout⟩ | ⟨hnil, hout⟩
      all_goals rw [hout] at h
      · cases h
        exact .error hlt he
      · cases h
        exact .chunk hlt
      · cases h
        exact .chunk hlt
      · have hend := (window_eq_nil (by omega)).mp hnil
        exact (hends ha ((window_eq_nil (by omega)).mpr hend) h hpre).2.2
    · rw [cut_nil (by omega)] at h
      exact hends ha (by rw [show last - a = 0 by omega, window_zero]) h hpre
  | cons x pre ih =>
    by_cases hlt : a < last
    · have hpos : 0 < min (last - a) chunk := by omega
      have hpre' : ∀ y ∈ pre, IsChunk y := fun y hy => hpre y (List.mem_cons_of_mem _ hy)
      rcases outcomes_exact hg hchunk hlt with ⟨e, he, hout⟩ | ⟨hfull, hout⟩ | ⟨hshort, hout⟩ |
        ⟨hnil, hout⟩
      all_goals rw [hout] at h
      · obtain ⟨ch, rfl⟩ := hpre x List.mem_cons_self
        cases h
      · obtain ⟨rfl, hrest⟩ := List.cons.inj h
        obtain ⟨hcontent, hle, hnext⟩ := ih hrest hpre' (by omega)
        rw [content_chunk, List.length_append, hfull, ← Nat.add_assoc]
        refine ⟨?_, hle, hnext⟩
        rw [window_add, ← hcontent]
      · obtain ⟨rfl, hrest⟩ := List.cons.inj h
        obtain ⟨rfl, rfl⟩ := eq_nil_of_replicate hrest hpre'
        have hend : file.length ≤ a + (window file a (min (last - a) chunk)).length := by
          rw [window, List.length_take, List.length_drop] at hshort ⊢
          omega
        rw [content_chunk, show content ([] : List Output) = [] from rfl, List.append_nil]
        dsimp only
        refine ⟨(window_self _ _ _).symm, by omega, .done ?_⟩
        rw [window_eq_nil (by omega)]
        exact hend
      · cases (eq_nil_of_replicate h hpre).1
    · rw [cut_nil (by omega)] at h
      cases (eq_nil_of_replicate h hpre).1

end Sequential

namespace Consumer

/-- What the consumer has found after the values `returned`: it is at the right place of the
file; or it has seen all of it; or it has met one of the errors in `fails`. -/
def Checked (file : List UInt8) (c : Config) (last : Nat) (fails : IoError → Prop)
    (returned : List Output) (x : Consumer) : Prop :=
  match x.verdict with
  | none => (∀ out ∈ returned, IsChunk out) ∧ x.chunks = returned.length ∧
      x.delivered = (content returned).length ∧
      content returned = window file c.offset x.delivered ∧ c.offset + x.delivered ≤ last
  | some (.delivered n k) => content returned = window file c.offset (last - c.offset) ∧
      n = (content returned).length ∧ k + 1 = returned.length
  | some (.failed e) => fails e
  | some .panicked => False

variable {file : List UInt8} {c : Config} {last : Nat} {fails : IoError → Prop}
    {returned : List Output} {x x' : Consumer} {g : Nat → Nat → IoResult} {answers : List Pread}
    {out : Output}

theorem Checked.init (hc : c.offset ≤ last) : Checked file c last fails [] ⟨0, 0, none⟩ :=
  ⟨fun _ h => absurd h List.not_mem_nil, rfl, rfl, (window_zero _ _).symm, hc⟩

/-- The checks pass on what comes next in the file, and only an error ends them early. -/
theorem Checked.take (h : x.Checked file c last fails returned) (hv : x.verdict = none)
    (hnext : Next file g c.chunk last (c.offset + (content returned).length) out)
    (hfails : ∀ a len e, c.offset ≤ a → a + len ≤ last → g a len = .error e → fails e)
    (hanswers : ∀ e, Pread.error e ∈ answers → fails e)
    (ht : x.take file answers c last out = some x') :
    x'.Checked file c last fails (returned ++ [out]) := by
  rw [Checked, hv] at h
  obtain ⟨hchunks, hcount, hdelivered, hcontent, hle⟩ := h
  rw [← hdelivered] at hnext
  cases hnext with
  | error hlt he =>
    cases ht
    exact hfails _ _ _ (Nat.le_add_right _ _) (by omega) he
  | done hend =>
    have hall : content (returned ++ [.ok none]) = window file c.offset (last - c.offset) := by
      rw [content_append, hcontent, show last - c.offset = x.delivered + (last - (c.offset +
        x.delivered)) by omega, window_add, hend]
      rfl
    have hdone : (x.stop (.delivered x.delivered x.chunks)).Checked file c last fails
        (returned ++ [.ok none]) := by
      refine ⟨hall, ?_, ?_⟩
      · rw [content_append, List.length_append, hdelivered]
        rfl
      · rw [List.length_append, hcount]
        rfl
    change x.ended file answers c last = some x' at ht
    unfold ended at ht
    split at ht
    · rename_i hmore
      obtain ⟨result, href, rfl⟩ := Option.map_eq_some_iff.mp ht
      cases result with
      | error e => exact hanswers e (referenceLoop_error href)
      | ok bytes =>
        have hempty : bytes = [] := by
          rw [referenceRead_ok href, window_eq_nil Nat.one_pos]
          exact (window_eq_nil (by omega)).mp hend
        simp only [hempty, ne_eq, not_true, if_false]
        exact hdone
    · cases ht
      exact hdone
  | chunk hlt =>
    change x.check file answers c last _ = some x' at ht
    unfold check at ht
    simp only [ne_eq, not_true, if_false, not_lt.mpr hle] at ht
    obtain ⟨result, href, rfl⟩ := Option.map_eq_some_iff.mp ht
    cases result with
    | error e => exact hanswers e (referenceLoop_error href)
    | ok bytes =>
      have hsame := referenceRead_ok href
      simp only [← hsame, not_true, if_false]
      have hnew : content (returned ++ [.ok (some ⟨c.offset + x.delivered, bytes⟩)]) =
          content returned ++ bytes := by
        rw [content_append, content_chunk]
        exact congrArg _ (List.append_nil _)
      have hlen : bytes.length ≤ min (last - (c.offset + x.delivered)) c.chunk :=
        hsame ▸ length_window_le _ _ _
      rw [Checked]
      simp only [hv]
      refine ⟨?_, ?_, ?_, ?_, by omega⟩
      · intro out hout
        rcases List.mem_append.mp hout with hold | hlast
        · exact hchunks out hold
        · exact ⟨_, List.mem_singleton.mp hlast⟩
      · rw [hcount, List.length_append, List.length_singleton]
      · rw [hnew, List.length_append, hdelivered]
      · rw [hnew, window_add, ← hcontent, hsame, window_self]

end Consumer

end Uring.Prefetch
