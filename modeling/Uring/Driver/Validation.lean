import Uring.Driver.Step
import Uring.Shard.Range

/-!
# Validation at the driver's boundary

`submit` accepts exactly the representable requests. An accepted request is charged the
exact size of its allocation, and the loop recomputes the geometry that was validated. A
rejected request reaches neither a semaphore nor a channel.
-/

namespace Uring

open Uring.Core

/-- The smallest range of whole blocks around a range. -/
theorem superset_smallest {align : Nat} (ha : 0 < align) (offset len : Nat) :
    (align ∣ roundDown align offset ∧ roundDown align offset ≤ offset ∧
      align ∣ roundUp align (offset + len) ∧ offset + len ≤ roundUp align (offset + len)) ∧
      ∀ a b, align ∣ a → a ≤ offset → align ∣ b → offset + len ≤ b →
        a ≤ roundDown align offset ∧ roundUp align (offset + len) ≤ b :=
  ⟨⟨dvd_roundDown _ _, roundDown_le _ _, dvd_roundUp _ _, le_roundUp ha _⟩,
    fun _ _ had hale hbd hble => ⟨le_roundDown had hale, roundUp_le ha hbd hble⟩⟩

/-- The charge of an accepted positioned request is its allocation, not truncated. -/
theorem Representable.charge {limits : ReadLimits} {offset len align : Nat}
    (h : Representable limits offset len align) :
    chargeOf (spanOf offset len align + align - 1) = spanOf offset len align + align - 1 := by
  have hpos := Nat.pos_of_isPowerOfTwo h.pow
  have hdvd : align ∣ spanOf offset len align := by
    unfold spanOf
    exact Nat.dvd_sub (dvd_roundUp _ _) (dvd_roundDown _ _)
  have hlt := allocation_lt h.pow h.align_le hdvd h.span_le
  exact Nat.mod_eq_of_lt (by omega)

/-- The loop takes in the validated geometry. -/
theorem Shard.intake_geometry {c : Params} {s : Shard} {m : ReadMsg} (hm : Sendable c m)
    (hu : WideUsize c.usizeMax) (hd : s.shuttingDown = false) (base : Nat) : ∃ s' p,
      s.intakeRead c m base = some s' ∧ s'.pending.lookup m.id = some p ∧
        alignedGeometry c.usizeMax m.offset m.len m.align = some (p.offset, p.head, p.regionLen) ∧
        p.buf.bytes.length = p.regionLen + (m.align - 1) := by
  obtain ⟨k, hd', r, sqe, budget, hg, heq⟩ := intakeRead_accepts hm hu hd base
  refine ⟨_, newPending m base k hd' r (r + (m.align - 1)), heq, AList.lookup_insert _, hg, ?_⟩
  exact List.length_replicate

namespace Driver

/-- What becomes of a request whose validation fails. -/
structure Rejected (d d' : Driver) (id : Nat) (e : IoError) : Prop where
  kind : ∃ msg, e = .invalidInput msg
  /-- Nothing was sent and no semaphore touched. -/
  cells : d'.cells = d.cells
  bytes : d'.bytes = d.bytes
  /-- The handle resolves to the error and its drop does nothing. -/
  handle : ∃ h, d'.callers.lookup id = some (.holding h) ∧
    ∀ v, h.poll id v = (h.finish (.error e), v) ∧ h.drop id v = v

variable {cfg : Config} {d d' : Driver} {req : Request}

theorem submit_rejected {e : IoError} (hs : step cfg d (.submit req) = some d')
    (hv : validateRead cfg.params.usizeMax cfg.limits req.offset req.len req.align
      req.allowCurrentPosition = .error e) : Rejected d d' d.nextId e := by
  cases (step_transition hs).2 with
  | submit hl hs =>
    simp only [beginSubmit, hv] at hs
    split at hs
    · cases hs
    · cases hs
      exact ⟨validateRead_error hv, rfl, rfl, _, AList.lookup_insert _, fun v => ⟨rfl, rfl⟩⟩

theorem submit_accepted {n : Nat} (hs : step cfg d (.submit req) = some d')
    (hv : validateRead cfg.params.usizeMax cfg.limits req.offset req.len req.align
      req.allowCurrentPosition = .ok n) :
    ∃ s, d'.callers.lookup d.nextId = some (.submitting s) ∧
      s.req = req ∧ s.charge = chargeOf n := by
  cases (step_transition hs).2 with
  | submit hl hs =>
    simp only [beginSubmit, hv] at hs
    split at hs
    · cases hs
    · cases hs
      exact ⟨_, AList.lookup_insert _, rfl, rfl⟩

/-- Validation accepts exactly the representable positioned requests, with the smallest
aligned superset as geometry, there and again in the loop, and its allocation as charge;
of a stream request it checks the lengths. A rejected request sends and takes nothing. -/
theorem validation_exact (cfg : Config) (hu : WideUsize cfg.params.usizeMax) :
    (∀ offset len align,
      (∃ n, validateRead cfg.params.usizeMax cfg.limits offset len align false = .ok n) ↔
        Representable cfg.limits offset len align) ∧
    (∀ offset len align n,
      validateRead cfg.params.usizeMax cfg.limits offset len align false = .ok n →
        alignedGeometry cfg.params.usizeMax offset len align = some (roundDown align offset,
          offset - roundDown align offset, roundUp align (offset + len) - roundDown align offset) ∧
        ((align ∣ roundDown align offset ∧ roundDown align offset ≤ offset ∧
          align ∣ roundUp align (offset + len) ∧ offset + len ≤ roundUp align (offset + len)) ∧
          ∀ a b, align ∣ a → a ≤ offset → align ∣ b → offset + len ≤ b →
            a ≤ roundDown align offset ∧ roundUp align (offset + len) ≤ b) ∧
        chargeOf n = roundUp align (offset + len) - roundDown align offset + align - 1 ∧
        ∀ (s : Shard) id file permit base, s.shuttingDown = false → ∃ s' p,
          s.intakeRead cfg.params ⟨id, file, offset, len, align, permit⟩ base = some s' ∧
          s'.pending.lookup id = some p ∧ p.offset = roundDown align offset ∧
          p.head = offset - roundDown align offset ∧
          p.regionLen = roundUp align (offset + len) - roundDown align offset ∧
          p.buf.bytes.length = chargeOf n) ∧
    (∀ len, (∃ n, validateRead cfg.params.usizeMax cfg.limits currentPosition len 1 true = .ok n) ↔
      len ≤ maxReadLen ∧ (∀ max, cfg.limits.maxReadLen = some max → len ≤ max) ∧
        ∀ max, cfg.limits.maxInFlightBytes = some max → len ≤ max) ∧
    (∀ d d' req, step cfg d (.submit req) = some d' →
      (∀ e, validateRead cfg.params.usizeMax cfg.limits req.offset req.len req.align
        req.allowCurrentPosition = .error e → Rejected d d' d.nextId e) ∧
      ∀ n, validateRead cfg.params.usizeMax cfg.limits req.offset req.len req.align
        req.allowCurrentPosition = .ok n → ∃ s, d'.callers.lookup d.nextId = some (.submitting s) ∧
          s.req = req ∧ s.charge = chargeOf n) := by
  refine ⟨fun offset len align => ⟨?_, ?_⟩, fun offset len align n hn => ?_, fun len => ⟨?_, ?_⟩,
    fun d d' req hs => ⟨fun e => submit_rejected hs, fun n => submit_accepted hs⟩⟩
  · rintro ⟨n, hn⟩
    exact ((validateRead_positioned_iff hu).mp hn).1
  · exact fun h => ⟨_, (validateRead_positioned_iff hu).mpr ⟨h, rfl⟩⟩
  · obtain ⟨h, rfl⟩ := (validateRead_positioned_iff hu).mp hn
    have hpos := Nat.pos_of_isPowerOfTwo h.pow
    have hoff : offset < 2 ^ 64 := by
      have := h.offset_le
      unfold i64Max at this
      omega
    have hg := alignedGeometry_eq hu h.pow h.align_le hoff h.len_le
    refine ⟨hg, superset_smallest hpos offset len, h.charge, fun s id file permit base hd => ?_⟩
    obtain ⟨s', p, hs', hp, hgeo, hlen⟩ := Shard.intake_geometry (c := cfg.params)
      (m := ⟨id, file, offset, len, align, permit⟩) ⟨cfg.limits, _, Or.inl hn⟩ hu hd base
    rw [hg] at hgeo
    simp only [Option.some.injEq, Prod.mk.injEq] at hgeo
    obtain ⟨hk, hh, hr⟩ := hgeo
    refine ⟨s', p, hs', hp, hk.symm, hh.symm, hr.symm, ?_⟩
    rw [h.charge, hlen, ← hr]
    exact (Nat.add_sub_assoc hpos _).symm
  · rintro ⟨n, hn⟩
    exact (validateRead_stream_iff.mp hn).1
  · exact fun h => ⟨_, validateRead_stream_iff.mpr ⟨h, rfl⟩⟩

/-- One shard with a byte limit of eleven. -/
def elevenBytes : Config := ⟨Shard.oneSlot, 1, ⟨none, some 11⟩⟩

/-- Six bytes at offset five in blocks of four just fit; eight bytes do not. -/
theorem validation_exact_eleven :
    Representable elevenBytes.limits 5 6 4 ∧
      alignedGeometry elevenBytes.params.usizeMax 5 6 4 = some (4, 1, 8) ∧ chargeOf 11 = 11 ∧
      ¬ Representable elevenBytes.limits 5 8 4 := by
  have hu : WideUsize elevenBytes.params.usizeMax := by
    unfold WideUsize elevenBytes Shard.oneSlot
    decide
  have hok : validateRead elevenBytes.params.usizeMax elevenBytes.limits 5 6 4 false = .ok 11 := by
    decide +kernel
  have hexact := validation_exact elevenBytes hu
  have hfit := hexact.2.1 5 6 4 11 hok
  refine ⟨(hexact.1 5 6 4).mp ⟨_, hok⟩, hfit.1, hfit.2.2.1, fun h => ?_⟩
  obtain ⟨n, hn⟩ := (hexact.1 5 8 4).mpr h
  have hbad : validateRead elevenBytes.params.usizeMax elevenBytes.limits 5 8 4 false =
      .error (.invalidInput "aligned allocation exceeds byte budget") := by
    decide +kernel
  rw [hn] at hbad
  cases hbad

end Driver

end Uring
