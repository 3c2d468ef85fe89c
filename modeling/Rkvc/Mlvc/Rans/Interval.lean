import Rkvc.Mlvc.Rans.Stream

/-!
# The state interval along a run

`RansDecoder::init_state` accepts a stream whose state is at least the lower
bound. The encoder starts there, and a step keeps the interval exactly when
`Put.Keeps` holds of the state before it (`Put.apply_mem_iff`). The 64-bit
variant's steps are all narrow. The byte variant's are when both widths are at
most 23 bits; `RansCoder::create` admits 30.
-/

namespace Rkvc.Mlvc
set_option autoImplicit false
open Lib Lib.Ans

namespace Put
variable {p : Put} {v : RansVariant} {e : RansEncoder} {s : Nat × List UInt8}

/-- Every scale of the 64-bit variant is narrow. -/
theorem narrow_rans64 (fits : p.Fits .rans64) : p.Narrow .rans64 := fits.scale

/-- Frequency one in state zero: the reciprocal is off by one and the bias puts
the state at the end of the scale. -/
theorem dead_state (h : e.Shows .byte s) (fits : p.Fits .byte) (hs : s.1 < 2 ^ RansVariant.byte.stateBits)
    (sym : p.raw = false) (one : p.freq = 1) (zero : RansVariant.settled .byte p.scaleBits p.freq s.1 = 0) :
    (p.apply e).state = p.start + 2 ^ p.scaleBits - 1 := by
  have renormed := renormByte_settled (p := p) h hs
  have cap : 2 ^ p.scaleBits ≤ 2 ^ 30 := Nat.pow_le_pow_right (by decide) fits.cap
  have range := fits.range
  have threshold := encSymInit_xMaxHi .byte p.start p.freq p.scaleBits
  simp only [apply, sym, Bool.false_eq_true, if_false, RansEncoder.putSym, h.variant, RansEncoder.putSymByte,
    threshold, raw_threshold fits, renormed.state, zero]
  have quot : u32 (u64 (u32 0 * (encSymInit .byte p.start p.freq p.scaleBits).freqRcp) >>>
      (encSymInit .byte p.start p.freq p.scaleBits).freqRcpShift) = 0 := by
    simp [u32, u64]
  have bias : (encSymInit .byte p.start p.freq p.scaleBits).bias = p.start + 2 ^ p.scaleBits - 1 := by
    simp only [encSymInit, encSymInitByte, one, scale_word fits.scale]
    exact u32_of_lt (by omega)
  rw [quot, bias, Nat.zero_mul, Nat.add_zero]
  have word : u32 0 = 0 := rfl
  rw [word, Nat.zero_add]
  exact u32_of_lt (by omega)

/-- The pushed state lies above the lower bound of a wide scale when the settled
state fills the frequency, or the start makes up for it. -/
theorem step_ge_iff (fits : p.Fits v) (wide : ¬p.Narrow v) :
    v.lower ≤ (p.step v s).1 ↔
      p.freq ≤ v.settled p.scaleBits p.freq s.1 ∨ v.lower ≤ p.start + v.settled p.scaleBits p.freq s.1 := by
  have above : v.lower ≤ 2 ^ p.scaleBits := by
    rw [RansVariant.lower_eq]
    exact Nat.pow_le_pow_right (by decide) (by simp only [Narrow] at wide; omega)
  simp only [step]
  generalize v.settled p.scaleBits p.freq s.1 = y
  by_cases full : p.freq ≤ y
  · have pushed : 2 ^ p.scaleBits ≤ push (2 ^ p.scaleBits) p.freq p.start y := by
      simpa using push_ge (M := 2 ^ p.scaleBits) (s := p.start) (K := 1) fits.freq (by simpa using full)
    exact ⟨fun _ => .inl full, fun _ => Nat.le_trans above pushed⟩
  · have small : push (2 ^ p.scaleBits) p.freq p.start y = p.start + y := by
      rw [push, Nat.div_eq_of_lt (by omega), Nat.mod_eq_of_lt (by omega), Nat.zero_mul, Nat.zero_add]
    rw [small]
    exact ⟨.inr, fun h => h.resolve_left full⟩

/-- **A coding step keeps the interval exactly when `Keeps` holds** of the state
before it. -/
theorem apply_mem_iff (h : e.Shows v s) (fits : p.Fits v) (hs : v.Interval s.1) :
    v.Interval (p.apply e).state ↔ p.Keeps v s.1 := by
  by_cases narrow : p.Narrow v
  · have shows := apply_shows h fits hs.2 (.inr (live_of_narrow fits narrow hs))
    rw [shows.state]
    exact ⟨fun _ => .inl narrow, fun _ => step_mem fits narrow hs⟩
  · by_cases live : p.raw = true ∨ p.Live v s.1
    · have shows := apply_shows h fits hs.2 live
      have upper := step_lt fits hs.2
      have lower := step_ge_iff (s := s) fits narrow
      rw [shows.state]
      constructor
      · intro mem
        rcases lower.1 mem.1 with full | lift
        · exact .inr (.inl full)
        · exact .inr (.inr (.inl lift))
      · rintro (keep | full | lift | ⟨sym, one⟩)
        · exact absurd keep narrow
        · exact ⟨lower.2 (.inl full), upper⟩
        · exact ⟨lower.2 (.inr lift), upper⟩
        · rcases live with raw | more | pos
          · rw [sym] at raw; cases raw
          · omega
          · exact ⟨lower.2 (.inl (by omega)), upper⟩
    · cases v with
      | rans64 => exact absurd (narrow_rans64 fits) narrow
      | byte =>
        simp only [Live, not_or, Bool.not_eq_true, Nat.not_lt, Nat.le_zero] at live
        obtain ⟨sym, le_one, zero⟩ := live
        have one : p.freq = 1 := by have := fits.freq; omega
        have cap : 2 ^ p.scaleBits ≤ 2 ^ 30 := Nat.pow_le_pow_right (by decide) fits.cap
        have wide : 2 ^ 24 ≤ 2 ^ p.scaleBits :=
          Nat.pow_le_pow_right (by decide) (by simp only [Narrow, RansVariant.lowBits] at narrow; omega)
        have range := fits.range
        rw [dead_state h fits hs.2 sym one zero]
        refine ⟨fun _ => .inr (.inr (.inr ⟨sym, one⟩)), fun _ => ⟨?_, ?_⟩⟩
        · simp only [RansVariant.lower_eq, RansVariant.lowBits]
          omega
        · simp only [RansVariant.stateBits]
          omega

end Put

/-! ## Runs -/

/-- The encoder's state lies in the interval before and after every step. -/
def StaysIn (v : RansVariant) : List Put → RansEncoder → Prop
  | [], e => v.Interval e.state
  | p :: ps, e => v.Interval e.state ∧ StaysIn v ps (p.apply e)

/-- `Keeps` holds of every step at the state it starts in. -/
def KeptAlong (v : RansVariant) : List Put → RansEncoder → Prop
  | [], _ => True
  | p :: ps, e => p.Keeps v e.state ∧ KeptAlong v ps (p.apply e)

theorem staysIn_iff {v : RansVariant} {ps : List Put} {e : RansEncoder} (h : e.Open) (variant : e.variant = v)
    (fits : ∀ p ∈ ps, p.Fits v) (start : v.Interval e.state) : StaysIn v ps e ↔ KeptAlong v ps e := by
  subst variant
  induction ps generalizing e with
  | nil => exact ⟨fun _ => trivial, fun _ => start⟩
  | cons p ps ih =>
    obtain ⟨opened, same⟩ := Put.apply_open (p := p) h
    have step := Put.apply_mem_iff h.shows (fits p List.mem_cons_self) start
    have rest := fun next : e.variant.Interval (p.apply e).state =>
      ih (e := p.apply e) opened (by rw [same]; exact fun q hq => fits q (List.mem_cons_of_mem p hq))
        (by rw [same]; exact next)
    simp only [same] at rest
    have head : ∀ {ps e}, StaysIn e.variant ps e → e.variant.Interval e.state := by
      intro ps e stays
      cases ps with
      | nil => exact stays
      | cons => exact stays.1
    constructor
    · rintro ⟨-, stays⟩
      have next : e.variant.Interval (p.apply e).state := by
        have := head (e := p.apply e) (by rw [same]; exact stays)
        rwa [same] at this
      exact ⟨step.1 next, (rest next).1 stays⟩
    · rintro ⟨keep, kept⟩
      exact ⟨start, (rest (step.2 keep)).2 kept⟩

theorem staysIn_append {v : RansVariant} {ps qs : List Put} {e : RansEncoder}
    (h : StaysIn v (ps ++ qs) e) : StaysIn v qs (runPuts ps e) := by
  induction ps generalizing e with
  | nil => exact h
  | cons p ps ih => exact ih h.2

theorem StaysIn.start {v : RansVariant} {ps : List Put} {e : RansEncoder} (h : StaysIn v ps e) :
    v.Interval e.state := by
  cases ps with
  | nil => exact h
  | cons p ps => exact h.1

/-- Narrow steps are kept from any state of the interval. -/
theorem keptAlong_of_narrow {v : RansVariant} {ps : List Put} (narrow : ∀ p ∈ ps, p.Narrow v)
    (e : RansEncoder) : KeptAlong v ps e := by
  induction ps generalizing e with
  | nil => trivial
  | cons p ps ih =>
    exact ⟨.inl (narrow p List.mem_cons_self), ih (fun q hq => narrow q (List.mem_cons_of_mem p hq)) _⟩

/-! ## Encode calls -/

/-- One `encode` call of a stream. -/
structure EncodeCall where
  coder : RansCoder
  indices : List Int32
  values : List Int32

namespace EncodeCall

/-- The coder comes from `RansCoder::create` with the stream's variant. -/
def Accepted (v : RansVariant) (call : EncodeCall) : Prop :=
  ∃ lengths offsets table symbolBits bypassBits,
    RansCoder.create v lengths offsets table symbolBits bypassBits = .ok call.coder

theorem Accepted.valid {v : RansVariant} {call : EncodeCall} (h : call.Accepted v) :
    call.coder.Valid ∧ call.coder.variant = v := by
  obtain ⟨_, _, _, _, _, created⟩ := h
  obtain ⟨valid, variant, -, -⟩ := RansCoder.create_valid created
  exact ⟨valid, variant⟩

/-- The steps of a call. A call with spans of different sizes is rejected and
codes nothing. -/
def puts (call : EncodeCall) : List Put :=
  if call.indices.length ≠ call.values.length then []
  else encodePuts call.coder call.indices call.values

theorem puts_fits {v : RansVariant} {call : EncodeCall} (h : call.Accepted v) :
    ∀ p ∈ call.puts, p.Fits v := by
  obtain ⟨valid, rfl⟩ := h.valid
  intro p hp
  simp only [puts] at hp
  split at hp
  · cases hp
  · exact encodePuts_fits valid _ _ p hp

/-- Run the call on an encoder. -/
def run (call : EncodeCall) (e : RansEncoder) : RansEncoder :=
  (e.encode call.coder call.indices call.values).2

end EncodeCall

/-- The guards of `encode` pass for an open encoder and a valid coder. -/
theorem RansEncoder.encode_eq {c : RansCoder} {indices values : List Int32} {e : RansEncoder} (valid : c.Valid)
    (h : e.Open) (variant : e.variant = c.variant) (len : indices.length = values.length) :
    e.encode c indices values = (.ok, runPuts (encodePuts c indices values) e) := by
  obtain ⟨freqs, seg⟩ := valid.dist_segment 0
  obtain ⟨f, hf⟩ : ∃ f, freqs[0]? = some f := ⟨_, List.getElem?_eq_getElem (by have := seg.length; omega)⟩
  have syms : c.encSyms ≠ [] := by
    intro nil
    have := seg.syms 0 f hf
    simp [nil] at this
  have tables : (c.dists.isEmpty || c.encSyms.isEmpty) = false := by simp [valid.dists, syms]
  simp only [encode, len, tables, h.ready, ne_eq, not_true_eq_false, if_false, Bool.false_eq_true]
  exact encodeLoop_eq valid h variant

namespace EncodeCall

theorem run_eq {v : RansVariant} {call : EncodeCall} {e : RansEncoder} (accepted : call.Accepted v)
    (h : e.Open) (variant : e.variant = v) : call.run e = runPuts call.puts e := by
  obtain ⟨valid, same⟩ := accepted.valid
  by_cases len : call.indices.length = call.values.length
  · rw [run, RansEncoder.encode_eq valid h (variant.trans same.symm) len, puts, if_neg (by simpa using len)]
  · rw [run, RansEncoder.encode, if_pos len, puts, if_pos len]
    rfl

/-- The steps of a call are narrow when both widths of its coder are. -/
theorem puts_narrow {v : RansVariant} {call : EncodeCall} (symbol : call.coder.symbolBits ≤ v.lowBits)
    (bypass : call.coder.bypassBits ≤ v.lowBits) : ∀ p ∈ call.puts, p.Narrow v := by
  intro p hp
  have width : p.scaleBits = call.coder.symbolBits ∨ p.scaleBits = call.coder.bypassBits := by
    simp only [puts] at hp
    split at hp
    · cases hp
    · exact encodePuts_width p hp
  rcases width with eq | eq <;> simp only [Put.Narrow, eq, symbol, bypass]

end EncodeCall

/-- The encoder after the calls of a stream. -/
def encodeAll (calls : List EncodeCall) (e : RansEncoder) : RansEncoder :=
  calls.foldl (fun e call => call.run e) e

/-- The calls run their steps. -/
theorem encodeAll_eq {v : RansVariant} {calls : List EncodeCall} {e : RansEncoder}
    (accepted : ∀ call ∈ calls, call.Accepted v) (h : e.Open) (variant : e.variant = v) :
    encodeAll calls e = runPuts (calls.flatMap EncodeCall.puts) e := by
  induction calls generalizing e with
  | nil => rfl
  | cons call calls ih =>
    obtain ⟨opened, same⟩ := runPuts_open call.puts h
    rw [List.flatMap_cons, runPuts_append, ← ih (fun c hc => accepted c (List.mem_cons_of_mem call hc)) opened
      (same.trans variant), ← EncodeCall.run_eq (accepted call List.mem_cons_self) h variant]
    rfl

theorem flatMap_puts_fits {v : RansVariant} {calls : List EncodeCall}
    (accepted : ∀ call ∈ calls, call.Accepted v) : ∀ p ∈ calls.flatMap EncodeCall.puts, p.Fits v := by
  intro p hp
  obtain ⟨call, hcall, hp⟩ := List.mem_flatMap.1 hp
  exact EncodeCall.puts_fits (accepted call hcall) p hp

/-- Narrow widths make every step of a stream narrow. -/
theorem flatMap_puts_narrow {v : RansVariant} {calls : List EncodeCall}
    (widths : ∀ call ∈ calls, call.coder.symbolBits ≤ v.lowBits ∧ call.coder.bypassBits ≤ v.lowBits) :
    ∀ p ∈ calls.flatMap EncodeCall.puts, p.Narrow v := by
  intro p hp
  obtain ⟨call, hcall, hp⟩ := List.mem_flatMap.1 hp
  exact EncodeCall.puts_narrow (widths call hcall).1 (widths call hcall).2 p hp

/-- The content of a run consists of whole units. -/
theorem runPuts_aligned {v : RansVariant} {ps : List Put} {e : RansEncoder} (h : e.Open) (variant : e.variant = v)
    (fits : ∀ p ∈ ps, p.Fits v) (start : v.Interval e.state) (aligned : v.Aligned e.content) :
    v.Aligned (runPuts ps e).content := by
  subst variant
  obtain ⟨u, hu⟩ : ∃ u, e.variant = u := ⟨_, rfl⟩
  have shows := h.shows
  rw [hu] at fits start aligned shows ⊢
  cases u with
  | byte => exact Nat.one_dvd _
  | rans64 =>
    rw [(runPuts_shows shows fits (fun p hp => Put.narrow_rans64 (fits p hp)) start).content]
    exact foldl_step_aligned _ aligned

/-- A stream whose state lies in the interval is accepted. -/
theorem flush_accepted {v : RansVariant} {e : RansEncoder} (h : e.Open) (variant : e.variant = v)
    (mem : v.Interval e.state) (aligned : v.Aligned e.content) :
    ∃ bytes e', e.flush = (.ok, bytes, e') ∧ ((RansDecoder.new v).open bytes).1 = .ok := by
  subst variant
  obtain ⟨e', flushed⟩ := h.shows.flush mem.2
  obtain ⟨d, opened, -⟩ := RansDecoder.open_frameBytes (v := e.variant)
    (d := .new e.variant) (p := (e.state, e.content)) rfl mem.2 aligned
  refine ⟨_, e', flushed, ?_⟩
  rw [opened, if_neg (Nat.not_lt.2 mem.1)]

/-- **The state interval over a stream of calls.** The encoder's state stays in
the interval at every coding step exactly when `Keeps` holds along the run, and
then after any of the calls `flush` gives a stream the decoder opens. -/
theorem encode_run_interval {v : RansVariant} {calls : List EncodeCall} (capacity : Nat)
    (accepted : ∀ call ∈ calls, call.Accepted v) :
    (StaysIn v (calls.flatMap EncodeCall.puts) (.new v capacity) ↔
      KeptAlong v (calls.flatMap EncodeCall.puts) (.new v capacity)) ∧
    (KeptAlong v (calls.flatMap EncodeCall.puts) (.new v capacity) →
      ∀ done rest, calls = done ++ rest →
        v.Interval (encodeAll done (.new v capacity)).state ∧
          ∃ bytes e', (encodeAll done (.new v capacity)).flush = (.ok, bytes, e') ∧
            ((RansDecoder.new v).open bytes).1 = .ok) := by
  have opened := RansEncoder.new_open v capacity
  have start : v.Interval (RansEncoder.new v capacity).state := v.lower_mem
  have exact_steps := staysIn_iff opened rfl (flatMap_puts_fits accepted) start
  refine ⟨exact_steps, ?_⟩
  rintro kept done rest rfl
  have accepted_done : ∀ call ∈ done, call.Accepted v := fun c hc => accepted c (List.mem_append_left rest hc)
  have stays := exact_steps.2 kept
  rw [List.flatMap_append] at stays
  have mem := (staysIn_append stays).start
  obtain ⟨run_open, variant⟩ := runPuts_open (done.flatMap EncodeCall.puts) opened
  have aligned := runPuts_aligned opened rfl (flatMap_puts_fits accepted_done) start
    (by rw [RansEncoder.new_content]; exact v.aligned_nil)
  rw [encodeAll_eq accepted_done opened rfl]
  exact ⟨mem, flush_accepted run_open variant mem aligned⟩

/-- A byte coder with two symbols and four bits, as the tests use. -/
def sampleCoder : RansCoder :=
  match RansCoder.create .byte [3] [1] [9, 4, 3] 4 2 with
  | .ok c => c
  | .error _ => {}

/-- The run of three values, one of them bypassed. -/
theorem encode_run_interval_sample :
    RansVariant.byte.Interval (encodeAll [⟨sampleCoder, [0, -1, 0], [0, 7, 90]⟩] (.new .byte 0)).state ∧
      ∃ bytes e', (encodeAll [⟨sampleCoder, [0, -1, 0], [0, 7, 90]⟩] (.new .byte 0)).flush = (.ok, bytes, e') ∧
        ((RansDecoder.new .byte).open bytes).1 = .ok := by
  have accepted : ∀ call ∈ [EncodeCall.mk sampleCoder [0, -1, 0] [0, 7, 90]], call.Accepted .byte := by
    intro call hcall
    rw [List.mem_singleton.1 hcall]
    exact ⟨[3], [1], [9, 4, 3], 4, 2, rfl⟩
  have widths : ∀ call ∈ [EncodeCall.mk sampleCoder [0, -1, 0] [0, 7, 90]],
      call.coder.symbolBits ≤ RansVariant.byte.lowBits ∧ call.coder.bypassBits ≤ RansVariant.byte.lowBits := by
    intro call hcall
    rw [List.mem_singleton.1 hcall]
    decide +kernel
  exact (encode_run_interval 0 accepted).2 (keptAlong_of_narrow (flatMap_puts_narrow widths) _) _ [] rfl

/-- With 24 bypass bits one bypassed value empties the state, and the stream is
refused. -/
theorem wide_bypass_refused :
    ∃ c, RansCoder.create .byte [2] [0] [1, 1] 2 24 = .ok c ∧
      ((RansEncoder.new .byte 0).encode c [0] [1]).1 = .ok ∧
      ¬RansVariant.byte.Interval ((RansEncoder.new .byte 0).encode c [0] [1]).2.state ∧
      ((RansDecoder.new .byte).open ((RansEncoder.new .byte 0).encode c [0] [1]).2.flush.2.1).1 = .format :=
  ⟨_, rfl, by decide +kernel, by unfold RansVariant.Interval; decide +kernel, by decide +kernel⟩

end Rkvc.Mlvc
