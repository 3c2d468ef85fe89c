import Mathlib.Data.List.Basic
import Rkvc.Core.Status
import Rkvc.Lib.Word

/-!
# The rANS coder tables

`mlvc::RansCoder`. `create` validates a set of integer distributions and lays
out two tables: `encSyms`, one precomputed encoder symbol for each frequency,
and `cdfTable`, each distribution's cumulative starts with its total at the
end. The last symbol of a distribution is its bypass sentinel.

`RansCoder.Valid` is what the encoder and the decoder rely on: every
distribution has one list of positive frequencies, and both tables hold that
list's starts (`RansCoder.create_valid`).
-/

namespace Rkvc.Mlvc
set_option autoImplicit false
open Lib

inductive RansVariant where
  /-- 32-bit state, byte units. -/
  | byte
  /-- 64-bit state, 32-bit units. -/
  | rans64
  deriving DecidableEq, Repr

def kByteStateBits : Nat := 31
def kByteMaxScale : Nat := 30
def kByteLower : Nat := 1 <<< 23
def k64Lower : Nat := 1 <<< 31

namespace RansVariant

/-- `(variant == RansVariant::Byte) ? kByteMaxScale : 31`. -/
def maxScale : RansVariant → Nat
  | byte => kByteMaxScale
  | rans64 => 31

/-- Bytes of one unit of the stream. -/
def unitBytes : RansVariant → Nat
  | byte => 1
  | rans64 => 4

/-- `(variant == RansVariant::Byte) ? kByteLower : k64Lower`. -/
def lower : RansVariant → Nat
  | byte => kByteLower
  | rans64 => k64Lower

end RansVariant

structure RansEncSym where
  xMaxHi : Nat := 0
  freqRcpShift : Nat := 0
  freqRcp : Nat := 0
  /-- Used by the 64-bit variant only. -/
  freqRcpHi : Nat := 0
  freqCmpl : Nat := 0
  bias : Nat := 0
  deriving DecidableEq, Repr, Inhabited

structure RansDist where
  valueOffset : Int32 := 0
  bypassSentinel : Nat := 0
  encSymOffset : Nat := 0
  decCdfOffset : Nat := 0
  deriving DecidableEq, Repr, Inhabited

structure RansCoder where
  variant : RansVariant := .byte
  symbolBits : Nat := 0
  bypassBits : Nat := 0
  bypassMax : Nat := 0
  dists : List RansDist := []
  encSyms : List RansEncSym := []
  cdfTable : List Nat := []
  deriving DecidableEq, Repr

/-! ## Encoder symbols -/

/-- `while (freq > (1u << shift)) ++shift`. -/
def growShift (freq : Nat) : Nat → Nat → Nat
  | 0, shift => shift
  | fuel + 1, shift => if freq > u32 (1 <<< shift) then growShift freq fuel (shift + 1) else shift

/-- The loop's result from `shift = 1`. A frequency is below `2^31`, so thirty
rounds are enough. -/
def freqShift (freq : Nat) : Nat := growShift freq 30 1

def encSymInitByte (start freq scaleBits : Nat) : RansEncSym :=
  let scale := u32 (1 <<< scaleBits)
  let xMaxHi := u32 (freq <<< (kByteStateBits - scaleBits))
  if freq > 1 then
    let shift := freqShift freq
    let nom := u64 (u64 (1 <<< (shift + 32 - 1)) + (freq - 1))
    { xMaxHi := xMaxHi, freqRcp := u32 (nom / freq), freqRcpShift := shift - 1 + 32,
      bias := start, freqCmpl := scale - freq }
  else
    { xMaxHi := xMaxHi, freqRcp := 0xFFFFFFFF, freqRcpShift := 32,
      bias := u32 (start + scale - 1), freqCmpl := scale - freq }

def encSymInit64 (start freq scaleBits : Nat) : RansEncSym :=
  let scale := u32 (1 <<< scaleBits)
  let xMaxHi := u32 (freq <<< (31 - scaleBits))
  if freq > 1 then
    let shift := freqShift freq
    let x1 := u64 (1 <<< (shift + 31))
    let t1 := x1 / freq
    let x0 := u64 ((freq - 1) + u64 ((x1 % freq) <<< 32))
    let t0 := x0 / freq
    let rcp := u64 (t0 + u64 (t1 <<< 32))
    { xMaxHi := xMaxHi, freqRcp := u32 rcp, freqRcpHi := u32 (rcp >>> 32),
      freqRcpShift := shift - 1, bias := start, freqCmpl := scale - freq }
  else
    { xMaxHi := xMaxHi, freqRcp := 0xFFFFFFFF, freqRcpHi := 0xFFFFFFFF, freqRcpShift := 0,
      bias := u32 (start + scale - 1), freqCmpl := scale - freq }

def encSymInit : RansVariant → Nat → Nat → Nat → RansEncSym
  | .byte => encSymInitByte
  | .rans64 => encSymInit64

/-! ## `RansCoder::create` -/

/-- `freq > 0 && freq <= static_cast<int32_t>(max_freq - start)`. -/
def freqOk (maxFreq start : Nat) (freq : Int) : Bool :=
  0 < freq && freq ≤ i32 ((maxFreq : Int) - start)

namespace RansCoder

/-- First pass: one descriptor a distribution, and the cursor after the last. -/
def readDists (tableSize : Nat) : Nat → List Int32 → List Int32 → Option (List RansDist × Nat)
  | cursor, length :: lengths, offset :: offsets =>
    if length.toInt ≤ 1 ∨ tableSize - cursor < length.toInt.toNat then none
    else
      let n := length.toInt.toNat
      match readDists tableSize (cursor + n) lengths offsets with
      | none => none
      | some (dists, last) =>
        some ({ valueOffset := offset, bypassSentinel := n - 1, encSymOffset := cursor } :: dists, last)
  | cursor, _, _ => some ([], cursor)

/-- The encoder symbols of one distribution, from the running `start`. -/
def segmentSyms (variant : RansVariant) (symbolBits : Nat) : Nat → List Int32 → Option (List RansEncSym)
  | _, [] => some []
  | start, freq :: freqs =>
    if freqOk (1 <<< symbolBits) start freq.toInt then
      (segmentSyms variant symbolBits (start + freq.toInt.toNat) freqs).map
        (encSymInit variant start freq.toInt.toNat symbolBits :: ·)
    else none

/-- Second pass: the symbols of all distributions. -/
def fillSyms (variant : RansVariant) (symbolBits : Nat) : List RansDist → List Int32 → Option (List RansEncSym)
  | [], _ => some []
  | d :: dists, table =>
    match segmentSyms variant symbolBits 0 (table.take (d.bypassSentinel + 1)) with
    | none => none
    | some syms =>
      (fillSyms variant symbolBits dists (table.drop (d.bypassSentinel + 1))).map (syms ++ ·)

/-- The cumulative starts of one distribution, its total last. -/
def segmentCdf (symbolBits : Nat) : Nat → List Int32 → Option (List Nat)
  | start, [] => some [start]
  | start, freq :: freqs =>
    if freqOk (1 <<< symbolBits) start freq.toInt then
      (segmentCdf symbolBits (start + freq.toInt.toNat) freqs).map (start :: ·)
    else none

/-- Third pass: the starts of all distributions; each descriptor learns where
its own begin. -/
def fillCdf (symbolBits : Nat) : Nat → List RansDist → List Int32 → Option (List RansDist × List Nat)
  | _, [], _ => some ([], [])
  | offset, d :: dists, table =>
    match segmentCdf symbolBits 0 (table.take (d.bypassSentinel + 1)) with
    | none => none
    | some cdf =>
      (fillCdf symbolBits (offset + cdf.length) dists (table.drop (d.bypassSentinel + 1))).map
        fun (dists, rest) => ({ d with decCdfOffset := offset } :: dists, cdf ++ rest)

def create (variant : RansVariant) (lengths offsets table : List Int32) (symbolBits bypassBits : Int32) :
    Result RansCoder :=
  if lengths.isEmpty ∨ lengths.length ≠ offsets.length ∨ table.isEmpty then
    Result.reject .invalid "init" "rans" "bad pmf spans"
  else if symbolBits.toInt < 2 ∨ toU32 symbolBits.toInt > variant.maxScale ∨
      bypassBits.toInt < 2 ∨ toU32 bypassBits.toInt > variant.maxScale then
    Result.reject .invalid "init" "rans" "bad scale bits"
  else match readDists table.length 0 lengths offsets with
    | none => Result.reject .format "init" "rans" "bad dist length"
    | some (dists, cursor) =>
      if cursor ≠ table.length then Result.reject .format "init" "rans" "table size mismatch"
      else match fillSyms variant symbolBits.toInt.toNat dists table with
        | none => Result.reject .format "init" "rans" "bad freq"
        | some syms =>
          match fillCdf symbolBits.toInt.toNat 0 dists table with
          | none => Result.reject .format "init" "rans" "bad freq"
          | some (dists, cdf) =>
            .ok { variant := variant, symbolBits := symbolBits.toInt.toNat,
                  bypassBits := bypassBits.toInt.toNat, bypassMax := u32 (1 <<< bypassBits.toInt.toNat) - 1,
                  dists := dists, encSyms := syms, cdfTable := cdf }

/-- The distribution an index selects: past the end it is the last one. -/
def dist (c : RansCoder) (index : Nat) : RansDist :=
  c.dists.getD (if index ≥ c.dists.length then c.dists.length - 1 else index) {}

end RansCoder

/-! ## Cumulative starts -/

/-- The frequencies of a segment of the table. -/
def natFreqs (freqs : List Int32) : List Nat := freqs.map fun f => f.toInt.toNat

/-- The start of symbol `k`: the sum of the frequencies before it. -/
def starts (freqs : List Nat) (k : Nat) : Nat := (freqs.take k).sum

@[simp] theorem natFreqs_length (freqs : List Int32) : (natFreqs freqs).length = freqs.length := by
  simp [natFreqs]

@[simp] theorem starts_zero (freqs : List Nat) : starts freqs 0 = 0 := by simp [starts]

@[simp] theorem starts_length (freqs : List Nat) : starts freqs freqs.length = freqs.sum := by
  simp [starts]

@[simp] theorem starts_cons_succ (f : Nat) (freqs : List Nat) (k : Nat) :
    starts (f :: freqs) (k + 1) = f + starts freqs k := by
  simp [starts]

theorem starts_succ {freqs : List Nat} {k f : Nat} (h : freqs[k]? = some f) :
    starts freqs (k + 1) = starts freqs k + f := by
  simp [starts, List.take_add_one, h]

theorem starts_mono (freqs : List Nat) {i j : Nat} (h : i ≤ j) : starts freqs i ≤ starts freqs j := by
  induction freqs generalizing i j with
  | nil => simp [starts]
  | cons f freqs ih =>
    cases i with
    | zero => simp
    | succ i =>
      obtain ⟨j, rfl⟩ : ∃ m, j = m + 1 := ⟨j - 1, by omega⟩
      simp only [starts_cons_succ]
      have := ih (i := i) (j := j) (by omega)
      omega

theorem starts_le_sum (freqs : List Nat) (k : Nat) : starts freqs k ≤ freqs.sum := by
  rcases Nat.le_total k freqs.length with h | h
  · simpa using starts_mono freqs h
  · simp [starts, List.take_of_length_le h]

/-- A symbol's range ends within the total. -/
theorem starts_add_le {freqs : List Nat} {k f : Nat} (h : freqs[k]? = some f) :
    starts freqs k + f ≤ freqs.sum := by
  rw [← starts_succ h]
  exact starts_le_sum freqs (k + 1)

/-! ## What an accepted coder satisfies -/

/-- The segment of a distribution: its frequencies, and where both tables hold
their starts. `encBase` and `decBase` are the positions of the tables' heads. -/
structure SegmentAt (variant : RansVariant) (symbolBits encBase decBase : Nat)
    (encSyms : List RansEncSym) (cdfTable : List Nat) (d : RansDist) (freqs : List Nat) : Prop where
  length : freqs.length = d.bypassSentinel + 1
  sentinel : 1 ≤ d.bypassSentinel ∧ d.bypassSentinel < 2 ^ 31 - 1
  pos : ∀ f ∈ freqs, 0 < f
  total : freqs.sum ≤ 2 ^ symbolBits
  encBase_le : encBase ≤ d.encSymOffset
  decBase_le : decBase ≤ d.decCdfOffset
  syms : ∀ k f, freqs[k]? = some f →
    encSyms[d.encSymOffset - encBase + k]? = some (encSymInit variant (starts freqs k) f symbolBits)
  cdf : ∀ k, k ≤ freqs.length → cdfTable[d.decCdfOffset - decBase + k]? = some (starts freqs k)

/-- The segment of a distribution in a coder. -/
abbrev RansCoder.Segment (c : RansCoder) : RansDist → List Nat → Prop :=
  SegmentAt c.variant c.symbolBits 0 0 c.encSyms c.cdfTable

/-- **What `create` guarantees** and both directions of the coder rely on. -/
structure RansCoder.Valid (c : RansCoder) : Prop where
  symbol_lo : 2 ≤ c.symbolBits
  /-- `31` passes the width check, but then no frequency does. -/
  symbol_hi : c.symbolBits ≤ 30
  bypass_lo : 2 ≤ c.bypassBits
  bypass_hi : c.bypassBits ≤ c.variant.maxScale
  bypass_max : c.bypassMax = 2 ^ c.bypassBits - 1
  dists : c.dists ≠ []
  segment : ∀ d ∈ c.dists, ∃ freqs, c.Segment d freqs

theorem maxScale_le (v : RansVariant) : v.maxScale ≤ 31 := by cases v <;> decide

/-- A table placed behind another keeps its segments. -/
theorem SegmentAt.append {variant : RansVariant} {symbolBits encBase decBase : Nat}
    {syms0 syms : List RansEncSym} {cdf0 cdf : List Nat} {d : RansDist} {freqs : List Nat}
    (h : SegmentAt variant symbolBits (encBase + syms0.length) (decBase + cdf0.length) syms cdf d freqs) :
    SegmentAt variant symbolBits encBase decBase (syms0 ++ syms) (cdf0 ++ cdf) d freqs where
  length := h.length
  sentinel := h.sentinel
  pos := h.pos
  total := h.total
  encBase_le := Nat.le_trans (Nat.le_add_right _ _) h.encBase_le
  decBase_le := Nat.le_trans (Nat.le_add_right _ _) h.decBase_le
  syms := by
    intro k f hk
    have base := h.encBase_le
    rw [List.getElem?_append_right (by omega), ← h.syms k f hk]
    congr 1
    omega
  cdf := by
    intro k hk
    have base := h.decBase_le
    rw [List.getElem?_append_right (by omega), ← h.cdf k hk]
    congr 1
    omega

/-- The frequency check of `create` bounds the running start. -/
theorem freqOk_bound {b start : Nat} {freq : Int} (hb : b ≤ 30) (hs : start ≤ 2 ^ b)
    (h : freqOk (1 <<< b) start freq = true) : 0 < freq.toNat ∧ start + freq.toNat ≤ 2 ^ b := by
  have small : 2 ^ b ≤ 2 ^ 30 := Nat.pow_le_pow_right (by decide) hb
  simp only [freqOk, Nat.one_shiftLeft, Bool.and_eq_true, decide_eq_true_eq] at h
  rw [i32_of_range (by omega) (by omega)] at h
  omega

/-- At 31 bits the bound wraps to the least `int32_t` and no frequency passes. -/
theorem freqOk_wide (freq : Int) : freqOk (1 <<< 31) 0 freq = false := by
  have wrapped : i32 (((1 <<< 31 : Nat) : Int) - (0 : Nat)) = -2 ^ 31 := by decide
  simp only [freqOk, wrapped, Bool.and_eq_false_iff, decide_eq_false_iff_not]
  omega

section Segments
variable {variant : RansVariant} {b start : Nat} {table : List Int32}

/-- The frequencies of an accepted segment and its encoder symbols. -/
theorem segmentSyms_spec {syms : List RansEncSym} (hb : b ≤ 30) (hs : start ≤ 2 ^ b)
    (h : RansCoder.segmentSyms variant b start table = some syms) :
    (∀ f ∈ natFreqs table, 0 < f) ∧ start + (natFreqs table).sum ≤ 2 ^ b ∧ syms.length = table.length ∧
      ∀ k f, (natFreqs table)[k]? = some f →
        syms[k]? = some (encSymInit variant (start + starts (natFreqs table) k) f b) := by
  induction table generalizing start syms with
  | nil =>
    simp only [RansCoder.segmentSyms, Option.some.injEq] at h
    subst h
    simp [natFreqs, hs]
  | cons freq freqs ih =>
    simp only [RansCoder.segmentSyms] at h
    split at h
    · rename_i good
      obtain ⟨pos, next⟩ := freqOk_bound hb hs good
      obtain ⟨tail, ht, rfl⟩ := Option.map_eq_some_iff.1 h
      obtain ⟨tpos, ttotal, tlen, tsyms⟩ := ih next ht
      have head : natFreqs (freq :: freqs) = freq.toInt.toNat :: natFreqs freqs := rfl
      rw [head]
      refine ⟨?_, ?_, by simp [tlen], ?_⟩
      · rintro f (_ | ⟨_, hf⟩)
        · exact pos
        · exact tpos f hf
      · rw [List.sum_cons]; omega
      · intro k f hk
        cases k with
        | zero =>
          simp only [List.getElem?_cons_zero, Option.some.injEq] at hk
          simp [hk]
        | succ k =>
          simp only [List.getElem?_cons_succ] at hk ⊢
          rw [tsyms k f hk, starts_cons_succ, Nat.add_assoc]
    · cases h

/-- The cumulative starts of an accepted segment. -/
theorem segmentCdf_spec {cdf : List Nat} (h : RansCoder.segmentCdf b start table = some cdf) :
    cdf.length = table.length + 1 ∧
      ∀ k, k ≤ table.length → cdf[k]? = some (start + starts (natFreqs table) k) := by
  induction table generalizing start cdf with
  | nil =>
    simp only [RansCoder.segmentCdf, Option.some.injEq] at h
    subst h
    simp
  | cons freq freqs ih =>
    simp only [RansCoder.segmentCdf] at h
    split at h
    · obtain ⟨tail, ht, rfl⟩ := Option.map_eq_some_iff.1 h
      obtain ⟨tlen, tcdf⟩ := ih ht
      have head : natFreqs (freq :: freqs) = freq.toInt.toNat :: natFreqs freqs := rfl
      refine ⟨by simp [tlen], ?_⟩
      intro k hk
      cases k with
      | zero => simp
      | succ k =>
        simp only [List.getElem?_cons_succ, head, starts_cons_succ]
        rw [tcdf k (by simpa using hk), Nat.add_assoc]
    · cases h

/-- One round of the first pass. -/
theorem readDists_cons {size cursor last : Nat} {length voff : Int32} {lengths offsets : List Int32}
    {dists : List RansDist}
    (read : RansCoder.readDists size cursor (length :: lengths) (voff :: offsets) = some (dists, last)) :
    ∃ n tail, (1 ≤ n ∧ n < 2 ^ 31 - 1) ∧
      RansCoder.readDists size (cursor + (n + 1)) lengths offsets = some (tail, last) ∧
      dists = { valueOffset := voff, bypassSentinel := n, encSymOffset := cursor } :: tail := by
  have lim := length.toInt_lt
  simp only [RansCoder.readDists] at read
  split at read
  · cases read
  · split at read
    · cases read
    · rename_i long tail last' hread
      simp only [Option.some.injEq, Prod.mk.injEq] at read
      obtain ⟨rfl, rfl⟩ := read
      refine ⟨length.toInt.toNat - 1, tail, by omega, ?_, rfl⟩
      rwa [show length.toInt.toNat - 1 + 1 = length.toInt.toNat by omega]

/-- The cursor only moves forward. -/
theorem readDists_le {size cursor last : Nat} {lengths offsets : List Int32} {dists : List RansDist}
    (read : RansCoder.readDists size cursor lengths offsets = some (dists, last)) : cursor ≤ last := by
  induction lengths generalizing cursor offsets dists with
  | nil => simp_all [RansCoder.readDists]
  | cons length lengths ih =>
    cases offsets with
    | nil => simp_all [RansCoder.readDists]
    | cons offset offsets =>
      obtain ⟨n, tail, -, hread, -⟩ := readDists_cons read
      have := ih hread
      omega

/-- Every distribution of the three passes has its segment. -/
theorem fill_spec {size cursor last offset : Nat} {lengths offsets : List Int32}
    {dists dists' : List RansDist} {syms : List RansEncSym} {cdf : List Nat} (hb : b ≤ 30)
    (read : RansCoder.readDists size cursor lengths offsets = some (dists, last))
    (room : last ≤ cursor + table.length)
    (hsyms : RansCoder.fillSyms variant b dists table = some syms)
    (hcdf : RansCoder.fillCdf b offset dists table = some (dists', cdf)) :
    ∀ d ∈ dists', ∃ freqs, SegmentAt variant b cursor offset syms cdf d freqs := by
  induction lengths generalizing cursor offset offsets dists dists' syms cdf table with
  | nil =>
    simp only [RansCoder.readDists, Option.some.injEq, Prod.mk.injEq] at read
    obtain ⟨rfl, rfl⟩ := read
    simp only [RansCoder.fillCdf, Option.some.injEq, Prod.mk.injEq] at hcdf
    simp [← hcdf.1]
  | cons length lengths ih =>
    cases offsets with
    | nil =>
      simp only [RansCoder.readDists, Option.some.injEq, Prod.mk.injEq] at read
      obtain ⟨rfl, rfl⟩ := read
      simp only [RansCoder.fillCdf, Option.some.injEq, Prod.mk.injEq] at hcdf
      simp [← hcdf.1]
    | cons voff offsets =>
      obtain ⟨n, tail, sentinel, hread, rfl⟩ := readDists_cons read
      have more := readDists_le hread
      simp only [RansCoder.fillSyms] at hsyms
      split at hsyms
      · cases hsyms
      · rename_i seg hseg
        obtain ⟨srest, hsrest, rfl⟩ := Option.map_eq_some_iff.1 hsyms
        simp only [RansCoder.fillCdf] at hcdf
        split at hcdf
        · cases hcdf
        · rename_i cseg hcseg
          obtain ⟨⟨drest, crest⟩, hcrest, hpair⟩ := Option.map_eq_some_iff.1 hcdf
          simp only [Prod.mk.injEq] at hpair
          obtain ⟨rfl, rfl⟩ := hpair
          obtain ⟨pos, total, slen, ssyms⟩ := segmentSyms_spec hb (Nat.zero_le _) hseg
          obtain ⟨clen, ccdf⟩ := segmentCdf_spec hcseg
          have tlen : (table.take (n + 1)).length = n + 1 := by
            rw [List.length_take]; omega
          rintro d (_ | ⟨_, hd⟩)
          · refine ⟨natFreqs (table.take (n + 1)), by simp [tlen], sentinel, pos, by simpa using total,
              Nat.le_refl _, Nat.le_refl _, ?_, ?_⟩
            · intro k f hk
              have lt : k < seg.length := by
                rw [slen, ← natFreqs_length]
                exact (List.getElem?_eq_some_iff.1 hk).1
              simp only [Nat.sub_self, Nat.zero_add]
              rw [List.getElem?_append_left lt, ssyms k f hk, Nat.zero_add]
            · intro k hk
              rw [natFreqs_length] at hk
              simp only [Nat.sub_self, Nat.zero_add]
              rw [List.getElem?_append_left (by omega), ccdf k hk, Nat.zero_add]
          · obtain ⟨freqs, at_tail⟩ := ih hread
              (by rw [List.length_drop]; omega) hsrest hcrest d hd
            refine ⟨freqs, SegmentAt.append ?_⟩
            rwa [slen, tlen]

/-- Thirty-one symbol bits leave no frequency acceptable. -/
theorem fillSyms_wide {d : RansDist} {dists : List RansDist} (ne : table ≠ []) :
    RansCoder.fillSyms variant 31 (d :: dists) table = none := by
  cases table with
  | nil => exact absurd rfl ne
  | cons freq freqs =>
    rw [RansCoder.fillSyms, List.take_succ_cons, RansCoder.segmentSyms, freqOk_wide]
    rfl

end Segments

/-- `create` succeeds only through its last branch. -/
theorem RansCoder.create_ok {variant : RansVariant} {lengths offsets table : List Int32}
    {symbolBits bypassBits : Int32} {c : RansCoder}
    (h : create variant lengths offsets table symbolBits bypassBits = .ok c) :
    (lengths ≠ [] ∧ lengths.length = offsets.length ∧ table ≠ []) ∧
      (2 ≤ symbolBits.toInt ∧ toU32 symbolBits.toInt ≤ variant.maxScale) ∧
      (2 ≤ bypassBits.toInt ∧ toU32 bypassBits.toInt ≤ variant.maxScale) ∧
      ∃ dists dists' syms cdf, readDists table.length 0 lengths offsets = some (dists, table.length) ∧
        fillSyms variant symbolBits.toInt.toNat dists table = some syms ∧
        fillCdf symbolBits.toInt.toNat 0 dists table = some (dists', cdf) ∧
        c = { variant := variant, symbolBits := symbolBits.toInt.toNat, bypassBits := bypassBits.toInt.toNat,
              bypassMax := u32 (1 <<< bypassBits.toInt.toNat) - 1, dists := dists', encSyms := syms,
              cdfTable := cdf } := by
  simp only [create] at h
  split at h
  · cases h
  · rename_i spans
    split at h
    · cases h
    · rename_i bits
      split at h
      · cases h
      · rename_i dists cursor hread
        split at h
        · cases h
        · rename_i full
          split at h
          · cases h
          · rename_i syms hsyms
            split at h
            · cases h
            · rename_i dists' cdf hcdf
              simp only [Except.ok.injEq] at h
              simp only [List.isEmpty_iff, not_or, Decidable.not_not] at spans
              simp only [not_or, Int.not_lt, Nat.not_lt, gt_iff_lt] at bits
              rw [Decidable.not_not] at full
              exact ⟨spans, ⟨bits.1, bits.2.1⟩, ⟨bits.2.2.1, bits.2.2.2⟩, dists, dists', syms, cdf,
                by rw [full] at hread; exact hread, hsyms, hcdf, h.symm⟩

/-- An accepted width is a natural number up to the variant's cap. -/
theorem toNat_of_width {variant : RansVariant} {bits : Int32} (lo : 2 ≤ bits.toInt)
    (hi : toU32 bits.toInt ≤ variant.maxScale) :
    2 ≤ bits.toInt.toNat ∧ bits.toInt.toNat ≤ variant.maxScale := by
  have range := bits.toInt_lt
  rw [toU32_of_range (by omega) (by omega)] at hi
  omega

/-- **An accepted coder is valid.** -/
theorem RansCoder.create_valid {variant : RansVariant} {lengths offsets table : List Int32}
    {symbolBits bypassBits : Int32} {c : RansCoder}
    (h : create variant lengths offsets table symbolBits bypassBits = .ok c) :
    c.Valid ∧ c.variant = variant ∧ c.symbolBits = symbolBits.toInt.toNat ∧
      c.bypassBits = bypassBits.toInt.toNat := by
  obtain ⟨⟨lne, llen, tne⟩, ⟨slo, shi⟩, ⟨blo, bhi⟩, dists, dists', syms, cdf, hread, hsyms, hcdf, rfl⟩ :=
    create_ok h
  obtain ⟨slo', shi'⟩ := toNat_of_width slo shi
  obtain ⟨blo', bhi'⟩ := toNat_of_width blo bhi
  have cap := maxScale_le variant
  obtain ⟨l, ls, rfl⟩ := List.exists_cons_of_ne_nil lne
  obtain ⟨o, os, rfl⟩ : ∃ o os, offsets = o :: os := List.exists_cons_of_length_pos (by
    simp only [List.length_cons] at llen; omega)
  obtain ⟨n, tail, -, -, rfl⟩ := readDists_cons hread
  have narrow : symbolBits.toInt.toNat ≤ 30 := by
    by_contra wide
    have eq : symbolBits.toInt.toNat = 31 := by omega
    rw [eq, fillSyms_wide tne] at hsyms
    cases hsyms
  refine ⟨⟨slo', narrow, blo', bhi', ?_, ?_, ?_⟩, rfl, rfl, rfl⟩
  · have small : 2 ^ bypassBits.toInt.toNat < 2 ^ 32 := Nat.pow_lt_pow_right (by decide) (by omega)
    simp only [Nat.one_shiftLeft, u32_of_lt small]
  · simp only [fillCdf] at hcdf
    split at hcdf
    · cases hcdf
    · obtain ⟨_, _, hpair⟩ := Option.map_eq_some_iff.1 hcdf
      simp only [Prod.mk.injEq] at hpair
      rw [← hpair.1]
      exact List.cons_ne_nil _ _
  · exact fill_spec narrow hread (by omega) hsyms hcdf

/-- Every index selects one of the coder's distributions. -/
theorem RansCoder.Valid.dist_mem {c : RansCoder} (valid : c.Valid) (index : Nat) : c.dist index ∈ c.dists := by
  have some_dist := List.length_pos_iff.2 valid.dists
  have bound : (if index ≥ c.dists.length then c.dists.length - 1 else index) < c.dists.length := by
    split <;> omega
  rw [RansCoder.dist, List.getD_eq_getElem?_getD, List.getElem?_eq_getElem bound]
  exact List.getElem_mem bound

theorem RansCoder.Valid.dist_segment {c : RansCoder} (valid : c.Valid) (index : Nat) :
    ∃ freqs, c.Segment (c.dist index) freqs := valid.segment _ (valid.dist_mem index)

end Rkvc.Mlvc
