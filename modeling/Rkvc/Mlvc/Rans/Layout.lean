import Rkvc.Lib.Spans
import Rkvc.Mlvc.Rans.RoundTrip

/-!
# The representation of an accepted coder

`RansCoder::create` builds its two tables in separate passes, each with its own
running offset: `enc_syms` has one entry a symbol, `cdf_table` one more a
distribution. The segments of the distributions tile both tables
(`fill_consecutive`), a segment of one table is that of the other
(`RansCoder.LaidOut`), and the decoder's binary search inverts it
(`symbolOf_eq_iff`, `symbolOf_past_iff`).
-/

namespace Rkvc.Mlvc
set_option autoImplicit false
open Lib

namespace RansCoder

/-- The cumulative starts of a distribution, its total last. -/
def cdfOf (c : RansCoder) (d : RansDist) : List Nat := (c.cdfTable.drop d.decCdfOffset).take (d.bypassSentinel + 2)

/-- The encoder symbols of a distribution. -/
def symsOf (c : RansCoder) (d : RansDist) : List RansEncSym :=
  (c.encSyms.drop d.encSymOffset).take (d.bypassSentinel + 1)

/-- The search of `decode`, on the whole segment. -/
def symbolOf (c : RansCoder) (d : RansDist) (cum : Nat) : Nat :=
  RansDecoder.search (c.cdfTable.drop d.decCdfOffset) cum (d.bypassSentinel + 1) 0 (d.bypassSentinel + 1)

/-- **The representation invariant** of the coder. -/
structure LaidOut (c : RansCoder) : Prop where
  /-- The symbol segments tile `enc_syms`. -/
  syms : Tiles c.encSyms.length (c.dists.map fun d => (d.encSymOffset, d.bypassSentinel + 1))
  /-- The CDF segments, one entry longer, tile `cdf_table`. -/
  cdfs : Tiles c.cdfTable.length (c.dists.map fun d => (d.decCdfOffset, d.bypassSentinel + 2))
  first : ∀ d ∈ c.dists, (c.cdfOf d)[0]? = some 0
  increasing : ∀ d ∈ c.dists, (c.cdfOf d).Pairwise (· < ·)
  bounded : ∀ d ∈ c.dists, ∀ start ∈ c.cdfOf d, start ≤ 2 ^ c.symbolBits
  /-- Both tables hold the same start and frequency of every symbol. -/
  same : ∀ d ∈ c.dists, c.symsOf d =
    List.zipWith (fun start next => encSymInit c.variant start (next - start) c.symbolBits) (c.cdfOf d) (c.cdfOf d).tail
  /-- The search finds the symbol whose interval holds `cum`, and no other. -/
  found : ∀ d ∈ c.dists, ∀ cum < 2 ^ c.symbolBits, ∀ k ≤ d.bypassSentinel,
    c.symbolOf d cum = k ↔ (c.cdfOf d).getD k 0 ≤ cum ∧ cum < (c.cdfOf d).getD (k + 1) 0
  /-- It runs past the end exactly when `cum` is at or above the last entry. -/
  past : ∀ d ∈ c.dists, ∀ cum < 2 ^ c.symbolBits,
    c.symbolOf d cum = d.bypassSentinel + 1 ↔ (c.cdfOf d).getD (d.bypassSentinel + 1) 0 ≤ cum

end RansCoder

/-! ## The running offsets -/

section Offsets
variable {variant : RansVariant} {b : Nat}

theorem segmentSyms_length {table : List Int32} {start : Nat} {syms : List RansEncSym}
    (h : RansCoder.segmentSyms variant b start table = some syms) : syms.length = table.length := by
  induction table generalizing start syms with
  | nil =>
    simp only [RansCoder.segmentSyms, Option.some.injEq] at h
    simp [← h]
  | cons freq freqs ih =>
    simp only [RansCoder.segmentSyms] at h
    split at h
    · obtain ⟨tail, ht, rfl⟩ := Option.map_eq_some_iff.1 h
      simp [ih ht]
    · cases h

/-- The segments of both tables follow one another, and end where the tables do. -/
theorem fill_consecutive {size cursor last offset : Nat} {lengths offsets table : List Int32}
    {dists dists' : List RansDist} {syms : List RansEncSym} {cdf : List Nat}
    (read : RansCoder.readDists size cursor lengths offsets = some (dists, last))
    (room : last ≤ cursor + table.length) (hsyms : RansCoder.fillSyms variant b dists table = some syms)
    (hcdf : RansCoder.fillCdf b offset dists table = some (dists', cdf)) :
    Consecutive cursor (dists'.map fun d => (d.encSymOffset, d.bypassSentinel + 1)) (cursor + syms.length) ∧
      Consecutive offset (dists'.map fun d => (d.decCdfOffset, d.bypassSentinel + 2)) (offset + cdf.length) := by
  induction lengths generalizing cursor offset offsets dists dists' syms cdf table with
  | nil =>
    simp only [RansCoder.readDists, Option.some.injEq, Prod.mk.injEq] at read
    obtain ⟨rfl, rfl⟩ := read
    simp only [RansCoder.fillSyms, RansCoder.fillCdf, Option.some.injEq, Prod.mk.injEq] at hsyms hcdf
    simp [← hcdf.1, ← hcdf.2, ← hsyms, Consecutive]
  | cons length lengths ih =>
    cases offsets with
    | nil =>
      simp only [RansCoder.readDists, Option.some.injEq, Prod.mk.injEq] at read
      obtain ⟨rfl, rfl⟩ := read
      simp only [RansCoder.fillSyms, RansCoder.fillCdf, Option.some.injEq, Prod.mk.injEq] at hsyms hcdf
      simp [← hcdf.1, ← hcdf.2, ← hsyms, Consecutive]
    | cons voff offsets =>
      obtain ⟨n, tail, -, hread, rfl⟩ := readDists_cons read
      have more := readDists_le hread
      simp only [RansCoder.fillSyms] at hsyms
      split at hsyms
      · cases hsyms
      · rename_i seg hseg
        obtain ⟨srest, hsrest, rfl⟩ := Option.map_eq_some_iff.1 hsyms
        simp only [RansCoder.fillCdf] at hcdf
        split at hcdf
        · cases hcdf
        · rename_i cseg hcseg
          obtain ⟨⟨drest, crest⟩, hcrest, hpair⟩ := Option.map_eq_some_iff.1 hcdf
          simp only [Prod.mk.injEq] at hpair
          obtain ⟨rfl, rfl⟩ := hpair
          have tlen : (table.take (n + 1)).length = n + 1 := by
            rw [List.length_take]; omega
          have slen := segmentSyms_length hseg
          have clen := (segmentCdf_spec hcseg).1
          obtain ⟨inSyms, inCdf⟩ := ih hread (by rw [List.length_drop]; omega) hsrest hcrest
          simp only [List.map_cons, List.length_append, Consecutive, true_and, slen, clen, tlen]
          rw [clen, tlen, Nat.add_assoc offset] at inCdf
          rw [Nat.add_assoc cursor] at inSyms
          exact ⟨inSyms, inCdf⟩

end Offsets

/-! ## One segment -/

section Segment
variable {c : RansCoder} {d : RansDist} {freqs : List Nat}

/-- The segment of `cdf_table` is the list of starts. -/
theorem cdfOf_eq (seg : c.Segment d freqs) : c.cdfOf d = (List.range (d.bypassSentinel + 2)).map (starts freqs) := by
  have len := seg.length
  apply List.ext_getElem?
  intro k
  rw [RansCoder.cdfOf, List.getElem?_take, List.getElem?_map, List.getElem?_drop]
  split
  · rename_i inside
    have entry := seg.cdf k (by omega)
    rw [Nat.sub_zero] at entry
    rw [entry, List.getElem?_range inside, Option.map_some]
  · rename_i out
    rw [List.getElem?_eq_none (by rw [List.length_range]; omega), Option.map_none]

theorem cdfOf_getD {k : Nat} (seg : c.Segment d freqs) (hk : k ≤ d.bypassSentinel + 1) :
    (c.cdfOf d).getD k 0 = starts freqs k := by
  rw [cdfOf_eq seg, List.getD_eq_getElem?_getD, List.getElem?_map, List.getElem?_range (by omega)]
  rfl

/-- A start lies below every later one. -/
theorem starts_lt (seg : c.Segment d freqs) {i j : Nat} (lt : i < j) (hj : j ≤ d.bypassSentinel + 1) :
    starts freqs i < starts freqs j := by
  have len := seg.length
  have below : i < freqs.length := by omega
  have pos := seg.pos _ (List.getElem_mem below)
  have next := starts_succ (List.getElem?_eq_getElem below)
  have mono := starts_mono freqs (show i + 1 ≤ j by omega)
  omega

/-- The search finds `k` when the starts up to `k`, and no later one, are at most `cum`. -/
theorem symbolOf_eq {cum k : Nat} (seg : c.Segment d freqs) (hk : k ≤ d.bypassSentinel + 1)
    (lo : k = 0 ∨ starts freqs k ≤ cum) (hi : k = d.bypassSentinel + 1 ∨ cum < starts freqs (k + 1)) :
    c.symbolOf d cum = k := by
  have len := seg.length
  apply RansDecoder.search_spec (n := d.bypassSentinel + 1) _ (Nat.zero_le k) hk (Nat.le_refl _) (by omega)
  intro mid hmid
  rw [RansDecoder.base_getD seg (by omega)]
  constructor
  · intro below
    by_contra le
    rcases hi with rfl | above
    · exact le hmid
    · have := starts_mono freqs (show k + 1 ≤ mid + 1 by omega)
      omega
  · intro lt
    rcases lo with rfl | below
    · exact absurd lt (Nat.not_lt_zero mid)
    · have := starts_mono freqs (show mid + 1 ≤ k by omega)
      omega

/-- Every `cum` lies in the interval of one symbol, or at or above the last start. -/
theorem symbolOf_spec (seg : c.Segment d freqs) (cum : Nat) :
    c.symbolOf d cum ≤ d.bypassSentinel + 1 ∧
      (c.symbolOf d cum = 0 ∨ starts freqs (c.symbolOf d cum) ≤ cum) ∧
      (c.symbolOf d cum = d.bypassSentinel + 1 ∨ cum < starts freqs (c.symbolOf d cum + 1)) := by
  obtain ⟨k, hk, lo, hi⟩ : ∃ k ≤ d.bypassSentinel + 1, (k = 0 ∨ starts freqs k ≤ cum) ∧
      (k = d.bypassSentinel + 1 ∨ cum < starts freqs (k + 1)) := by
    -- the least symbol that ends above `cum`
    by_cases ends : ∃ k, k ≤ d.bypassSentinel ∧ cum < starts freqs (k + 1)
    · refine ⟨Nat.find ends, by have := (Nat.find_spec ends).1; omega, ?_, Or.inr (Nat.find_spec ends).2⟩
      cases least : Nat.find ends with
      | zero => exact Or.inl rfl
      | succ k =>
        have before := Nat.find_min ends (m := k) (by omega)
        have inside := (Nat.find_spec ends).1
        rw [not_and, Nat.not_lt] at before
        exact Or.inr (before (by omega))
    · refine ⟨d.bypassSentinel + 1, Nat.le_refl _, Or.inr ?_, Or.inl rfl⟩
      by_contra below
      exact ends ⟨d.bypassSentinel, Nat.le_refl _, Nat.lt_of_not_le below⟩
  rw [symbolOf_eq seg hk lo hi]
  exact ⟨hk, lo, hi⟩

theorem symbolOf_eq_iff {cum k : Nat} (seg : c.Segment d freqs) (hk : k ≤ d.bypassSentinel) :
    c.symbolOf d cum = k ↔ starts freqs k ≤ cum ∧ cum < starts freqs (k + 1) := by
  constructor
  · rintro rfl
    obtain ⟨-, lo, hi⟩ := symbolOf_spec seg cum
    refine ⟨?_, hi.resolve_left (by omega)⟩
    rcases lo with zero | le
    · simp [zero]
    · exact le
  · rintro ⟨lo, hi⟩
    exact symbolOf_eq seg (by omega) (Or.inr lo) (Or.inr hi)

theorem symbolOf_past_iff {cum : Nat} (seg : c.Segment d freqs) :
    c.symbolOf d cum = d.bypassSentinel + 1 ↔ starts freqs (d.bypassSentinel + 1) ≤ cum := by
  constructor
  · intro past
    have lo := (symbolOf_spec seg cum).2.1
    rw [past] at lo
    exact lo.resolve_left (by omega)
  · intro le
    exact symbolOf_eq seg (Nat.le_refl _) (Or.inr le) (Or.inl rfl)

/-- The symbol segment, from the starts. -/
theorem symsOf_eq (seg : c.Segment d freqs) :
    c.symsOf d = List.zipWith (fun start next => encSymInit c.variant start (next - start) c.symbolBits)
      (c.cdfOf d) (c.cdfOf d).tail := by
  have len := seg.length
  apply List.ext_getElem?
  intro k
  rw [RansCoder.symsOf, List.getElem?_take, List.getElem?_drop, List.getElem?_zipWith, List.getElem?_tail,
    cdfOf_eq seg, List.getElem?_map, List.getElem?_map]
  split
  · rename_i inside
    have below : k < freqs.length := by omega
    have entry := seg.syms k _ (List.getElem?_eq_getElem below)
    have next := starts_succ (List.getElem?_eq_getElem below)
    rw [Nat.sub_zero] at entry
    rw [entry, List.getElem?_range (by omega), List.getElem?_range (by omega)]
    simp [next]
  · rename_i out
    rw [List.getElem?_eq_none (l := List.range _) (i := k + 1) (by rw [List.length_range]; omega)]
    cases (List.range (d.bypassSentinel + 2))[k]? <;> rfl

theorem cdfOf_increasing (seg : c.Segment d freqs) : (c.cdfOf d).Pairwise (· < ·) := by
  rw [cdfOf_eq seg, List.pairwise_map]
  apply List.pairwise_lt_range.imp_of_mem
  intro i j _ mem lt
  rw [List.mem_range] at mem
  exact starts_lt seg lt (by omega)

theorem cdfOf_bounded (seg : c.Segment d freqs) : ∀ start ∈ c.cdfOf d, start ≤ 2 ^ c.symbolBits := by
  intro start mem
  rw [cdfOf_eq seg] at mem
  obtain ⟨k, -, rfl⟩ := List.mem_map.1 mem
  exact Nat.le_trans (starts_le_sum freqs k) seg.total

end Segment

/-- **Every coder that `create` accepts is laid out.** -/
theorem create_laidOut {variant : RansVariant} {lengths offsets table : List Int32} {symbolBits bypassBits : Int32}
    {c : RansCoder} (h : RansCoder.create variant lengths offsets table symbolBits bypassBits = .ok c) :
    c.LaidOut := by
  have segments := (RansCoder.create_valid h).1.segment
  obtain ⟨-, -, -, dists, dists', syms, cdf, hread, hsyms, hcdf, rfl⟩ := RansCoder.create_ok h
  obtain ⟨inSyms, inCdf⟩ := fill_consecutive hread (by omega) hsyms hcdf
  rw [Nat.zero_add] at inSyms inCdf
  refine ⟨inSyms.tiles, inCdf.tiles, ?_, ?_, ?_, ?_, ?_, ?_⟩ <;> intro d mem <;> obtain ⟨freqs, seg⟩ := segments d mem
  · rw [cdfOf_eq seg]
    simp
  · exact cdfOf_increasing seg
  · exact cdfOf_bounded seg
  · exact symsOf_eq seg
  · intro cum _ k hk
    rw [cdfOf_getD seg (by omega), cdfOf_getD seg (by omega)]
    exact symbolOf_eq_iff seg hk
  · intro cum _
    rw [cdfOf_getD seg (Nat.le_refl _)]
    exact symbolOf_past_iff seg

/-- Two distributions, five symbols. -/
theorem laidOut_five : ∃ c, RansCoder.create .rans64 [2, 3] [0, -1] [3, 5, 1, 2, 4] 3 2 = .ok c ∧ c.LaidOut := by
  have accepted : (RansCoder.create .rans64 [2, 3] [0, -1] [3, 5, 1, 2, 4] 3 2).toOption.isSome := by decide +kernel
  cases made : RansCoder.create .rans64 [2, 3] [0, -1] [3, 5, 1, 2, 4] 3 2 with
  | error e =>
    rw [made] at accepted
    cases accepted
  | ok c => exact ⟨c, rfl, create_laidOut made⟩

end Rkvc.Mlvc
