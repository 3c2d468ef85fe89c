import Rkvc.Mlvc.QptGrammar

/-!
# The grammar of PMF1

A PMF1 string is the magic number, three counts, the arrays and a tagged tail. `load_pmf`
finds the arrays and the tail by offsets it computes. It takes these strings, with anything
behind them, and no others (`loadPmf_iff`). On no string does it read outside of its data
or compute an offset that wraps (`Checked.loadPmf_eq`).
-/

namespace Rkvc.Mlvc
set_option autoImplicit false
open Lib

/-- The words of integers, low byte first. -/
def wordBytes (values : List Int32) : List UInt8 := values.flatMap fun n => leBytes 4 (toU32 n.toInt)

/-- The tag and what is behind it. -/
def Pmf.tail (p : Pmf) : List UInt8 :=
  if p.gaussian then
    leBytes 4 1 ++ (leBytes 8 p.scaleMin ++ (leBytes 8 p.scaleMax ++ (leBytes 4 p.scaleLevels ++ leBytes 4 p.indexSpace)))
  else leBytes 4 2 ++ (leBytes 4 p.qpNum ++ leBytes 4 p.channels)

def Pmf.bytes (p : Pmf) : List UInt8 :=
  pmfMagic ++ (leBytes 4 p.lengths.length ++ (leBytes 4 p.offsets.length ++ (leBytes 4 p.table.length ++
    (wordBytes p.lengths ++ (wordBytes p.offsets ++ (wordBytes p.table ++ p.tail))))))

/-- The fields of one tail; those of the other keep their defaults. -/
structure Pmf.OneTail (p : Pmf) : Prop where
  scales : p.scaleMin < 2 ^ 64 ∧ p.scaleMax < 2 ^ 64
  words : p.scaleLevels < 2 ^ 32 ∧ p.indexSpace < 2 ^ 32 ∧ p.qpNum < 2 ^ 32 ∧ p.channels < 2 ^ 32
  other : if p.gaussian then p.qpNum = 0 ∧ p.channels = 0
    else p.scaleMin = 0 ∧ p.scaleMax = 0 ∧ p.scaleLevels = 0 ∧ p.indexSpace = 0

/-- A payload of the grammar. -/
structure Pmf.Grammatical (p : Pmf) : Prop where
  lengths : 1 ≤ p.lengths.length ∧ p.lengths.length ≤ kMaxLen
  offsets : 1 ≤ p.offsets.length ∧ p.offsets.length ≤ kMaxLen
  table : 1 ≤ p.table.length ∧ p.table.length ≤ kMaxTab
  tail : p.OneTail

section Reads

variable {data field rest : List UInt8} {n off size : Nat}

/-- What is behind a field. -/
theorem drop_behind (here : data.drop off = field ++ rest) (length : field.length = size) :
    data.drop (off + size) = rest := by
  rw [← List.drop_drop, here, ← length, List.drop_left]

theorem rdU32_field (here : data.drop off = leBytes 4 n ++ rest) (small : n < 2 ^ 32) : rdU32 data off = n := by
  rw [rdU32, here, List.take_left' (leBytes_length 4 n)]
  exact leVal_leBytes small

theorem rdF64_field (here : data.drop off = leBytes 8 n ++ rest) (small : n < 2 ^ 64) : rdF64 data off = n := by
  have size := congrArg List.length here
  rw [List.length_drop, List.length_append, leBytes_length] at size
  rw [rdF64_eq (by omega), here, List.take_left' (leBytes_length 8 n)]
  exact leVal_leBytes small

theorem rdF64_split (inside : off + 8 ≤ data.length) :
    data.drop off = leBytes 8 (rdF64 data off) ++ data.drop (off + 8) := by
  have same := leBytes_leVal ((data.drop off).take 8)
  rw [field_length inside] at same
  rw [rdF64_eq inside, same, ← List.drop_drop, List.take_append_drop]

theorem rdF64_lt (inside : off + 8 ≤ data.length) : rdF64 data off < 2 ^ 64 := by
  have below := leVal_lt ((data.drop off).take 8)
  rw [field_length inside] at below
  rw [rdF64_eq inside]
  exact below

theorem wordBytes_cons (n : Int32) (values : List Int32) :
    wordBytes (n :: values) = leBytes 4 (toU32 n.toInt) ++ wordBytes values :=
  List.flatMap_cons

theorem wordBytes_length (values : List Int32) : (wordBytes values).length = 4 * values.length := by
  induction values with
  | nil => rfl
  | cons n values ih =>
    rw [wordBytes_cons, List.length_append, leBytes_length, ih, List.length_cons]
    omega

/-- A signed word and the word it is stored as. -/
theorem ofNat_toU32 (n : Int32) : Int32.ofNat (toU32 n.toInt) = n := by
  have low : -2 ^ 31 ≤ n.toInt := n.le_toInt
  have high : n.toInt < 2 ^ 31 := n.toInt_lt
  apply Int32.toInt_inj.mp
  rw [Int32.toInt_ofNat', toU32]
  generalize n.toInt = z at *
  have stored : ((z % 2 ^ 32).toNat : Int) = z % 2 ^ 32 := by omega
  rw [stored]
  calc (z % 2 ^ 32).bmod Int32.size = z.bmod (2 ^ 32) := Int.emod_bmod z (2 ^ 32)
    _ = z := Int.bmod_eq_of_le (by omega) (by omega)

theorem toU32_ofNat (small : n < 2 ^ 32) : toU32 (Int32.ofNat n).toInt = n := by
  rw [Int32.toInt_ofNat', toU32]
  have same : (n : Int).bmod Int32.size % 2 ^ 32 = n % 2 ^ 32 := Int.bmod_emod
  rw [same]
  omega

theorem rdI32s_count {last : Nat} (ends : off + 4 * n = last) : (rdI32s data off last).length = n := by
  rw [rdI32s_length]
  omega

/-- No integers, then one in front of those behind it. -/
theorem rdI32s_zero (data : List UInt8) (off : Nat) : rdI32s data off off = [] := by
  rw [rdI32s, Nat.sub_self]
  rfl

theorem rdI32s_succ (data : List UInt8) (off count : Nat) :
    rdI32s data off (off + 4 * (count + 1)) =
      Int32.ofNat (rdU32 data off) :: rdI32s data (off + 4) (off + 4 + 4 * count) := by
  have all : (off + 4 * (count + 1) - off) / 4 = count + 1 := by omega
  have others : (off + 4 + 4 * count - (off + 4)) / 4 = count := by omega
  rw [rdI32s, rdI32s, all, others, List.range_succ_eq_map, List.map_cons, List.map_map, Nat.mul_zero, Nat.add_zero]
  apply congrArg (Int32.ofNat (rdU32 data off) :: ·)
  apply List.map_congr_left
  intro i _
  have shifted : off + 4 * (i + 1) = off + 4 + 4 * i := by omega
  rw [Function.comp_apply, Nat.succ_eq_add_one, shifted]

/-- An array comes back. -/
theorem rdI32s_field {values : List Int32} {last : Nat} (here : data.drop off = wordBytes values ++ rest)
    (ends : off + 4 * values.length = last) : rdI32s data off last = values := by
  subst ends
  induction values generalizing off with
  | nil => exact rdI32s_zero data off
  | cons n values ih =>
    rw [wordBytes_cons, List.append_assoc] at here
    have head : rdU32 data off = toU32 n.toInt := rdU32_field here (toU32_lt _)
    rw [List.length_cons, rdI32s_succ, head, ofNat_toU32, ih (drop_behind here (leBytes_length 4 _))]

/-- The bytes that integers were read from. -/
theorem rdI32s_split (count : Nat) (inside : off + 4 * count ≤ data.length) :
    data.drop off = wordBytes (rdI32s data off (off + 4 * count)) ++ data.drop (off + 4 * count) := by
  induction count generalizing off with
  | zero =>
    rw [Nat.mul_zero, Nat.add_zero, rdI32s_zero]
    rfl
  | succ count ih =>
    have later : data.drop (off + 4) = _ := ih (by omega)
    have ends : off + 4 * (count + 1) = off + 4 + 4 * count := by omega
    rw [rdI32s_succ, wordBytes_cons, toU32_ofNat (rdU32_lt data off), List.append_assoc, ends, ← later]
    exact rdU32_split (by omega)

/-- The offsets are computed without a wrap. -/
theorem offsets_fit {nL nO nT : Nat} (fewL : nL ≤ kMaxLen) (fewO : nO ≤ kMaxLen) (fewT : nT ≤ kMaxTab) :
    u32 (nL * 4) = 4 * nL ∧ u32 (u32 (nL + nO) * 4) = 4 * nL + 4 * nO ∧
      u32 (u32 (nL + nO + nT) * 4) = 4 * nL + 4 * nO + 4 * nT := by
  have limitL : kMaxLen = 2 ^ 20 := rfl
  have limitT : kMaxTab = 2 ^ 24 := rfl
  have two : u32 (nL + nO) = nL + nO := u32_of_lt (by omega)
  have three : u32 (nL + nO + nT) = nL + nO + nT := u32_of_lt (by omega)
  rw [two, three, u32_of_lt (by omega), u32_of_lt (by omega), u32_of_lt (by omega)]
  omega

/-- The reads of a Gaussian tail. -/
theorem tail_gaussian {p : Pmf} (one : p.OneTail) (tagged : p.gaussian = true) (here : data.drop off = p.tail ++ rest) :
    rdU32 data off = 1 ∧ rdF64 data (off + 4) = p.scaleMin ∧ rdF64 data (off + 4 + 8) = p.scaleMax ∧
      rdU32 data (off + 4 + 16) = p.scaleLevels ∧ rdU32 data (off + 4 + 20) = p.indexSpace := by
  simp only [Pmf.tail, tagged, if_true, List.append_assoc] at here
  have atMin := drop_behind here (leBytes_length 4 _)
  have atMax := drop_behind atMin (leBytes_length 8 _)
  have atLevels := drop_behind atMax (leBytes_length 8 _)
  have atSpace := drop_behind atLevels (leBytes_length 4 _)
  exact ⟨rdU32_field here (by decide), rdF64_field atMin one.scales.1, rdF64_field atMax one.scales.2,
    rdU32_field atLevels one.words.1, rdU32_field atSpace one.words.2.1⟩

/-- The reads of the other. -/
theorem tail_bitest {p : Pmf} (one : p.OneTail) (tagged : p.gaussian = false) (here : data.drop off = p.tail ++ rest) :
    rdU32 data off = 2 ∧ rdU32 data (off + 4) = p.qpNum ∧ rdU32 data (off + 4 + 4) = p.channels := by
  simp only [Pmf.tail, tagged, Bool.false_eq_true, if_false, List.append_assoc] at here
  have atQp := drop_behind here (leBytes_length 4 _)
  have atChannels := drop_behind atQp (leBytes_length 4 _)
  exact ⟨rdU32_field here (by decide), rdU32_field atQp one.words.2.2.1, rdU32_field atChannels one.words.2.2.2⟩

theorem tail_length (p : Pmf) : p.tail.length = if p.gaussian then 28 else 12 := by
  rw [Pmf.tail]
  split <;> simp only [List.length_append, leBytes_length]

/-- **A PMF1 string is loaded as what it holds**, whatever is behind it. -/
theorem loadPmf_bytes {p : Pmf} (well : p.Grammatical) (rest : List UInt8) : loadPmf (p.bytes ++ rest) = .ok p := by
  obtain ⟨⟨someL, fewL⟩, ⟨someO, fewO⟩, ⟨someT, fewT⟩, one⟩ := well
  obtain ⟨wordL, wordO, wordT⟩ := offsets_fit fewL fewO fewT
  have limitL : kMaxLen = 2 ^ 20 := rfl
  have limitT : kMaxTab = 2 ^ 24 := rfl
  have sizeL := wordBytes_length p.lengths
  have sizeO := wordBytes_length p.offsets
  have sizeT := wordBytes_length p.table
  generalize bytes : p.bytes ++ rest = data
  simp only [Pmf.bytes, List.append_assoc] at bytes
  -- front to back
  have at0 : data.drop 0 = _ := bytes.symm
  have at4 : data.drop 4 = _ := drop_behind at0 rfl
  have at8 := drop_behind at4 (leBytes_length 4 _)
  have at12 := drop_behind at8 (leBytes_length 4 _)
  have atL : data.drop 16 = _ := drop_behind at12 (leBytes_length 4 _)
  have atO := drop_behind atL sizeL
  have atT := drop_behind atO sizeO
  have atTail := drop_behind atT sizeT
  have nL : rdU32 data 4 = p.lengths.length := rdU32_field at4 (by omega)
  have nO : rdU32 data 8 = p.offsets.length := rdU32_field at8 (by omega)
  have nT : rdU32 data 12 = p.table.length := rdU32_field at12 (by omega)
  have atTail : data.drop (16 + (4 * p.lengths.length + 4 * p.offsets.length + 4 * p.table.length)) = p.tail ++ rest := by
    simp only [Nat.add_assoc] at atTail ⊢
    exact atTail
  simp only [Nat.add_assoc] at atO atT
  have isL : rdI32s data 16 (16 + 4 * p.lengths.length) = p.lengths := rdI32s_field atL rfl
  have isO : rdI32s data (16 + 4 * p.lengths.length) (16 + (4 * p.lengths.length + 4 * p.offsets.length)) = p.offsets :=
    rdI32s_field atO (Nat.add_assoc _ _ _)
  have isT : rdI32s data (16 + (4 * p.lengths.length + 4 * p.offsets.length))
      (16 + (4 * p.lengths.length + 4 * p.offsets.length + 4 * p.table.length)) = p.table :=
    rdI32s_field atT (Nat.add_assoc _ _ _)
  have size := congrArg List.length atTail
  rw [List.length_drop, List.length_append] at size
  have header : data.take 4 = pmfMagic := by
    rw [← List.drop_zero (l := data), at0]
    exact List.take_left' rfl
  have long : 12 ≤ p.tail.length := by
    rw [tail_length]
    split <;> omega
  simp only [loadPmf, nL, nO, nT, wordL, wordO, wordT, isL, isO, isT]
  rw [if_neg (not_or.mpr ⟨by omega, not_not.mpr header⟩), if_neg (by omega), if_neg (by omega)]
  generalize 16 + (4 * p.lengths.length + 4 * p.offsets.length + 4 * p.table.length) = cur at *
  have other := one.other
  rw [tail_length] at size
  cases tagged : p.gaussian with
  | true =>
    obtain ⟨tag, first, second, third, fourth⟩ := tail_gaussian one tagged atTail
    rw [tagged, if_pos rfl] at size other
    rw [if_pos tag, if_neg (by omega), first, second, third, fourth]
    cases p
    simp_all only
  | false =>
    obtain ⟨tag, first, second⟩ := tail_bitest one tagged atTail
    rw [tagged, if_neg Bool.false_ne_true] at size other
    rw [if_neg (by omega), if_pos tag, if_neg (by omega), first, second]
    cases p
    simp_all only

/-- The bytes in front of the tail of a string that is loaded. -/
theorem front_split {nL nO nT : Nat} (isL : rdU32 data 4 = nL) (isO : rdU32 data 8 = nO) (isT : rdU32 data 12 = nT)
    (magic : data.take 4 = pmfMagic) (inside : 16 + (4 * nL + 4 * nO + 4 * nT) ≤ data.length) :
    data = pmfMagic ++ (leBytes 4 nL ++ (leBytes 4 nO ++ (leBytes 4 nT ++ (wordBytes (rdI32s data 16 (16 + 4 * nL)) ++
      (wordBytes (rdI32s data (16 + 4 * nL) (16 + (4 * nL + 4 * nO))) ++
        (wordBytes (rdI32s data (16 + (4 * nL + 4 * nO)) (16 + (4 * nL + 4 * nO + 4 * nT))) ++
          data.drop (16 + (4 * nL + 4 * nO + 4 * nT)))))))) := by
  have countL : data.drop 4 = leBytes 4 (rdU32 data 4) ++ data.drop 8 := rdU32_split (by omega)
  have countO : data.drop 8 = leBytes 4 (rdU32 data 8) ++ data.drop 12 := rdU32_split (by omega)
  have countT : data.drop 12 = leBytes 4 (rdU32 data 12) ++ data.drop 16 := rdU32_split (by omega)
  have arrayL : data.drop 16 = _ := rdI32s_split nL (by omega)
  have arrayO : data.drop (16 + 4 * nL) = _ := rdI32s_split nO (by omega)
  have arrayT : data.drop (16 + (4 * nL + 4 * nO)) = _ := rdI32s_split nT (by omega)
  rw [Nat.add_assoc] at arrayO arrayT
  rw [← arrayT, ← arrayO, ← arrayL, ← isT, ← countT, ← isO, ← countO, ← isL, ← countL, ← magic, List.take_append_drop]

theorem gaussian_split (tag : rdU32 data off = 1) (inside : off + 4 + 24 ≤ data.length) :
    data.drop off = leBytes 4 1 ++ (leBytes 8 (rdF64 data (off + 4)) ++ (leBytes 8 (rdF64 data (off + 4 + 8)) ++
      (leBytes 4 (rdU32 data (off + 4 + 16)) ++ (leBytes 4 (rdU32 data (off + 4 + 20)) ++ data.drop (off + 4 + 24))))) := by
  have levels : data.drop (off + 4 + 16) = leBytes 4 (rdU32 data (off + 4 + 16)) ++ data.drop (off + 4 + 20) :=
    rdU32_split (by omega)
  have space : data.drop (off + 4 + 20) = leBytes 4 (rdU32 data (off + 4 + 20)) ++ data.drop (off + 4 + 24) :=
    rdU32_split (by omega)
  have scaleMin : data.drop (off + 4) = leBytes 8 (rdF64 data (off + 4)) ++ data.drop (off + 4 + 8) :=
    rdF64_split (by omega)
  have scaleMax : data.drop (off + 4 + 8) = leBytes 8 (rdF64 data (off + 4 + 8)) ++ data.drop (off + 4 + 16) :=
    rdF64_split (by omega)
  rw [← space, ← levels, ← scaleMax, ← scaleMin, ← tag]
  exact rdU32_split (by omega)

theorem bitest_split (tag : rdU32 data off = 2) (inside : off + 4 + 8 ≤ data.length) :
    data.drop off = leBytes 4 2 ++ (leBytes 4 (rdU32 data (off + 4)) ++ (leBytes 4 (rdU32 data (off + 4 + 4)) ++
      data.drop (off + 4 + 8))) := by
  have qpNum : data.drop (off + 4) = leBytes 4 (rdU32 data (off + 4)) ++ data.drop (off + 4 + 4) :=
    rdU32_split (by omega)
  have channels : data.drop (off + 4 + 4) = leBytes 4 (rdU32 data (off + 4 + 4)) ++ data.drop (off + 4 + 8) :=
    rdU32_split (by omega)
  rw [← channels, ← qpNum, ← tag]
  exact rdU32_split (by omega)

/-- **What is loaded is a PMF1 string**, with anything behind it. -/
theorem loadPmf_sound {p : Pmf} (loaded : loadPmf data = .ok p) : p.Grammatical ∧ ∃ rest, data = p.bytes ++ rest := by
  simp only [loadPmf] at loaded
  split at loaded
  · cases loaded
  · rename_i header
    split at loaded
    · cases loaded
    · rename_i counts
      split at loaded
      · cases loaded
      · rename_i whole
        simp only [not_or, Nat.not_lt, Decidable.not_not, gt_iff_lt] at header counts
        obtain ⟨wordL, wordO, wordT⟩ := offsets_fit counts.2.1 counts.2.2.2.1 counts.2.2.2.2.2
        rw [wordL, wordO, wordT] at loaded
        have front := front_split rfl rfl rfl header.2 (by omega)
        generalize rdU32 data 4 = nL at *
        generalize rdU32 data 8 = nO at *
        generalize rdU32 data 12 = nT at *
        have sizeL : (rdI32s data 16 (16 + 4 * nL)).length = nL := rdI32s_count rfl
        have sizeO : (rdI32s data (16 + 4 * nL) (16 + (4 * nL + 4 * nO))).length = nO :=
          rdI32s_count (Nat.add_assoc _ _ _)
        have sizeT : (rdI32s data (16 + (4 * nL + 4 * nO)) (16 + (4 * nL + 4 * nO + 4 * nT))).length = nT :=
          rdI32s_count (Nat.add_assoc _ _ _)
        generalize rdI32s data 16 (16 + 4 * nL) = lengths at *
        generalize rdI32s data (16 + 4 * nL) (16 + (4 * nL + 4 * nO)) = offsets at *
        generalize rdI32s data (16 + (4 * nL + 4 * nO)) (16 + (4 * nL + 4 * nO + 4 * nT)) = table at *
        have inside : 16 + (4 * nL + 4 * nO + 4 * nT) + 4 ≤ data.length := by omega
        generalize 16 + (4 * nL + 4 * nO + 4 * nT) = cur at *
        -- either tail goes behind the arrays
        have behind (p : Pmf) (arrays : p.lengths = lengths ∧ p.offsets = offsets ∧ p.table = table) (one : p.OneTail)
            (rest : List UInt8) (isTail : data.drop cur = p.tail ++ rest) :
            p.Grammatical ∧ ∃ rest, data = p.bytes ++ rest := by
          obtain ⟨rfl, rfl, rfl⟩ := arrays
          constructor
          · exact ⟨by omega, by omega, by omega, one⟩
          · refine ⟨rest, front.trans ?_⟩
            simp only [Pmf.bytes, List.append_assoc, sizeL, sizeO, sizeT, isTail]
        split at loaded
        · rename_i tag
          split at loaded
          · cases loaded
          · rename_i ended
            have room : cur + 4 + 24 ≤ data.length := by omega
            cases loaded
            apply behind _ ⟨rfl, rfl, rfl⟩ _ (data.drop (cur + 4 + 24))
            · rw [gaussian_split tag room]
              simp only [Pmf.tail, if_true, List.append_assoc]
            · exact {
                scales := ⟨rdF64_lt (by omega), rdF64_lt (by omega)⟩
                words := ⟨rdU32_lt _ _, rdU32_lt _ _, Nat.two_pow_pos 32, Nat.two_pow_pos 32⟩
                other := ⟨rfl, rfl⟩ }
        · split at loaded
          · rename_i tag
            split at loaded
            · cases loaded
            · rename_i ended
              have room : cur + 4 + 8 ≤ data.length := by omega
              cases loaded
              apply behind _ ⟨rfl, rfl, rfl⟩ _ (data.drop (cur + 4 + 8))
              · rw [bitest_split tag room]
                simp only [Pmf.tail, Bool.false_eq_true, if_false, List.append_assoc]
              · exact {
                  scales := ⟨Nat.two_pow_pos 64, Nat.two_pow_pos 64⟩
                  words := ⟨Nat.two_pow_pos 32, Nat.two_pow_pos 32, rdU32_lt _ _, rdU32_lt _ _⟩
                  other := ⟨rfl, rfl, rfl, rfl⟩ }
          · cases loaded

/-- **`load_pmf` takes the PMF1 strings**, whatever is behind them, and no others. -/
theorem loadPmf_iff {p : Pmf} : loadPmf data = .ok p ↔ p.Grammatical ∧ ∃ rest, data = p.bytes ++ rest := by
  constructor
  · exact loadPmf_sound
  · rintro ⟨well, rest, rfl⟩
    exact loadPmf_bytes well rest

end Reads

namespace Checked

/-! ## The offsets

`none` is a read outside of the data, or an offset that does not fit 32 bits. -/

/-- A sum or a product in a 32-bit word. -/
def word (n : Nat) : Option Nat := if n < 2 ^ 32 then some n else none

/-- `rd_f64`. -/
def rdF64 (data : List UInt8) (pos : Nat) : Option Nat :=
  (rdU32 data pos).bind fun low => (rdU32 data (pos + 4)).map fun high => low ||| high <<< 32

/-- `assign`, from the integers between two offsets. -/
def rdI32s (data : List UInt8) (first last : Nat) : Option (List Int32) :=
  if first ≤ last then (range data first (last - first)).map fun bytes => Mlvc.rdI32s bytes 0 (last - first) else none

/-- `size - (cur - data)`. -/
def behind (data : List UInt8) (cur : Nat) : Option Nat :=
  if cur ≤ data.length then some (data.length - cur) else none

/-- **`load_pmf`** with its reads. -/
def loadPmf (data : List UInt8) : Option (Result Pmf) :=
  let bad (reason : String) : Option (Result Pmf) := some (Result.reject .format "load" "pmf" reason)
  if data.length < 20 then bad "bad magic"
  else (range data 0 4).bind fun magic =>
    if magic ≠ pmfMagic then bad "bad magic"
    else (rdU32 data 4).bind fun nL => (rdU32 data 8).bind fun nO => (rdU32 data 12).bind fun nT =>
      if nL = 0 ∨ nL > kMaxLen ∨ nO = 0 ∨ nO > kMaxLen ∨ nT = 0 ∨ nT > kMaxTab then bad "bad counts"
      else if (nL + nO + nT) * 4 + 4 > data.length - 16 then bad "truncated arrays"
      else (word (nL * 4)).bind fun bytesL => (word (nL + nO)).bind fun two => (word (two * 4)).bind fun bytesO =>
        (word (two + nT)).bind fun three => (word (three * 4)).bind fun bytesT =>
          (rdI32s data 16 (16 + bytesL)).bind fun lengths =>
            (rdI32s data (16 + bytesL) (16 + bytesO)).bind fun offsets =>
              (rdI32s data (16 + bytesO) (16 + bytesT)).bind fun table =>
                let p : Pmf := { lengths, offsets, table }
                let cur := 16 + bytesT
                (rdU32 data cur).bind fun tag =>
                  let cur := cur + 4
                  (behind data cur).bind fun left =>
                    if tag = 1 then
                      if left < 24 then bad "truncated gaussian tail"
                      else (rdF64 data cur).bind fun scaleMin => (rdF64 data (cur + 8)).bind fun scaleMax =>
                        (rdU32 data (cur + 16)).bind fun scaleLevels => (rdU32 data (cur + 20)).map fun indexSpace =>
                          .ok { p with scaleMin, scaleMax, scaleLevels, indexSpace, gaussian := true }
                    else if tag = 2 then
                      if left < 8 then bad "truncated bitest tail"
                      else (rdU32 data cur).bind fun qpNum => (rdU32 data (cur + 4)).map fun channels =>
                        .ok { p with qpNum, channels }
                    else bad "unknown tag"

variable {data : List UInt8} {pos first last n : Nat}

theorem word_eq (small : n < 2 ^ 32) : word n = some n := if_pos small

theorem behind_eq (inside : pos ≤ data.length) : behind data pos = some (data.length - pos) := if_pos inside

theorem rdF64_eq (inside : pos + 8 ≤ data.length) : rdF64 data pos = some (Mlvc.rdF64 data pos) := by
  rw [rdF64, rdU32_eq (by omega), Option.bind_some, rdU32_eq (by omega)]
  rfl

theorem rdI32s_eq (ordered : first ≤ last) (inside : last ≤ data.length) :
    rdI32s data first last = some (Mlvc.rdI32s data first last) := by
  rw [rdI32s, if_pos ordered, range_eq (by omega), Option.map_some, Mlvc.rdI32s, Mlvc.rdI32s, Nat.sub_zero]
  apply congrArg
  apply List.map_congr_left
  intro i listed
  have below := List.mem_range.mp listed
  apply congrArg
  rw [Mlvc.rdU32, Mlvc.rdU32, List.drop_take, List.drop_drop, List.take_take, Nat.min_eq_left (by omega), Nat.zero_add]

/-- **The loader reads nothing outside** of the bytes it is given, and no offset wraps. -/
theorem loadPmf_eq (data : List UInt8) : loadPmf data = some (Mlvc.loadPmf data) := by
  have limitL : kMaxLen = 2 ^ 20 := rfl
  have limitT : kMaxTab = 2 ^ 24 := rfl
  rw [loadPmf, Mlvc.loadPmf]
  by_cases short : data.length < 20
  · rw [if_pos short, if_pos (Or.inl short)]
  · rw [if_neg short, range_eq (by omega), Option.bind_some, List.drop_zero]
    by_cases magic : data.take 4 ≠ pmfMagic
    · rw [if_pos magic, if_pos (Or.inr magic)]
    · rw [if_neg magic, if_neg (not_or.mpr ⟨short, magic⟩), rdU32_eq (by omega), Option.bind_some, rdU32_eq (by omega),
        Option.bind_some, rdU32_eq (by omega), Option.bind_some]
      generalize Mlvc.rdU32 data 4 = nL
      generalize Mlvc.rdU32 data 8 = nO
      generalize Mlvc.rdU32 data 12 = nT
      by_cases counts : nL = 0 ∨ nL > kMaxLen ∨ nO = 0 ∨ nO > kMaxLen ∨ nT = 0 ∨ nT > kMaxTab
      · rw [if_pos counts, if_pos counts]
      · rw [if_neg counts, if_neg counts]
        simp only [not_or, Nat.not_lt, gt_iff_lt] at counts
        by_cases truncated : (nL + nO + nT) * 4 + 4 > data.length - 16
        · rw [if_pos truncated, if_pos truncated]
        · obtain ⟨wordL, wordO, wordT⟩ := offsets_fit counts.2.1 counts.2.2.2.1 counts.2.2.2.2.2
          rw [if_neg truncated, if_neg truncated, wordL, wordO, wordT, word_eq (by omega), Option.bind_some,
            word_eq (by omega), Option.bind_some, word_eq (by omega), Option.bind_some, word_eq (by omega),
            Option.bind_some, word_eq (by omega), Option.bind_some]
          have placeL : nL * 4 = 4 * nL := Nat.mul_comm nL 4
          have placeO : (nL + nO) * 4 = 4 * nL + 4 * nO := by omega
          have placeT : (nL + nO + nT) * 4 = 4 * nL + 4 * nO + 4 * nT := by omega
          rw [placeT] at truncated
          rw [placeL, placeO, placeT, rdI32s_eq (by omega) (by omega), Option.bind_some,
            rdI32s_eq (by omega) (by omega), Option.bind_some, rdI32s_eq (by omega) (by omega), Option.bind_some]
          dsimp only
          generalize Mlvc.rdI32s data 16 (16 + 4 * nL) = lengths
          generalize Mlvc.rdI32s data (16 + 4 * nL) (16 + (4 * nL + 4 * nO)) = offsets
          generalize Mlvc.rdI32s data (16 + (4 * nL + 4 * nO)) (16 + (4 * nL + 4 * nO + 4 * nT)) = table
          have inside : 16 + (4 * nL + 4 * nO + 4 * nT) + 4 ≤ data.length := by omega
          generalize 16 + (4 * nL + 4 * nO + 4 * nT) = cur at *
          rw [rdU32_eq inside, Option.bind_some, behind_eq inside, Option.bind_some]
          by_cases gaussian : Mlvc.rdU32 data cur = 1
          · rw [if_pos gaussian, if_pos gaussian]
            by_cases ended : data.length - (cur + 4) < 24
            · rw [if_pos ended, if_pos ended]
            · rw [if_neg ended, if_neg ended, rdF64_eq (by omega), Option.bind_some, rdF64_eq (by omega), Option.bind_some,
                rdU32_eq (by omega), Option.bind_some, rdU32_eq (by omega), Option.map_some]
          · rw [if_neg gaussian, if_neg gaussian]
            by_cases bitest : Mlvc.rdU32 data cur = 2
            · rw [if_pos bitest, if_pos bitest]
              by_cases ended : data.length - (cur + 4) < 8
              · rw [if_pos ended, if_pos ended]
              · rw [if_neg ended, if_neg ended, rdU32_eq (by omega), Option.bind_some, rdU32_eq (by omega),
                  Option.map_some]
            · rw [if_neg bitest, if_neg bitest]

end Checked

end Rkvc.Mlvc
