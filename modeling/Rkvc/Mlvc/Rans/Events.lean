import Rkvc.Mlvc.Rans.Reads

/-!
# The decoder with its accesses

The decoder once more, noting every byte and every cdf entry it reads, every
state it advances to, every digit count it goes on with, and every loop that
ends by its fuel and not by its test. Without the notes it is the decoder
(`decode_plain`, `open_plain`).
-/

namespace Rkvc.Mlvc
set_option autoImplicit false
open Lib

namespace RansDecoder

/-- What an operation does on its way. -/
inductive Event where
  /-- A byte of the data, by its place. -/
  | byte (index : Nat)
  /-- An entry of a distribution's cdf, by its place in the segment. -/
  | cdf (c : RansCoder) (desc : RansDist) (index : Nat)
  /-- The state after a successful advance. -/
  | advanced (x : Nat)
  /-- The digits of a bypass code that are read. -/
  | digits (c : RansCoder) (count : Nat)
  /-- A loop without fuel whose test holds. -/
  | spent

namespace Noted

/-- An operation of the decoder with its events. -/
abbrev Step (α : Type) : Type := Act Event RansDecoder α

def readByte : Step Nat := fun d =>
  if d.pos ≥ d.data.length then (none, d, [])
  else (some (d.data.getD d.pos 0).toNat, { d with pos := d.pos + 1 }, [.byte d.pos])

def readUnit32 : Step Nat := fun d =>
  if d.data.length - d.pos < 4 then (none, d, [])
  else
    (some (leVal ((d.data.drop d.pos).take 4)), { d with pos := d.pos + 4 },
      [.byte d.pos, .byte (d.pos + 1), .byte (d.pos + 2), .byte (d.pos + 3)])

def readUnit : Step Nat :=
  Act.look fun d =>
    match d.variant with
    | .byte => readByte
    | .rans64 => readUnit32

def initLoop (width : Nat) : Nat → Nat → Nat → Step Nat
  | 0, _, x => Act.pure x
  | n + 1, i, x => readUnit.bind fun u => initLoop width n (i + 1) (x + u <<< (i * width))

def initWord : Step Nat :=
  Act.look fun d =>
    match d.variant with
    | .byte => initLoop 8 4 0 0
    | .rans64 => initLoop 32 2 0 0

/-- The store of a state, which ends `advance`. -/
def setState (x : Nat) : Step Unit := fun d => (some (), { d with state := x }, [.advanced x])

def refillByte : Nat → Nat → Step Nat
  | 0, x => (Act.note (if x < kByteLower then [.spent] else [])).bind fun _ => Act.pure x
  | fuel + 1, x =>
    if x < kByteLower then readByte.bind fun u => refillByte fuel (u32 (u32 (x <<< 8) + u)) else Act.pure x

def refillFrom (x : Nat) : Step Unit :=
  Act.look fun d =>
    match d.variant with
    | .byte => (refillByte (d.data.length - d.pos + 1) x).bind setState
    | .rans64 =>
      if x < k64Lower then readUnit32.bind fun u => setState (u64 (u64 (x <<< 32) + u)) else setState x

def advance (start freq scaleBits : Nat) : Step Unit :=
  Act.look fun d => refillFrom (d.advanceWord start freq scaleBits)

def take (bits : Nat) : Step Nat :=
  Act.look fun d => (advance (d.get bits) 1 bits).bind fun _ => Act.pure (d.get bits)

def countLoop (c : RansCoder) (maxDigits : Nat) : Nat → Nat → Nat → Step Nat
  | 0, value, count => (Act.note (if value = c.bypassMax then [.spent] else [])).bind fun _ => Act.pure count
  | fuel + 1, value, count =>
    if value = c.bypassMax then
      (take c.bypassBits).bind fun value =>
        if count + value > maxDigits then Act.fail else countLoop c maxDigits fuel value (count + value)
    else Act.pure count

def digitLoop (c : RansCoder) : Nat → Nat → Nat → Step Nat
  | 0, _, encoded => Act.pure encoded
  | n + 1, shift, encoded =>
    (take c.bypassBits).bind fun value => digitLoop c n (shift + c.bypassBits) (encoded ||| u32 (value <<< shift))

def bypassCount (c : RansCoder) : Step Nat :=
  (take c.bypassBits).bind fun value =>
    if value > 32 / c.bypassBits then Act.fail
    else countLoop c (32 / c.bypassBits) (32 / c.bypassBits + 1) value value

def bypass (c : RansCoder) : Step Nat :=
  (bypassCount c).bind fun count => (Act.note [.digits c count]).bind fun _ => digitLoop c count 0 0

def search (c : RansCoder) (desc : RansDist) (cum : Nat) : Nat → Nat → Nat → Step Nat
  | 0, lo, hi => (Act.note (if lo < hi then [.spent] else [])).bind fun _ => Act.pure lo
  | fuel + 1, lo, hi =>
    if lo < hi then
      (Act.note [.cdf c desc (lo + (hi - lo) / 2 + 1)]).bind fun _ =>
        if (c.cdfTable.drop desc.decCdfOffset).getD (lo + (hi - lo) / 2 + 1) 0 ≤ cum then
          search c desc cum fuel (lo + (hi - lo) / 2 + 1) hi
        else search c desc cum fuel lo (lo + (hi - lo) / 2)
    else Act.pure lo

def symbolValue (c : RansCoder) (desc : RansDist) (symbol : Nat) : Step Int32 :=
  if symbol = desc.bypassSentinel then
    (bypass c).bind fun bv =>
      Act.pure (Int32.ofInt (unfoldBypass desc.bypassSentinel bv - desc.valueOffset.toInt))
  else Act.pure (Int32.ofInt (symbol - desc.valueOffset.toInt))

/-- What follows the search. -/
def decodeFound (c : RansCoder) (desc : RansDist) (symbol : Nat) : Step Int32 :=
  if symbol > desc.bypassSentinel then Act.fail
  else
    (Act.note [.cdf c desc symbol, .cdf c desc (symbol + 1)]).bind fun _ =>
      (advance ((c.cdfTable.drop desc.decCdfOffset).getD symbol 0)
        ((c.cdfTable.drop desc.decCdfOffset).getD (symbol + 1) 0 -
          (c.cdfTable.drop desc.decCdfOffset).getD symbol 0) c.symbolBits).bind fun _ => symbolValue c desc symbol

def decodeSymbol (c : RansCoder) (desc : RansDist) : Step Int32 :=
  Act.look fun d =>
    (search c desc (d.get c.symbolBits) (desc.bypassSentinel + 1) 0 (desc.bypassSentinel + 1)).bind
      (decodeFound c desc)

def decodeOne (c : RansCoder) (index : Int32) : Step Int32 :=
  if index.toInt < 0 then Act.pure 0 else decodeSymbol c (c.dist index.toInt.toNat)

def decodeLoop (c : RansCoder) :
    List Int32 → List Int32 → RansDecoder → Status × List Int32 × RansDecoder × List Event
  | value :: values, index :: indices, d =>
    match decodeOne c index d with
    | (none, d, events) => (.format, value :: values, d, events)
    | (some v, d, events) =>
      let (status, values, d, more) := decodeLoop c values indices d
      (status, v :: values, d, events ++ more)
  | values, _, d => (.ok, values, d, [])

def decode (c : RansCoder) (values indices : List Int32) (d : RansDecoder) :
    Status × List Int32 × RansDecoder × List Event :=
  if values.length ≠ indices.length then (.invalid, values, d, [])
  else if !d.opened || c.dists.isEmpty || c.cdfTable.isEmpty then (.invalid, values, d, [])
  else decodeLoop c values indices d

def «open» (data : List UInt8) (d : RansDecoder) : Status × RansDecoder × List Event :=
  if data.length % d.variant.unitBytes ≠ 0 then (.format, d, [])
  else
    match initWord { d with data := data, pos := 0, opened := false } with
    | (none, d, events) => (.format, d, events)
    | (some x, d, events) =>
      if x < d.variant.lower then (.format, d, events) else (.ok, { d with state := x, opened := true }, events)

/-! ## Without the notes -/

theorem readByte_plain (d : RansDecoder) : readByte.plain d = reading RansDecoder.readByte d := by
  unfold readByte reading RansDecoder.readByte Act.plain
  dsimp only
  by_cases done : d.pos ≥ d.data.length
  · rw [if_pos done, if_pos done]
  · rw [if_neg done, if_neg done]

theorem readUnit32_plain (d : RansDecoder) : readUnit32.plain d = reading RansDecoder.readUnit32 d := by
  unfold readUnit32 reading RansDecoder.readUnit32 Act.plain
  dsimp only
  by_cases done : d.data.length - d.pos < 4
  · rw [if_pos done, if_pos done]
  · rw [if_neg done, if_neg done]

theorem readUnit_plain (d : RansDecoder) : readUnit.plain d = reading RansDecoder.readUnit d := by
  unfold readUnit
  rw [Act.plain_look]
  cases variant : d.variant with
  | byte =>
    dsimp only
    rw [readByte_plain]
    unfold reading RansDecoder.readUnit
    rw [variant]
  | rans64 =>
    dsimp only
    rw [readUnit32_plain]
    unfold reading RansDecoder.readUnit
    rw [variant]

theorem initLoop_plain (width n : Nat) :
    ∀ i x d, (initLoop width n i x).plain d = RansDecoder.initLoop width n i x d := by
  have read : readUnit.plain = reading RansDecoder.readUnit := funext readUnit_plain
  induction n with
  | zero => exact fun _ _ _ => rfl
  | succ n ih =>
    intro i x d
    unfold initLoop
    rw [initLoop_succ, Act.plain_bind, read]
    congr 1
    funext u d1
    exact ih _ _ d1

theorem initWord_plain (d : RansDecoder) : initWord.plain d = d.initWord := by
  unfold initWord RansDecoder.initWord
  rw [Act.plain_look]
  cases d.variant with
  | byte => exact initLoop_plain 8 4 0 0 d
  | rans64 => exact initLoop_plain 32 2 0 0 d

theorem open_plain (data : List UInt8) (d : RansDecoder) :
    ((«open» data d).1, («open» data d).2.1) = d.open data := by
  unfold «open» RansDecoder.open initState
  split
  · rfl
  · have plain := initWord_plain { d with data := data, pos := 0, opened := false }
    rw [← plain]
    unfold Act.plain
    cases initWord { d with data := data, pos := 0, opened := false } with
    | mk r rest =>
      cases r with
      | none => rfl
      | some x =>
        dsimp only
        split <;> rfl

theorem refillByte_plain (fuel : Nat) :
    ∀ x d, (refillByte fuel x).plain d = RansDecoder.refillByte fuel x d := by
  induction fuel with
  | zero => exact fun _ _ => rfl
  | succ fuel ih =>
    intro x d
    unfold refillByte RansDecoder.refillByte
    by_cases low : x < kByteLower
    · rw [if_pos low, if_pos low, Act.plain_bind]
      have plain := readByte_plain d
      unfold reading at plain
      cases read : d.readByte with
      | none =>
        rw [read] at plain
        rw [andThen_none plain]
      | some r =>
        rw [read] at plain
        rw [andThen_some plain]
        exact ih _ r.2
    · rw [if_neg low, if_neg low]
      rfl

theorem refillFrom_plain (x : Nat) (d : RansDecoder) : (refillFrom x).plain d = RansDecoder.refillFrom x d := by
  unfold refillFrom RansDecoder.refillFrom
  rw [Act.plain_look]
  cases variant : d.variant with
  | byte =>
    dsimp only
    have plain := refillByte_plain (d.data.length - d.pos + 1) x d
    rw [Act.plain_bind]
    cases refilled : RansDecoder.refillByte (d.data.length - d.pos + 1) x d with
    | mk r d1 =>
      rw [refilled] at plain
      cases r with
      | none => rw [andThen_none plain]
      | some z =>
        rw [andThen_some plain]
        rfl
  | rans64 =>
    dsimp only
    by_cases low : x < k64Lower
    · rw [if_pos low, if_pos low, Act.plain_bind]
      have plain := readUnit32_plain d
      unfold reading at plain
      cases read : d.readUnit32 with
      | none =>
        rw [read] at plain
        rw [andThen_none plain]
      | some r =>
        rw [read] at plain
        rw [andThen_some plain]
        rfl
    · rw [if_neg low, if_neg low]
      exact congrArg (fun v => (some (), ({ d with variant := v, state := x } : RansDecoder))) variant

theorem advance_plain (start freq scaleBits : Nat) (d : RansDecoder) :
    (advance start freq scaleBits).plain d = advanceStep start freq scaleBits d := by
  rw [advanceStep_refill]
  exact refillFrom_plain _ d

theorem take_plain (bits : Nat) (d : RansDecoder) : (take bits).plain d = d.take bits := by
  have step : (advance (d.get bits) 1 bits).plain = advanceStep (d.get bits) 1 bits :=
    funext (advance_plain _ _ _)
  unfold take
  rw [Act.plain_look, Act.plain_bind, step, take_eq]
  rfl

theorem countLoop_plain (c : RansCoder) (maxDigits fuel : Nat) :
    ∀ value count d, (countLoop c maxDigits fuel value count).plain d =
      RansDecoder.countLoop c maxDigits fuel value count d := by
  induction fuel with
  | zero => exact fun _ _ _ => rfl
  | succ fuel ih =>
    intro value count d
    have taken : (take c.bypassBits).plain = fun d => d.take c.bypassBits := funext (take_plain _)
    unfold countLoop
    rw [countLoop_succ, Act.plain_ite, Act.plain_bind, taken]
    congr 2
    funext next d1
    rw [Act.plain_ite]
    congr 1
    exact ih _ _ d1

theorem digitLoop_plain (c : RansCoder) (n : Nat) :
    ∀ shift encoded d, (digitLoop c n shift encoded).plain d = RansDecoder.digitLoop c n shift encoded d := by
  induction n with
  | zero => exact fun _ _ _ => rfl
  | succ n ih =>
    intro shift encoded d
    have taken : (take c.bypassBits).plain = fun d => d.take c.bypassBits := funext (take_plain _)
    unfold digitLoop
    rw [digitLoop_succ, Act.plain_bind, taken]
    congr 1
    funext value d1
    exact ih _ _ d1

theorem bypassCount_plain (c : RansCoder) (d : RansDecoder) :
    (bypassCount c).plain d = RansDecoder.bypassCount c d := by
  have taken : (take c.bypassBits).plain = fun d => d.take c.bypassBits := funext (take_plain _)
  unfold bypassCount RansDecoder.bypassCount
  rw [Act.plain_bind, taken]
  congr 1
  funext value d1
  rw [Act.plain_ite, countLoop_plain]
  rfl

theorem bypass_plain (c : RansCoder) (d : RansDecoder) : (bypass c).plain d = d.bypass c := by
  have counted : (bypassCount c).plain = RansDecoder.bypassCount c := funext (bypassCount_plain c)
  unfold bypass
  rw [bypass_eq, Act.plain_bind, counted]
  congr 1
  funext count d1
  rw [Act.plain_note_bind]
  exact digitLoop_plain c count 0 0 d1

theorem search_plain (c : RansCoder) (desc : RansDist) (cum fuel : Nat) :
    ∀ lo hi d, (search c desc cum fuel lo hi).plain d =
      (some (RansDecoder.search (c.cdfTable.drop desc.decCdfOffset) cum fuel lo hi), d) := by
  induction fuel with
  | zero => exact fun _ _ _ => rfl
  | succ fuel ih =>
    intro lo hi d
    unfold search RansDecoder.search
    by_cases more : lo < hi
    · rw [if_pos more, if_pos more, Act.plain_note_bind, Act.plain_ite]
      dsimp only
      split
      · exact ih _ _ d
      · exact ih _ _ d
    · rw [if_neg more, if_neg more]
      rfl

theorem symbolValue_plain (c : RansCoder) (desc : RansDist) (symbol : Nat) (d : RansDecoder) :
    (symbolValue c desc symbol).plain d = RansDecoder.symbolValue c desc symbol d := by
  have bypassed : (bypass c).plain = fun d => d.bypass c := funext (bypass_plain c)
  unfold symbolValue RansDecoder.symbolValue
  rw [Act.plain_ite, Act.plain_bind, bypassed]
  rfl

theorem decodeSymbol_plain (c : RansCoder) (desc : RansDist) (d : RansDecoder) :
    (decodeSymbol c desc).plain d = RansDecoder.decodeSymbol c desc d := by
  have found := search_plain c desc (d.get c.symbolBits) (desc.bypassSentinel + 1) 0 (desc.bypassSentinel + 1) d
  have symbol : RansDecoder.search (c.cdfTable.drop desc.decCdfOffset) (d.get c.symbolBits)
      (desc.bypassSentinel + 1) 0 (desc.bypassSentinel + 1) = selected c desc (d.get c.symbolBits) := rfl
  unfold decodeSymbol
  rw [Act.plain_look, Act.plain_bind, andThen_some found, symbol, decodeSymbol_eq]
  unfold decodeFound decodeAt
  rw [Act.plain_ite, Act.plain_note_bind, Act.plain_bind]
  have step : ∀ start freq : Nat, (advance start freq c.symbolBits).plain = advanceStep start freq c.symbolBits :=
    fun start freq => funext (advance_plain start freq _)
  have value : (symbolValue c desc (selected c desc (d.get c.symbolBits))).plain =
      RansDecoder.symbolValue c desc (selected c desc (d.get c.symbolBits)) := funext (symbolValue_plain c desc _)
  rw [step, value]
  rfl

theorem decodeOne_plain (c : RansCoder) (index : Int32) (d : RansDecoder) :
    (decodeOne c index).plain d = RansDecoder.decodeOne c index d := by
  unfold decodeOne RansDecoder.decodeOne
  rw [Act.plain_ite, decodeSymbol_plain]
  rfl

theorem decodeLoop_plain (c : RansCoder) (values : List Int32) :
    ∀ (indices : List Int32) (d : RansDecoder),
      ((decodeLoop c values indices d).1, (decodeLoop c values indices d).2.1, (decodeLoop c values indices d).2.2.1) =
        RansDecoder.decodeLoop c values indices d := by
  induction values with
  | nil => exact fun _ _ => rfl
  | cons value values ih =>
    intro indices d
    cases indices with
    | nil => rfl
    | cons index indices =>
      have one := decodeOne_plain c index d
      unfold decodeLoop RansDecoder.decodeLoop
      rw [← one]
      unfold Act.plain
      cases decodeOne c index d with
      | mk r rest =>
        obtain ⟨d1, events⟩ := rest
        cases r with
        | none => rfl
        | some v =>
          dsimp only
          rw [← ih indices d1]

/-- **Without its notes it is the decoder.** -/
theorem decode_plain (c : RansCoder) (values indices : List Int32) (d : RansDecoder) :
    ((decode c values indices d).1, (decode c values indices d).2.1, (decode c values indices d).2.2.1) =
      d.decode c values indices := by
  unfold decode RansDecoder.decode
  split
  · rfl
  · split
    · rfl
    · exact decodeLoop_plain c values indices d

/-! ## Sessions -/

def decodeCalls : List DecodeCall → RansDecoder → List (Status × List Int32) × RansDecoder × List Event
  | [], d => ([], d, [])
  | call :: calls, d =>
    let (status, values, d, events) := decode call.coder call.values call.indices d
    let (rest, d, more) := decodeCalls calls d
    ((status, values) :: rest, d, events ++ more)

def session (v : RansVariant) (data : List UInt8) (calls : List DecodeCall) :
    (Status × List (Status × List Int32) × RansDecoder) × List Event :=
  let (status, d, events) := «open» data (.new v)
  let (results, d, more) := decodeCalls calls d
  ((status, results, d), events ++ more)

theorem decodeCalls_plain (calls : List DecodeCall) :
    ∀ d, ((decodeCalls calls d).1, (decodeCalls calls d).2.1) = RansDecoder.decodeCalls calls d := by
  induction calls with
  | nil => exact fun _ => rfl
  | cons call calls ih =>
    intro d
    unfold decodeCalls RansDecoder.decodeCalls
    rw [← decode_plain]
    dsimp only
    rw [← ih]

/-- **A session without its notes.** -/
theorem session_plain (v : RansVariant) (data : List UInt8) (calls : List DecodeCall) :
    (session v data calls).1 = RansDecoder.session v data calls := by
  unfold session RansDecoder.session
  rw [← open_plain]
  dsimp only
  rw [← decodeCalls_plain]

end Noted

end RansDecoder

end Rkvc.Mlvc
