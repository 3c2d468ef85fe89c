import Rkvc.Lib.Events
import Rkvc.Mlvc.Rans.RoundTrip

/-!
# What the decoder reads

Every operation of the decoder reads on from where it stands and stays within
its data, and what it gives depends on the bytes it has passed alone: over other
data with the same bytes up to there it does the same (`Local`). Operations with
this property compose, so it is shown of the two reads and follows for `decode`.
-/

namespace Rkvc.Mlvc
set_option autoImplicit false
open Lib

namespace RansDecoder

/-- The decoder over other data. -/
def withData (d : RansDecoder) (data : List UInt8) : RansDecoder := { d with data := data }

/-- What an operation may change: the state, and the position forward within the data. -/
structure Moved (d d' : RansDecoder) : Prop where
  variant : d'.variant = d.variant
  data : d'.data = d.data
  opened : d'.opened = d.opened
  forward : d.pos ≤ d'.pos
  inside : d.pos ≤ d.data.length → d'.pos ≤ d.data.length

theorem Moved.refl (d : RansDecoder) : Moved d d := ⟨rfl, rfl, rfl, Nat.le_refl _, id⟩

theorem Moved.trans {d d' d'' : RansDecoder} (first : Moved d d') (second : Moved d' d'') : Moved d d'' where
  variant := second.variant.trans first.variant
  data := second.data.trans first.data
  opened := second.opened.trans first.opened
  forward := Nat.le_trans first.forward second.forward
  inside h := by
    have stop := second.inside (by rw [first.data]; exact first.inside h)
    rwa [first.data] at stop

theorem Moved.with_state {d d' : RansDecoder} (moved : Moved d d') (x : Nat) : Moved d { d' with state := x } :=
  ⟨moved.variant, moved.data, moved.opened, moved.forward, moved.inside⟩

/-- Two streams with the same first `n` bytes. -/
def Shares (n : Nat) (a b : List UInt8) : Prop := a.take n = b.take n ∧ n ≤ b.length

theorem Shares.mono {m n : Nat} {a b : List UInt8} (shares : Shares n a b) (le : m ≤ n) : Shares m a b := by
  constructor
  · have cut := congrArg (List.take m) shares.1
    rwa [List.take_take, List.take_take, Nat.min_eq_left le] at cut
  · exact Nat.le_trans le shares.2

theorem Shares.slice {n : Nat} {a b : List UInt8} (shares : Shares n a b) {i k : Nat} (le : i + k ≤ n) :
    (a.drop i).take k = (b.drop i).take k := by
  have cut := congrArg (fun l => (l.drop i).take k) (shares.mono le).1
  simpa only [List.drop_take, List.take_take, Nat.add_sub_cancel_left, Nat.min_self] using cut

/-- An operation that moves, and goes by the bytes it passes. -/
structure Local {α : Type} (op : RansDecoder → Option α × RansDecoder) : Prop where
  moved : ∀ d, Moved d (op d).2
  shared : ∀ {d a d' other}, op d = (some a, d') → d.pos ≤ d.data.length → Shares d'.pos d.data other →
    op (d.withData other) = (some a, d'.withData other)

/-- The operation that does not read. -/
theorem Local.pure {α : Type} (a : α) : Local fun d => (some a, d) where
  moved := Moved.refl
  shared done _ _ := by
    cases done
    rfl

theorem Local.fail {α : Type} : Local (α := α) fun d => (none, d) where
  moved := Moved.refl
  shared done := by cases done

/-- **Operations compose.** -/
theorem Local.andThen {α β : Type} {op : RansDecoder → Option α × RansDecoder}
    {k : α → RansDecoder → Option β × RansDecoder} (first : Local op) (second : ∀ a, Local (k a)) :
    Local (Lib.andThen op k) where
  moved d := by
    unfold Lib.andThen
    have moved := first.moved d
    cases ran : op d with
    | mk r d1 =>
      rw [ran] at moved
      cases r with
      | none => exact moved
      | some a => exact moved.trans ((second a).moved d1)
  shared {d b d' other} done inside shares := by
    unfold Lib.andThen at done ⊢
    have moved := first.moved d
    cases ran : op d with
    | mk r d1 =>
      rw [ran] at moved done
      cases r with
      | none => cases done
      | some a =>
        have after : k a d1 = (some b, d') := done
        have later := (second a).moved d1
        rw [after] at later
        have early := first.shared ran inside (shares.mono later.forward)
        rw [early]
        exact (second a).shared after (by rw [moved.data]; exact moved.inside inside)
          (by rw [moved.data]; exact shares)

/-- What an operation does may depend on the state and the variant. -/
theorem Local.look {α : Type} {op : Nat → RansVariant → RansDecoder → Option α × RansDecoder}
    (h : ∀ x v, Local (op x v)) : Local fun d => op d.state d.variant d where
  moved d := (h d.state d.variant).moved d
  shared {d _ _ _} done inside shares := (h d.state d.variant).shared done inside shares

theorem Local.ite {α : Type} {p : Prop} [Decidable p] {f g : RansDecoder → Option α × RansDecoder} (hf : Local f)
    (hg : Local g) : Local fun d => if p then f d else g d := by
  by_cases h : p
  · simpa only [if_pos h] using hf
  · simpa only [if_neg h] using hg

/-! ## The reads -/

theorem readByte_some {d d' : RansDecoder} {u : Nat} (read : d.readByte = some (u, d')) :
    d.pos < d.data.length ∧ u = (d.data.getD d.pos 0).toNat ∧ d' = { d with pos := d.pos + 1 } := by
  unfold readByte at read
  split at read
  · cases read
  · obtain ⟨rfl, rfl⟩ := Prod.ext_iff.mp (Option.some.inj read)
    exact ⟨by omega, rfl, rfl⟩

theorem readUnit32_some {d d' : RansDecoder} {u : Nat} (read : d.readUnit32 = some (u, d')) :
    d.pos + 4 ≤ d.data.length ∧ u = leVal ((d.data.drop d.pos).take 4) ∧ d' = { d with pos := d.pos + 4 } := by
  unfold readUnit32 at read
  split at read
  · cases read
  · obtain ⟨rfl, rfl⟩ := Prod.ext_iff.mp (Option.some.inj read)
    exact ⟨by omega, rfl, rfl⟩

theorem readByte_over {d d' : RansDecoder} {u : Nat} {other : List UInt8} (read : d.readByte = some (u, d'))
    (shares : Shares d'.pos d.data other) : (d.withData other).readByte = some (u, d'.withData other) := by
  obtain ⟨inside, rfl, rfl⟩ := readByte_some read
  have room : d.pos + 1 ≤ other.length := shares.2
  have same : d.data.getD d.pos 0 = other.getD d.pos 0 := by
    have one := congrArg (·[0]?) (shares.slice (i := d.pos) (k := 1) (Nat.le_refl _))
    simp only [List.getElem?_take, List.getElem?_drop, Nat.add_zero, Nat.lt_one_iff, if_true] at one
    rw [List.getD_eq_getElem?_getD, List.getD_eq_getElem?_getD, one]
  unfold readByte withData
  dsimp only
  rw [if_neg (by omega), same]

theorem readUnit32_over {d d' : RansDecoder} {u : Nat} {other : List UInt8} (read : d.readUnit32 = some (u, d'))
    (shares : Shares d'.pos d.data other) : (d.withData other).readUnit32 = some (u, d'.withData other) := by
  obtain ⟨inside, rfl, rfl⟩ := readUnit32_some read
  have room : d.pos + 4 ≤ other.length := shares.2
  have same := shares.slice (i := d.pos) (k := 4) (Nat.le_refl _)
  unfold readUnit32 withData
  dsimp only
  rw [if_neg (by omega), same]

theorem readByte_moved {d d' : RansDecoder} {u : Nat} (read : d.readByte = some (u, d')) : Moved d d' := by
  obtain ⟨inside, -, rfl⟩ := readByte_some read
  exact ⟨rfl, rfl, rfl, Nat.le_succ _, fun _ => inside⟩

theorem readUnit32_moved {d d' : RansDecoder} {u : Nat} (read : d.readUnit32 = some (u, d')) : Moved d d' := by
  obtain ⟨inside, -, rfl⟩ := readUnit32_some read
  exact ⟨rfl, rfl, rfl, Nat.le_add_right _ _, fun _ => inside⟩

/-- A read as an operation. -/
def reading (op : RansDecoder → Option (Nat × RansDecoder)) (d : RansDecoder) : Option Nat × RansDecoder :=
  match op d with
  | none => (none, d)
  | some (u, d) => (some u, d)

theorem reading_local {op : RansDecoder → Option (Nat × RansDecoder)}
    (moved : ∀ {d d' u}, op d = some (u, d') → Moved d d')
    (shared : ∀ {d d' u other}, op d = some (u, d') → Shares d'.pos d.data other →
      op (d.withData other) = some (u, d'.withData other)) : Local (reading op) where
  moved d := by
    unfold reading
    cases read : op d with
    | none => exact Moved.refl d
    | some r => exact moved read
  shared {d _ _ _} done _ shares := by
    unfold reading at done ⊢
    cases read : op d with
    | none =>
      rw [read] at done
      cases done
    | some r =>
      rw [read] at done
      cases done
      rw [shared read shares]

theorem unitOf_local (v : RansVariant) :
    Local (reading fun d =>
      match v with
      | .byte => d.readByte
      | .rans64 => d.readUnit32) := by
  cases v with
  | byte => exact reading_local readByte_moved readByte_over
  | rans64 => exact reading_local readUnit32_moved readUnit32_over

theorem readUnit_local : Local (reading readUnit) := Local.look fun _ => unitOf_local

theorem initLoop_succ (width n i x : Nat) (d : RansDecoder) :
    initLoop width (n + 1) i x d =
      andThen (reading readUnit) (fun u => initLoop width n (i + 1) (x + u <<< (i * width))) d := by
  rw [initLoop]
  unfold andThen reading
  cases d.readUnit <;> rfl

theorem initLoop_local (width n : Nat) : ∀ i x, Local (initLoop width n i x) := by
  induction n with
  | zero => exact fun _ x => Local.pure x
  | succ n ih =>
    intro i x
    have step : initLoop width (n + 1) i x = _ := funext (initLoop_succ width n i x)
    rw [step]
    exact readUnit_local.andThen fun u => ih _ _

theorem wordOf_local (v : RansVariant) :
    Local fun d =>
      match v with
      | .byte => initLoop 8 4 0 0 d
      | .rans64 => initLoop 32 2 0 0 d := by
  cases v with
  | byte => exact initLoop_local 8 4 0 0
  | rans64 => exact initLoop_local 32 2 0 0

theorem initWord_local : Local initWord := Local.look fun _ => wordOf_local

/-- An open that succeeds goes by the bytes it has passed, over data in whole units. -/
theorem open_over {d d' : RansDecoder} {data other : List UInt8} (done : d.open data = (.ok, d'))
    (units : other.length % d.variant.unitBytes = 0) (shares : Shares d'.pos data other) :
    d.open other = (.ok, d'.withData other) := by
  unfold «open» at done ⊢
  rw [if_neg (by omega)]
  split at done
  · cases done
  · unfold initState at done ⊢
    cases ran : initWord { d with data := data, pos := 0, opened := false } with
    | mk r d1 =>
      rw [ran] at done
      cases r with
      | none => cases done
      | some x =>
        dsimp only at done
        split at done
        · cases done
        · rename_i high
          split at high
          · cases high
          · rename_i low
            cases high
            cases done
            have same : initWord { d with data := other, pos := 0, opened := false } = (some x, d1.withData other) :=
              initWord_local.shared ran (Nat.zero_le _) shares
            rw [same]
            dsimp only
            have variant : (d1.withData other).variant = d1.variant := rfl
            rw [variant, if_neg low]
            rfl

theorem open_moved {d d' : RansDecoder} {data : List UInt8} (done : d.open data = (.ok, d')) :
    d'.data = data ∧ d'.pos ≤ data.length := by
  unfold «open» at done
  split at done
  · cases done
  · unfold initState at done
    have moved := initWord_local.moved { d with data := data, pos := 0, opened := false }
    cases ran : initWord { d with data := data, pos := 0, opened := false } with
    | mk r d1 =>
      rw [ran] at done moved
      cases r with
      | none => cases done
      | some x =>
        dsimp only at done
        split at done
        · cases done
        · rename_i high
          split at high
          · cases high
          · cases high
            cases done
            exact ⟨moved.data, moved.inside (Nat.zero_le _)⟩

/-! ## Renormalisation -/

theorem refillByte_moved (fuel : Nat) : ∀ (x : Nat) (d : RansDecoder), Moved d (refillByte fuel x d).2 := by
  induction fuel with
  | zero => exact fun _ d => Moved.refl d
  | succ fuel ih =>
    intro x d
    unfold refillByte
    split
    · cases read : d.readByte with
      | none => exact Moved.refl d
      | some r => exact (readByte_moved read).trans (ih _ r.2)
    · exact Moved.refl d

/-- Each round reads a byte, so with a round more than there are bytes the loop ends by its test. -/
theorem refillByte_over {other : List UInt8} (fuel : Nat) :
    ∀ {x z more : Nat} {d d' : RansDecoder}, refillByte fuel x d = (some z, d') →
      d.data.length - d.pos < fuel → other.length - d.pos < more → Shares d'.pos d.data other →
      refillByte more x (d.withData other) = (some z, d'.withData other) := by
  induction fuel with
  | zero => exact fun _ enough => absurd enough (Nat.not_lt_zero _)
  | succ fuel ih =>
    intro x z more d d' ran enough room shares
    obtain ⟨more, rfl⟩ : ∃ m, more = m + 1 := ⟨more - 1, by omega⟩
    unfold refillByte at ran ⊢
    by_cases low : x < kByteLower
    · rw [if_pos low] at ran ⊢
      cases read : d.readByte with
      | none =>
        rw [read] at ran
        cases ran
      | some r =>
        rw [read] at ran
        have rest : refillByte fuel (u32 (u32 (x <<< 8) + r.1)) r.2 = (some z, d') := ran
        obtain ⟨inside, -, next⟩ := readByte_some read
        have later := refillByte_moved fuel (u32 (u32 (x <<< 8) + r.1)) r.2
        rw [rest] at later
        have data : r.2.data = d.data := by rw [next]
        have pos : r.2.pos = d.pos + 1 := by rw [next]
        have reach : d.pos + 1 ≤ other.length := by
          have stop := shares.2
          have forward : r.2.pos ≤ d'.pos := later.forward
          omega
        rw [readByte_over read (shares.mono later.forward)]
        exact ih rest (by rw [data, pos]; omega) (by rw [pos]; omega) (by rw [data]; exact shares)
    · rw [if_neg low] at ran ⊢
      cases ran
      rfl

/-- The word that `advance` refills. -/
def advanceWord (d : RansDecoder) (start freq scaleBits : Nat) : Nat :=
  match d.variant with
  | .byte => u32 (freq * (u32 d.state >>> scaleBits) + (u32 d.state &&& (u32 (1 <<< scaleBits) - 1)) + (2 ^ 32 - start))
  | .rans64 => u64 (freq * (d.state >>> scaleBits) + u32 (d.state &&& (u32 (1 <<< scaleBits) - 1)) + (2 ^ 64 - start))

/-- The rest of `advance`. -/
def refillFrom (x : Nat) (d : RansDecoder) : Option Unit × RansDecoder :=
  match d.variant with
  | .byte =>
    match refillByte (d.data.length - d.pos + 1) x d with
    | (none, d) => (none, d)
    | (some x, d) => (some (), { d with state := x })
  | .rans64 =>
    if x < k64Lower then
      match d.readUnit32 with
      | none => (none, d)
      | some (u, d) => (some (), { d with state := u64 (u64 (x <<< 32) + u) })
    else (some (), { d with state := x })

/-- `advance`, its outcome as an option. -/
def advanceStep (start freq scaleBits : Nat) (d : RansDecoder) : Option Unit × RansDecoder :=
  match d.advance start freq scaleBits with
  | (true, d) => (some (), d)
  | (false, d) => (none, d)

theorem advanceStep_eq {start freq scaleBits : Nat} {d d' : RansDecoder} {ok : Bool}
    (advanced : d.advance start freq scaleBits = (ok, d')) :
    advanceStep start freq scaleBits d = (if ok then some () else none, d') := by
  unfold advanceStep
  rw [advanced]
  cases ok <;> rfl

theorem advanceStep_refill (start freq scaleBits : Nat) (d : RansDecoder) :
    advanceStep start freq scaleBits d = refillFrom (d.advanceWord start freq scaleBits) d := by
  unfold advanceStep advance refillFrom advanceWord
  cases d.variant with
  | byte =>
    dsimp only
    cases refillByte (d.data.length - d.pos + 1) (u32 (freq * (u32 d.state >>> scaleBits) +
      (u32 d.state &&& (u32 (1 <<< scaleBits) - 1)) + (2 ^ 32 - start))) d with
    | mk r d1 => cases r <;> rfl
  | rans64 =>
    dsimp only
    generalize u64 (freq * (d.state >>> scaleBits) + u32 (d.state &&& (u32 (1 <<< scaleBits) - 1)) +
      (2 ^ 64 - start)) = x
    by_cases low : x < k64Lower
    · rw [if_pos low, if_pos low]
      cases d.readUnit32 <;> rfl
    · rw [if_neg low, if_neg low]

theorem refillFrom_local (x : Nat) : Local (refillFrom x) where
  moved d := by
    unfold refillFrom
    cases variant : d.variant with
    | byte =>
      have moved := refillByte_moved (d.data.length - d.pos + 1) x d
      dsimp only
      cases refilled : refillByte (d.data.length - d.pos + 1) x d with
      | mk r d1 =>
        rw [refilled] at moved
        cases r with
        | none => exact moved
        | some z => exact moved.with_state z
    | rans64 =>
      dsimp only
      split
      · cases read : d.readUnit32 with
        | none => exact Moved.refl d
        | some r => exact (readUnit32_moved read).with_state _
      · exact ⟨variant.symm, rfl, rfl, Nat.le_refl _, id⟩
  shared {d _ d' other} done inside shares := by
    unfold refillFrom at done ⊢
    cases variant : d.variant with
    | byte =>
      have variant' : (d.withData other).variant = .byte := variant
      rw [variant] at done
      rw [variant']
      dsimp only at done ⊢
      cases refilled : refillByte (d.data.length - d.pos + 1) x d with
      | mk r d1 =>
        rw [refilled] at done
        cases r with
        | none => cases done
        | some z =>
          cases done
          have loop : refillByte ((d.withData other).data.length - (d.withData other).pos + 1) x (d.withData other) =
              (some z, d1.withData other) := refillByte_over _ refilled (Nat.lt_succ_self _) (Nat.lt_succ_self _) shares
          rw [loop]
          rfl
    | rans64 =>
      have variant' : (d.withData other).variant = .rans64 := variant
      rw [variant] at done
      rw [variant']
      dsimp only at done ⊢
      split at done
      · rename_i low
        rw [if_pos low]
        cases read : d.readUnit32 with
        | none =>
          rw [read] at done
          cases done
        | some r =>
          rw [read] at done
          cases done
          rw [readUnit32_over read shares]
          rfl
      · rename_i high
        rw [if_neg high]
        cases done
        rfl

theorem advanceStep_local (start freq scaleBits : Nat) : Local (advanceStep start freq scaleBits) where
  moved d := by
    rw [advanceStep_refill]
    exact (refillFrom_local _).moved d
  shared {d _ _ other} done inside shares := by
    have word : (d.withData other).advanceWord start freq scaleBits = d.advanceWord start freq scaleBits := rfl
    rw [advanceStep_refill] at done ⊢
    rw [word]
    exact (refillFrom_local _).shared done inside shares

/-! ## Symbols -/

theorem take_eq (bits : Nat) (d : RansDecoder) :
    d.take bits = andThen (advanceStep (d.get bits) 1 bits) (fun _ d' => (some (d.get bits), d')) d := by
  unfold take
  cases advanced : d.advance (d.get bits) 1 bits with
  | mk ok d' =>
    have step := advanceStep_eq advanced
    dsimp only
    rw [advanced]
    cases ok with
    | false => rw [andThen_none step]
    | true => rw [andThen_some step]

theorem take_value {bits value : Nat} {d d' : RansDecoder} (taken : d.take bits = (some value, d')) :
    value = d.get bits := by
  rw [take_eq] at taken
  cases advanced : advanceStep (d.get bits) 1 bits d with
  | mk r d1 =>
    cases r with
    | none =>
      rw [andThen_none advanced] at taken
      cases taken
    | some u =>
      rw [andThen_some advanced] at taken
      cases taken
      rfl

theorem take_local (bits : Nat) : Local fun d => d.take bits := by
  have all := Local.look fun x _ =>
    (advanceStep_local (u32 x &&& (u32 (1 <<< bits) - 1)) 1 bits).andThen fun _ =>
      Local.pure (u32 x &&& (u32 (1 <<< bits) - 1))
  have same : (fun d : RansDecoder => d.take bits) = _ := funext (take_eq bits)
  rw [same]
  exact all

theorem countLoop_succ (c : RansCoder) (maxDigits fuel value count : Nat) (d : RansDecoder) :
    countLoop c maxDigits (fuel + 1) value count d =
      if value = c.bypassMax then
        andThen (fun d => d.take c.bypassBits) (fun value d =>
          if count + value > maxDigits then (none, d)
          else countLoop c maxDigits fuel value (count + value) d) d
      else (some count, d) := by
  rw [countLoop]
  by_cases more : value = c.bypassMax
  · rw [if_pos more, if_pos more]
    cases taken : d.take c.bypassBits with
    | mk r d1 =>
      cases r with
      | none => rw [andThen_none taken]
      | some next => rw [andThen_some taken]
  · rw [if_neg more, if_neg more]

theorem countLoop_local (c : RansCoder) (maxDigits fuel : Nat) :
    ∀ value count, Local (countLoop c maxDigits fuel value count) := by
  induction fuel with
  | zero => exact fun _ count => Local.pure count
  | succ fuel ih =>
    intro value count
    have next : ∀ value, Local fun d : RansDecoder =>
        if count + value > maxDigits then (none, d) else countLoop c maxDigits fuel value (count + value) d :=
      fun value => Local.ite Local.fail (ih _ _)
    have step : countLoop c maxDigits (fuel + 1) value count = _ :=
      funext (countLoop_succ c maxDigits fuel value count)
    rw [step]
    exact Local.ite ((take_local c.bypassBits).andThen next) (Local.pure count)

theorem digitLoop_succ (c : RansCoder) (n shift encoded : Nat) (d : RansDecoder) :
    digitLoop c (n + 1) shift encoded d =
      andThen (fun d => d.take c.bypassBits) (fun value =>
        digitLoop c n (shift + c.bypassBits) (encoded ||| u32 (value <<< shift))) d := by
  rw [digitLoop]
  cases taken : d.take c.bypassBits with
  | mk r d1 =>
    cases r with
    | none => rw [andThen_none taken]
    | some value => rw [andThen_some taken]

theorem digitLoop_local (c : RansCoder) (n : Nat) : ∀ shift encoded, Local (digitLoop c n shift encoded) := by
  induction n with
  | zero => exact fun _ encoded => Local.pure encoded
  | succ n ih =>
    intro shift encoded
    have step : digitLoop c (n + 1) shift encoded = _ := funext (digitLoop_succ c n shift encoded)
    rw [step]
    exact (take_local c.bypassBits).andThen fun value => ih _ _

/-- The prefix of a bypass code: its digit count. -/
def bypassCount (c : RansCoder) (d : RansDecoder) : Option Nat × RansDecoder :=
  andThen (fun d => d.take c.bypassBits) (fun value d =>
    if value > 32 / c.bypassBits then (none, d)
    else countLoop c (32 / c.bypassBits) (32 / c.bypassBits + 1) value value d) d

theorem bypass_eq (c : RansCoder) (d : RansDecoder) :
    d.bypass c = andThen (bypassCount c) (fun count => digitLoop c count 0 0) d := by
  unfold bypass
  cases taken : d.take c.bypassBits with
  | mk r d1 =>
    cases r with
    | none =>
      have counted : bypassCount c d = (none, d1) := andThen_none taken
      rw [andThen_none counted]
    | some value =>
      have counted : bypassCount c d = if value > 32 / c.bypassBits then (none, d1)
          else countLoop c (32 / c.bypassBits) (32 / c.bypassBits + 1) value value d1 := andThen_some taken
      dsimp only
      by_cases large : value > 32 / c.bypassBits
      · rw [if_pos large] at counted ⊢
        rw [andThen_none counted]
      · rw [if_neg large] at counted ⊢
        cases looped : countLoop c (32 / c.bypassBits) (32 / c.bypassBits + 1) value value d1 with
        | mk r d2 =>
          rw [looped] at counted
          cases r with
          | none => rw [andThen_none counted]
          | some count => rw [andThen_some counted]

theorem bypassCount_local (c : RansCoder) : Local (bypassCount c) := by
  have next : ∀ value, Local fun d : RansDecoder =>
      if value > 32 / c.bypassBits then (none, d)
      else countLoop c (32 / c.bypassBits) (32 / c.bypassBits + 1) value value d :=
    fun value => Local.ite Local.fail (countLoop_local c _ _ value value)
  exact (take_local c.bypassBits).andThen next

theorem bypass_local (c : RansCoder) : Local fun d => d.bypass c := by
  have step : (fun d : RansDecoder => d.bypass c) = _ := funext (bypass_eq c)
  rw [step]
  exact (bypassCount_local c).andThen fun count => digitLoop_local c count 0 0

/-- The symbol that the search selects for `cum`. -/
def selected (c : RansCoder) (desc : RansDist) (cum : Nat) : Nat :=
  search (c.cdfTable.drop desc.decCdfOffset) cum (desc.bypassSentinel + 1) 0 (desc.bypassSentinel + 1)

/-- What follows the symbol: its value, or that of a bypass code. -/
def symbolValue (c : RansCoder) (desc : RansDist) (symbol : Nat) (d : RansDecoder) : Option Int32 × RansDecoder :=
  if symbol = desc.bypassSentinel then
    andThen (fun d => d.bypass c) (fun bv d =>
      (some (Int32.ofInt (unfoldBypass desc.bypassSentinel bv - desc.valueOffset.toInt)), d)) d
  else (some (Int32.ofInt (symbol - desc.valueOffset.toInt)), d)

/-- The loop body of `decode` once `cum` is known. -/
def decodeAt (c : RansCoder) (desc : RansDist) (cum : Nat) (d : RansDecoder) : Option Int32 × RansDecoder :=
  if selected c desc cum > desc.bypassSentinel then (none, d)
  else
    andThen
      (advanceStep ((c.cdfTable.drop desc.decCdfOffset).getD (selected c desc cum) 0)
        ((c.cdfTable.drop desc.decCdfOffset).getD (selected c desc cum + 1) 0 -
          (c.cdfTable.drop desc.decCdfOffset).getD (selected c desc cum) 0) c.symbolBits)
      (fun _ => symbolValue c desc (selected c desc cum)) d

theorem symbolValue_eq (c : RansCoder) (desc : RansDist) (symbol : Nat) (d : RansDecoder) :
    (if symbol = desc.bypassSentinel then
      match d.bypass c with
      | (none, d) => (none, d)
      | (some bv, d) =>
        (some (Int32.ofInt (unfoldBypass desc.bypassSentinel bv - desc.valueOffset.toInt)), d)
    else (some (Int32.ofInt (symbol - desc.valueOffset.toInt)), d)) = symbolValue c desc symbol d := by
  unfold symbolValue
  by_cases sentinel : symbol = desc.bypassSentinel
  · rw [if_pos sentinel, if_pos sentinel]
    cases bypassed : d.bypass c with
    | mk r d1 =>
      cases r with
      | none => rw [andThen_none bypassed]
      | some bv => rw [andThen_some bypassed]
  · rw [if_neg sentinel, if_neg sentinel]

theorem decodeSymbol_eq (c : RansCoder) (desc : RansDist) (d : RansDecoder) :
    decodeSymbol c desc d = decodeAt c desc (d.get c.symbolBits) d := by
  have found : search (c.cdfTable.drop desc.decCdfOffset) (d.get c.symbolBits) (desc.bypassSentinel + 1) 0
      (desc.bypassSentinel + 1) = selected c desc (d.get c.symbolBits) := rfl
  unfold decodeSymbol decodeAt
  dsimp only
  rw [found]
  generalize selected c desc (d.get c.symbolBits) = symbol
  by_cases beyond : symbol > desc.bypassSentinel
  · rw [if_pos beyond, if_pos beyond]
  · rw [if_neg beyond, if_neg beyond]
    generalize (c.cdfTable.drop desc.decCdfOffset).getD symbol 0 = start
    generalize (c.cdfTable.drop desc.decCdfOffset).getD (symbol + 1) 0 - start = freq
    cases advanced : d.advance start freq c.symbolBits with
    | mk ok d1 =>
      have step := advanceStep_eq advanced
      cases ok with
      | false => rw [andThen_none step]
      | true =>
        rw [andThen_some step]
        exact symbolValue_eq c desc symbol d1

theorem symbolValue_local (c : RansCoder) (desc : RansDist) (symbol : Nat) :
    Local (symbolValue c desc symbol) := by
  have value : ∀ bv : Nat, Local fun d : RansDecoder =>
      (some (Int32.ofInt (unfoldBypass desc.bypassSentinel bv - desc.valueOffset.toInt)), d) :=
    fun bv => Local.pure _
  exact Local.ite ((bypass_local c).andThen value) (Local.pure _)

theorem decodeSymbol_local (c : RansCoder) (desc : RansDist) : Local (decodeSymbol c desc) := by
  have at_cum : ∀ cum, Local (decodeAt c desc cum) := fun cum =>
    Local.ite Local.fail ((advanceStep_local _ _ _).andThen fun _ => symbolValue_local c desc _)
  have all := Local.look fun x _ => at_cum (u32 x &&& (u32 (1 <<< c.symbolBits) - 1))
  have same : decodeSymbol c desc = _ := funext (decodeSymbol_eq c desc)
  rw [same]
  exact all

theorem decodeOne_local (c : RansCoder) (index : Int32) : Local (decodeOne c index) := by
  unfold decodeOne
  exact Local.ite (Local.pure 0) (decodeSymbol_local c _)

/-! ## Calls -/

theorem decodeLoop_moved (c : RansCoder) (values indices : List Int32) :
    ∀ d : RansDecoder, Moved d (decodeLoop c values indices d).2.2 := by
  induction values generalizing indices with
  | nil => exact Moved.refl
  | cons value values ih =>
    intro d
    cases indices with
    | nil => exact Moved.refl d
    | cons index indices =>
      have one := (decodeOne_local c index).moved d
      unfold decodeLoop
      cases ran : decodeOne c index d with
      | mk r d1 =>
        rw [ran] at one
        cases r with
        | none => exact one
        | some v => exact one.trans (ih indices d1)

theorem decode_moved (c : RansCoder) (values indices : List Int32) (d : RansDecoder) :
    Moved d (d.decode c values indices).2.2 := by
  unfold decode
  split
  · exact Moved.refl d
  · split
    · exact Moved.refl d
    · exact decodeLoop_moved c values indices d

theorem decodeLoop_over {c : RansCoder} {other : List UInt8} {values indices : List Int32} :
    ∀ {d d' : RansDecoder} {got : List Int32}, decodeLoop c values indices d = (.ok, got, d') →
      d.pos ≤ d.data.length → Shares d'.pos d.data other →
      decodeLoop c values indices (d.withData other) = (.ok, got, d'.withData other) := by
  induction values generalizing indices with
  | nil =>
    intro d d' got done _ _
    cases done
    rfl
  | cons value values ih =>
    intro d d' got done inside shares
    cases indices with
    | nil =>
      cases done
      rfl
    | cons index indices =>
      unfold decodeLoop at done ⊢
      have one := (decodeOne_local c index).moved d
      cases ran : decodeOne c index d with
      | mk r d1 =>
        rw [ran] at one done
        cases r with
        | none => cases done
        | some v =>
          cases rest : decodeLoop c values indices d1 with
          | mk st out =>
            obtain ⟨tail, d2⟩ := out
            simp only [rest] at done
            cases done
            have later := decodeLoop_moved c values indices d1
            rw [rest] at later
            rw [(decodeOne_local c index).shared ran inside (shares.mono later.forward)]
            dsimp only
            rw [ih rest (by rw [one.data]; exact one.inside inside) (by rw [one.data]; exact shares)]

/-- **A successful `decode` goes by the bytes it has passed.** -/
theorem decode_over {c : RansCoder} {other : List UInt8} {values indices got : List Int32} {d d' : RansDecoder}
    (done : d.decode c values indices = (.ok, got, d')) (inside : d.pos ≤ d.data.length)
    (shares : Shares d'.pos d.data other) : (d.withData other).decode c values indices = (.ok, got, d'.withData other) := by
  unfold decode at done ⊢
  split at done
  · cases done
  · split at done
    · cases done
    · rename_i len ready
      have ready' : ¬(!(d.withData other).opened || c.dists.isEmpty || c.cdfTable.isEmpty) = true := ready
      rw [if_neg len, if_neg ready']
      exact decodeLoop_over done inside shares

/-! ## Sessions -/

end RansDecoder

/-- One `decode` call. -/
structure DecodeCall where
  coder : RansCoder
  values : List Int32
  indices : List Int32

namespace RansDecoder

/-- Calls in turn: what each gives, and the decoder they leave. -/
def decodeCalls : List DecodeCall → RansDecoder → List (Status × List Int32) × RansDecoder
  | [], d => ([], d)
  | call :: calls, d =>
    let (status, values, d) := d.decode call.coder call.values call.indices
    let (rest, d) := decodeCalls calls d
    ((status, values) :: rest, d)

/-- `open` on a new decoder, and calls. -/
def session (v : RansVariant) (data : List UInt8) (calls : List DecodeCall) :
    Status × List (Status × List Int32) × RansDecoder :=
  let (status, d) := (RansDecoder.new v).open data
  let (results, d) := decodeCalls calls d
  (status, results, d)

/-- A session succeeds when `open` and every call do. -/
def Succeeds (v : RansVariant) (data : List UInt8) (calls : List DecodeCall) : Prop :=
  (session v data calls).1 = .ok ∧ ∀ r ∈ (session v data calls).2.1, r.1 = .ok

theorem decodeCalls_moved (calls : List DecodeCall) : ∀ d : RansDecoder, Moved d (decodeCalls calls d).2 := by
  induction calls with
  | nil => exact Moved.refl
  | cons call calls ih => exact fun d => (decode_moved _ _ _ d).trans (ih _)

theorem decodeCalls_over {other : List UInt8} (calls : List DecodeCall) :
    ∀ {d : RansDecoder}, (∀ r ∈ (decodeCalls calls d).1, r.1 = .ok) → d.pos ≤ d.data.length →
      Shares (decodeCalls calls d).2.pos d.data other →
      decodeCalls calls (d.withData other) = ((decodeCalls calls d).1, (decodeCalls calls d).2.withData other) := by
  induction calls with
  | nil => exact fun _ _ _ => rfl
  | cons call calls ih =>
    intro d succeeded inside shares
    unfold decodeCalls at succeeded shares ⊢
    cases ran : d.decode call.coder call.values call.indices with
    | mk status rest =>
      obtain ⟨values, d1⟩ := rest
      rw [ran] at succeeded shares
      have moved := decode_moved call.coder call.values call.indices d
      rw [ran] at moved
      have data : d1.data = d.data := moved.data
      obtain rfl : status = .ok := succeeded _ List.mem_cons_self
      have later := decodeCalls_moved calls d1
      rw [decode_over ran inside (shares.mono later.forward)]
      dsimp only
      rw [ih (fun r mem => succeeded r (List.mem_cons_of_mem _ mem)) (by rw [data]; exact moved.inside inside)
        (by rw [data]; exact shares)]

/-- The first bytes of the data are shared with all of it. -/
theorem shares_of_take {n p : Nat} {data : List UInt8} (le : p ≤ (data.take n).length) :
    Shares p (data.take n) data := by
  rw [List.length_take] at le
  constructor
  · rw [List.take_take, Nat.min_eq_left (by omega)]
  · omega

/-- **A call that succeeds needs the bytes it has passed**: over data cut before its end it fails. -/
theorem decode_cut {c : RansCoder} {values indices got : List Int32} {d d' : RansDecoder} {n : Nat}
    (done : d.decode c values indices = (.ok, got, d')) (inside : d.pos ≤ d.data.length) (from_pos : d.pos ≤ n)
    (cut : n < d'.pos) : ((d.withData (d.data.take n)).decode c values indices).1 ≠ .ok := by
  intro again
  have moved := decode_moved c values indices (d.withData (d.data.take n))
  have full := decode_moved c values indices d
  rw [done] at full
  have stop : d'.pos ≤ d.data.length := full.inside inside
  have len : (d.data.take n).length = n := by
    rw [List.length_take]
    omega
  cases ran : (d.withData (d.data.take n)).decode c values indices with
  | mk status rest =>
    obtain ⟨got2, d2⟩ := rest
    rw [ran] at again moved
    obtain rfl : status = .ok := again
    have within : d2.pos ≤ (d.data.take n).length := moved.inside (by rw [withData, len]; exact from_pos)
    have same := decode_over ran (by rw [withData, len]; exact from_pos) (shares_of_take within)
    have back : (d.withData (d.data.take n)).withData d.data = d := rfl
    rw [back, done] at same
    cases same
    have reached : (d2.withData d.data).pos ≤ n := by
      rw [len] at within
      exact within
    exact absurd cut (Nat.not_lt.2 reached)

/-- **A session that succeeds needs every byte it has passed.** -/
theorem session_cut {v : RansVariant} {data : List UInt8} {calls : List DecodeCall} {n : Nat}
    (done : Succeeds v data calls) (cut : n < (session v data calls).2.2.pos) :
    ¬Succeeds v (data.take n) calls := by
  rintro ⟨opened, succeeded⟩
  obtain ⟨full_opened, -⟩ := done
  unfold session at opened succeeded full_opened cut
  cases first : (RansDecoder.new v).open (data.take n) with
  | mk status d =>
    rw [first] at opened succeeded
    obtain rfl : status = .ok := opened
    cases whole : (RansDecoder.new v).open data with
    | mk status d0 =>
      rw [whole] at full_opened cut
      obtain rfl : status = .ok := full_opened
      obtain ⟨bytes, inside⟩ := open_moved first
      have later := decodeCalls_moved calls d
      have stop : (decodeCalls calls d).2.pos ≤ (data.take n).length := by
        rw [← bytes]
        exact later.inside (by rw [bytes]; exact inside)
      have units : data.length % (RansDecoder.new v).variant.unitBytes = 0 := by
        unfold «open» at whole
        split at whole
        · cases whole
        · rename_i even
          exact Decidable.not_not.mp even
      have opened_whole := open_over first units ((shares_of_take stop).mono later.forward)
      rw [whole] at opened_whole
      cases opened_whole
      have shared : Shares (decodeCalls calls d).2.pos d.data data := by
        rw [bytes]
        exact shares_of_take stop
      have same := decodeCalls_over calls succeeded (by rw [bytes]; exact inside) shared
      dsimp only at cut
      rw [same] at cut
      rw [List.length_take] at stop
      have reached : (decodeCalls calls d).2.pos ≤ n := by omega
      exact absurd cut (Nat.not_lt.2 reached)

end RansDecoder

end Rkvc.Mlvc
