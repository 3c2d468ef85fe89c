import Rkvc.Pspack.Pack
import Rkvc.Pspack.Runs

/-!
# Streams behind garbage

A receiver may come upon a stream in the middle of a packet, and the demuxer
itself goes back by up to three bytes. The bytes in front of the next packet are
garbage to it, which does no harm if no start code in it is followed by an id:
then the stream is read as if the garbage were not there (`same_garbage`), and it
can be resumed anywhere (`resumable_behind`).
-/

namespace Rkvc.Pspack
set_option autoImplicit false

open Lib

/-! ## The fields of the headers -/

theorem packFields_val (scr rate : Nat) :
    BitWriter.fieldsVal 0 (packFields scr rate) =
      2 ^ 78 + u32 (scr >>> 30) % 2 ^ 3 * 2 ^ 75 + 2 ^ 74 + u32 (scr >>> 15) % 2 ^ 15 * 2 ^ 59 + 2 ^ 58 +
        u32 scr % 2 ^ 15 * 2 ^ 43 + 2 ^ 42 + 2 ^ 32 + rate % 2 ^ 22 * 2 ^ 10 + 0x3F8 := by
  simp only [BitWriter.fieldsVal_cons, BitWriter.fieldsVal_nil, packFields]
  omega

theorem systemFields_val (rate : Nat) :
    BitWriter.fieldsVal 0 (systemFields rate) =
      2 ^ 71 + rate % 2 ^ 22 * 2 ^ 49 + 2 ^ 48 + 0x21 * 2 ^ 32 + 0x7FE0E0E6 := by
  have id : kVideoStreamId.toNat = 0xE0 := by decide
  simp only [BitWriter.fieldsVal_cons, BitWriter.fieldsVal_nil, systemFields, id]
  omega

/-- The bytes of a pack header behind its start code. -/
def PackTail (bs : List UInt8) : Prop :=
  ∃ b₀ b₁ b₂ b₃ b₄ b₆ b₇ b₈ : UInt8, bs = [b₀, b₁, b₂, b₃, b₄, 1, b₆, b₇, b₈, 0xF8] ∧
      b₀ ≠ 0 ∧ b₂ ≠ 0 ∧ b₄ ≠ 0 ∧ b₈ ≠ 0 ∧ b₈ ≠ 1

theorem packFields_bytes (scr rate : Nat) : PackTail (beBytes 10 (BitWriter.fieldsVal 0 (packFields scr rate))) := by
  rw [packFields_val]
  have high := Nat.mod_lt (u32 (scr >>> 30)) (show 2 ^ 3 > 0 by decide)
  have middle := Nat.mod_lt (u32 (scr >>> 15)) (show 2 ^ 15 > 0 by decide)
  have low := Nat.mod_lt (u32 scr) (show 2 ^ 15 > 0 by decide)
  have rate_lt := Nat.mod_lt rate (show 2 ^ 22 > 0 by decide)
  generalize u32 (scr >>> 30) % 2 ^ 3 = a at *
  generalize u32 (scr >>> 15) % 2 ^ 15 = b at *
  generalize u32 scr % 2 ^ 15 = c at *
  generalize rate % 2 ^ 22 = d at *
  generalize hv : 2 ^ 78 + a * 2 ^ 75 + 2 ^ 74 + b * 2 ^ 59 + 2 ^ 58 + c * 2 ^ 43 + 2 ^ 42 + 2 ^ 32 +
    d * 2 ^ 10 + 0x3F8 = v
  have b₅ : UInt8.ofNat (v / 256 ^ 4) = 1 := ofNat_eq (by simp only [UInt8.toNat_ofNat]; omega)
  have b₉ : UInt8.ofNat (v / 256 ^ 0) = 0xF8 := ofNat_eq (by simp only [UInt8.toNat_ofNat]; omega)
  have b₀ : UInt8.ofNat (v / 256 ^ 9) ≠ 0 := ofNat_ne (by simp only [UInt8.toNat_ofNat]; omega)
  have b₂ : UInt8.ofNat (v / 256 ^ 7) ≠ 0 := ofNat_ne (by simp only [UInt8.toNat_ofNat]; omega)
  have b₄ : UInt8.ofNat (v / 256 ^ 5) ≠ 0 := ofNat_ne (by simp only [UInt8.toNat_ofNat]; omega)
  have b₈ : UInt8.ofNat (v / 256 ^ 1) ≠ 0 := ofNat_ne (by simp only [UInt8.toNat_ofNat]; omega)
  have b₈' : UInt8.ofNat (v / 256 ^ 1) ≠ 1 := ofNat_ne (by simp only [UInt8.toNat_ofNat]; omega)
  exact ⟨_, _, _, _, _, _, _, _, by simp only [beBytes, b₅, b₉]; rfl, b₀, b₂, b₄, b₈, b₈'⟩

def SystemTail (bs : List UInt8) : Prop :=
  ∃ b₀ b₁ b₂ : UInt8, bs = [b₀, b₁, b₂, 0, 0x21, 0x7F, 0xE0, 0xE0, 0xE6] ∧ b₀ ≠ 0 ∧ b₂ ≠ 0

theorem systemFields_bytes (rate : Nat) : SystemTail (beBytes 9 (BitWriter.fieldsVal 0 (systemFields rate))) := by
  rw [systemFields_val]
  have rate_lt := Nat.mod_lt rate (show 2 ^ 22 > 0 by decide)
  generalize rate % 2 ^ 22 = d at *
  generalize hv : 2 ^ 71 + d * 2 ^ 49 + 2 ^ 48 + 0x21 * 2 ^ 32 + 0x7FE0E0E6 = v
  have b₃ : UInt8.ofNat (v / 256 ^ 5) = 0 := ofNat_eq (by simp only [UInt8.toNat_ofNat]; omega)
  have b₄ : UInt8.ofNat (v / 256 ^ 4) = 0x21 := ofNat_eq (by simp only [UInt8.toNat_ofNat]; omega)
  have b₅ : UInt8.ofNat (v / 256 ^ 3) = 0x7F := ofNat_eq (by simp only [UInt8.toNat_ofNat]; omega)
  have b₆ : UInt8.ofNat (v / 256 ^ 2) = 0xE0 := ofNat_eq (by simp only [UInt8.toNat_ofNat]; omega)
  have b₇ : UInt8.ofNat (v / 256 ^ 1) = 0xE0 := ofNat_eq (by simp only [UInt8.toNat_ofNat]; omega)
  have b₈ : UInt8.ofNat (v / 256 ^ 0) = 0xE6 := ofNat_eq (by simp only [UInt8.toNat_ofNat]; omega)
  have b₀ : UInt8.ofNat (v / 256 ^ 8) ≠ 0 := ofNat_ne (by simp only [UInt8.toNat_ofNat]; omega)
  have b₂ : UInt8.ofNat (v / 256 ^ 6) ≠ 0 := ofNat_ne (by simp only [UInt8.toNat_ofNat]; omega)
  exact ⟨_, _, _, by simp only [beBytes, b₃, b₄, b₅, b₆, b₇, b₈]; rfl, b₀, b₂⟩

def ClockTail (bs : List UInt8) : Prop :=
  ∃ b₀ b₁ b₂ b₃ b₄ : UInt8, bs = [b₀, b₁, b₂, b₃, b₄] ∧ b₀ ≠ 0 ∧ b₂ ≠ 0 ∧ b₄ ≠ 0

theorem ptsFields_bytes {p : Nat} (hp : p < 2 ^ 33) : ClockTail (beBytes 5 (BitWriter.fieldsVal 0 (ptsFields p))) := by
  rw [ptsFields_val hp]
  generalize hv : 33 * 2 ^ 32 + p / 2 ^ 30 * 2 ^ 33 + (2 * (p / 2 ^ 15 % 2 ^ 15) + 1) * 2 ^ 16 +
    2 * (p % 2 ^ 15) + 1 = v
  have b₀ : UInt8.ofNat (v / 256 ^ 4) ≠ 0 := ofNat_ne (by simp only [UInt8.toNat_ofNat]; omega)
  have b₂ : UInt8.ofNat (v / 256 ^ 2) ≠ 0 := ofNat_ne (by simp only [UInt8.toNat_ofNat]; omega)
  have b₄ : UInt8.ofNat (v / 256 ^ 0) ≠ 0 := ofNat_ne (by simp only [UInt8.toNat_ofNat]; omega)
  exact ⟨_, _, _, _, _, rfl, b₀, b₂, b₄⟩

/-! ## Bytes no start code begins in -/

/-- No start code begins in these bytes, whatever follows them. -/
def Clear (l : List UInt8) : Prop := ∀ rest j, j < l.length → ¬startCode <+: (l ++ rest).drop j

variable {a b c : UInt8} {l g w : List UInt8} {us : List Piece}

theorem not_startCode (h : a ≠ 0 ∨ b ≠ 0 ∨ c ≠ 1) : ¬startCode <+: a :: b :: c :: l := by
  rintro ⟨t, ht⟩
  simp only [startCode, List.cons_append, List.cons.injEq] at ht
  obtain ⟨ha, hb, hc, -⟩ := ht
  rcases h with h | h | h
  · exact h ha.symm
  · exact h hb.symm
  · exact h hc.symm

namespace Clear

theorem nil : Clear [] := fun _ _ h => absurd h (Nat.not_lt_zero _)

theorem cons (first : ∀ rest, ¬startCode <+: a :: (l ++ rest)) (h : Clear l) : Clear (a :: l) := by
  intro rest j hj
  cases j with
  | zero => exact first rest
  | succ j => exact h rest j (Nat.lt_of_succ_lt_succ hj)

theorem first (ha : a ≠ 0) (h : Clear l) : Clear (a :: l) := by
  refine h.cons fun rest => ?_
  rintro ⟨t, ht⟩
  exact ha (List.cons.inj ht).1.symm

theorem second (hb : b ≠ 0) (h : Clear (b :: l)) : Clear (a :: b :: l) := by
  refine h.cons fun rest => ?_
  rintro ⟨t, ht⟩
  exact hb (List.cons.inj (List.cons.inj ht).2).1.symm

theorem third (hc : c ≠ 1) (h : Clear (b :: c :: l)) : Clear (a :: b :: c :: l) :=
  h.cons fun _ => not_startCode (.inr (.inr hc))

theorem drop (h : Clear l) (i : Nat) : Clear (l.drop i) := by
  intro rest j hj
  rw [List.length_drop] at hj
  have := h rest (i + j) (by omega)
  rwa [← List.drop_drop, List.drop_append_of_le_length (by omega)] at this

end Clear

/-- How many bytes at the front of a piece are free of start codes but for its own. -/
def Piece.guarded : Piece → Nat
  | .pack _ _ | .first _ _ => 14
  | .system _ => 15
  | .psm _ => 20
  | .more _ => 7

theorem guarded_bounds (p : Piece) : 7 ≤ p.guarded ∧ p.guarded ≤ p.bytes.length := by
  rw [bytes_length]
  cases p <;> (simp [Piece.guarded, Piece.packet, Packet.len]; try omega)

theorem guarded_whole {p : Piece} (header : p.isVideo = false) : p.guarded = p.bytes.length := by
  rw [bytes_length]
  cases p with
  | first pts payload => cases header
  | more payload => cases header
  | _ => rfl

theorem front_clear (p : Piece) : Clear ((p.bytes.take p.guarded).drop 1) := by
  cases p with
  | pack scr rate =>
    obtain ⟨b₀, b₁, b₂, b₃, b₄, b₆, b₇, b₈, tail, h₀, h₂, h₄, h₈, h₈'⟩ := packFields_bytes scr rate
    rw [bytes_pack, tail]
    exact .second (by decide) <| .first (by decide) <| .first (by decide) <| .first h₀ <| .second h₂ <|
      .first h₂ <| .second h₄ <| .first h₄ <| .first (by decide) <| .third h₈' <| .second h₈ <| .first h₈ <|
      .first (by decide) .nil
  | system rate =>
    obtain ⟨b₀, b₁, b₂, tail, h₀, h₂⟩ := systemFields_bytes rate
    rw [bytes_system, tail]
    exact .second (by decide) <| .first (by decide) <| .first (by decide) <| .second (by decide) <|
      .first (by decide) <| .first h₀ <| .second h₂ <| .first h₂ <| .second (by decide) <| .first (by decide) <|
      .first (by decide) <| .first (by decide) <| .first (by decide) <| .first (by decide) .nil
  | psm codec =>
    rw [bytes_psm]
    cases codec
    · exact .second (by decide) <| .first (by decide) <| .first (by decide) <| .second (by decide) <|
        .first (by decide) <| .first (by decide) <| .first (by decide) <| .third (by decide) <|
        .third (by decide) <| .second (by decide) <| .first (by decide) <| .first (by decide) <|
        .first (by decide) <| .third (by decide) <| .second (by decide) <| .first (by decide) <|
        .second (by decide) <| .first (by decide) <| .first (by decide) .nil
    · exact .second (by decide) <| .first (by decide) <| .first (by decide) <| .second (by decide) <|
        .first (by decide) <| .first (by decide) <| .first (by decide) <| .third (by decide) <|
        .third (by decide) <| .second (by decide) <| .first (by decide) <| .first (by decide) <|
        .first (by decide) <| .third (by decide) <| .second (by decide) <| .first (by decide) <|
        .first (by decide) <| .first (by decide) <| .first (by decide) .nil
  | first pts payload =>
    obtain ⟨b₀, b₁, b₂, b₃, b₄, tail, h₀, h₂, h₄⟩ := ptsFields_bytes (clock33_lt pts)
    rw [bytes_first, tail]
    exact .second (by decide) <| .first (by decide) <| .first (by decide) <| .third (by decide) <|
      .second (by decide) <| .first (by decide) <| .first (by decide) <| .first (by decide) <| .first h₀ <|
      .second h₂ <| .first h₂ <| .second h₄ <| .first h₄ .nil
  | more payload =>
    rw [bytes_more]
    exact .second (by decide) <| .first (by decide) <| .first (by decide) <| .third (by decide) <|
      .second (by decide) <| .first (by decide) .nil

/-! ## Garbage -/

/-- The bytes of a list of packets. -/
def flat (us : List Piece) : List UInt8 := us.flatMap Piece.bytes

@[simp] theorem flat_nil : flat [] = [] := rfl

@[simp] theorem flat_cons (u : Piece) (us : List Piece) : flat (u :: us) = u.bytes ++ flat us := by
  simp only [flat, List.flatMap_cons]

/-- The ids of start codes that are skipped without a look at what follows. -/
def skipped (b : UInt8) : Bool :=
  !decide (b = 0xBA) && !decide (b = 0xBB) && !decide (b = 0xBC) && (decide (b = 0xB7 ∨ b = 0xB9) || !isPes b)

/-- Garbage that can stand in front of packets: a start code within it is skipped, and
if it ends with one, only a pack header is damaged. -/
structure Behind (g : List UInt8) (us : List Piece) : Prop where
  harmless : ∀ j b, startCode ++ [b] <+: g.drop j → skipped b = true
  edge : startCode <:+ g → ∀ u ∈ us.head?, u.isPack = true

theorem startCode_suffix (h : startCode <:+ g) : 3 ≤ g.length ∧ startCode <+: g.drop (g.length - 3) := by
  obtain ⟨t, rfl⟩ := h
  have len : (t ++ startCode).length = t.length + 3 := by simp [startCode]
  exact ⟨by omega, by rw [len, Nat.add_sub_cancel, List.drop_left]⟩

theorem Behind.drop (h : Behind g us) (i : Nat) : Behind (g.drop i) us where
  harmless j b hb := h.harmless (i + j) b (by rwa [List.drop_drop] at hb)
  edge he := h.edge (he.trans (List.drop_suffix i g))

theorem Clear.behind (h : Clear g) (us : List Piece) : Behind g us where
  harmless j b hb := by
    have occurs : startCode <+: (g ++ []).drop j := by
      rw [List.append_nil]
      exact (List.prefix_append _ _).trans hb
    have inside := hb.length_le
    simp only [startCode, List.length_append, List.length_cons, List.length_nil, List.length_drop] at inside
    exact absurd occurs (h [] j (by omega))
  edge he := by
    obtain ⟨len, occurs⟩ := startCode_suffix he
    rw [← List.append_nil g, List.append_nil g] at occurs
    exact absurd (by rwa [List.append_nil]) (h [] (g.length - 3) (by omega))

/-- Three bytes hold no start code and an id. -/
theorem behind_short (short : g.length ≤ 3) (edge : startCode <:+ g → ∀ u ∈ us.head?, u.isPack = true) :
    Behind g us where
  harmless j b hb := by
    have inside := hb.length_le
    simp only [startCode, List.length_append, List.length_cons, List.length_nil, List.length_drop] at inside
    omega
  edge := edge

theorem behind_nil : Behind [] us := behind_short (Nat.zero_le 3) (by simp [startCode])

/-- Behind a start code such an id is skipped. -/
theorem readPacket_skipped {b : UInt8} (hb : skipped b = true) (h : startCode ++ [b] <+: w) :
    readPacket w = some (.skip 4) := by
  obtain ⟨t, rfl⟩ := h
  have len : ¬(startCode ++ [b] ++ t).length < 4 := by simp [startCode]
  have id : (startCode ++ [b] ++ t)[3]? = some b := rfl
  simp only [skipped, Bool.and_eq_true, Bool.not_eq_true', decide_eq_false_iff_not, Bool.or_eq_true,
    decide_eq_true_eq] at hb
  obtain ⟨⟨⟨pack, system⟩, map⟩, rest⟩ := hb
  rw [readPacket, if_neg len, id]
  simp only [if_neg pack, if_neg (not_or.mpr ⟨system, map⟩)]
  rcases rest with mark | unknown
  · rw [if_pos mark]
  · rw [unknown]
    simp

/-- An id below 0x80 is skipped. -/
theorem skipped_of_low {b : UInt8} (hb : b < 0x80) : skipped b = true := by
  have other : ∀ c : UInt8, 0x80 ≤ c → b ≠ c := by
    rintro c hc rfl
    exact absurd hb (UInt8.not_lt.mpr hc)
  have notPes : isPes b = false := by
    have lo : ¬(0xBD : UInt8) ≤ b := UInt8.not_le.mpr (UInt8.lt_trans hb (by decide))
    have hi : ¬(0xC0 : UInt8) ≤ b := UInt8.not_le.mpr (UInt8.lt_trans hb (by decide))
    simp [isPes, lo, hi]
  simp [skipped, notPes, other]

theorem flat_startCode (us : List Piece) : startCode <+: flat us ∨ us = [] := by
  cases us with
  | nil => exact .inr rfl
  | cons u us => exact .inl ((bytes_startCode u).trans (List.prefix_append _ _))

/-- What the demuxer sees of garbage. -/
inductive Seen (a : Assembly) (g : List UInt8) (us : List Piece) : Prop where
  | clear (none : ∀ j < g.length, ¬startCode <+: (g ++ flat us).drop j)
  | inside {j : Nat} (here : j + 4 ≤ g.length) (skips : turn a (g ++ flat us) = some (j + 4, { assembly := a }))
  /-- The start code at the very end takes the first byte of a pack header. -/
  | edge {j : Nat} {u : Piece} {vs : List Piece} (here : j + 3 = g.length) (next : us = u :: vs)
      (pack : u.isPack = true) (skips : turn a (g ++ flat us) = some (j + 4, { assembly := a }))
  | last (nothing : us = []) (stops : nextPacket (g ++ flat us) = none)

theorem Behind.seen (h : Behind g us) (a : Assembly) : Seen a g us := by
  cases hsc : find startCode (g ++ flat us) with
  | none => exact .clear fun j _ => find_none startCode_ne hsc j
  | some j =>
    by_cases late : g.length ≤ j
    · exact .clear fun i hi => find_min hsc (by omega)
    have here := (find_some hsc).1
    -- a start code is not cut by the end of the garbage
    have whole : j + 3 ≤ g.length := by
      rcases flat_startCode us with behind | rfl
      · exact unbordered_startCode.apart here (by rw [List.drop_left]; exact behind) (by omega)
      · have := here.length_le
        simp only [flat_nil, List.append_nil, startCode, List.length_drop, List.length_cons, List.length_nil] at this
        omega
    have occurs : startCode <+: g.drop j := prefix_of_append here (by simpa [startCode] using whole)
    obtain ⟨t, ht⟩ := occurs
    have cut : (g ++ flat us).drop j = startCode ++ (t ++ flat us) := by
      rw [List.drop_append_of_le_length (by omega), ← ht, List.append_assoc]
    have skips : ∀ b rest, t ++ flat us = b :: rest → skipped b = true →
        turn a (g ++ flat us) = some (j + 4, { assembly := a }) := by
      intro b rest shape low
      have read : readPacket ((g ++ flat us).drop j) = some (.skip 4) :=
        readPacket_skipped low (by rw [cut, shape]; exact ⟨rest, by simp⟩)
      exact turn_of_react (nextPacket_of_read hsc read (by simp)) rfl
    have len : g.length = j + 3 + t.length := by
      have := congrArg List.length ht
      simp only [startCode, List.length_append, List.length_cons, List.length_nil, List.length_drop] at this
      omega
    cases t with
    | cons b t =>
      exact .inside (by simp only [List.length_cons] at len; omega) (skips b _ rfl
        (h.harmless j b (by rw [← ht]; exact ⟨t, by simp⟩)))
    | nil =>
      cases us with
      | nil =>
        have short : readPacket ((g ++ flat []).drop j) = some .short := by rw [cut]; rfl
        have none : nextPacket (g ++ flat []) = none := by
          rw [nextPacket, hsc, Option.bind_some, short, Option.bind_some, if_pos rfl]
        exact .last rfl none
      | cons u vs =>
        have pack : u.isPack = true := by
          refine h.edge ?_ u (by simp)
          rw [List.append_nil] at ht
          rw [ht]
          exact List.drop_suffix j g
        obtain ⟨t, ht⟩ := bytes_startCode u
        exact .edge (by simp only [List.length_nil] at len; omega) rfl pack
          (skips 0 ([0, 1] ++ t ++ flat vs) (by rw [flat_cons, ← ht]; simp [startCode]) (by decide))

/-! ## Reading the packets -/

theorem find_flat (u : Piece) (vs : List Piece) : find startCode (flat (u :: vs)) = some 0 := by
  obtain ⟨t, ht⟩ := bytes_startCode u
  refine find_of_first ?_ ?_ nofun
  · rw [flat_cons, ← ht, List.drop_zero, List.append_assoc]
    exact List.prefix_append _ _
  · rw [flat_cons, ← ht]
    simp [startCode]

variable {r : Reaction} {u : Piece} {vs : List Piece} {assembly : Assembly}

theorem packet_ne_short (u : Piece) : u.packet ≠ .short := by cases u <;> exact nofun

theorem nextPacket_flat (valid : u.Valid) (vs : List Piece) :
    nextPacket (flat (u :: vs)) = some (u.bytes.length, u.packet) := by
  have read := readPacket_piece valid (flat vs)
  rw [nextPacket_of_read (find_flat u vs) read (packet_ne_short u), bytes_length, Nat.zero_add]

theorem turn_flat (valid : u.Valid) (hr : react assembly u.packet = some r) (vs : List Piece) :
    turn assembly (flat (u :: vs)) = some (u.bytes.length, r) :=
  turn_of_react (nextPacket_flat valid vs) hr

theorem react_pack (assembly : Assembly) (pack : u.isPack = true) :
    react assembly u.packet = some { assembly := assembly } := by
  cases u with
  | pack scr rate => rfl
  | _ => cases pack

theorem pack_valid (pack : u.isPack = true) : u.Valid := by
  cases u with
  | pack scr rate => exact nofun
  | _ => cases pack

/-- A pack header that has lost its first bytes. -/
theorem pack_clear (pack : u.isPack = true) : Clear (u.bytes.drop 1) := by
  cases u with
  | pack scr rate =>
    have := front_clear (.pack scr rate)
    rwa [List.take_of_length_le (by rw [bytes_length]; exact Nat.le_refl 14)] at this
  | _ => cases pack

/-- **Harmless garbage is read over.** -/
theorem same_garbage (h : Behind g us) (assembly : Assembly) : Same assembly (g ++ flat us) assembly (flat us) := by
  induction hn : g.length using Nat.strongRecOn generalizing g us with
  | _ n ih =>
    cases h.seen assembly with
    | clear none =>
      have := same_drop (a := assembly) none
      rwa [List.drop_left] at this
    | @inside j here skips =>
      have := Same.of_turn skips rfl
      rw [List.drop_append_of_le_length here] at this
      exact this.trans (ih (g.drop (j + 4)).length (by rw [List.length_drop]; omega) (h.drop (j + 4)) rfl)
    | @edge j u vs here next pack skips =>
      subst next
      have cut : (g ++ flat (u :: vs)).drop (j + 4) = u.bytes.drop 1 ++ flat vs := by
        have := guarded_bounds u
        rw [List.drop_append, List.drop_eq_nil_of_le (by omega), List.nil_append,
          show j + 4 - g.length = 1 by omega, flat_cons, List.drop_append_of_le_length (by omega)]
      have damaged := Same.of_turn skips rfl
      have trimmed := same_drop (a := assembly) (w := u.bytes.drop 1 ++ flat vs) (i := (u.bytes.drop 1).length)
        fun j hj => pack_clear pack (flat vs) j hj
      have whole := Same.of_turn (turn_flat (pack_valid pack) (react_pack assembly pack) vs) rfl
      rw [cut] at damaged
      rw [List.drop_left] at trimmed
      rw [flat_cons, List.drop_left] at whole
      exact (damaged.trans trimmed).trans whole.symm
    | last nothing stops =>
      subst nothing
      have empty : turn assembly (flat []) = none := by rw [turn, nextPacket_short (by decide), Option.bind_none]
      have none : turn assembly (g ++ flat []) = none := by rw [turn, stops, Option.bind_none]
      refine ⟨by rw [walk_of_none empty, walk_of_none none], ?_⟩
      rw [refuses_of_none empty, refuses_of_none none, Refused, Refused, stops, nextPacket_short (by decide)]

/-! ## Resuming -/

/-- Behind a PES packet the next pack begins. -/
def Chained (us : List Piece) : Prop := us.IsChain fun u v => u.isVideo = true → v.isPack = true

/-- A stream of packets behind harmless garbage. -/
structure Streamed (g : List UInt8) (us : List Piece) (w : List UInt8) : Prop where
  bytes : w = g ++ flat us
  behind : Behind g us
  valid : ∀ u ∈ us, u.Valid
  chained : Chained us

def BehindGarbage (_ : Assembly) (w : List UInt8) : Prop := ∃ g us, Streamed g us w

/-- Only a PES packet may end like a start code. -/
theorem not_suffix_of_clear {l : List UInt8} (h : Clear (l.drop 1)) (long : 4 ≤ l.length) : ¬startCode <:+ l := by
  intro he
  obtain ⟨len, occurs⟩ := startCode_suffix he
  refine h [] (l.length - 4) (by rw [List.length_drop]; omega) ?_
  rwa [List.append_nil, List.drop_drop, show 1 + (l.length - 4) = l.length - 3 by omega]

theorem bytes_suffix (h : startCode <:+ u.bytes) : u.isVideo = true := by
  by_contra header
  have whole := guarded_whole (by simpa using header)
  have clear := front_clear u
  rw [whole, List.take_length] at clear
  exact not_suffix_of_clear clear (by have := guarded_bounds u; omega) h

theorem Chained.head (h : Chained (u :: vs)) (video : u.isVideo = true) : ∀ v ∈ vs.head?, v.isPack = true := by
  cases vs with
  | nil => exact nofun
  | cons v vs =>
    rintro _ ⟨⟩
    exact (List.isChain_cons_cons.mp h).1 video

/-- Up to three bytes of a packet that has been read. -/
theorem behind_tail (chained : Chained (u :: vs)) {k : Nat} (hk : k ≤ 3) :
    Behind (u.bytes.drop (u.bytes.length - k)) vs :=
  behind_short (by rw [List.length_drop]; omega) fun he =>
    chained.head (bytes_suffix (he.trans (List.drop_suffix _ _)))

namespace Streamed

variable {n : Nat}

theorem tail (h : Streamed g (u :: vs) w) : Streamed [] vs (flat vs) :=
  ⟨rfl, behind_nil, fun v hv => h.valid v (List.mem_cons_of_mem u hv), List.IsChain.of_cons h.chained⟩

/-- A turn, and going back behind it: a packet is damaged only if it is a pack header. -/
theorem turned (h : Streamed g us w) (ht : turn assembly w = some (n, r)) {k : Nat} (hk : k ≤ 3) :
    ∃ g' us', Streamed g' us' (w.drop (n - k)) ∧ Same r.assembly (w.drop n) r.assembly (flat us') := by
  have rest := h
  obtain ⟨rfl, behind, valid, chained⟩ := h
  cases behind.seen assembly with
  | last nothing stops => rw [turn, stops] at ht; cases ht
  | @inside j here skips =>
    obtain ⟨rfl, rfl⟩ := Prod.mk.inj (Option.some.inj (ht.symm.trans skips))
    refine ⟨g.drop (j + 4 - k), us, ⟨List.drop_append_of_le_length (by omega), behind.drop _, valid, chained⟩, ?_⟩
    rw [List.drop_append_of_le_length here]
    exact same_garbage (behind.drop _) assembly
  | @edge j u vs here next pack skips =>
    subst next
    obtain ⟨rfl, rfl⟩ := Prod.mk.inj (Option.some.inj (ht.symm.trans skips))
    have damaged : (g ++ flat (u :: vs)).drop (j + 4) = u.bytes.drop 1 ++ flat vs := by
      have := guarded_bounds u
      rw [List.drop_append, List.drop_eq_nil_of_le (by omega), List.nil_append,
        show j + 4 - g.length = 1 by omega, flat_cons, List.drop_append_of_le_length (by omega)]
    have read : Same assembly ((g ++ flat (u :: vs)).drop (j + 4)) assembly (flat vs) := by
      rw [damaged]
      exact same_garbage ((pack_clear pack).behind vs) assembly
    rcases Nat.eq_zero_or_pos k with rfl | pos
    · exact ⟨u.bytes.drop 1, vs, ⟨damaged, (pack_clear pack).behind vs, rest.tail.valid, rest.tail.chained⟩, read⟩
    · refine ⟨g.drop (j + 4 - k), u :: vs,
        ⟨List.drop_append_of_le_length (by omega), behind.drop _, valid, chained⟩, ?_⟩
      have whole := Same.of_turn (turn_flat (pack_valid pack) (react_pack assembly pack) vs) rfl
      rw [flat_cons, List.drop_left] at whole
      exact read.trans whole.symm
  | clear none =>
    rw [turn_drop none, List.drop_left] at ht
    cases us with
    | nil =>
      have nothing : turn assembly (flat []) = .none := by
        rw [turn, nextPacket_short (by decide), Option.bind_none]
      rw [nothing] at ht
      cases ht
    | cons u vs =>
      have read := nextPacket_flat (valid u (by simp)) vs
      obtain ⟨⟨m, r'⟩, hm, h⟩ := Option.map_eq_some_iff.mp ht
      cases h
      obtain ⟨p, hp, -⟩ := turn_some hm
      rw [read] at hp
      obtain ⟨rfl, -⟩ := Prod.mk.inj (Option.some.inj hp)
      have long := guarded_bounds u
      refine ⟨u.bytes.drop (u.bytes.length - k), vs, ⟨?_, behind_tail chained hk, rest.tail.valid, rest.tail.chained⟩, ?_⟩
      · rw [show u.bytes.length + g.length - k = g.length + (u.bytes.length - k) by omega, ← List.drop_drop,
          List.drop_left, flat_cons, List.drop_append_of_le_length (Nat.sub_le _ _)]
      · rw [Nat.add_comm, ← List.drop_drop, List.drop_left, flat_cons, List.drop_left]
        exact .refl _ _

end Streamed

/-- **A stream behind harmless garbage can be resumed.** -/
theorem resumable_behind : Resumable BehindGarbage where
  go := by
    rintro a w n r k ⟨g, us, h⟩ ht hk -
    obtain ⟨g', us', next, same⟩ := h.turned ht hk
    have read := same_garbage next.behind r.assembly
    rw [← next.bytes] at read
    exact ⟨⟨g', us', next⟩, read.trans same.symm⟩

end Rkvc.Pspack
