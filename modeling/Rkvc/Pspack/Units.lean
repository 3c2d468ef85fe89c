import Mathlib.Data.List.Chain
import Rkvc.Pspack.Stream

/-!
# Access units as packets

`mux_frame` writes the packets of `AccessUnit.pieces`. What the demuxer does with
them is given by `Assembly.opened`: the map of a keyframe is set first, the first
PES packet completes the access unit before and opens this one, and its fragments
are collected.
-/

namespace Rkvc.Pspack
set_option autoImplicit false

open Lib

/-- The arguments of a call of `mux_frame`. -/
structure AccessUnit where
  codec : VideoCodec
  annexb : List UInt8
  pts90 : Int
  keyframe : Bool
  muxRate50bs : Nat := 25000
  deriving DecidableEq, Repr

def chunksOf (k : Nat) : Nat → List UInt8 → List (List UInt8)
  | 0, _ => []
  | fuel + 1, l => if l = [] then [] else l.take k :: chunksOf k fuel (l.drop k)

/-- Every fragment in a pack of its own. -/
def fragmentPieces (scr rate : Nat) (fragments : List (List UInt8)) : List Piece :=
  fragments.flatMap fun p => [.pack scr rate, .more p]

namespace AccessUnit

def mux (u : AccessUnit) : Result (List UInt8) := muxFrame u.codec u.annexb u.pts90 u.keyframe u.muxRate50bs

/-- What `mux_frame` accepts. -/
def Sized (u : AccessUnit) : Prop := 0 < u.annexb.length ∧ u.annexb.length ≤ kMaxPayload

instance (u : AccessUnit) : Decidable u.Sized := inferInstanceAs (Decidable (_ ∧ _))

def rate (u : AccessUnit) : Nat := u.muxRate50bs &&& 0x3FFFFF

/-- The codec of the map it carries. -/
def map (u : AccessUnit) : Option VideoCodec := if u.keyframe then some u.codec else none

def mapPieces (u : AccessUnit) : List Piece := if u.keyframe then [.system u.rate, .psm u.codec] else []

/-- What goes into the first PES packet. -/
def head (u : AccessUnit) : List UInt8 := u.annexb.take kPesChunk

/-- What goes into the others. -/
def fragments (u : AccessUnit) : List (List UInt8) :=
  chunksOf kPesChunk u.annexb.length (u.annexb.drop kPesChunk)

/-- The packets up to the first PES packet. -/
def headPieces (u : AccessUnit) : List Piece :=
  .pack (clock33 u.pts90) u.rate :: (u.mapPieces ++ [.first u.pts90 u.head])

def pieces (u : AccessUnit) : List Piece :=
  u.headPieces ++ fragmentPieces (clock33 u.pts90) u.rate u.fragments

end AccessUnit

/-- The concatenation of the outputs of `mux_frame`. -/
def muxStream (units : List AccessUnit) : Result (List UInt8) := (units.mapM AccessUnit.mux).map List.flatten

/-! ## The multiplexer's loop -/

theorem chunksOf_spec {k : Nat} (hk : 0 < k) {fuel : Nat} {l : List UInt8} (enough : l.length ≤ fuel) :
    (chunksOf k fuel l).flatten = l ∧ ∀ p ∈ chunksOf k fuel l, 0 < p.length ∧ p.length ≤ k := by
  induction fuel generalizing l with
  | zero =>
    obtain rfl := List.length_eq_zero_iff.mp (Nat.le_zero.mp enough)
    exact ⟨rfl, nofun⟩
  | succ fuel ih =>
    rw [chunksOf]
    split
    · rename_i empty
      exact ⟨empty.symm, nofun⟩
    · rename_i some
      have pos := List.length_pos_iff.mpr some
      obtain ⟨whole, sizes⟩ := ih (l := l.drop k) (by rw [List.length_drop]; omega)
      refine ⟨by rw [List.flatten_cons, whole, List.take_append_drop], ?_⟩
      intro p hp
      rcases List.mem_cons.mp hp with rfl | later
      · rw [List.length_take]
        omega
      · exact sizes p later

/-- The fuel of a list's length is enough. -/
theorem chunksOf_succ {k : Nat} (hk : 0 < k) {fuel : Nat} {l : List UInt8} (enough : l.length ≤ fuel) :
    chunksOf k (fuel + 1) l = chunksOf k fuel l := by
  induction fuel generalizing l with
  | zero =>
    obtain rfl := List.length_eq_zero_iff.mp (Nat.le_zero.mp enough)
    rfl
  | succ fuel ih =>
    rw [chunksOf]
    conv_rhs => rw [chunksOf]
    split
    · rfl
    · rw [ih (by rw [List.length_drop]; omega)]

theorem wrPack_append (o : List UInt8) (scr rate : Nat) : wrPack o scr rate = o ++ Piece.bytes (.pack scr rate) := by
  rw [bytes_pack, wrPack, BitWriter.puts_bytes _ _ 10 rfl, wrStart, List.append_assoc]

theorem wrSystem_append (o : List UInt8) (rate : Nat) : wrSystem o rate = o ++ Piece.bytes (.system rate) := by
  have size : [UInt8.ofNat (9 >>> 8), UInt8.ofNat 9] = [0, 9] := rfl
  rw [bytes_system, wrSystem, BitWriter.puts_bytes _ _ 9 rfl, wrStart, wrU16, size]
  simp only [List.append_assoc, List.cons_append, List.nil_append]

theorem wrPsm_append (o : List UInt8) (codec : VideoCodec) : wrPsm o codec = o ++ Piece.bytes (.psm codec) := by
  simp only [Piece.bytes, wrPsm, wrStart, wrU16, wrU32be, List.append_assoc, List.nil_append]

theorem wrPes_first (o : List UInt8) (pts : Int) (p : List UInt8) :
    wrPes o true pts p = o ++ Piece.bytes (.first pts p) := by
  rw [bytes_first]
  simp only [wrPes, if_true, wrPts]
  rw [BitWriter.puts_bytes _ _ 5 rfl]
  simp only [wrStart, wrU16, List.append_assoc, List.nil_append]

theorem wrPes_more (o : List UInt8) (pts : Int) (p : List UInt8) :
    wrPes o false pts p = o ++ Piece.bytes (.more p) := by
  rw [bytes_more]
  simp only [wrPes, Bool.false_eq_true, if_false, wrStart, wrU16, List.append_assoc, List.nil_append]

/-- The chunk the loop takes. -/
theorem take_chunk (l : List UInt8) (k off : Nat) :
    (l.drop off).take (if l.length - off > k then k else l.length - off) = (l.drop off).take k := by
  split
  · rfl
  · rw [List.take_of_length_le (by rw [List.length_drop]), List.take_of_length_le (by rw [List.length_drop]; omega)]

theorem muxLoop_more {codec : VideoCodec} {annexb : List UInt8} {pts90 : Int} {keyframe : Bool} {rate fuel off : Nat}
    (enough : annexb.length ≤ fuel + off) (out : List UInt8) :
    muxLoop codec annexb pts90 keyframe rate fuel off false out =
      out ++ flat (fragmentPieces (clock33 pts90) rate (chunksOf kPesChunk fuel (annexb.drop off))) := by
  induction fuel generalizing off out with
  | zero => simp [muxLoop, chunksOf, fragmentPieces]
  | succ fuel ih =>
    rw [muxLoop, chunksOf]
    split
    · rename_i more
      have nonempty : annexb.drop off ≠ [] := List.ne_nil_of_length_pos (by rw [List.length_drop]; omega)
      generalize hc : (if annexb.length - off > kPesChunk then kPesChunk else annexb.length - off) = chunk
      have chunk_pos : 0 < chunk := by
        rw [← hc]
        split
        · decide
        · omega
      have rest : annexb.drop (off + chunk) = (annexb.drop off).drop kPesChunk := by
        rw [List.drop_drop, ← hc]
        split
        · rfl
        · rw [List.drop_eq_nil_of_le (by omega), List.drop_eq_nil_of_le (by omega)]
      simp only [if_neg nonempty, Bool.and_false, Bool.false_eq_true, if_false]
      rw [ih (by omega), wrPes_more, wrPack_append, rest, ← hc, take_chunk]
      simp only [fragmentPieces, List.flatMap_cons, flat_cons, List.cons_append, List.nil_append, List.append_assoc]
    · rename_i done
      rw [if_pos (List.drop_eq_nil_of_le (by omega))]
      simp [fragmentPieces]

/-- **What `mux_frame` writes.** -/
theorem mux_eq {u : AccessUnit} (sized : u.Sized) : u.mux = .ok (flat u.pieces) := by
  obtain ⟨pos, most⟩ := sized
  have loop : muxLoop u.codec u.annexb u.pts90 u.keyframe u.rate u.annexb.length 0 true [] = flat u.pieces := by
    obtain ⟨fuel, hfuel⟩ : ∃ k, u.annexb.length = k + 1 := ⟨u.annexb.length - 1, by omega⟩
    generalize hc : (if u.annexb.length - 0 > kPesChunk then kPesChunk else u.annexb.length - 0) = chunk
    have chunk_pos : 0 < chunk := by
      rw [← hc]
      split
      · decide
      · omega
    have rest : u.annexb.drop chunk = u.annexb.drop kPesChunk := by
      rw [← hc]
      split
      · rfl
      · rw [List.drop_eq_nil_of_le (by omega), List.drop_eq_nil_of_le (by omega)]
    have first := take_chunk u.annexb kPesChunk 0
    rw [hc, List.drop_zero] at first
    have fragments : chunksOf kPesChunk fuel (u.annexb.drop kPesChunk) = u.fragments := by
      rw [AccessUnit.fragments, hfuel, chunksOf_succ (by decide) (by rw [List.length_drop, hfuel]; unfold kPesChunk; omega)]
    have mapped : (if (u.keyframe && true) = true then
        wrPsm (wrSystem (wrPack [] (clock33 u.pts90) u.rate) u.rate) u.codec
        else wrPack [] (clock33 u.pts90) u.rate) =
        Piece.bytes (.pack (clock33 u.pts90) u.rate) ++ flat u.mapPieces := by
      rw [Bool.and_true, wrPack_append, wrSystem_append, wrPsm_append, AccessUnit.mapPieces, List.nil_append]
      split <;> simp [flat]
    rw [hfuel, muxLoop, if_pos pos]
    simp only [List.drop_zero, Nat.zero_add]
    rw [hc, mapped, wrPes_first, first, muxLoop_more (by omega), rest, fragments]
    simp [AccessUnit.pieces, AccessUnit.headPieces, AccessUnit.head, flat]
  rw [AccessUnit.mux, muxFrame, if_neg (by omega), if_neg (by omega), ← loop]
  rfl

/-! ## What the demuxer makes of them -/

/-- The demuxer reads the packets and delivers the frames. -/
inductive Plays : Assembly → List Piece → List Frame → Assembly → Prop where
  | nil {a} : Plays a [] [] a
  | cons {a u r us fs b} : react a u.packet = some r → Plays r.assembly us fs b →
      Plays a (u :: us) (r.frame.toList ++ fs) b

namespace Plays

variable {a b c : Assembly} {us vs : List Piece} {fs gs : List Frame}

theorem append (h : Plays a us fs b) (k : Plays b vs gs c) : Plays a (us ++ vs) (fs ++ gs) c := by
  induction h with
  | nil => exact k
  | cons hr _ ih => rw [List.append_assoc]; exact .cons hr (ih k)

theorem walk (h : Plays a us fs b) (valid : ∀ u ∈ us, u.Valid) (y : List UInt8) :
    Pspack.walk a (flat us ++ y) = (fs ++ (Pspack.walk b y).1, (Pspack.walk b y).2) ∧
      (refuses a (flat us ++ y) ↔ refuses b y) := by
  induction h with
  | nil => exact ⟨rfl, Iff.rfl⟩
  | @cons a u r us fs b hr _ ih =>
    have turned := turn_append (turn_flat (valid u (by simp)) hr us) y
    obtain ⟨walked, ends⟩ := ih fun v hv => valid v (by simp [hv])
    have cut : (flat (u :: us) ++ y).drop u.bytes.length = flat us ++ y := by
      rw [flat_cons, List.append_assoc, List.drop_left]
    refine ⟨?_, by rw [refuses_of_turn turned, cut, ends]⟩
    rw [walk_of_turn turned, cut, walked, List.append_assoc]

end Plays

namespace Assembly

/-- The assembly behind the packets of an access unit. -/
def opened (a : Assembly) (u : AccessUnit) : Assembly :=
  { a.setPsm u.map with au := u.annexb, auPts := clock33 u.pts90, auOpen := true }

theorem emitAu_start (a : Assembly) (pts : Int) (payload : List UInt8) :
    a.emitAu.2.start pts payload = a.start pts payload := by
  unfold emitAu
  split <;> rfl

/-- The frame an assembly completes. -/
def completes (a : Assembly) : Option Frame := a.emitAu.1.toOption

end Assembly

section Unit

variable {a : Assembly} {u : AccessUnit} {scr rate : Nat} {fragments : List (List UInt8)}

theorem mapPieces_plays (a : Assembly) (u : AccessUnit) : Plays a u.mapPieces [] (a.setPsm u.map) := by
  unfold AccessUnit.mapPieces AccessUnit.map
  split
  · exact .cons (r := { assembly := a }) rfl (.cons (r := { assembly := a.setPsm (some u.codec) }) rfl .nil)
  · exact .nil

/-- The fragments of an open access unit are collected. -/
theorem fragments_play (scr rate : Nat) (opened : a.auOpen = true)
    (room : a.au.length + fragments.flatten.length ≤ kMaxPayload) :
    Plays a (fragmentPieces scr rate fragments) [] { a with au := a.au ++ fragments.flatten } := by
  induction fragments generalizing a with
  | nil =>
    rw [List.flatten_nil, List.append_nil]
    exact .nil
  | cons p fragments ih =>
    rw [List.flatten_cons, List.length_append] at room
    have collected : react a (Piece.more p).packet =
        some { assembly := { a with au := a.au ++ p }, taken := true } := by
      simp only [Piece.packet, react, opened, Bool.not_true, Bool.false_eq_true, if_false]
      rw [if_neg (by omega)]
    have rest := ih (a := { a with au := a.au ++ p }) opened (by simp only [List.length_append]; omega)
    rw [List.append_assoc] at rest
    exact .cons (r := { assembly := a }) rfl (.cons collected rest)

theorem fragments_flatten (u : AccessUnit) : u.head ++ u.fragments.flatten = u.annexb := by
  rw [AccessUnit.head, AccessUnit.fragments,
    (chunksOf_spec (by decide) (by rw [List.length_drop]; exact Nat.sub_le _ _)).1, List.take_append_drop]

theorem first_play (a : Assembly) (u : AccessUnit) :
    Plays a [.first u.pts90 u.head] a.completes.toList (a.start (clock33 u.pts90) u.head) := by
  have := Plays.cons (a := a) (u := .first u.pts90 u.head) rfl .nil
  rw [List.append_nil] at this
  rwa [Assembly.emitAu_start] at this

/-- The first PES packet and its fragments. -/
theorem payload_play (a : Assembly) (sized : u.Sized) :
    Plays a (.first u.pts90 u.head :: fragmentPieces scr rate u.fragments) a.completes.toList
      (a.start (clock33 u.pts90) u.annexb) := by
  have whole := fragments_flatten u
  have size : u.head.length + u.fragments.flatten.length ≤ kMaxPayload := by
    rw [← List.length_append, whole]
    exact sized.2
  have collected := fragments_play (a := a.start (clock33 u.pts90) u.head) scr rate rfl size
  have := (first_play a u).append collected
  rw [List.append_nil] at this
  simp only [Assembly.start, whole] at this
  exact this

/-- **The packets of an access unit** complete the one before. -/
theorem pieces_play (a : Assembly) (sized : u.Sized) :
    Plays a u.pieces (a.setPsm u.map).completes.toList (a.opened u) := by
  have shape : u.pieces = .pack (clock33 u.pts90) u.rate ::
      (u.mapPieces ++ .first u.pts90 u.head :: fragmentPieces (clock33 u.pts90) u.rate u.fragments) := by
    simp [AccessUnit.pieces, AccessUnit.headPieces]
  rw [shape]
  exact .cons (r := { assembly := a }) rfl ((mapPieces_plays a u).append (payload_play _ sized))

end Unit

/-! ## Streams -/

/-- The packets of access units. -/
def streamPieces (units : List AccessUnit) : List Piece := units.flatMap AccessUnit.pieces

/-- The frames of access units behind what is under assembly, the last one flushed. -/
def framesOf : Assembly → List AccessUnit → List Frame
  | a, [] => a.completes.toList
  | a, u :: units => (a.setPsm u.map).completes.toList ++ framesOf (a.opened u) units

section Stream

variable {a : Assembly} {u : AccessUnit} {units : List AccessUnit} {us vs : List Piece} {n : Nat}

theorem mux_all (sized : ∀ u ∈ units, u.Sized) :
    units.mapM AccessUnit.mux = .ok (units.map fun u => flat u.pieces) := by
  induction units with
  | nil => rfl
  | cons u units ih =>
    rw [List.mapM_cons, mux_eq (sized u (by simp)), ih fun v hv => sized v (by simp [hv])]
    rfl

theorem muxStream_eq (sized : ∀ u ∈ units, u.Sized) : muxStream units = .ok (flat (streamPieces units)) := by
  rw [muxStream, mux_all sized, streamPieces, flat, List.flatMap_assoc]
  exact congrArg Except.ok List.flatMap_def.symm

theorem chunksOf_mem {p : List UInt8} (hp : p ∈ u.fragments) : 0 < p.length ∧ p.length ≤ kPesChunk :=
  (chunksOf_spec (by decide) (by rw [List.length_drop]; exact Nat.sub_le _ _)).2 p hp

theorem fragmentPieces_valid {scr rate : Nat} {fragments : List (List UInt8)}
    (sizes : ∀ p ∈ fragments, 0 < p.length ∧ p.length ≤ kPesChunk) :
    ∀ v ∈ fragmentPieces scr rate fragments, v.Valid := by
  intro v hv
  obtain ⟨p, hp, hv⟩ := List.mem_flatMap.mp hv
  rcases List.mem_cons.mp hv with rfl | hv
  · exact nofun
  · obtain rfl := List.mem_singleton.mp hv
    exact fun _ => sizes p hp

theorem headPieces_valid (sized : u.Sized) : ∀ v ∈ u.headPieces, v.Valid := by
  have head : 0 < u.head.length ∧ u.head.length ≤ kPesChunk := by
    rw [AccessUnit.head, List.length_take]
    exact ⟨Nat.lt_min.mpr ⟨by decide, sized.1⟩, Nat.min_le_left _ _⟩
  intro v hv
  unfold AccessUnit.headPieces AccessUnit.mapPieces at hv
  split at hv
  all_goals
    simp only [List.cons_append, List.nil_append, List.mem_cons, List.not_mem_nil, or_false] at hv
  · rcases hv with rfl | rfl | rfl | rfl
    · exact nofun
    · exact nofun
    · exact nofun
    · exact fun _ => head
  · rcases hv with rfl | rfl
    · exact nofun
    · exact fun _ => head

theorem pieces_valid (sized : u.Sized) : ∀ v ∈ u.pieces, v.Valid := by
  intro v hv
  rcases List.mem_append.mp hv with hv | hv
  · exact headPieces_valid sized v hv
  · exact fragmentPieces_valid (fun p hp => chunksOf_mem hp) v hv

theorem streamPieces_valid (sized : ∀ u ∈ units, u.Sized) : ∀ v ∈ streamPieces units, v.Valid := by
  intro v hv
  obtain ⟨u, hu, hv⟩ := List.mem_flatMap.mp hv
  exact pieces_valid (sized u hu) v hv

/-- What comes begins with a pack. -/
def Fresh (us : List Piece) : Prop := ∀ v ∈ us.head?, v.isPack = true

theorem Chained.append (h : Chained us) (k : Chained vs) (fresh : Fresh vs) : Chained (us ++ vs) :=
  List.isChain_append.mpr ⟨h, k, fun _ _ v hv _ => fresh v hv⟩

theorem fragmentPieces_chained (scr rate : Nat) (fragments : List (List UInt8)) (k : Chained vs) (fresh : Fresh vs) :
    Chained (fragmentPieces scr rate fragments ++ vs) ∧ Fresh (fragmentPieces scr rate fragments ++ vs) := by
  induction fragments with
  | nil => exact ⟨k, fresh⟩
  | cons p fragments ih =>
    have pair : Chained [.pack scr rate, .more p] := List.isChain_cons_cons.mpr ⟨nofun, .singleton _⟩
    have shape : fragmentPieces scr rate (p :: fragments) ++ vs =
      [.pack scr rate, .more p] ++ (fragmentPieces scr rate fragments ++ vs) := rfl
    rw [shape]
    exact ⟨pair.append ih.1 ih.2, by rintro _ ⟨⟩; rfl⟩

theorem headPieces_chained (u : AccessUnit) : Chained u.headPieces := by
  unfold AccessUnit.headPieces AccessUnit.mapPieces
  split
  · exact .cons_cons nofun (.cons_cons nofun (.cons_cons nofun (.singleton _)))
  · exact .cons_cons nofun (.singleton _)

theorem streamPieces_chained (units : List AccessUnit) : Chained (streamPieces units) ∧ Fresh (streamPieces units) := by
  induction units with
  | nil => exact ⟨.nil, nofun⟩
  | cons u units ih =>
    have rest := fragmentPieces_chained (clock33 u.pts90) u.rate u.fragments ih.1 ih.2
    have shape : streamPieces (u :: units) =
      u.headPieces ++ (fragmentPieces (clock33 u.pts90) u.rate u.fragments ++ streamPieces units) := by
        simp [streamPieces, AccessUnit.pieces]
    rw [shape]
    exact ⟨(headPieces_chained u).append rest.1 rest.2, by rintro _ ⟨⟩; rfl⟩

theorem flat_append (us vs : List Piece) : flat (us ++ vs) = flat us ++ flat vs := List.flatMap_append

theorem turn_nothing (a : Assembly) : turn a [] = none := by
  rw [turn, nextPacket_short (by decide), Option.bind_none]

theorem not_refuses_nothing (a : Assembly) : ¬refuses a [] := by
  rw [refuses_of_none (turn_nothing a)]
  rintro ⟨n, p, hp, -⟩
  rw [nextPacket_short (by decide)] at hp
  cases hp

/-- **What the demuxer delivers of access units.** -/
theorem delivered_stream (a : Assembly) (sized : ∀ u ∈ units, u.Sized) :
    deliveredOf a (flat (streamPieces units)) = framesOf a units ∧ ¬refuses a (flat (streamPieces units)) := by
  induction units generalizing a with
  | nil =>
    have stops : walk a (flat (streamPieces [])) = ([], a) := walk_of_none (turn_nothing a)
    rw [deliveredOf, stops]
    exact ⟨rfl, not_refuses_nothing a⟩
  | cons u units ih =>
    have shape : flat (streamPieces (u :: units)) = flat u.pieces ++ flat (streamPieces units) := by
      simp [streamPieces, flat]
    obtain ⟨played, ends⟩ := (pieces_play a (sized u (by simp))).walk (pieces_valid (sized u (by simp)))
      (flat (streamPieces units))
    obtain ⟨rest, free⟩ := ih (a.opened u) fun v hv => sized v (by simp [hv])
    rw [shape]
    refine ⟨?_, by rw [ends]; exact free⟩
    rw [deliveredOf, played, List.append_assoc, framesOf, ← rest, deliveredOf]

end Stream

end Rkvc.Pspack
