import Rkvc.Pspack.RoundTrip

/-!
# Joining a stream late

A receiver that has lost the beginning of a stream comes upon what is left of one
packet and then whole packets. What is left of a packet may hold a start code that
the sender has not written only where the header of a continuation packet ends in
zeros and the payload goes on like one (`Forges`). Otherwise the access units
whose first PES packet has not been lost are delivered.
-/

namespace Rkvc.Pspack
set_option autoImplicit false

open Lib

/-! ## Cutting a stream -/

/-- The packets that begin at or behind a cut. -/
def packetsFrom : Nat → List Piece → List Piece
  | 0, us => us
  | _ + 1, [] => []
  | k + 1, u :: us => packetsFrom (k + 1 - u.bytes.length) us

/-- The packet that is cut, and how many of its bytes are lost. -/
def damaged : Nat → List Piece → Option (Piece × Nat)
  | 0, _ => none
  | _ + 1, [] => none
  | k + 1, u :: us => if k + 1 < u.bytes.length then some (u, k + 1) else damaged (k + 1 - u.bytes.length) us

variable {u : Piece} {us vs : List Piece} {k i j : Nat}

@[simp] theorem packetsFrom_zero (us : List Piece) : packetsFrom 0 us = us := by cases us <;> rfl

theorem packetsFrom_suffix (k : Nat) (us : List Piece) : packetsFrom k us <:+ us := by
  induction us generalizing k with
  | nil => cases k <;> exact List.suffix_refl _
  | cons u us ih =>
    cases k with
    | zero => exact List.suffix_refl _
    | succ k => exact (ih _).trans (List.suffix_cons u us)

/-- What is left of a stream: what is left of one packet, and whole packets. -/
theorem cut_spec (k : Nat) (us : List Piece) :
    damaged k us = none ∧ (flat us).drop k = flat (packetsFrom k us) ∨
      ∃ u i, damaged k us = some (u, i) ∧ 0 < i ∧ u :: packetsFrom k us <:+ us ∧
        (flat us).drop k = u.bytes.drop i ++ flat (packetsFrom k us) := by
  induction us generalizing k with
  | nil => cases k <;> exact .inl ⟨rfl, rfl⟩
  | cons u us ih =>
    cases k with
    | zero => exact .inl ⟨rfl, rfl⟩
    | succ k =>
      by_cases within : k + 1 < u.bytes.length
      · have all : packetsFrom (k + 1) (u :: us) = us := by
          rw [packetsFrom, Nat.sub_eq_zero_of_le (Nat.le_of_lt within), packetsFrom_zero]
        refine .inr ⟨u, k + 1, if_pos within, Nat.succ_pos k, by rw [all], ?_⟩
        rw [all, flat_cons, List.drop_append_of_le_length (Nat.le_of_lt within)]
      · have skip : (flat (u :: us)).drop (k + 1) = (flat us).drop (k + 1 - u.bytes.length) := by
          rw [flat_cons, List.drop_append, List.drop_eq_nil_of_le (by omega), List.nil_append]
        rw [skip, packetsFrom, damaged, if_neg within]
        rcases ih (k + 1 - u.bytes.length) with whole | ⟨v, i, cut, pos, behind, bytes⟩
        · exact .inl whole
        · exact .inr ⟨v, i, cut, pos, behind.trans (List.suffix_cons u us), bytes⟩

theorem packetsFrom_append_left (h : k ≤ (flat us).length) : packetsFrom k (us ++ vs) = packetsFrom k us ++ vs := by
  induction us generalizing k with
  | nil =>
    obtain rfl := Nat.le_zero.mp h
    simp
  | cons u us ih =>
    cases k with
    | zero => simp
    | succ k =>
      rw [flat_cons, List.length_append] at h
      exact ih (by omega)

theorem packetsFrom_append_right (h : (flat us).length ≤ k) :
    packetsFrom k (us ++ vs) = packetsFrom (k - (flat us).length) vs := by
  induction us generalizing k with
  | nil => rfl
  | cons u us ih =>
    have := guarded_bounds u
    rw [flat_cons, List.length_append] at h ⊢
    obtain ⟨k, rfl⟩ : ∃ m, k = m + 1 := ⟨k - 1, by omega⟩
    rw [List.cons_append, packetsFrom, ih (by omega), Nat.sub_sub]

/-! ## What is left of a packet -/

/-- With `i` bytes of its packet lost, the zeros at the end of a continuation header and
the payload make a start code that is not skipped. -/
def Forges (i : Nat) (payload : List UInt8) : Prop :=
  ∃ b, skipped b = false ∧ (i ≤ 7 ∧ [1, b] <+: payload ∨ i ≤ 8 ∧ [0, 1, b] <+: payload)

theorem front_free (u : Piece) (pos : 0 < j) (inside : j < u.guarded) : ¬startCode <+: u.bytes.drop j := by
  have long := guarded_bounds u
  have clear := front_clear u (u.bytes.drop u.guarded) (j - 1) (by
    rw [List.length_drop, List.length_take, Nat.min_eq_left long.2]; omega)
  have whole : (u.bytes.take u.guarded).drop 1 ++ u.bytes.drop u.guarded = u.bytes.drop 1 := by
    rw [← List.drop_append_of_le_length (by rw [List.length_take]; omega), List.take_append_drop]
  rwa [whole, List.drop_drop, show 1 + (j - 1) = j by omega] at clear

/-- Behind the header of a PES packet comes its payload. -/
theorem drop_first {pts : Int} {payload : List UInt8} (h : 14 ≤ j) :
    (Piece.bytes (.first pts payload)).drop j = payload.drop (j - 14) := by
  have header : (wrU16 (wrStart [] kVideoStreamId) (3 + 5 + payload.length) ++ [0x84, 0x80, 5] ++
      beBytes 5 (BitWriter.fieldsVal 0 (ptsFields (clock33 pts)))).length = 14 := by
    simp [wrU16, wrStart]
  rw [bytes_first, List.drop_append, header, List.drop_eq_nil_of_le (by rw [header]; exact h), List.nil_append]

theorem drop_more {payload : List UInt8} (h : 9 ≤ j) :
    (Piece.bytes (.more payload)).drop j = payload.drop (j - 9) := by
  have header : (wrU16 (wrStart [] kVideoStreamId) (3 + payload.length) ++ [0x80, 0x00, 0]).length = 9 := by
    simp [wrU16, wrStart]
  rw [bytes_more, List.drop_append, header, List.drop_eq_nil_of_le (by rw [header]; exact h), List.nil_append]

/-- **What is left of a packet** holds no start code but those of its payload. -/
theorem rest_harmless (clean : ∀ j b, startCode ++ [b] <+: u.payload.drop j → skipped b = true) (pos : 0 < i)
    (unforged : ∀ payload, u = .more payload → ¬Forges i payload) (j : Nat) (b : UInt8)
    (h : startCode ++ [b] <+: (u.bytes.drop i).drop j) : skipped b = true := by
  rw [List.drop_drop] at h
  have begins : startCode <+: u.bytes.drop (i + j) := (List.prefix_append _ _).trans h
  by_cases inside : i + j < u.guarded
  · exact absurd begins (front_free u (by omega) inside)
  have header : u.isVideo = false → skipped b = true := by
    intro header
    rw [List.drop_eq_nil_of_le (by have := guarded_whole header; omega)] at h
    simp [startCode] at h
  cases u with
  | first pts payload =>
    simp only [Piece.guarded] at inside
    rw [drop_first (by omega)] at h
    exact clean _ b h
  | more payload =>
    simp only [Piece.guarded] at inside
    by_cases far : 9 ≤ i + j
    · rw [drop_more far] at h
      exact clean _ b h
    · by_contra read
      refine unforged payload rfl ⟨b, by simpa using read, ?_⟩
      have cases : i + j = 7 ∨ i + j = 8 := by omega
      rcases cases with seven | eight
      · left
        rw [seven] at h
        have shape : (Piece.bytes (.more payload)).drop 7 = 0 :: 0 :: payload := rfl
        rw [shape] at h
        refine ⟨by omega, ?_⟩
        simpa [startCode] using h
      · right
        rw [eight] at h
        have shape : (Piece.bytes (.more payload)).drop 8 = 0 :: payload := rfl
        rw [shape] at h
        refine ⟨by omega, ?_⟩
        simpa [startCode] using h
  | _ => exact header rfl

/-! ## Who survives a cut -/

namespace AccessUnit

/-- The packets before the first PES packet. -/
def headers (u : AccessUnit) : List Piece := .pack (clock33 u.pts90) u.rate :: u.mapPieces

/-- Where the first PES packet begins. -/
def pesOffset (u : AccessUnit) : Nat := (flat u.headers).length

def size (u : AccessUnit) : Nat := (flat u.pieces).length

/-- The PES packets. -/
def body (u : AccessUnit) : List Piece :=
  .first u.pts90 u.head :: fragmentPieces (clock33 u.pts90) u.rate u.fragments

theorem pieces_eq (u : AccessUnit) : u.pieces = u.headers ++ u.body := by
  simp [pieces, headPieces, headers, body]

end AccessUnit

/-- The access units whose first PES packet begins at or behind a cut. -/
def survivors : Nat → List AccessUnit → List AccessUnit
  | _, [] => []
  | k, u :: units => if k ≤ u.pesOffset then u :: units else survivors (k - u.size) units

def Piece.isFirst : Piece → Bool
  | .first _ _ => true
  | _ => false

section Join

variable {a : Assembly} {unit : AccessUnit} {units : List AccessUnit}

/-- Before an access unit begins, nothing is delivered. -/
theorem orphans_play (orphans : ∀ v ∈ us, v.isFirst = false) (closed : a.auOpen = false) :
    ∃ a', Plays a us [] a' ∧ a'.auOpen = false := by
  induction us generalizing a with
  | nil => exact ⟨a, .nil, closed⟩
  | cons u us ih =>
    have rest : ∀ v ∈ us, v.isFirst = false := fun v hv => orphans v (List.mem_cons_of_mem u hv)
    cases u with
    | first pts payload => exact absurd (orphans _ List.mem_cons_self) (by simp [Piece.isFirst])
    | psm codec =>
      obtain ⟨a', played, closed'⟩ := ih (a := a.setPsm (some codec)) rest (by rw [setPsm_auOpen]; exact closed)
      exact ⟨a', .cons (r := { assembly := a.setPsm (some codec) }) rfl played, closed'⟩
    | more payload =>
      obtain ⟨a', played, closed'⟩ := ih rest closed
      refine ⟨a', .cons (r := { assembly := a }) ?_ played, closed'⟩
      simp only [Piece.packet, react, closed, Bool.not_false, if_true, Bool.false_eq_true, if_false]
    | pack scr rate =>
      obtain ⟨a', played, closed'⟩ := ih rest closed
      exact ⟨a', .cons (r := { assembly := a }) rfl played, closed'⟩
    | system rate =>
      obtain ⟨a', played, closed'⟩ := ih rest closed
      exact ⟨a', .cons (r := { assembly := a }) rfl played, closed'⟩

theorem completes_of_closed (closed : a.auOpen = false) : a.completes = none := by
  unfold Assembly.completes Assembly.emitAu
  rw [if_pos (by rw [closed]; rfl)]
  rfl

theorem headers_orphans (unit : AccessUnit) : ∀ v ∈ unit.headers, v.isFirst = false := by
  intro v hv
  unfold AccessUnit.headers AccessUnit.mapPieces at hv
  split at hv
  · simp only [List.mem_cons, List.not_mem_nil, or_false] at hv
    rcases hv with rfl | rfl | rfl <;> rfl
  · simp only [List.mem_cons, List.not_mem_nil, or_false] at hv
    rw [hv]
    rfl

theorem fragments_orphans (scr rate : Nat) (fragments : List (List UInt8)) :
    ∀ v ∈ fragmentPieces scr rate fragments, v.isFirst = false := by
  intro v hv
  obtain ⟨p, -, hv⟩ := List.mem_flatMap.mp hv
  rcases List.mem_cons.mp hv with rfl | hv
  · rfl
  · rw [List.mem_singleton.mp hv]
    rfl

theorem streamPieces_cons (unit : AccessUnit) (units : List AccessUnit) :
    streamPieces (unit :: units) = unit.headers ++ (unit.body ++ streamPieces units) := by
  rw [streamPieces, List.flatMap_cons, AccessUnit.pieces_eq, List.append_assoc]
  rfl

/-- The packets of access units from the first PES packet of the first one on. -/
def bodyOf : List AccessUnit → List Piece
  | [] => []
  | u :: units => u.body ++ streamPieces units

theorem survivors_zero (units : List AccessUnit) : survivors 0 units = units := by
  cases units with
  | nil => rfl
  | cons u units => rw [survivors, if_pos (Nat.zero_le _)]

/-- **The packets behind a cut**: orphans, and the access units that survive it. -/
theorem packetsFrom_shape (k : Nat) (units : List AccessUnit) :
    ∃ orphans, (∀ v ∈ orphans, v.isFirst = false) ∧
      packetsFrom k (streamPieces units) = orphans ++ bodyOf (survivors k units) := by
  induction units generalizing k with
  | nil => exact ⟨[], nofun, by cases k <;> rfl⟩
  | cons u units ih =>
    have size_eq : u.size = u.pesOffset + (flat u.body).length := by
      rw [AccessUnit.size, AccessUnit.pieces_eq, flat_append, List.length_append, AccessUnit.pesOffset]
    rw [streamPieces_cons, survivors]
    by_cases survives : k ≤ u.pesOffset
    · rw [if_pos survives, packetsFrom_append_left survives]
      exact ⟨_, fun v hv => headers_orphans u v ((packetsFrom_suffix k u.headers).subset hv), rfl⟩
    · rw [if_neg survives, packetsFrom_append_right (Nat.le_of_not_le survives),
        show (flat u.headers).length = u.pesOffset from rfl]
      by_cases within : k - u.pesOffset ≤ (flat u.body).length
      · -- only fragments of this access unit are left
        have lost : packetsFrom (k - u.pesOffset) u.body <:+ fragmentPieces (clock33 u.pts90) u.rate u.fragments := by
          obtain ⟨m, hm⟩ : ∃ m, k - u.pesOffset = m + 1 := ⟨k - u.pesOffset - 1, by omega⟩
          rw [hm, AccessUnit.body, packetsFrom]
          exact packetsFrom_suffix _ _
        obtain ⟨orphans, first, rest⟩ := ih 0
        rw [packetsFrom_zero] at rest
        rw [packetsFrom_append_left within, rest, show k - u.size = 0 by omega, ← List.append_assoc]
        refine ⟨_, fun v hv => ?_, rfl⟩
        rcases List.mem_append.mp hv with hv | hv
        · exact fragments_orphans _ _ _ v (lost.subset hv)
        · exact first v hv
      · rw [packetsFrom_append_right (Nat.le_of_not_le within), Nat.sub_sub, ← size_eq]
        exact ih (k - u.size)

/-- Access units whose first PES packet comes next complete the one before. -/
theorem delivered_bodyOf (a : Assembly) (sized : ∀ u ∈ units, u.Sized) :
    (deliveredOf a (flat (bodyOf units))).map Frame.unit =
      a.completes.toList.map Frame.unit ++ units.map AccessUnit.unit ∧ ¬refuses a (flat (bodyOf units)) := by
  cases units with
  | nil =>
    have stops : walk a (flat (bodyOf [])) = ([], a) := walk_of_none (turn_nothing a)
    rw [deliveredOf, stops]
    exact ⟨(List.append_nil _).symm, not_refuses_nothing a⟩
  | cons u units =>
    have sized_u := sized u (by simp)
    have sized' : ∀ v ∈ units, v.Sized := fun v hv => sized v (by simp [hv])
    have valid : ∀ v ∈ u.body, v.Valid := fun v hv =>
      pieces_valid sized_u v (by rw [AccessUnit.pieces_eq]; exact List.mem_append_right _ hv)
    have payload : Plays a u.body a.completes.toList (a.start (clock33 u.pts90) u.annexb) := payload_play a sized_u
    obtain ⟨played, ends⟩ := payload.walk valid (flat (streamPieces units))
    obtain ⟨rest, free⟩ := delivered_stream (a.start (clock33 u.pts90) u.annexb) sized'
    rw [bodyOf, flat_append]
    refine ⟨?_, by rw [ends]; exact free⟩
    rw [deliveredOf, played, List.append_assoc, List.map_append]
    rw [deliveredOf] at rest
    rw [rest, framesOf_units sized' rfl (List.length_pos_iff.mp sized_u.1)]
    simp only [Assembly.start, clock33_eq]
    rfl

end Join

/-! ## Joining late -/

section LateJoin

variable {unit : AccessUnit} {units : List AccessUnit}

/-- No system start code in the access unit. -/
def AccessUnit.Clean (u : AccessUnit) : Prop := ∀ j b, startCode ++ [b] <+: u.annexb.drop j → b < 0x80

theorem chunksOf_within {n fuel : Nat} {l p : List UInt8} (hp : p ∈ chunksOf n fuel l) : ∃ m, p <+: l.drop m := by
  induction fuel generalizing l with
  | zero => exact absurd hp List.not_mem_nil
  | succ fuel ih =>
    rw [chunksOf] at hp
    split at hp
    · exact absurd hp List.not_mem_nil
    · rcases List.mem_cons.mp hp with rfl | later
      · exact ⟨0, List.take_prefix _ _⟩
      · obtain ⟨m, hm⟩ := ih later
        rw [List.drop_drop] at hm
        exact ⟨_, hm⟩

/-- The payloads are parts of the access unit. -/
theorem payload_within {v : Piece} (hv : v ∈ unit.pieces) : ∃ m, v.payload <+: unit.annexb.drop m := by
  have none : v.isVideo = false → ∃ m, v.payload <+: unit.annexb.drop m := by
    intro header
    cases v with
    | first pts payload => cases header
    | more payload => cases header
    | _ => exact ⟨0, List.nil_prefix⟩
  rw [AccessUnit.pieces_eq] at hv
  rcases List.mem_append.mp hv with hv | hv
  · unfold AccessUnit.headers AccessUnit.mapPieces at hv
    split at hv
    · simp only [List.mem_cons, List.not_mem_nil, or_false] at hv
      rcases hv with rfl | rfl | rfl <;> exact none rfl
    · simp only [List.mem_cons, List.not_mem_nil, or_false] at hv
      rw [hv] at none ⊢
      exact none rfl
  · rcases List.mem_cons.mp hv with rfl | hv
    · exact ⟨0, List.take_prefix _ _⟩
    · obtain ⟨p, hp, hv⟩ := List.mem_flatMap.mp hv
      rcases List.mem_cons.mp hv with rfl | hv
      · exact none rfl
      · obtain rfl := List.mem_singleton.mp hv
        obtain ⟨m, hm⟩ := chunksOf_within hp
        rw [List.drop_drop] at hm
        exact ⟨_, hm⟩

theorem payload_clean (clean : ∀ u ∈ units, u.Clean) {v : Piece} (hv : v ∈ streamPieces units) (j : Nat) (b : UInt8)
    (h : startCode ++ [b] <+: v.payload.drop j) : skipped b = true := by
  obtain ⟨u, hu, hv⟩ := List.mem_flatMap.mp hv
  obtain ⟨m, hm⟩ := payload_within hv
  refine skipped_of_low (clean u hu (m + j) b (h.trans ?_))
  rw [← List.drop_drop]
  exact hm.drop j

/-- What is left of a stream is packets behind harmless garbage. -/
theorem cut_behind (clean : ∀ u ∈ units, u.Clean) (k : Nat)
    (unforged : ∀ i payload, damaged k (streamPieces units) = some (.more payload, i) → ¬Forges i payload) :
    ∃ g, (flat (streamPieces units)).drop k = g ++ flat (packetsFrom k (streamPieces units)) ∧
      Behind g (packetsFrom k (streamPieces units)) := by
  rcases cut_spec k (streamPieces units) with ⟨-, whole⟩ | ⟨v, i, cut, pos, behind, bytes⟩
  · exact ⟨[], whole, behind_nil⟩
  · refine ⟨_, bytes, ?_, fun edge => ?_⟩
    · exact rest_harmless (payload_clean clean (behind.subset List.mem_cons_self)) pos fun payload hv =>
        unforged i payload (by rw [cut, hv])
    · have chained : Chained (v :: packetsFrom k (streamPieces units)) :=
        (streamPieces_chained units).1.suffix behind
      exact chained.head (bytes_suffix (edge.trans (List.drop_suffix _ _)))

theorem cut_streamed {g : List UInt8} (sized : ∀ u ∈ units, u.Sized)
    (behind : Behind g (packetsFrom k (streamPieces units))) :
    Streamed g (packetsFrom k (streamPieces units)) (g ++ flat (packetsFrom k (streamPieces units))) where
  bytes := rfl
  behind := behind
  valid v hv := streamPieces_valid sized v ((packetsFrom_suffix _ _).subset hv)
  chained := (streamPieces_chained units).1.suffix (packetsFrom_suffix _ _)

theorem survivors_suffix (k : Nat) (units : List AccessUnit) : survivors k units <:+ units := by
  induction units generalizing k with
  | nil => exact List.suffix_refl _
  | cons u units ih =>
    rw [survivors]
    split
    · exact List.suffix_refl _
    · exact (ih _).trans (List.suffix_cons u units)

theorem survivors_sized (sized : ∀ u ∈ units, u.Sized) : ∀ u ∈ survivors k units, u.Sized :=
  fun u hu => sized u ((survivors_suffix k units).subset hu)

/-- What a stream delivers from a cut on, as a whole. -/
theorem cut_delivers (sized : ∀ u ∈ units, u.Sized) (clean : ∀ u ∈ units, u.Clean) (k : Nat)
    (unforged : ∀ i payload, damaged k (streamPieces units) = some (.more payload, i) → ¬Forges i payload) :
    BehindGarbage {} ((flat (streamPieces units)).drop k) ∧
      (deliveredOf {} ((flat (streamPieces units)).drop k)).map Frame.unit =
        (survivors k units).map AccessUnit.unit ∧ ¬refuses {} ((flat (streamPieces units)).drop k) := by
  obtain ⟨g, bytes, behind⟩ := cut_behind clean k unforged
  have left := cut_streamed sized behind
  obtain ⟨orphans, none_first, shape⟩ := packetsFrom_shape k units
  have valid : ∀ v ∈ orphans ++ bodyOf (survivors k units), v.Valid := by rw [← shape]; exact left.valid
  obtain ⟨a, played, closed⟩ := orphans_play (a := {}) none_first rfl
  obtain ⟨walked, ends⟩ := played.walk (fun v hv => valid v (List.mem_append_left _ hv))
    (flat (bodyOf (survivors k units)))
  obtain ⟨units', free⟩ := delivered_bodyOf a (survivors_sized sized)
  have same := same_garbage behind {}
  refine ⟨⟨g, _, by rw [bytes]; exact left⟩, ?_⟩
  rw [shape, flat_append] at same bytes
  rw [bytes]
  refine ⟨?_, by rw [same.refuses, ends]; exact free⟩
  rw [deliveredOf, same.walk, walked]
  rw [completes_of_closed closed] at units'
  exact units'

/-- **Joining late**: the access units whose first PES packet has not been lost, and
nothing else. -/
theorem late_join (units : List AccessUnit) (sized : ∀ u ∈ units, u.Sized) (clean : ∀ u ∈ units, u.Clean) (k : Nat)
    (unforged : ∀ i payload, damaged k (streamPieces units) = some (.more payload, i) → ¬Forges i payload) :
    ∃ stream, muxStream units = .ok stream ∧ ∀ chunks : List (List UInt8), chunks.flatten = stream.drop k →
      receive {} chunks ≠ .error .refused →
      ∃ out, receive {} chunks = .ok out ∧
        out.delivered.map Frame.unit = (survivors k units).map AccessUnit.unit ∧
        ∀ st ∈ out.statuses, st = .again := by
  refine ⟨_, muxStream_eq sized, fun chunks split accepted => ?_⟩
  obtain ⟨mem, whole, free⟩ := cut_delivers sized clean k unforged
  rw [← split] at mem whole free
  obtain ⟨out, ok, delivered, statuses⟩ := (receive_whole resumable_behind chunks mem).resolve_left accepted
  exact ⟨out, ok, by rw [delivered]; exact whole, statuses.resolve_right free⟩

def smallUnit : AccessUnit := ⟨.hevc, [7], 3600, false, 25000⟩

theorem smallUnit_clean : smallUnit.Clean :=
  fun j _ h => absurd ((List.prefix_append _ _).trans h) (find_none startCode_ne (by decide) j)

/-- The first of two access units is cut in its PES header. -/
theorem late_join_small :
    ∃ out, receive {} [(flat (streamPieces [smallUnit, smallUnit])).drop 20] = .ok out ∧
      out.delivered.map Frame.unit = (survivors 20 [smallUnit, smallUnit]).map AccessUnit.unit ∧
      ∀ st ∈ out.statuses, st = .again := by
  have cut : damaged 20 (streamPieces [smallUnit, smallUnit]) = some (.first 3600 [7], 6) := by
    decide +kernel
  obtain ⟨stream, muxed, all⟩ := late_join [smallUnit, smallUnit] (by decide)
    (by simpa using smallUnit_clean) 20 (by rw [cut]; exact nofun)
  have bytes : muxStream [smallUnit, smallUnit] = .ok (flat (streamPieces [smallUnit, smallUnit])) := by
    decide +kernel
  obtain rfl := Except.ok.inj (bytes.symm.trans muxed)
  exact all _ (by decide +kernel) (by decide +kernel)

theorem clear_replicate (n : Nat) {b : UInt8} (hb : b ≠ 0) : Clear (List.replicate n b) := by
  induction n with
  | zero => exact .nil
  | succ n ih => exact .first hb ih

/-- Behind ordinary bytes there are only the start codes of the rest. -/
theorem startCode_behind {n j : Nat} {b : UInt8} {l : List UInt8} (hb : b ≠ 0) (none : find startCode l = .none) :
    ¬startCode <+: (List.replicate n b ++ l).drop j := by
  by_cases inside : j < (List.replicate n b).length
  · exact clear_replicate n hb l j inside
  · rw [List.drop_append, List.drop_eq_nil_of_le (by omega), List.nil_append]
    exact find_none startCode_ne none _

theorem clean_of_free (free : ∀ j, ¬startCode <+: unit.annexb.drop j) : unit.Clean :=
  fun j _ h => absurd ((List.prefix_append _ _).trans h) (free j)

theorem chunksOf_short {n fuel : Nat} {l : List UInt8} (some : l ≠ []) (short : l.length ≤ n)
    (enough : l.length ≤ fuel) : chunksOf n fuel l = [l] := by
  have pos := List.length_pos_iff.mpr some
  obtain ⟨fuel, rfl⟩ : ∃ m, fuel = m + 1 := ⟨fuel - 1, by omega⟩
  rw [chunksOf, if_neg some, List.take_of_length_le short, List.drop_eq_nil_of_le short]
  cases fuel <;> rfl

/-- An access unit of two PES packets: the second payload goes on from `00 00` like the
header of an empty video packet. -/
def forgingUnit : AccessUnit := ⟨.hevc, List.replicate kPesChunk 9 ++ [1, 0xE0, 0, 0, 0, 0, 0], 0, false, 25000⟩

theorem forgingUnit_pieces :
    forgingUnit.pieces = [.pack 0 25000, .first 0 (List.replicate kPesChunk 9), .pack 0 25000,
      .more [1, 0xE0, 0, 0, 0, 0, 0]] := by
  have head : forgingUnit.head = List.replicate kPesChunk 9 :=
    List.take_left' List.length_replicate
  have rest : forgingUnit.annexb.drop kPesChunk = [1, 0xE0, 0, 0, 0, 0, 0] :=
    List.drop_left' List.length_replicate
  have fragments : forgingUnit.fragments = [[1, 0xE0, 0, 0, 0, 0, 0]] := by
    rw [AccessUnit.fragments, rest]
    refine chunksOf_short (List.cons_ne_nil _ _) (by decide) ?_
    rw [forgingUnit, List.length_append]
    exact Nat.le_add_left _ _
  rw [AccessUnit.pieces_eq, AccessUnit.body, head, fragments]
  rfl

-- the payload is a variable: the kernel would count the bytes of a closed one
theorem front_length (p : List UInt8) :
    (flat [.pack 0 25000, .first 0 p, .pack 0 25000]).length = 42 + p.length := by
  simp only [flat_cons, flat_nil, List.length_append, bytes_length, Piece.packet, Packet.len, List.length_nil]
  omega

theorem pair_length (p q : List UInt8) :
    (flat [.pack 0 25000, .first 0 p, .pack 0 25000, .more q]).length = 51 + p.length + q.length := by
  simp only [flat_cons, flat_nil, List.length_append, bytes_length, Piece.packet, Packet.len, List.length_nil]
  omega

/-- Where two zeros of the second PES header are left. -/
def forgingCut : Nat := 14 + 60014 + 14 + 7

theorem forging_left :
    (flat (streamPieces [forgingUnit, smallUnit])).drop forgingCut =
      [0, 0, 1, 0xE0, 0, 0, 0, 0, 0] ++ flat smallUnit.pieces := by
  have shape : streamPieces [forgingUnit, smallUnit] =
      [.pack 0 25000, .first 0 (List.replicate kPesChunk 9), .pack 0 25000] ++
        ([.more [1, 0xE0, 0, 0, 0, 0, 0]] ++ smallUnit.pieces) := by
    simp only [streamPieces, List.flatMap_cons, List.flatMap_nil, List.append_nil, forgingUnit_pieces]
    rfl
  have front : (flat [.pack 0 25000, .first 0 (List.replicate kPesChunk 9), .pack 0 25000]).length = 60042 := by
    rw [front_length, List.length_replicate]
    rfl
  have tail : (flat [.more [1, 0xE0, 0, 0, 0, 0, 0]]).drop 7 = [0, 0, 1, 0xE0, 0, 0, 0, 0, 0] := by decide
  rw [shape, flat_append, List.drop_append, List.drop_eq_nil_of_le (by rw [front]; decide), front, List.nil_append,
    flat_append, show forgingCut - 60042 = 7 by decide, List.drop_append_of_le_length (by decide), tail]

/-- **A cut in the header of a continuation packet can make a start code**, and the
access unit behind it is lost. -/
theorem forging_cut_loses :
    (∀ u ∈ [forgingUnit, smallUnit], u.Sized) ∧ (∀ u ∈ [forgingUnit, smallUnit], u.Clean) ∧
      ∃ stream, muxStream [forgingUnit, smallUnit] = .ok stream ∧
        ∃ out, receive {} [stream.drop forgingCut] = .ok out ∧
          ¬out.delivered.map Frame.unit = (survivors forgingCut [forgingUnit, smallUnit]).map AccessUnit.unit := by
  have sized : ∀ u ∈ [forgingUnit, smallUnit], u.Sized := by
    have len : forgingUnit.annexb.length = kPesChunk + 7 := by
      rw [forgingUnit, List.length_append, List.length_replicate]
      rfl
    intro u hu
    simp only [List.mem_cons, List.not_mem_nil, or_false] at hu
    rcases hu with rfl | rfl
    · exact ⟨by rw [len]; decide, by rw [len]; decide⟩
    · decide
  have clean : ∀ u ∈ [forgingUnit, smallUnit], u.Clean := by
    intro u hu
    simp only [List.mem_cons, List.not_mem_nil, or_false] at hu
    rcases hu with rfl | rfl
    · exact clean_of_free fun j => startCode_behind (by decide) (by decide)
    · exact smallUnit_clean
  refine ⟨sized, clean, _, muxStream_eq sized, ?_⟩
  have run : (receive {} [[0, 0, 1, 0xE0, 0, 0, 0, 0, 0] ++ flat smallUnit.pieces]).map Received.delivered = .ok [] := by
    decide +kernel
  rw [forging_left]
  cases received : receive {} [[0, 0, 1, 0xE0, 0, 0, 0, 0, 0] ++ flat smallUnit.pieces] with
  | error fault => rw [received] at run; cases run
  | ok out =>
    rw [received] at run
    refine ⟨out, rfl, ?_⟩
    rw [Except.ok.inj run]
    have size : forgingUnit.size = 60058 := by
      rw [AccessUnit.size, forgingUnit_pieces]
      exact (pair_length _ _).trans (by rw [List.length_replicate]; rfl)
    have late : ¬forgingCut ≤ forgingUnit.pesOffset := by decide +kernel
    have survives : survivors forgingCut [forgingUnit, smallUnit] = [smallUnit] := by
      rw [survivors, if_neg late, size]
      exact survivors_zero _
    rw [survives]
    exact nofun

end LateJoin

end Rkvc.Pspack
