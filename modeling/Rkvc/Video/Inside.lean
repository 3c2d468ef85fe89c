import Rkvc.Mlvc.Sample
import Rkvc.Video.Walk

/-!
# Which host frames are large enough

`borrow_host` asks for a size computed from the strides, the encoders read rows of
the picture's width. A stride below the width, a vertical stride below the height,
odd extents and a product past `2^64` all leave a walk outside the frame.
`reads_inside_iff` says for each encoder when it stays inside.
-/

namespace Rkvc.Video
set_option autoImplicit false
open Lib

/-- Every field that is a `uint32_t` is one. -/
structure Word32 (s : Spec) : Prop where
  width : s.width < 2 ^ 32
  height : s.height < 2 ^ 32
  stride : s.stride < 2 ^ 32
  verStride : s.verStride < 2 ^ 32

/-- Luma rows and the chroma rows after them end below `need`. -/
def RowsFit (need stride rows width chroma chromaStride chromaRows chromaWidth : Nat) : Prop :=
  (rows - 1) * stride + width ≤ need ∧
    (chromaRows = 0 ∨ chroma + (chromaRows - 1) * chromaStride + chromaWidth ≤ need)

/-- The size asked of a frame in either format the encoders take. -/
def asked (s : Spec) : Nat := rowStride s * effVerStride s * 3 % 2 ^ 64 / 2

/-- The condition, for each encoder, on the extents and strides of a frame. -/
def Fits (c : Consumer) (s : Spec) : Prop :=
  let st := rowStride s
  let sv := st * effVerStride s
  match c with
  | .mlvc _ =>
    2 ^ 31 ≤ s.width ∨ 2 ^ 31 ≤ s.height ∨
      ((s.height = 1 ∨ st < 2 ^ 31) ∧
        RowsFit (asked s) st s.height s.width sv st ((s.height + 1) / 2) ((s.width + 1) / 2 * 2))
  | .svt _ =>
    if s.fmt = .nv12 then RowsFit (asked s) st s.height s.width sv st (s.height / 2) s.width
    else RowsFit (asked s) st s.height s.width (sv + sv / 4) (st / 2) (s.height / 2) (s.width / 2)
  | .mpp _ => RowsFit (asked s) st s.height s.width sv st (s.height / 2) s.width

/-- Rows of a width end below a bound exactly when the last one does. -/
theorem rows_below (n base stride : Nat) {width need : Nat} (hw : 0 < width) :
    (∀ r < n, ∀ x < width, base + r * stride + x < need) ↔
      n = 0 ∨ base + (n - 1) * stride + width ≤ need := by
  constructor
  · intro below
    by_cases none : n = 0
    · exact Or.inl none
    · have last := below (n - 1) (by omega) (width - 1) (by omega)
      right
      omega
  · rintro (rfl | last) r hr x hx
    · cases hr
    · have rows : r * stride ≤ (n - 1) * stride := Nat.mul_le_mul_right _ (by omega)
      omega

/-- The condition row by row. -/
theorem rowsFit_iff {need stride rows width chroma chromaStride chromaRows chromaWidth : Nat} (high : 0 < rows)
    (wide : 0 < width) (chromaWide : 0 < chromaWidth) :
    RowsFit need stride rows width chroma chromaStride chromaRows chromaWidth ↔
      (∀ r < rows, ∀ x < width, r * stride + x < need) ∧
        ∀ r < chromaRows, ∀ x < chromaWidth, chroma + r * chromaStride + x < need := by
  have luma : (∀ r < rows, ∀ x < width, 0 + r * stride + x < need) ↔ _ := rows_below rows 0 stride wide
  simp only [Nat.zero_add] at luma
  rw [luma, rows_below chromaRows chroma chromaStride chromaWide, RowsFit]
  have some : rows ≠ 0 := by omega
  simp only [some, false_or]

/-! ## The walks -/

section Moves
variable {need : Nat} {s : Spec}

theorem mppMoves_below {enc : MppGeometry} :
    (∀ m ∈ mppMoves s enc, m.2 < need) ↔
      RowsFit need (rowStride s) enc.height enc.width (rowStride s * effVerStride s) (rowStride s)
        (enc.height / 2) enc.width := by
  have wide := Nat.pos_of_ne_zero enc.wide
  rw [rowsFit_iff (Nat.pos_of_ne_zero enc.high) wide wide]
  simp only [mppMoves, List.mem_append, mem_moveRows]
  constructor
  · intro all
    constructor
    · intro r hr x hx
      have below := all _ (Or.inl ⟨r, hr, x, hx, rfl⟩)
      simpa using below
    · intro r hr x hx
      exact all _ (Or.inr ⟨r, hr, x, hx, rfl⟩)
  · rintro ⟨rows, pairs⟩ m (⟨r, hr, x, hx, rfl⟩ | ⟨r, hr, x, hx, rfl⟩)
    · simpa using rows r hr x hx
    · exact pairs r hr x hx

theorem svtNv12_below {stride vstride w h : Nat} (wide : w ≠ 0) (high : h ≠ 0) (even : w % 2 = 0) :
    (∀ m ∈ svtNv12 stride vstride w h, m.2 < need) ↔
      RowsFit need stride h w (stride * vstride) stride (h / 2) w := by
  rw [rowsFit_iff (by omega) (by omega) (by omega)]
  simp only [svtNv12, List.mem_append, mem_moveRows, List.mem_flatMap, List.mem_range, List.mem_cons,
    List.not_mem_nil, or_false]
  constructor
  · intro all
    constructor
    · intro r hr x hx
      have below := all _ (Or.inl ⟨r, hr, x, hx, rfl⟩)
      simpa using below
    · intro r hr x hx
      have first := all _ (Or.inr ⟨r, hr, x / 2, by omega, Or.inl rfl⟩)
      have second := all _ (Or.inr ⟨r, hr, x / 2, by omega, Or.inr rfl⟩)
      dsimp only at first second
      omega
  · rintro ⟨rows, pairs⟩ m (⟨r, hr, x, hx, rfl⟩ | ⟨r, hr, x, hx, rfl | rfl⟩)
    · simpa using rows r hr x hx
    · exact pairs r hr (2 * x) (by omega)
    · exact pairs r hr (2 * x + 1) (by omega)

theorem svtPlanar_below {stride vstride w h : Nat} (wide : w ≠ 0) (high : h ≠ 0) (even : w % 2 = 0) :
    (∀ m ∈ svtPlanar stride vstride w h, m.2 < need) ↔
      RowsFit need stride h w (stride * vstride + stride * vstride / 4) (stride / 2) (h / 2) (w / 2) := by
  rw [rowsFit_iff (by omega) (by omega) (by omega)]
  simp only [svtPlanar, List.mem_append, mem_moveRows, List.mem_flatMap, List.mem_range, mem_moveRow]
  constructor
  · intro all
    constructor
    · intro r hr x hx
      have below := all _ (Or.inl ⟨r, hr, x, hx, rfl⟩)
      simpa using below
    · intro r hr x hx
      exact all _ (Or.inr ⟨r, hr, Or.inr ⟨x, hx, rfl⟩⟩)
  · rintro ⟨rows, planes⟩ m (⟨r, hr, x, hx, rfl⟩ | ⟨r, hr, ⟨x, hx, rfl⟩ | ⟨x, hx, rfl⟩⟩)
    · simpa using rows r hr x hx
    · have later := planes r hr x hx
      dsimp only
      omega
    · exact planes r hr x hx

end Moves

/-! ## The learned codec's walk -/

section Reads
variable {s : Spec} {img : Extent}

/-- Every row is read once for luma, and its pair's chroma row once for each of its samples. -/
theorem mlvcReads_forall {P : Int → Prop} :
    (∀ r ∈ mlvcReads s img, P r) ↔
      ∀ y < (i32 img.height).toNat, ∀ x < (i32 img.width).toNat,
        P (rowOffset (y / 2 * 2) (i32 (rowStride s)) + (if y % 2 = 1 then i32 (rowStride s) else 0) + (x : Int)) ∧
        P ((rowStride s * effVerStride s : Nat) + rowOffset (y / 2) (i32 (rowStride s)) + (x / 2 * 2 : Nat)) ∧
        P ((rowStride s * effVerStride s : Nat) + rowOffset (y / 2) (i32 (rowStride s)) + (x / 2 * 2 : Nat) + 1) := by
  simp only [mlvcReads, List.forall_mem_append, List.forall_mem_flatMap, List.mem_range]
  generalize (i32 img.height).toNat = H
  generalize (i32 img.width).toNat = W
  generalize i32 (rowStride s) = stride
  have half (k : Nat) : 2 * k / 2 = k := by omega
  constructor
  · rintro ⟨pairs, last⟩ y hy x hx
    by_cases paired : y / 2 < H / 2
    · have four := pairs (y / 2) paired x hx
      rw [half, Nat.mul_comm 2] at four
      simp only [List.forall_mem_cons, List.not_mem_nil, false_implies, implies_true, and_true] at four
      obtain ⟨u, v, upper, lower⟩ := four
      refine ⟨?_, u, v⟩
      by_cases odd : y % 2 = 1
      · rw [if_pos odd]
        exact lower
      · rw [if_neg odd, add_zero]
        exact upper
    · have alone : y = H - 1 ∧ H % 2 = 1 := by omega
      rw [if_neg (by omega)] at last
      simp only [List.forall_mem_flatMap, List.mem_range, List.forall_mem_cons, List.not_mem_nil, false_implies,
        implies_true, and_true] at last
      obtain ⟨luma, u, v⟩ := last x hx
      rw [← alone.1] at luma u v
      rw [show y / 2 * 2 = y by omega, if_neg (by omega), add_zero]
      exact ⟨luma, u, v⟩
  · intro all
    constructor
    · intro k hk x hx
      obtain ⟨upper, u, v⟩ := all (2 * k) (by omega) x hx
      obtain ⟨lower, -, -⟩ := all (2 * k + 1) (by omega) x hx
      rw [half, if_neg (by omega), add_zero, Nat.mul_comm k] at upper
      rw [show (2 * k + 1) / 2 * 2 = 2 * k by omega, if_pos (by omega)] at lower
      simp only [List.forall_mem_cons, List.not_mem_nil, false_implies, implies_true, and_true]
      exact ⟨u, v, upper, lower⟩
    · split
      · simp
      · simp only [List.forall_mem_flatMap, List.mem_range, List.forall_mem_cons, List.not_mem_nil,
          false_implies, implies_true, and_true]
        intro x hx
        obtain ⟨luma, u, v⟩ := all (H - 1) (by omega) x hx
        rw [show (H - 1) / 2 * 2 = H - 1 by omega, if_neg (by omega), add_zero] at luma
        exact ⟨luma, u, v⟩

theorem i32_small {n : Nat} (small : n < 2 ^ 31) : i32 n = n := by
  apply i32_of_range <;> omega

/-- Half of the 32-bit values are negative as an `int`. -/
theorem i32_big {n : Nat} (word : n < 2 ^ 32) (big : 2 ^ 31 ≤ n) : i32 n < 0 := by
  rw [i32, Int.bmod_eq_emod]
  simp only [Nat.reducePow, Nat.cast_ofNat]
  split <;> omega

theorem rowOffset_small {y n : Nat} (hy : y < 2 ^ 31) (small : n < 2 ^ 31) : rowOffset y n = (y * n : Nat) := by
  have product : y * n ≤ 2 ^ 31 * 2 ^ 31 := Nat.mul_le_mul (by omega) (by omega)
  rw [rowOffset, ← Int.natCast_mul]
  generalize y * n = offset at product
  simp only [Nat.reducePow, Nat.reduceMul] at product
  omega

theorem rowOffset_zero (n : Int) : rowOffset 0 n = 0 := by
  simp [rowOffset]

/-- A chroma row's offset is the product. -/
theorem chroma_offset {stride height y : Nat} (fits : height = 1 ∨ stride < 2 ^ 31) (small : height < 2 ^ 31)
    (hy : y < height) : rowOffset (y / 2) (i32 stride) = (y / 2 * stride : Nat) := by
  rcases fits with one | word
  · have zero : y / 2 = 0 := by omega
    rw [zero, rowOffset_zero, Nat.zero_mul]
    rfl
  · rw [i32_small word]
    apply rowOffset_small (by omega) word

/-- A luma row's offset, from its pair, is the product. -/
theorem luma_offset {stride height y : Nat} (fits : height = 1 ∨ stride < 2 ^ 31) (small : height < 2 ^ 31)
    (hy : y < height) : rowOffset (y / 2 * 2) (i32 stride) + (if y % 2 = 1 then i32 stride else 0) =
      (y * stride : Nat) := by
  rcases fits with one | word
  · have zero : y = 0 := by omega
    subst zero
    simp [rowOffset_zero]
  · rw [i32_small word, rowOffset_small (by omega) word]
    rcases Nat.mod_two_eq_zero_or_one y with even | odd
    · rw [if_neg (by omega), show y / 2 * 2 = y by omega, add_zero]
    · have next : y * stride = y / 2 * 2 * stride + stride := by
        rw [← Nat.succ_mul]
        congr 1
        omega
      rw [if_pos odd, next]
      push_cast
      ring

/-- The walk of a frame whose extents are `int`s. -/
theorem mlvcReads_below {need : Nat} (wide : 0 < img.width) (high : 0 < img.height) (w31 : img.width < 2 ^ 31)
    (h31 : img.height < 2 ^ 31) (st32 : rowStride s < 2 ^ 32) :
    (∀ r ∈ mlvcReads s img, 0 ≤ r ∧ r < need) ↔
      (img.height = 1 ∨ rowStride s < 2 ^ 31) ∧
        RowsFit need (rowStride s) img.height img.width (rowStride s * effVerStride s) (rowStride s)
          ((img.height + 1) / 2) ((img.width + 1) / 2 * 2) := by
  rw [mlvcReads_forall, i32_small w31, i32_small h31, rowsFit_iff high wide (by omega)]
  simp only [Int.toNat_natCast]
  generalize rowStride s = stride at st32
  generalize stride * effVerStride s = up
  by_cases fits : img.height = 1 ∨ stride < 2 ^ 31
  · have row (y : Nat) (hy : y < img.height) := luma_offset fits h31 hy
    have chroma (y : Nat) (hy : y < img.height) := chroma_offset fits h31 hy
    constructor
    · intro all
      refine ⟨fits, ?_, ?_⟩
      · intro y hy x hx
        have below := (all y hy x hx).1.2
        rw [row y hy] at below
        omega
      · intro r hr x hx
        have odd := all (2 * r) (by omega) (x / 2 * 2) (by omega)
        rw [chroma (2 * r) (by omega), show 2 * r / 2 = r by omega] at odd
        have second := odd.2.2.2
        omega
    · rintro ⟨-, rows, pairs⟩ y hy x hx
      have luma := rows y hy x hx
      have first := pairs (y / 2) (by omega) (x / 2 * 2) (by omega)
      have second := pairs (y / 2) (by omega) (x / 2 * 2 + 1) (by omega)
      rw [row y hy, chroma y hy]
      omega
  · have wrong : ¬∀ y < img.height, ∀ x < img.width,
        0 ≤ rowOffset (y / 2 * 2) (i32 stride) + (if y % 2 = 1 then i32 stride else 0) + (x : Int) := by
      intro all
      have second := all 1 (by omega) 0 wide
      have negative := i32_big st32 (by omega)
      rw [rowOffset_zero] at second
      simp at second
      omega
    constructor
    · intro all
      exact absurd (fun y hy x hx => (all y hy x hx).1.1) wrong
    · intro all
      exact absurd all.1 fits

/-- The encoder's tensor depends on the frame through these offsets. -/
theorem yuvToNhwcFp16_reads {data data' : List UInt8} (w31 : img.width < 2 ^ 31) (h31 : img.height < 2 ^ 31)
    (st31 : rowStride s < 2 ^ 31)
    (same : ∀ r ∈ mlvcReads s img, data.getD r.toNat 0 = data'.getD r.toNat 0) :
    Mlvc.Pixel.yuvToNhwcFp16 data (rowStride s) (rowStride s * effVerStride s) img.width img.height =
      Mlvc.Pixel.yuvToNhwcFp16 data' (rowStride s) (rowStride s * effVerStride s) img.width img.height := by
  rw [mlvcReads_forall, i32_small w31, i32_small h31] at same
  simp only [Int.toNat_natCast] at same
  apply List.flatMap_congr
  intro y hy
  rw [List.mem_range] at hy
  apply List.flatMap_congr
  intro x hx
  rw [List.mem_range] at hx
  obtain ⟨luma, u, v⟩ := same y hy x hx
  rw [luma_offset (Or.inr st31) h31 hy] at luma
  rw [chroma_offset (Or.inr st31) h31 hy] at u v
  have two (a b : Nat) : ((a : Int) + b).toNat = a + b := by omega
  have three (a b c : Nat) : ((a : Int) + b + c).toNat = a + b + c := by omega
  have four (a b c : Nat) : ((a : Int) + b + c + 1).toNat = a + b + c + 1 := by omega
  rw [two] at luma
  rw [three] at u
  rw [four] at v
  dsimp only
  rw [luma, u, v]

end Reads

/-! ## The condition -/

section Inside
variable {c : Consumer} {s : Spec}

/-- What an encoder takes has the extents it is set to, and a format it can walk. -/
theorem svtTakes_spec {enc : Option EvenExtent} {e : Extent} (taken : svtTakes enc s = some e) :
    (s.fmt = .nv12 ∨ s.fmt = .yuv420p) ∧ e = ⟨s.width, s.height⟩ ∧ s.width ≠ 0 ∧ s.height ≠ 0 ∧
      s.width % 2 = 0 := by
  rw [svtTakes] at taken
  by_cases fmt : s.fmt = .nv12 ∨ s.fmt = .yuv420p
  · rw [if_pos fmt] at taken
    refine ⟨fmt, ?_⟩
    cases enc with
    | none =>
      by_cases refused : s.width = 0 ∨ s.height = 0 ∨ s.width % 2 = 1 ∨ s.height % 2 = 1
      · rw [svtSized, if_pos refused] at taken
        cases taken
      · rw [svtSized, if_neg refused] at taken
        cases taken
        exact ⟨rfl, by omega, by omega, by omega⟩
    | some enc =>
      by_cases other : s.width ≠ enc.width ∨ s.height ≠ enc.height
      · rw [svtSized, if_pos other] at taken
        cases taken
      · rw [svtSized, if_neg other] at taken
        cases taken
        have wide := enc.wide
        have high := enc.high
        have even := enc.evenWidth
        have same : s.width = enc.width ∧ s.height = enc.height := by omega
        rw [same.1, same.2]
        exact ⟨rfl, wide, high, even⟩
  · rw [if_neg fmt] at taken
    cases taken

theorem mppTakes_spec {enc : Option MppGeometry} {e : MppGeometry} (taken : mppTakes enc s = some e)
    (wide : 0 < s.width) (high : 0 < s.height) :
    (s.fmt = .nv12 ∨ s.fmt = .yuv420p) ∧ e.width = s.width ∧ e.height = s.height := by
  rw [mppTakes] at taken
  by_cases fmt : s.fmt ≠ .nv12 ∧ s.fmt ≠ .yuv420p
  · rw [if_pos fmt] at taken
    cases taken
  · refine ⟨by tauto, ?_⟩
    rw [if_neg fmt] at taken
    obtain ⟨g, -, checked⟩ := Option.bind_eq_some_iff.1 taken
    by_cases other : (s.width ≠ 0 ∧ s.width ≠ g.width) ∨ (s.height ≠ 0 ∧ s.height ≠ g.height)
    · rw [if_pos other] at checked
      cases checked
    · rw [if_neg other] at checked
      cases checked
      omega

/-- The size asked of what an encoder takes. -/
theorem minSize_asked (fmt : s.fmt = .nv12 ∨ s.fmt = .yuv420p) (wide : 0 < s.width) (high : 0 < s.height) :
    minSize s = asked s := by
  have stride : effStride s = rowStride s := by
    rcases fmt with fmt | fmt <;> simp [effStride, rowStride, fmt]
  have st : rowStride s ≠ 0 := by
    rw [rowStride]
    split <;> omega
  have vs : effVerStride s ≠ 0 := by
    rw [effVerStride]
    split <;> omega
  rcases fmt with fmt | fmt <;> simp [minSize, fmt, stride, st, vs, asked]

/-- The walk of a frame an encoder takes, against any size. -/
theorem walk_below {reads : List Int} {need : Nat} (word : Word32 s) (wide : 0 < s.width) (high : 0 < s.height)
    (taken : c.walk s = some reads) (asks : need = asked s) :
    (∀ r ∈ reads, 0 ≤ r ∧ r < need) ↔ Fits c s := by
  have moves {plan : List (Nat × Nat)} :
      (∀ r ∈ plan.map fun m => (m.2 : Int), 0 ≤ r ∧ r < (need : Int)) ↔ ∀ m ∈ plan, m.2 < need := by
    rw [List.forall_mem_map]
    apply forall₂_congr
    intro m _
    omega
  subst asks
  cases c with
  | mlvc img =>
    by_cases refused : s.fmt ≠ .nv12 ∨ s.width ≠ img.width ∨ s.height ≠ img.height
    · rw [Consumer.walk, if_pos refused] at taken
      cases taken
    · rw [Consumer.walk, if_neg refused] at taken
      cases taken
      have width : s.width = img.width := by tauto
      have height : s.height = img.height := by tauto
      have st32 : rowStride s < 2 ^ 32 := by
        rw [rowStride]
        split
        · exact word.stride
        · exact word.width
      have w32 : img.width < 2 ^ 32 := width ▸ word.width
      have h32 : img.height < 2 ^ 32 := height ▸ word.height
      rw [width] at wide
      rw [height] at high
      simp only [Fits, width, height]
      by_cases negative : 2 ^ 31 ≤ img.width ∨ 2 ^ 31 ≤ img.height
      · -- an extent is negative as an `int`, and nothing is read
        have holds : 2 ^ 31 ≤ img.width ∨ 2 ^ 31 ≤ img.height ∨
            ((img.height = 1 ∨ rowStride s < 2 ^ 31) ∧
              RowsFit (asked s) (rowStride s) img.height img.width (rowStride s * effVerStride s) (rowStride s)
                ((img.height + 1) / 2) ((img.width + 1) / 2 * 2)) := by tauto
        refine iff_of_true ?_ holds
        rw [mlvcReads_forall]
        intro y hy x hx
        rcases negative with big | big
        · have below := i32_big w32 big
          omega
        · have below := i32_big h32 big
          omega
      · rw [mlvcReads_below wide high (by omega) (by omega) st32]
        tauto
  | svt enc =>
    obtain ⟨e, takes, rfl⟩ := Option.map_eq_some_iff.1 taken
    obtain ⟨fmt, rfl, wide, high, even⟩ := svtTakes_spec takes
    rw [moves, Fits, svtMoves]
    by_cases nv12 : s.fmt = .nv12
    · rw [if_pos nv12, if_pos nv12]
      exact svtNv12_below wide high even
    · rw [if_neg nv12, if_neg nv12]
      exact svtPlanar_below wide high even
  | mpp enc =>
    obtain ⟨e, takes, rfl⟩ := Option.map_eq_some_iff.1 taken
    obtain ⟨fmt, width, height⟩ := mppTakes_spec takes wide high
    rw [moves, mppMoves_below, width, height]
    rfl

theorem walk_format {reads : List Int} (wide : 0 < s.width) (high : 0 < s.height)
    (taken : c.walk s = some reads) : s.fmt = .nv12 ∨ s.fmt = .yuv420p := by
  cases c with
  | mlvc img =>
    by_cases refused : s.fmt ≠ .nv12 ∨ s.width ≠ img.width ∨ s.height ≠ img.height
    · rw [Consumer.walk, if_pos refused] at taken
      cases taken
    · left
      tauto
  | svt enc =>
    obtain ⟨e, takes, -⟩ := Option.map_eq_some_iff.1 taken
    exact (svtTakes_spec takes).1
  | mpp enc =>
    obtain ⟨e, takes, -⟩ := Option.map_eq_some_iff.1 taken
    exact (mppTakes_spec takes wide high).1

/-- **Every byte an encoder reads of a frame `borrow_host` takes lies in the frame** exactly when the
extents fit the strides. -/
theorem reads_inside_iff {reads : List Int} (word : Word32 s) (host : s.domain = .host) (wide : 0 < s.width)
    (high : 0 < s.height) (taken : c.walk s = some reads) :
    (∀ data size frame, borrowHost s data size = .ok frame →
      c.reads frame = some reads ∧ ∀ r ∈ reads, 0 ≤ r ∧ r < frame.size) ↔ Fits c s := by
  have fmt := walk_format wide high taken
  have raw : s.fmt ≠ .unknown := by
    rcases fmt with fmt | fmt <;> simp [fmt]
  rw [← walk_below word wide high taken (minSize_asked fmt wide high)]
  constructor
  · intro inside
    exact (inside true (minSize s) ⟨s, true, minSize s⟩
      ((borrowHost_ok raw).2 ⟨host, rfl, Nat.le_refl _, rfl⟩)).2
  · intro inside data size frame borrowed
    obtain ⟨-, rfl, enough, rfl⟩ := (borrowHost_ok raw).1 borrowed
    constructor
    · rw [Consumer.reads, if_neg (by simp [host])]
      exact taken
    · intro r hr
      have below := inside r hr
      dsimp only
      omega

/-- Frames with room for their rows and even extents are read inside by every encoder. -/
theorem fits_of_padded (c : Consumer) (high : 0 < s.height) (evenWidth : s.width % 2 = 0)
    (evenHeight : s.height % 2 = 0) (rows : s.width ≤ rowStride s) (columns : s.height ≤ effVerStride s)
    (word : rowStride s < 2 ^ 31) (room : rowStride s * effVerStride s * 3 < 2 ^ 64) : Fits c s := by
  have need : asked s = rowStride s * effVerStride s * 3 / 2 := by
    rw [asked, Nat.mod_eq_of_lt room]
  have last (n : Nat) (pos : 0 < n) : (n - 1) * rowStride s + rowStride s = n * rowStride s := by
    rw [← Nat.succ_mul]
    congr 1
    omega
  have whole : s.height * rowStride s ≤ rowStride s * effVerStride s := by
    rw [Nat.mul_comm]
    exact Nat.mul_le_mul_left _ columns
  have half : 2 * (s.height / 2 * rowStride s) = s.height * rowStride s := by
    rw [← Nat.mul_assoc]
    congr 1
    omega
  have lumaLast := last s.height high
  have chromaLast := last (s.height / 2) (by omega)
  have packed : RowsFit (asked s) (rowStride s) s.height s.width (rowStride s * effVerStride s) (rowStride s)
      (s.height / 2) s.width := by
    rw [RowsFit, need]
    omega
  cases c with
  | mlvc img =>
    right
    right
    refine ⟨Or.inr word, ?_⟩
    rw [show (s.height + 1) / 2 = s.height / 2 by omega, show (s.width + 1) / 2 * 2 = s.width by omega]
    exact packed
  | mpp enc => exact packed
  | svt enc =>
    simp only [Fits]
    split
    · exact packed
    · have quarter : 4 * (s.height / 2 * (rowStride s / 2)) ≤ s.height * rowStride s := by
        calc 4 * (s.height / 2 * (rowStride s / 2)) = s.height / 2 * 2 * (rowStride s / 2 * 2) := by ring
          _ ≤ s.height * rowStride s := Nat.mul_le_mul (Nat.div_mul_le_self _ _) (Nat.div_mul_le_self _ _)
      have planeLast : (s.height / 2 - 1) * (rowStride s / 2) + rowStride s / 2 =
          s.height / 2 * (rowStride s / 2) := by
        rw [← Nat.succ_mul]
        congr 1
        omega
      rw [RowsFit, need]
      omega

end Inside

/-- Eight samples to a row, and four bytes from row to row. -/
def narrowSpec : Spec := { width := 8, height := 2, fmt := .nv12, stride := 4, verStride := 2 }

/-- A frame that is taken, and read three bytes past its end. -/
theorem narrow_stride_reads_outside :
    ∃ frame reads, borrowHost narrowSpec true 12 = .ok frame ∧
      (Consumer.mpp none).reads frame = some reads ∧ ∃ r ∈ reads, ¬r < frame.size :=
  ⟨⟨narrowSpec, true, 12⟩, _, rfl, rfl, 15, by decide, by decide⟩

/-- The condition at a tightly packed frame. -/
theorem reads_inside_iff_packed :
    (∀ data size frame,
      borrowHost { width := 4, height := 2, fmt := .nv12 } data size = .ok frame →
        (Consumer.mpp none).reads frame = some [0, 1, 2, 3, 4, 5, 6, 7, 8, 9, 10, 11] ∧
          ∀ r ∈ ([0, 1, 2, 3, 4, 5, 6, 7, 8, 9, 10, 11] : List Int), 0 ≤ r ∧ r < frame.size) ↔
    Fits (.mpp none) { width := 4, height := 2, fmt := .nv12 } :=
  reads_inside_iff ⟨by decide, by decide, by decide, by decide⟩ rfl (by decide) (by decide) rfl

end Rkvc.Video
