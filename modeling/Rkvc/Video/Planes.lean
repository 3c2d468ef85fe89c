import Rkvc.Video.Walk
import Mathlib.Tactic.Ring

/-!
# Two encoders, one picture

SVT takes a planar frame's chroma from planes of half the stride. `host_copy` moves
chroma as rows of the luma's width and stride, as in an interleaved frame, into a
buffer whose layout MPP then reads as planes. The two agree on interleaved frames
of any padding, and on planar ones only where rows and planes lie end to end
(`samples_agree_iff`).
-/

namespace Rkvc.Video
set_option autoImplicit false
open Lib

inductive Plane where
  | y | u | v
  deriving DecidableEq, Repr

/-- A plane's extents: chroma is halved in both. -/
def Plane.rows (p : Plane) (h : Nat) : Nat := if p = .y then h else h / 2

def Plane.columns (p : Plane) (w : Nat) : Nat := if p = .y then w else w / 2

/-- Where a sample lies in `i420`. -/
def i420At (w h : Nat) (p : Plane) (r c : Nat) : Nat :=
  match p with
  | .y => r * w + c
  | .u => w * h + (r * (w / 2) + c)
  | .v => w * h + (w / 2 * (h / 2) + (r * (w / 2) + c))

/-- Where a sample lies in a layout of the given strides: chroma interleaved in rows of the luma's
stride (`MPP_FMT_YUV420SP`), or in planes of half of it (`MPP_FMT_YUV420P`). -/
def sampleAt (fmt : PixelFormat) (stride ver : Nat) (p : Plane) (r c : Nat) : Nat :=
  match p with
  | .y => r * stride + c
  | .u => stride * ver + if fmt = .nv12 then r * stride + 2 * c else r * (stride / 2) + c
  | .v => stride * ver + if fmt = .nv12 then r * stride + (2 * c + 1) else stride * ver / 4 + (r * (stride / 2) + c)

/-- The samples MPP is given are those SVT is given, whatever the frame and the two buffers hold. -/
def SamplesAgree (s : Spec) (enc : MppGeometry) : Prop :=
  ∀ buffer i420 data : List UInt8, buffer.length = enc.horStride * enc.verStride * 3 / 2 →
    i420.length = enc.width * enc.height * 3 / 2 → data.length = rowStride s * effVerStride s * 3 / 2 →
    ∀ p r c, r < Plane.rows p enc.height → c < Plane.columns p enc.width →
      (copy buffer (mppMoves s enc) data).getD (sampleAt s.fmt enc.horStride enc.verStride p r c) default =
        (copy i420 (svtMoves s enc.toExtent) data).getD (i420At enc.width enc.height p r c) default

/-- Rows and planes without padding, in the frame and in MPP's buffer. -/
structure EndToEnd (s : Spec) (enc : MppGeometry) : Prop where
  stride : rowStride s = enc.width
  verStride : effVerStride s = enc.height
  horStride : enc.horStride = enc.width ∨ enc.horStride = enc.width + 1 ∧ enc.height ≤ 4
  planes : enc.horStride * enc.verStride / 4 = enc.horStride * enc.height / 4

/-! ## What SVT copies -/

section Svt
variable {s : Spec} {e : Extent} {m : Nat × Nat}

/-- SVT moves each sample once, from where the frame's layout has it. -/
theorem mem_svtMoves (fmt : s.fmt = .nv12 ∨ s.fmt = .yuv420p) :
    m ∈ svtMoves s e ↔ ∃ p r c, r < Plane.rows p e.height ∧ c < Plane.columns p e.width ∧
      m = (i420At e.width e.height p r c, sampleAt s.fmt (rowStride s) (effVerStride s) p r c) := by
  rcases fmt with fmt | fmt
  · simp only [svtMoves, fmt, if_true, svtNv12, List.mem_append, mem_moveRows, List.mem_flatMap,
      List.mem_range, List.mem_cons, List.not_mem_nil, or_false]
    constructor
    · rintro (⟨r, hr, x, hx, rfl⟩ | ⟨r, hr, x, hx, rfl | rfl⟩)
      · exact ⟨.y, r, x, hr, hx, by simp [i420At, sampleAt]⟩
      · refine ⟨.u, r, x, hr, hx, ?_⟩
        simp [i420At, sampleAt, Nat.add_assoc]
      · refine ⟨.v, r, x, hr, hx, ?_⟩
        simp [i420At, sampleAt]
        omega
    · rintro ⟨p, r, c, hr, hc, rfl⟩
      cases p with
      | y => exact Or.inl ⟨r, hr, c, hc, by simp [i420At, sampleAt]⟩
      | u =>
        refine Or.inr ⟨r, hr, c, hc, Or.inl ?_⟩
        simp [i420At, sampleAt, Nat.add_assoc]
      | v =>
        refine Or.inr ⟨r, hr, c, hc, Or.inr ?_⟩
        simp [i420At, sampleAt]
        omega
  · have planar : s.fmt ≠ .nv12 := by simp [fmt]
    simp only [svtMoves, if_neg planar, svtPlanar, List.mem_append, mem_moveRows, List.mem_flatMap,
      List.mem_range, mem_moveRow]
    constructor
    · rintro (⟨r, hr, x, hx, rfl⟩ | ⟨r, hr, ⟨x, hx, rfl⟩ | ⟨x, hx, rfl⟩⟩)
      · exact ⟨.y, r, x, hr, hx, by simp [i420At, sampleAt]⟩
      · refine ⟨.u, r, x, hr, hx, ?_⟩
        simp [i420At, sampleAt, fmt, Nat.add_assoc]
      · refine ⟨.v, r, x, hr, hx, ?_⟩
        simp [i420At, sampleAt, fmt, Nat.add_assoc]
    · rintro ⟨p, r, c, hr, hc, rfl⟩
      cases p with
      | y => exact Or.inl ⟨r, hr, c, hc, by simp [i420At, sampleAt]⟩
      | u =>
        refine Or.inr ⟨r, hr, Or.inl ⟨c, hc, ?_⟩⟩
        simp [i420At, sampleAt, fmt, Nat.add_assoc]
      | v =>
        refine Or.inr ⟨r, hr, Or.inr ⟨c, hc, ?_⟩⟩
        simp [i420At, sampleAt, fmt, Nat.add_assoc]

/-- Every sample of a plane lies in its part of `i420`. -/
theorem i420At_bounds {w h r c : Nat} (p : Plane) (hr : r < Plane.rows p h) (hc : c < Plane.columns p w) :
    match p with
    | .y => i420At w h p r c < w * h
    | .u => w * h ≤ i420At w h p r c ∧ i420At w h p r c < w * h + w / 2 * (h / 2)
    | .v => w * h + w / 2 * (h / 2) ≤ i420At w h p r c ∧
        i420At w h p r c < w * h + (w / 2 * (h / 2) + w / 2 * (h / 2)) := by
  cases p with
  | y =>
    have inside : r * w + c < h * w := row_lt hr hc
    rw [Nat.mul_comm h] at inside
    exact inside
  | u =>
    have inside : r * (w / 2) + c < h / 2 * (w / 2) := row_lt hr hc
    rw [Nat.mul_comm (h / 2)] at inside
    simp only [i420At]
    omega
  | v =>
    have inside : r * (w / 2) + c < h / 2 * (w / 2) := row_lt hr hc
    rw [Nat.mul_comm (h / 2)] at inside
    simp only [i420At]
    omega

theorem i420At_unique {w h r c r' c' : Nat} {p p' : Plane} (hr : r < Plane.rows p h) (hc : c < Plane.columns p w)
    (hr' : r' < Plane.rows p' h) (hc' : c' < Plane.columns p' w)
    (same : i420At w h p r c = i420At w h p' r' c') : p = p' ∧ r = r' ∧ c = c' := by
  have first := i420At_bounds p hr hc
  have second := i420At_bounds p' hr' hc'
  rw [← same] at second
  cases p <;> cases p' <;> simp only at first second <;> try omega
  all_goals
    refine ⟨rfl, ?_⟩
    apply row_unique hc hc'
    simp only [i420At, Plane.columns, reduceCtorEq, if_true, if_false] at same ⊢
    omega

theorem svtMoves_oneSource (fmt : s.fmt = .nv12 ∨ s.fmt = .yuv420p) : OneSource (svtMoves s e) := by
  intro m mem m' mem' same
  obtain ⟨p, r, c, hr, hc, rfl⟩ := (mem_svtMoves fmt).1 mem
  obtain ⟨p', r', c', hr', hc', rfl⟩ := (mem_svtMoves fmt).1 mem'
  obtain ⟨rfl, rfl, rfl⟩ := i420At_unique hr hc hr' hc' same
  rfl

/-- The copy of a sample. -/
theorem svt_sample {i420 data : List UInt8} {r c : Nat} {p : Plane} (fmt : s.fmt = .nv12 ∨ s.fmt = .yuv420p)
    (evenWidth : e.width % 2 = 0) (evenHeight : e.height % 2 = 0) (room : i420.length = e.width * e.height * 3 / 2)
    (hr : r < Plane.rows p e.height) (hc : c < Plane.columns p e.width) :
    (copy i420 (svtMoves s e) data).getD (i420At e.width e.height p r c) default =
      data.getD (sampleAt s.fmt (rowStride s) (effVerStride s) p r c) default := by
  apply copy_getD (svtMoves_oneSource fmt)
  · exact (mem_svtMoves fmt).2 ⟨p, r, c, hr, hc, rfl⟩
  · have chroma : 4 * (e.width / 2 * (e.height / 2)) = e.width * e.height := by
      calc 4 * (e.width / 2 * (e.height / 2)) = e.width / 2 * 2 * (e.height / 2 * 2) := by ring
        _ = e.width * e.height := by
          rw [Nat.div_mul_cancel (Nat.dvd_of_mod_eq_zero evenWidth),
            Nat.div_mul_cancel (Nat.dvd_of_mod_eq_zero evenHeight)]
    have inside := i420At_bounds p hr hc
    cases p <;> simp only at inside <;> omega

end Svt

/-! ## What MPP is given -/

section Mpp
variable {s : Spec} {enc : MppGeometry} {m : Nat × Nat}

/-- Every move stays in its rows, and luma before chroma. -/
theorem mppMoves_oneSource (wide : enc.width ≤ enc.horStride) (high : enc.height ≤ enc.verStride) :
    OneSource (mppMoves s enc) := by
  have luma {r x : Nat} (hr : r < enc.height) (hx : x < enc.width) :
      r * enc.horStride + x < enc.horStride * enc.verStride := by
    rw [Nat.mul_comm enc.horStride]
    exact row_lt (by omega) (by omega)
  intro m mem m' mem' same
  simp only [mppMoves, List.mem_append, mem_moveRows] at mem mem'
  rcases mem with ⟨r, hr, x, hx, rfl⟩ | ⟨r, hr, x, hx, rfl⟩ <;>
    rcases mem' with ⟨r', hr', x', hx', rfl⟩ | ⟨r', hr', x', hx', rfl⟩ <;> dsimp only at same ⊢
  · obtain ⟨rfl, rfl⟩ := @row_unique enc.horStride r x r' x' (by omega) (by omega) (by omega)
    rfl
  · have below := luma hr hx
    omega
  · have below := luma hr' hx'
    omega
  · obtain ⟨rfl, rfl⟩ := @row_unique enc.horStride r x r' x' (by omega) (by omega) (by omega)
    rfl

/-- A chroma sample reaches MPP's buffer as part of a row of the luma's width. -/
theorem mem_mppChroma {d t : Nat} (wide : enc.width ≤ enc.horStride) (high : enc.height ≤ enc.verStride) :
    (enc.horStride * enc.verStride + d, rowStride s * effVerStride s + t) ∈ mppMoves s enc ↔
      ∃ r < enc.height / 2, ∃ x < enc.width, d = r * enc.horStride + x ∧ t = r * rowStride s + x := by
  simp only [mppMoves, List.mem_append, mem_moveRows, Prod.mk.injEq]
  constructor
  · rintro (⟨r, hr, x, hx, place, -⟩ | ⟨r, hr, x, hx, place, source⟩)
    · have below : r * enc.horStride + x < enc.verStride * enc.horStride := row_lt (by omega) (by omega)
      rw [Nat.mul_comm enc.verStride] at below
      omega
    · exact ⟨r, hr, x, hx, by omega, by omega⟩
  · rintro ⟨r, hr, x, hx, rfl, rfl⟩
    exact Or.inr ⟨r, hr, x, hx, by omega, by omega⟩

/-- A luma sample keeps its row. -/
theorem mem_mppLuma {r c : Nat} (hr : r < enc.height) (hc : c < enc.width) :
    (r * enc.horStride + c, r * rowStride s + c) ∈ mppMoves s enc := by
  rw [mppMoves, List.mem_append, mem_moveRows]
  exact Or.inl ⟨r, hr, c, hc, by simp⟩

/-- Every sample of MPP's layout lies in its buffer. -/
theorem sampleAt_lt {fmt : PixelFormat} {stride ver r c : Nat} {p : Plane} (wide : enc.width ≤ stride)
    (high : enc.height ≤ ver) (hr : r < Plane.rows p enc.height) (hc : c < Plane.columns p enc.width) :
    sampleAt fmt stride ver p r c < stride * ver * 3 / 2 := by
  have whole : enc.height * stride ≤ stride * ver := by
    rw [Nat.mul_comm]
    exact Nat.mul_le_mul_left _ high
  have half : 2 * (enc.height / 2 * stride) ≤ enc.height * stride := by
    rw [← Nat.mul_assoc]
    exact Nat.mul_le_mul_right _ (by omega)
  have quarter : 4 * (enc.height / 2 * (stride / 2)) ≤ enc.height * stride := by
    calc 4 * (enc.height / 2 * (stride / 2)) = enc.height / 2 * 2 * (stride / 2 * 2) := by ring
      _ ≤ enc.height * stride := Nat.mul_le_mul (Nat.div_mul_le_self _ _) (Nat.div_mul_le_self _ _)
  cases p with
  | y =>
    have inside : r * stride + c < enc.height * stride := row_lt hr (Nat.lt_of_lt_of_le hc wide)
    simp only [sampleAt]
    omega
  | u =>
    simp only [Plane.rows, Plane.columns, reduceCtorEq, if_false] at hr hc
    have pairs : r * stride + 2 * c < enc.height / 2 * stride := row_lt hr (by omega)
    have plane : r * (stride / 2) + c < enc.height / 2 * (stride / 2) := row_lt hr (by omega)
    simp only [sampleAt]
    split <;> omega
  | v =>
    simp only [Plane.rows, Plane.columns, reduceCtorEq, if_false] at hr hc
    have pairs : r * stride + (2 * c + 1) < enc.height / 2 * stride := row_lt hr (by omega)
    have plane : r * (stride / 2) + c < enc.height / 2 * (stride / 2) := row_lt hr (by omega)
    simp only [sampleAt]
    split <;> omega

end Mpp

/-! ## A plane inside rows of the luma's width -/

/-- Each sample of a chroma plane, `src` and `dst` after the luma, lies in one of the rows moved. -/
def PlaneMoves (w h st hs src dst : Nat) : Prop :=
  ∀ r < h / 2, ∀ c < w / 2, ∃ R < h / 2, ∃ X < w,
    dst + (r * (hs / 2) + c) = R * hs + X ∧ src + (r * (st / 2) + c) = R * st + X

section Plane
variable {w h st vs hs ver : Nat}

/-- With a second chroma row, the first plane lies in the rows only without padding. -/
theorem first_plane (pos : 0 < w) (evenW : w % 2 = 0) (evenSt : st % 2 = 0) (wide : w ≤ st) (horWide : w ≤ hs)
    (rows : 2 ≤ h / 2) (moves : PlaneMoves w h st hs 0 0) : st = w ∧ (hs = w ∨ hs = w + 1 ∧ h / 2 = 2) := by
  obtain ⟨R, -, X, hX, place, source⟩ := moves 1 (by omega) 0 (by omega)
  have row : R = 0 := by
    rcases R with _ | R
    · rfl
    · have later := Nat.add_one_mul R hs
      omega
  subst row
  obtain ⟨R', -, X', hX', place', -⟩ := moves 1 (by omega) (w / 2 - 1) (by omega)
  have row' : R' = 0 := by
    rcases R' with _ | R'
    · rfl
    · have later := Nat.add_one_mul R' hs
      omega
  subst row'
  refine ⟨by omega, ?_⟩
  by_cases third : h / 2 = 2
  · omega
  · obtain ⟨Q, -, Y, hY, place'', -⟩ := moves 2 (by omega) 0 (by omega)
    rcases Q with _ | Q
    · omega
    · have later := Nat.add_one_mul Q hs
      omega

/-- The second plane then begins where its rows do, on both sides. -/
theorem second_plane (pos : 0 < w) (evenW : w % 2 = 0) (evenSt : st % 2 = 0) (wide : w ≤ st) (horWide : w ≤ hs)
    (evenH : h % 2 = 0) (evenVs : vs % 2 = 0) (high : h ≤ vs) (verHigh : h ≤ ver) (rows : 0 < h / 2)
    (first : PlaneMoves w h st hs 0 0) (second : PlaneMoves w h st hs (st * vs / 4) (hs * ver / 4)) :
    st = w ∧ vs = h ∧ (hs = w ∨ hs = w + 1 ∧ h ≤ 4) ∧ hs * ver / 4 = hs * h / 4 := by
  have start : hs * h / 4 ≤ hs * ver / 4 := Nat.div_le_div_right (Nat.mul_le_mul_left _ verHigh)
  have source : st * vs / 4 = st / 2 * (vs / 2) := by
    obtain ⟨a, rfl⟩ : ∃ a, st = 2 * a := ⟨st / 2, by omega⟩
    obtain ⟨b, rfl⟩ : ∃ b, vs = 2 * b := ⟨vs / 2, by omega⟩
    rw [show 2 * a * (2 * b) = 4 * (a * b) by ring]
    simp
  obtain ⟨k, height⟩ : ∃ k, h = 2 * k := ⟨h / 2, by omega⟩
  obtain ⟨n, width⟩ : ∃ n, w = 2 * n := ⟨w / 2, by omega⟩
  have half : h / 2 = k := by omega
  have columns : w / 2 = n := by omega
  obtain ⟨R, hR, X, hX, place, from0⟩ := second 0 rows 0 (by omega)
  obtain ⟨R', hR', X', hX', place', -⟩ := second (h / 2 - 1) (by omega) (w / 2 - 1) (by omega)
  simp only [Nat.zero_mul, Nat.add_zero] at place from0
  by_cases single : h / 2 = 1
  · -- one chroma row: it holds both planes
    have zero : R = 0 ∧ R' = 0 := by omega
    obtain ⟨rfl, rfl⟩ := zero
    have quarter : hs * h / 4 = hs / 2 := by
      rw [show h = 2 by omega]
      omega
    rw [single] at place'
    simp only [Nat.sub_self, Nat.zero_mul, Nat.zero_add] at place place' from0
    have product : st / 2 * (vs / 2) = n := by omega
    have vsOne : vs / 2 = 1 := by
      have lower : n * (vs / 2) ≤ st / 2 * (vs / 2) := Nat.mul_le_mul_right _ (by omega)
      have upper : n * (vs / 2) ≤ n * 1 := by omega
      have atMost := Nat.le_of_mul_le_mul_left upper (by omega)
      omega
    rw [vsOne] at product
    omega
  · obtain ⟨stride, cases'⟩ := first_plane pos evenW evenSt wide horWide (by omega) first
    have src : st * vs / 4 = n * (vs / 2) := by
      rw [source, stride, columns]
    rcases cases' with tight | ⟨odd, two⟩
    · -- rows end to end: the second plane ends with the rows
      have last : R' * hs + X' < k * hs := row_lt (by omega) (by omega)
      have blocks : (k - 1) * n + n = k * n := by
        rw [← Nat.succ_mul]
        congr 1
        omega
      have double : k * hs = k * n + k * n := by
        rw [tight, width]
        ring
      have quarter : hs * h / 4 = k * n := by
        rw [tight, width, height, show 2 * n * (2 * k) = 4 * (k * n) by ring]
        simp
      rw [half, columns, show hs / 2 = n by omega] at place'
      have planes : hs * ver / 4 = k * n := by omega
      have same : n * (vs / 2) = n * k := by
        rw [← src, from0, stride, ← tight, ← place, planes, Nat.mul_comm]
      have vsHalf := Nat.eq_of_mul_eq_mul_left (by omega) same
      omega
    · -- two chroma rows, each with one element of padding: the second plane is the second row
      have quarter : hs * h / 4 = hs := by
        rw [show h = 4 by omega]
        simp
      have rowR : R = 1 := by
        rcases Nat.lt_or_ge R 1 with none | some
        · have zero : R = 0 := by omega
          subst zero
          omega
        · omega
      subst rowR
      have last : R' * hs ≤ 1 * hs := Nat.mul_le_mul_right _ (by omega)
      rw [half, show k - 1 = 1 by omega, show hs / 2 = n by omega] at place'
      have same : n * (vs / 2) = n * 2 := by omega
      have vsHalf := Nat.eq_of_mul_eq_mul_left (by omega) same
      omega

/-- Planes and rows end to end are moved whole. -/
theorem planes_moved (pos : 0 < w) (evenW : w % 2 = 0) (evenH : h % 2 = 0) (horWide : hs = w ∨ hs = w + 1 ∧ h ≤ 4)
    (planes : hs * ver / 4 = hs * h / 4) :
    PlaneMoves w h w hs 0 0 ∧ PlaneMoves w h w hs (w * h / 4) (hs * ver / 4) := by
  obtain ⟨k, height⟩ : ∃ k, h = 2 * k := ⟨h / 2, by omega⟩
  obtain ⟨n, width⟩ : ∃ n, w = 2 * n := ⟨w / 2, by omega⟩
  have half : h / 2 = k := by omega
  have columns : w / 2 = n := by omega
  rw [planes]
  rcases horWide with tight | ⟨odd, few⟩
  · -- chroma row `r` of a plane is half of row `r / 2`
    have quarter : w * h / 4 = k * n := by
      rw [width, height, show 2 * n * (2 * k) = 4 * (k * n) by ring]
      simp
    have inRows (q c : Nat) (hc : c < n) : q * n + c = q / 2 * w + (q % 2 * n + c) := by
      have parts := Nat.div_add_mod q 2
      calc q * n + c = (2 * (q / 2) + q % 2) * n + c := by rw [parts]
        _ = q / 2 * w + (q % 2 * n + c) := by
          rw [width]
          ring
    have column (q c : Nat) (hc : c < n) : q % 2 * n + c < w := by
      rcases Nat.mod_two_eq_zero_or_one q with even | odd
      · rw [even]
        omega
      · rw [odd]
        omega
    subst tight
    rw [PlaneMoves, PlaneMoves, quarter, half, columns]
    constructor
    · intro r hr c hc
      refine ⟨r / 2, by omega, r % 2 * n + c, column r c hc, ?_, ?_⟩
      · rw [Nat.zero_add]
        exact inRows r c hc
      · rw [Nat.zero_add]
        exact inRows r c hc
    · intro r hr c hc
      have shifted : k * n + (r * n + c) = (k + r) * n + c := by ring
      refine ⟨(k + r) / 2, by omega, (k + r) % 2 * n + c, column (k + r) c hc, ?_, ?_⟩
      · rw [shifted]
        exact inRows (k + r) c hc
      · rw [shifted]
        exact inRows (k + r) c hc
  · have rows : h / 2 = 0 ∨ h = 2 ∨ h = 4 := by omega
    have row (r : Nat) (hr : r < 2) : r * n = 0 ∨ r * n = n := by
      rcases Nat.lt_or_ge r 1 with zero | one
      · left
        rw [show r = 0 by omega, Nat.zero_mul]
      · right
        rw [show r = 1 by omega, Nat.one_mul]
    rw [PlaneMoves, PlaneMoves, columns, show hs / 2 = n by omega]
    constructor
    · intro r hr c hc
      have inside := row r (by omega)
      exact ⟨0, by omega, r * n + c, by omega, by omega, by omega⟩
    · intro r hr c hc
      have inside := row r (by omega)
      rcases rows with none | two | four
      · omega
      · have only : r = 0 := by omega
        subst only
        rw [two]
        exact ⟨0, by omega, n + c, by omega, by omega, by omega⟩
      · rw [four]
        exact ⟨1, by omega, r * n + c, by omega, by omega, by omega⟩

end Plane

/-! ## When they agree -/

section Agree
variable {s : Spec} {enc : MppGeometry}

/-- Even extents and strides, and room for every row on both sides. -/
structure Padded (s : Spec) (enc : MppGeometry) : Prop where
  fmt : s.fmt = .nv12 ∨ s.fmt = .yuv420p
  evenWidth : enc.width % 2 = 0
  evenHeight : enc.height % 2 = 0
  evenStride : rowStride s % 2 = 0
  evenVer : effVerStride s % 2 = 0
  wide : enc.width ≤ rowStride s
  high : enc.height ≤ effVerStride s
  horWide : enc.width ≤ enc.horStride
  verHigh : enc.height ≤ enc.verStride

/-- The two samples agree whatever the arrays hold exactly when `host_copy` moves each sample to where
MPP looks for it. -/
theorem samples_agree_moves (g : Padded s enc) :
    SamplesAgree s enc ↔ ∀ p r c, r < Plane.rows p enc.height → c < Plane.columns p enc.width →
      (sampleAt s.fmt enc.horStride enc.verStride p r c, sampleAt s.fmt (rowStride s) (effVerStride s) p r c) ∈
        mppMoves s enc := by
  have one := mppMoves_oneSource (s := s) g.horWide g.verHigh
  constructor
  · intro agree p r c hr hc
    apply copy_forces (show (0 : UInt8) ≠ 1 by decide) one (sampleAt_lt g.horWide g.verHigh hr hc)
      (sampleAt_lt g.wide g.high hr hc)
    intro buffer data room payload
    rw [agree buffer (List.replicate (enc.width * enc.height * 3 / 2) 0) data room (by simp) payload p r c hr hc]
    exact svt_sample g.fmt g.evenWidth g.evenHeight (by simp) hr hc
  · intro moved buffer i420 data room i420Room payload p r c hr hc
    rw [svt_sample g.fmt g.evenWidth g.evenHeight i420Room hr hc]
    apply copy_getD one (moved p r c hr hc)
    rw [room]
    exact sampleAt_lt g.horWide g.verHigh hr hc

/-- Interleaved frames agree with any padding. -/
theorem interleaved_moves (g : Padded s enc) (nv12 : s.fmt = .nv12) {p : Plane} {r c : Nat}
    (hr : r < Plane.rows p enc.height) (hc : c < Plane.columns p enc.width) :
    (sampleAt s.fmt enc.horStride enc.verStride p r c, sampleAt s.fmt (rowStride s) (effVerStride s) p r c) ∈
      mppMoves s enc := by
  cases p with
  | y => exact mem_mppLuma hr hc
  | u =>
    simp only [sampleAt, nv12, if_true]
    simp only [Plane.rows, Plane.columns, reduceCtorEq, if_false] at hr hc
    rw [mem_mppChroma g.horWide g.verHigh]
    exact ⟨r, hr, 2 * c, by omega, rfl, rfl⟩
  | v =>
    simp only [sampleAt, nv12, if_true]
    simp only [Plane.rows, Plane.columns, reduceCtorEq, if_false] at hr hc
    rw [mem_mppChroma g.horWide g.verHigh]
    exact ⟨r, hr, 2 * c + 1, by omega, rfl, rfl⟩

/-- For a planar frame, the two chroma planes must lie in the rows `host_copy` moves. -/
theorem planar_moves (g : Padded s enc) (planar : s.fmt ≠ .nv12) :
    (∀ p r c, r < Plane.rows p enc.height → c < Plane.columns p enc.width →
      (sampleAt s.fmt enc.horStride enc.verStride p r c, sampleAt s.fmt (rowStride s) (effVerStride s) p r c) ∈
        mppMoves s enc) ↔
      PlaneMoves enc.width enc.height (rowStride s) enc.horStride 0 0 ∧
        PlaneMoves enc.width enc.height (rowStride s) enc.horStride (rowStride s * effVerStride s / 4)
          (enc.horStride * enc.verStride / 4) := by
  constructor
  · intro all
    constructor
    · intro r hr c hc
      have moved := all .u r c hr hc
      simp only [sampleAt, if_neg planar] at moved
      simpa only [Nat.zero_add] using (mem_mppChroma g.horWide g.verHigh).1 moved
    · intro r hr c hc
      have moved := all .v r c hr hc
      simp only [sampleAt, if_neg planar] at moved
      exact (mem_mppChroma g.horWide g.verHigh).1 moved
  · rintro ⟨first, second⟩ p r c hr hc
    cases p with
    | y => exact mem_mppLuma hr hc
    | u =>
      simp only [sampleAt, if_neg planar]
      apply (mem_mppChroma g.horWide g.verHigh).2
      simpa only [Nat.zero_add] using first r hr c hc
    | v =>
      simp only [sampleAt, if_neg planar]
      exact (mem_mppChroma g.horWide g.verHigh).2 (second r hr c hc)

/-- **Both encoders are given one picture** exactly when the frame is interleaved, or rows and planes lie
end to end. -/
theorem samples_agree_iff (g : Padded s enc) : SamplesAgree s enc ↔ s.fmt = .nv12 ∨ EndToEnd s enc := by
  rw [samples_agree_moves g]
  by_cases nv12 : s.fmt = .nv12
  · refine iff_of_true ?_ (Or.inl nv12)
    intro p r c hr hc
    exact interleaved_moves g nv12 hr hc
  · rw [planar_moves g nv12]
    have wide := Nat.pos_of_ne_zero enc.wide
    have high := enc.high
    have evenH := g.evenHeight
    constructor
    · rintro ⟨first, second⟩
      obtain ⟨stride, ver, hor, planes⟩ := second_plane wide g.evenWidth g.evenStride g.wide g.horWide g.evenHeight
        g.evenVer g.high g.verHigh (by omega) first second
      exact Or.inr ⟨stride, ver, hor, planes⟩
    · rintro (interleaved | tight)
      · exact absurd interleaved nv12
      · rw [tight.stride, tight.verStride]
        exact planes_moved wide g.evenWidth g.evenHeight tight.horStride tight.planes

end Agree

/-- A planar picture of four by four in rows of six bytes, and MPP set up for rows of four. -/
def paddedPlanar : Spec := { width := 4, height := 4, fmt := .yuv420p, stride := 6, verStride := 4 }

def tightContext : MppGeometry := ⟨⟨4, 4⟩, 4, 4, by decide, by decide⟩

/-- The condition at that frame. -/
theorem samples_agree_iff_padded :
    SamplesAgree paddedPlanar tightContext ↔
      paddedPlanar.fmt = .nv12 ∨ EndToEnd paddedPlanar tightContext := by
  apply samples_agree_iff
  constructor <;> decide

/-- Both encoders take the frame. Where its bytes count up, sample `(1, 0)` of `U` is 27 to SVT and 26
to MPP. -/
theorem padded_planar_differs :
    Padded paddedPlanar tightContext ∧ svtTakes none paddedPlanar = some tightContext.toExtent ∧
      mppTakes (some tightContext) paddedPlanar = some tightContext ∧ ¬SamplesAgree paddedPlanar tightContext := by
  refine ⟨by constructor <;> decide, rfl, rfl, ?_⟩
  intro agree
  have same := agree (List.replicate 24 0) (List.replicate 24 0) ((List.range 36).map UInt8.ofNat) rfl rfl rfl
    .u 1 0 (by decide) (by decide)
  revert same
  decide +kernel

end Rkvc.Video
