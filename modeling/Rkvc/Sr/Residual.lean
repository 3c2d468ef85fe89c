import Mathlib.Tactic.Ring
import Rkvc.Core.Status
import Rkvc.Lib.Rint
import Rkvc.Lib.Update
import Rkvc.Lib.Word

/-!
# The phase residual

`post::add_phase_residual` adds the 108 channels of the upscaler onto an NV12
picture in place. Samples are exact rationals. The loops reach every byte of the
picture once (`places_perm`): a luma pixel takes the channel of its phase, a
chroma sample the mean of the four channels behind it (`addPhaseResidual_spec`).
Offsets are naturals: what an array holds is below `size_t`.
-/

namespace Rkvc.Sr
set_option autoImplicit false
open Lib

/-- `clip_u8`; `lrintf` rounds half to even. -/
def clipU8 (v : Rat) : UInt8 :=
  if ¬v > 0 then 0
  else if v ≥ 255 then 255
  else UInt8.ofNat (rint v).toNat

/-- A byte is not clipped. -/
@[simp] theorem clipU8_byte (b : UInt8) : clipU8 (b.toNat : Rat) = b := by
  have below : b.toNat < 256 := b.toNat_lt
  rw [clipU8]
  split
  · rename_i low
    rw [gt_iff_lt, Nat.cast_pos, Nat.pos_iff_ne_zero, Decidable.not_not] at low
    exact (UInt8.toNat_inj.1 low).symm
  · split
    · rename_i high
      have top : (255 : Rat) = (255 : Nat) := by norm_num
      rw [ge_iff_le, top, Nat.cast_le] at high
      apply UInt8.toNat_inj.1
      show 255 = b.toNat
      omega
    · simp

def residualOffset (plane rw ch dy dx cy cx : Nat) : Nat :=
  let packedC := ch * 36 + dy * 6 + dx
  packedC * plane + cy * rw + cx

/-! ## The loops -/

/-- The luma loops: `cy`, `dy`, `dx`, `cx`. -/
def lumaLoops (rw rh : Nat) : List (Nat × Nat × Nat × Nat) :=
  (List.range rh).flatMap fun cy =>
    (List.range 6).flatMap fun dy =>
      (List.range 6).flatMap fun dx =>
        (List.range rw).map fun cx => (cy, dy, dx, cx)

/-- The byte a luma turn updates. -/
def lumaPlace (w : Nat) : Nat × Nat × Nat × Nat → Nat
  | (cy, dy, dx, cx) => (cy * 6 + dy) * w + (cx * 6 + dx)

/-- The body of the luma loops, `none` when it leaves an array. -/
def lumaTurn (residual : List Rat) (plane rw w : Nat) (dst : List UInt8) :
    Nat × Nat × Nat × Nat → Option (List UInt8)
  | (cy, dy, dx, cx) => do
    let s := residualOffset plane rw 0 dy dx cy 0
    let old ← dst[lumaPlace w (cy, dy, dx, cx)]?
    let v ← residual[s + cx]?
    return dst.set (lumaPlace w (cy, dy, dx, cx)) (clipU8 (old.toNat + v))

/-- The chroma loops: `cy`, `ey`, `ex`, `ch`, `cx`. -/
def chromaLoops (rw rh : Nat) : List (Nat × Nat × Nat × Nat × Nat) :=
  (List.range rh).flatMap fun cy =>
    (List.range 3).flatMap fun ey =>
      (List.range 3).flatMap fun ex =>
        [1, 2].flatMap fun ch =>
          (List.range rw).map fun cx => (cy, ey, ex, ch, cx)

/-- The byte a chroma turn updates. -/
def chromaPlace (w h : Nat) : Nat × Nat × Nat × Nat × Nat → Nat
  | (cy, ey, ex, ch, cx) => w * h + (cy * 3 + ey) * w + cx * 6 + (ex * 2 + ch - 1)

/-- The body of the chroma loops, `none` when it leaves an array. -/
def chromaTurn (residual : List Rat) (plane rw w h : Nat) (dst : List UInt8) :
    Nat × Nat × Nat × Nat × Nat → Option (List UInt8)
  | (cy, ey, ex, ch, cx) => do
    let s0 := residualOffset plane rw ch (ey * 2) (ex * 2) cy 0
    let s1 := s0 + plane
    let s2 := s0 + 6 * plane
    let s3 := s2 + plane
    let a ← residual[s0 + cx]?
    let b ← residual[s1 + cx]?
    let c ← residual[s2 + cx]?
    let d ← residual[s3 + cx]?
    let v := (a + b + c + d) * (1 / 4)
    let old ← dst[chromaPlace w h (cy, ey, ex, ch, cx)]?
    return dst.set (chromaPlace w h (cy, ey, ex, ch, cx)) (clipU8 (old.toNat + v))

/-- **`add_phase_residual`**; `none` when a read or a store leaves its array. A null pointer is `none`. -/
def addPhaseResidual (residual : Option (List Rat)) (rw rh : Nat) (dst : Option (List UInt8)) (w h : Nat) :
    Option (Status × Option (List UInt8)) :=
  match residual, dst with
  | some residual, some dst =>
    if w ≠ u32 (rw * 6) ∨ h ≠ u32 (rh * 6) ∨ w % 2 = 1 ∨ h % 2 = 1 then some (.invalid, some dst)
    else do
      let plane := rw * rh
      let dst ← (lumaLoops rw rh).foldlM (lumaTurn residual plane rw w) dst
      let dst ← (chromaLoops rw rh).foldlM (chromaTurn residual plane rw w h) dst
      return (.ok, some dst)
  | _, dst => some (.invalid, dst)

/-! ## The places -/

section Places
variable {rw rh : Nat}

theorem mem_lumaLoops {cy dy dx cx : Nat} :
    (cy, dy, dx, cx) ∈ lumaLoops rw rh ↔ cy < rh ∧ dy < 6 ∧ dx < 6 ∧ cx < rw := by
  simp [lumaLoops]

theorem mem_chromaLoops {cy ey ex ch cx : Nat} :
    (cy, ey, ex, ch, cx) ∈ chromaLoops rw rh ↔ cy < rh ∧ ey < 3 ∧ ex < 3 ∧ (ch = 1 ∨ ch = 2) ∧ cx < rw := by
  simp only [chromaLoops, List.mem_flatMap, List.mem_range, List.mem_map, Prod.mk.injEq, List.mem_cons,
    List.not_mem_nil, or_false]
  constructor
  · rintro ⟨cy, hcy, ey, hey, ex, hex, ch, hch, cx, hcx, rfl, rfl, rfl, rfl, rfl⟩
    exact ⟨hcy, hey, hex, hch, hcx⟩
  · rintro ⟨hcy, hey, hex, hch, hcx⟩
    exact ⟨cy, hcy, ey, hey, ex, hex, ch, hch, cx, hcx, rfl, rfl, rfl, rfl, rfl⟩

/-- The turn of a luma pixel. -/
def lumaAt (y x : Nat) : Nat × Nat × Nat × Nat := (y / 6, y % 6, x % 6, x / 6)

/-- The turn of a chroma sample of plane `p`. -/
def chromaAt (p i j : Nat) : Nat × Nat × Nat × Nat × Nat := (i / 3, i % 3, j % 3, p, j / 3)

theorem lumaAt_mem {y x : Nat} (hy : y < rh * 6) (hx : x < rw * 6) : lumaAt y x ∈ lumaLoops rw rh := by
  rw [lumaAt, mem_lumaLoops]
  omega

theorem chromaAt_mem {p i j : Nat} (hp : p = 1 ∨ p = 2) (hi : i < rh * 3) (hj : j < rw * 3) :
    chromaAt p i j ∈ chromaLoops rw rh := by
  rw [chromaAt, mem_chromaLoops]
  omega

theorem lumaPlace_at (w y x : Nat) : lumaPlace w (lumaAt y x) = y * w + x := by
  rw [lumaAt, lumaPlace, Nat.div_add_mod', Nat.div_add_mod']

theorem chromaPlace_at {p : Nat} (hp : p = 1 ∨ p = 2) (w h i j : Nat) :
    chromaPlace w h (chromaAt p i j) = w * h + i * w + (2 * j + (p - 1)) := by
  rw [chromaAt, chromaPlace, Nat.div_add_mod', Nat.add_assoc]
  congr 1
  omega

/-- The bytes the loops update, in order. -/
def places (rw rh : Nat) : List Nat :=
  (lumaLoops rw rh).map (lumaPlace (rw * 6)) ++ (chromaLoops rw rh).map (chromaPlace (rw * 6) (rh * 6))

theorem length_places (rw rh : Nat) : (places rw rh).length = rw * 6 * (rh * 6) + rw * 6 * (rh * 3) := by
  simp [places, lumaLoops, chromaLoops, List.length_flatMap]
  ring

/-- **Every byte of the picture is updated once**, and no other. -/
theorem places_perm (rw rh : Nat) :
    (places rw rh).Perm (List.range (rw * 6 * (rh * 6) + rw * 6 * (rh * 3))) := by
  apply perm_range (length_places rw rh)
  intro i hi
  have wide : 0 < rw * 6 := by
    rcases Nat.eq_zero_or_pos rw with rfl | pos
    · simp at hi
    · omega
  rw [places, List.mem_append]
  by_cases luma : i < rw * 6 * (rh * 6)
  · have row : i / (rw * 6) < rh * 6 := Nat.div_lt_of_lt_mul luma
    have col : i % (rw * 6) < rw * 6 := Nat.mod_lt _ wide
    refine Or.inl (List.mem_map.2 ⟨_, lumaAt_mem row col, ?_⟩)
    rw [lumaPlace_at, Nat.div_add_mod']
  · obtain ⟨k, rfl⟩ : ∃ k, i = rw * 6 * (rh * 6) + k := ⟨i - rw * 6 * (rh * 6), by omega⟩
    have row : k / (rw * 6) < rh * 3 := Nat.div_lt_of_lt_mul (by omega)
    have col : k % (rw * 6) < rw * 6 := Nat.mod_lt _ wide
    have back := Nat.div_add_mod' k (rw * 6)
    have hp : k % (rw * 6) % 2 + 1 = 1 ∨ k % (rw * 6) % 2 + 1 = 2 := by omega
    refine Or.inr (List.mem_map.2 ⟨_, chromaAt_mem hp row (show k % (rw * 6) / 2 < rw * 3 by omega), ?_⟩)
    rw [chromaPlace_at hp]
    omega

end Places

/-! ## The values -/

/-- The residual of a channel at a core position. -/
def tap (residual : List Rat) (rw rh c cy cx : Nat) : Rat := residual.getD (c * (rw * rh) + cy * rw + cx) 0

/-- The residual of plane `p` at a luma position: the channel of its phase. -/
def phaseTap (residual : List Rat) (rw rh p y x : Nat) : Rat :=
  tap residual rw rh (p * 36 + (y % 6) * 6 + x % 6) (y / 6) (x / 6)

/-- The mean residual of plane `p` over the four luma positions of a chroma sample. -/
def meanTap (residual : List Rat) (rw rh p i j : Nat) : Rat :=
  (phaseTap residual rw rh p (2 * i) (2 * j) + phaseTap residual rw rh p (2 * i) (2 * j + 1) +
    phaseTap residual rw rh p (2 * i + 1) (2 * j) + phaseTap residual rw rh p (2 * i + 1) (2 * j + 1)) / 4

/-- A byte with a residual on it. -/
def added (v : Rat) (old : UInt8) : UInt8 := clipU8 (old.toNat + v)

def lumaAdded (residual : List Rat) (rw rh : Nat) : Nat × Nat × Nat × Nat → UInt8 → UInt8
  | (cy, dy, dx, cx) => added (phaseTap residual rw rh 0 (cy * 6 + dy) (cx * 6 + dx))

def chromaAdded (residual : List Rat) (rw rh : Nat) : Nat × Nat × Nat × Nat × Nat → UInt8 → UInt8
  | (cy, ey, ex, ch, cx) => added (meanTap residual rw rh ch (cy * 3 + ey) (cx * 3 + ex))

/-- A zero residual adds nothing. -/
theorem added_zero (old : UInt8) : added 0 old = old := by
  rw [added, add_zero, clipU8_byte]

section Values
variable {residual : List Rat} {rw rh : Nat}

/-- A core position of a channel lies inside the tensor. -/
theorem tap_read (size : residual.length = 108 * (rw * rh)) {c cy cx : Nat} (hc : c < 108) (hcy : cy < rh)
    (hcx : cx < rw) : residual[c * (rw * rh) + cy * rw + cx]? = some (tap residual rw rh c cy cx) := by
  have row : (cy + 1) * rw ≤ rh * rw := Nat.mul_le_mul_right _ hcy
  have channel : (c + 1) * (rw * rh) ≤ 108 * (rw * rh) := Nat.mul_le_mul_right _ hc
  rw [Nat.succ_mul, Nat.mul_comm rh] at row
  rw [Nat.succ_mul] at channel
  have inside : c * (rw * rh) + cy * rw + cx < residual.length := by omega
  rw [tap, List.getD_eq_getElem?_getD, List.getElem?_eq_getElem inside, Option.getD_some]

/-- The same from a plane, a phase and a core position. -/
theorem phase_read (size : residual.length = 108 * (rw * rh)) {p dy dx cy cx i : Nat} (hp : p < 3) (hdy : dy < 6)
    (hdx : dx < 6) (hcy : cy < rh) (hcx : cx < rw) (place : i = (p * 36 + dy * 6 + dx) * (rw * rh) + cy * rw + cx) :
    residual[i]? = some (phaseTap residual rw rh p (cy * 6 + dy) (cx * 6 + dx)) := by
  have row : (cy * 6 + dy) % 6 = dy ∧ (cy * 6 + dy) / 6 = cy := by omega
  have col : (cx * 6 + dx) % 6 = dx ∧ (cx * 6 + dx) / 6 = cx := by omega
  rw [place, tap_read size (by omega) hcy hcx, phaseTap, row.1, row.2, col.1, col.2]

/-- Reading, changing and storing an element. -/
theorem set_read {dst : List UInt8} {i : Nat} {old : UInt8} (f : UInt8 → UInt8) (read : dst[i]? = some old) :
    dst.set i (f old) = dst.modify i f := by
  rw [List.modify_eq_set_getElem?, read]
  rfl

theorem lumaTurn_eq (size : residual.length = 108 * (rw * rh)) {w : Nat} {dst : List UInt8}
    {turn : Nat × Nat × Nat × Nat} (mem : turn ∈ lumaLoops rw rh) (room : lumaPlace w turn < dst.length) :
    lumaTurn residual (rw * rh) rw w dst turn =
      some (dst.modify (lumaPlace w turn) (lumaAdded residual rw rh turn)) := by
  obtain ⟨cy, dy, dx, cx⟩ := turn
  obtain ⟨hcy, hdy, hdx, hcx⟩ := mem_lumaLoops.1 mem
  have read := List.getElem?_eq_getElem room
  have value := phase_read size (show 0 < 3 by decide) hdy hdx hcy hcx
    (show residualOffset (rw * rh) rw 0 dy dx cy 0 + cx = _ by rw [residualOffset]; rfl)
  simp only [lumaTurn, read, value, Option.bind_eq_bind, Option.bind_some, Option.pure_def]
  exact congrArg some (set_read (lumaAdded residual rw rh (cy, dy, dx, cx)) read)

theorem chromaTurn_eq (size : residual.length = 108 * (rw * rh)) {w h : Nat} {dst : List UInt8}
    {turn : Nat × Nat × Nat × Nat × Nat} (mem : turn ∈ chromaLoops rw rh) (room : chromaPlace w h turn < dst.length) :
    chromaTurn residual (rw * rh) rw w h dst turn =
      some (dst.modify (chromaPlace w h turn) (chromaAdded residual rw rh turn)) := by
  obtain ⟨cy, ey, ex, ch, cx⟩ := turn
  obtain ⟨hcy, hey, hex, hch, hcx⟩ := mem_chromaLoops.1 mem
  have read := List.getElem?_eq_getElem room
  have taps : ∀ a b i, a < 2 → b < 2 →
      i = residualOffset (rw * rh) rw ch (ey * 2) (ex * 2) cy 0 + (a * 6 + b) * (rw * rh) + cx →
        residual[i]? = some (phaseTap residual rw rh ch (2 * (cy * 3 + ey) + a) (2 * (cx * 3 + ex) + b)) := by
    rintro a b i ha hb rfl
    rw [show 2 * (cy * 3 + ey) + a = cy * 6 + (ey * 2 + a) by omega,
      show 2 * (cx * 3 + ex) + b = cx * 6 + (ex * 2 + b) by omega]
    apply phase_read size (by omega) (by omega) (by omega) hcy hcx
    rw [residualOffset]
    ring
  simp only [chromaTurn, read, Option.bind_eq_bind, Option.pure_def]
  rw [taps 0 0 _ (by decide) (by decide) (by ring), Option.bind_some,
    taps 0 1 _ (by decide) (by decide) (by ring), Option.bind_some,
    taps 1 0 _ (by decide) (by decide) (by ring), Option.bind_some,
    taps 1 1 _ (by decide) (by decide) (by ring), Option.bind_some, Option.bind_some]
  refine (congrArg some ?_).trans (congrArg some (set_read (chromaAdded residual rw rh (cy, ey, ex, ch, cx)) read))
  rw [chromaAdded, added, meanTap, mul_one_div]
  rfl

end Values

/-! ## The picture -/

section Picture
variable {residual : List Rat} {rw rh : Nat} {dst : List UInt8}

/-- Both nests succeed, and update the picture. -/
theorem loops_eq (size : residual.length = 108 * (rw * rh))
    (room : rw * 6 * (rh * 6) + rw * 6 * (rh * 3) ≤ dst.length) :
    (lumaLoops rw rh).foldlM (lumaTurn residual (rw * rh) rw (rw * 6)) dst =
        some (update (lumaPlace (rw * 6)) (lumaAdded residual rw rh) (lumaLoops rw rh) dst) ∧
      ∀ mid : List UInt8, mid.length = dst.length →
        (chromaLoops rw rh).foldlM (chromaTurn residual (rw * rh) rw (rw * 6) (rh * 6)) mid =
          some (update (chromaPlace (rw * 6) (rh * 6)) (chromaAdded residual rw rh) (chromaLoops rw rh) mid) := by
  have below : ∀ i ∈ places rw rh, i < dst.length := by
    intro i mem
    have := List.mem_range.1 ((places_perm rw rh).mem_iff.1 mem)
    omega
  constructor
  · apply foldlM_update
    intro turn mem b len
    apply lumaTurn_eq size mem
    rw [len]
    exact below _ (List.mem_append_left _ (List.mem_map_of_mem mem))
  · intro mid same
    apply foldlM_update
    intro turn mem b len
    apply chromaTurn_eq size mem
    rw [len, same]
    exact below _ (List.mem_append_right _ (List.mem_map_of_mem mem))

/-- The places of the two nests are apart. -/
theorem places_apart (rw rh : Nat) : ((lumaLoops rw rh).map (lumaPlace (rw * 6))).Nodup ∧
    ((chromaLoops rw rh).map (chromaPlace (rw * 6) (rh * 6))).Nodup ∧
      ∀ l ∈ lumaLoops rw rh, ∀ c ∈ chromaLoops rw rh, lumaPlace (rw * 6) l ≠ chromaPlace (rw * 6) (rh * 6) c := by
  have once : (places rw rh).Nodup := (places_perm rw rh).nodup_iff.2 List.nodup_range
  obtain ⟨luma, chroma, apart⟩ := List.nodup_append.1 once
  exact ⟨luma, chroma, fun l hl c hc => apart _ (List.mem_map_of_mem hl) _ (List.mem_map_of_mem hc)⟩

theorem lumaAdded_at (y x : Nat) :
    lumaAdded residual rw rh (lumaAt y x) = added (phaseTap residual rw rh 0 y x) := by
  rw [lumaAt, lumaAdded, Nat.div_add_mod', Nat.div_add_mod']

theorem chromaAdded_at (p i j : Nat) :
    chromaAdded residual rw rh (chromaAt p i j) = added (meanTap residual rw rh p i j) := by
  rw [chromaAt, chromaAdded, Nat.div_add_mod', Nat.div_add_mod']

/-- The picture behind both nests. -/
def bothAdded (residual : List Rat) (rw rh : Nat) (dst : List UInt8) : List UInt8 :=
  update (chromaPlace (rw * 6) (rh * 6)) (chromaAdded residual rw rh) (chromaLoops rw rh)
    (update (lumaPlace (rw * 6)) (lumaAdded residual rw rh) (lumaLoops rw rh) dst)

theorem length_bothAdded : (bothAdded residual rw rh dst).length = dst.length := by
  rw [bothAdded, update_length, update_length]

theorem addPhaseResidual_both (wide : rw * 6 < 2 ^ 32) (high : rh * 6 < 2 ^ 32)
    (size : residual.length = 108 * (rw * rh)) (room : rw * 6 * (rh * 6) + rw * 6 * (rh * 3) ≤ dst.length) :
    addPhaseResidual (some residual) rw rh (some dst) (rw * 6) (rh * 6) =
      some (.ok, some (bothAdded residual rw rh dst)) := by
  obtain ⟨lumaRan, chromaRan⟩ := loops_eq size room
  have guard : ¬(rw * 6 ≠ u32 (rw * 6) ∨ rh * 6 ≠ u32 (rh * 6) ∨ rw * 6 % 2 = 1 ∨ rh * 6 % 2 = 1) := by
    rw [u32_of_lt wide, u32_of_lt high]
    omega
  simp only [addPhaseResidual, if_neg guard, lumaRan, Option.bind_eq_bind, Option.bind_some,
    chromaRan _ (update_length _ _ _ _), Option.pure_def, bothAdded]

theorem bothAdded_luma {y x : Nat} (hy : y < rh * 6) (hx : x < rw * 6) :
    (bothAdded residual rw rh dst)[y * (rw * 6) + x]? =
      (dst[y * (rw * 6) + x]?).map (added (phaseTap residual rw rh 0 y x)) := by
  obtain ⟨once, -, apart⟩ := places_apart rw rh
  have mem := lumaAt_mem hy hx
  rw [bothAdded, ← lumaPlace_at, update_other fun c hc => (apart _ mem c hc).symm, update_at once mem, lumaAdded_at]

theorem bothAdded_chroma {p i j : Nat} (hp : p = 1 ∨ p = 2) (hi : i < rh * 3) (hj : j < rw * 3) :
    (bothAdded residual rw rh dst)[rw * 6 * (rh * 6) + i * (rw * 6) + (2 * j + (p - 1))]? =
      (dst[rw * 6 * (rh * 6) + i * (rw * 6) + (2 * j + (p - 1))]?).map (added (meanTap residual rw rh p i j)) := by
  obtain ⟨-, once, apart⟩ := places_apart rw rh
  have mem := chromaAt_mem hp hi hj
  rw [bothAdded, ← chromaPlace_at hp, update_at once mem, chromaAdded_at, update_other fun l hl => apart l hl _ mem]

/-- In a zero residual every tap is zero. -/
theorem added_blank (blank : ∀ v ∈ residual, v = 0) (old : UInt8) :
    (∀ p y x, added (phaseTap residual rw rh p y x) old = old) ∧
      ∀ p i j, added (meanTap residual rw rh p i j) old = old := by
  have zero : ∀ p y x, phaseTap residual rw rh p y x = 0 := by
    intro p y x
    obtain ⟨k, hk⟩ : ∃ k : Nat, phaseTap residual rw rh p y x = residual.getD k 0 := ⟨_, rfl⟩
    rw [hk, List.getD_eq_getElem?_getD]
    cases read : residual[k]? with
    | none => rfl
    | some v => exact blank v (List.mem_of_getElem? read)
  constructor
  · intro p y x
    rw [zero, added_zero]
  · intro p i j
    rw [meanTap, zero, zero, zero, zero]
    norm_num [added_zero]

/-- **The residual is added onto the picture**: every byte is updated once, a luma pixel with the channel of
its phase, a chroma sample with the mean of four, all of them read inside the tensor; a zero residual
leaves the picture. -/
theorem addPhaseResidual_spec (wide : rw * 6 < 2 ^ 32) (high : rh * 6 < 2 ^ 32)
    (size : residual.length = 108 * (rw * rh))
    (room : rw * 6 * (rh * 6) + rw * 6 * (rh * 3) ≤ dst.length) :
    ∃ out, addPhaseResidual (some residual) rw rh (some dst) (rw * 6) (rh * 6) = some (.ok, some out) ∧
      (places rw rh).Perm (List.range (rw * 6 * (rh * 6) + rw * 6 * (rh * 3))) ∧
      (∀ y < rh * 6, ∀ x < rw * 6, out[y * (rw * 6) + x]? =
        (dst[y * (rw * 6) + x]?).map (added (phaseTap residual rw rh 0 y x))) ∧
      (∀ p, p = 1 ∨ p = 2 → ∀ i < rh * 3, ∀ j < rw * 3,
        out[rw * 6 * (rh * 6) + i * (rw * 6) + (2 * j + (p - 1))]? =
          (dst[rw * 6 * (rh * 6) + i * (rw * 6) + (2 * j + (p - 1))]?).map (added (meanTap residual rw rh p i j))) ∧
      (∀ k, rw * 6 * (rh * 6) + rw * 6 * (rh * 3) ≤ k → out[k]? = dst[k]?) ∧
      ((∀ v ∈ residual, v = 0) → out = dst) := by
  obtain ⟨lumaRan, chromaRan⟩ := loops_eq size room
  obtain ⟨lumaOnce, chromaOnce, apart⟩ := places_apart rw rh
  refine ⟨update (chromaPlace (rw * 6) (rh * 6)) (chromaAdded residual rw rh) (chromaLoops rw rh)
    (update (lumaPlace (rw * 6)) (lumaAdded residual rw rh) (lumaLoops rw rh) dst), ?_,
    places_perm rw rh, ?_, ?_, ?_, ?_⟩
  · have guard : ¬(rw * 6 ≠ u32 (rw * 6) ∨ rh * 6 ≠ u32 (rh * 6) ∨ rw * 6 % 2 = 1 ∨ rh * 6 % 2 = 1) := by
      rw [u32_of_lt wide, u32_of_lt high]
      omega
    simp only [addPhaseResidual, if_neg guard, lumaRan, Option.bind_eq_bind, Option.bind_some,
      chromaRan _ (update_length _ _ _ _), Option.pure_def]
  · intro y hy x hx
    have mem := lumaAt_mem hy hx
    rw [← lumaPlace_at, update_other fun c hc => (apart _ mem c hc).symm, update_at lumaOnce mem, lumaAdded_at]
  · intro p hp i hi j hj
    have mem := chromaAt_mem hp hi hj
    rw [← chromaPlace_at hp, update_at chromaOnce mem, chromaAdded_at, update_other fun l hl => apart l hl _ mem]
  · intro k out
    have past : ∀ i ∈ places rw rh, i ≠ k := by
      intro i mem
      have := List.mem_range.1 ((places_perm rw rh).mem_iff.1 mem)
      omega
    rw [update_other fun c hc => past _ (List.mem_append_right _ (List.mem_map_of_mem hc)),
      update_other fun l hl => past _ (List.mem_append_left _ (List.mem_map_of_mem hl))]
  · intro blank
    have luma : ∀ turn ∈ lumaLoops rw rh, ∀ old, lumaAdded residual rw rh turn old = old := by
      rintro ⟨cy, dy, dx, cx⟩ _ old
      exact (added_blank blank old).1 _ _ _
    have chroma : ∀ turn ∈ chromaLoops rw rh, ∀ old, chromaAdded residual rw rh turn old = old := by
      rintro ⟨cy, ey, ex, ch, cx⟩ _ old
      exact (added_blank blank old).2 _ _ _
    rw [update_same chroma, update_same luma]

end Picture

/-- A core of one by one, with a luma phase of ten. -/
theorem addPhaseResidual_spec_one :
    ∃ out, addPhaseResidual (some (10 :: List.replicate 107 0)) 1 1 (some (List.replicate 54 50)) 6 6 =
        some (.ok, some out) ∧
      out[0]? = some 60 := by
  obtain ⟨out, ran, -, luma, -⟩ := @addPhaseResidual_spec (10 :: List.replicate 107 0) 1 1
    (List.replicate 54 50) (by decide) (by decide) (by simp) (by simp)
  exact ⟨out, ran, (luma 0 (by decide) 0 (by decide)).trans (by decide +kernel)⟩

end Rkvc.Sr
