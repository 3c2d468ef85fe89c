import Rkvc.Mlvc.Tables

/-!
# What the decoder does with a record

`decode_frame` chooses a rung, decodes the payload and runs the NPU. The rung it has chosen
stays for the next record. A bundle of a single rung has no other to choose: it decodes
every record with it.
-/

namespace Rkvc.Mlvc
set_option autoImplicit false
open Lib Pixel

variable {sink : Nat → Status} {d : Decoder} {b : DecoderBinding} {s : DecoderCore} {payload : List UInt8}
  {recQ : Int} {recFlags : UInt32} {rung : Nat}

/-! ## The choice of the rung -/

/-- What every record keeps. -/
structure DecoderCore.Fit (s : DecoderCore) (b : DecoderBinding) : Prop where
  active : s.active < b.rs.rungQp.length
  tabled : s.zIdxQp ≠ -1 → s.zIdx = buildZIdx s.zIdxQp b.geom

/-- One rung, and no tables. -/
def DecoderBinding.Fixed (b : DecoderBinding) : Prop := b.qrows.present = false ∧ b.rs.rungQp.length = 1

/-- The rung of a record: of its QP, but for a bundle that is fixed to one. -/
structure Chosen (b : DecoderBinding) (recQ : Int) (rung : Nat) : Prop where
  listed : rung < b.rs.rungQp.length
  rows : b.qrows.present = true → b.covers recQ = true
  qp : b.qrows.present = false → ¬b.Fixed → b.rs.rungQp[rung]? = some recQ

theorem selectRung_ok (bound : b.Bound d) (fit : s.Fit b) (h : b.selectRung s.active recQ = .ok rung) :
    Chosen b recQ rung := by
  simp only [DecoderBinding.selectRung] at h
  cases present : b.qrows.present with
  | true =>
    rw [if_pos present] at h
    split at h
    · rename_i covered
      cases h
      constructor
      · exact List.length_pos_iff.mpr bound.rungs.nonempty
      · exact fun _ => covered
      · intro absent
        rw [present] at absent
        cases absent
    · cases h
  | false =>
    rw [if_neg (by simp [present])] at h
    have absent : b.qrows.present = true → b.covers recQ = true := by
      simp [present]
    split at h
    · rename_i same
      cases h
      refine ⟨fit.active, absent, fun _ _ => ?_⟩
      rw [same, List.getD_eq_getElem?_getD, List.getElem?_eq_getElem fit.active]
      rfl
    · split at h
      · rename_i found there
        cases h
        have at_ := findRung_spec there
        exact ⟨(List.getElem?_eq_some_iff.mp at_).1, absent, fun _ _ => at_⟩
      · split at h
        · cases h
        · rename_i alone
          cases h
          refine ⟨fit.active, absent, fun _ several => absurd ⟨present, ?_⟩ several⟩
          have := fit.active
          omega

theorem selectRung_error {e : Failure} (h : b.selectRung s.active recQ = .error e) :
    e.status = .format ∧ ¬b.Fixed := by
  simp only [DecoderBinding.selectRung] at h
  split at h
  · rename_i present
    split at h
    · cases h
    · cases h
      refine ⟨rfl, fun fixed => ?_⟩
      rw [fixed.1] at present
      cases present
  · split at h
    · cases h
    · split at h
      · cases h
      · split at h
        · rename_i several
          cases h
          refine ⟨rfl, fun fixed => ?_⟩
          rw [fixed.2] at several
          exact absurd several (Nat.lt_irrefl 1)
        · cases h

/-- The QP a record is decoded with. -/
theorem Chosen.zQp (h : Chosen b recQ rung) (several : ¬b.Fixed) : b.zQp rung recQ = recQ := by
  rw [DecoderBinding.zQp]
  split
  · rfl
  · rename_i absent
    rw [List.getD_eq_getElem?_getD, h.qp (by simpa using absent) several]
    rfl

theorem Chosen.zQp_fixed {q : Int} (h : Chosen b recQ rung) (fixed : b.Fixed) (alone : b.rs.rungQp = [q]) :
    b.zQp rung recQ = q ∧ b.rs.rungQp[rung]? = some q := by
  have listed := h.listed
  rw [fixed.2] at listed
  obtain rfl : rung = 0 := by omega
  rw [DecoderBinding.zQp, if_neg (by rw [fixed.1]; exact nofun), alone]
  exact ⟨rfl, rfl⟩

/-- No QP is negative that a record is decoded with. -/
theorem Chosen.nonneg (h : Chosen b recQ rung) (bound : b.Bound d) : 0 ≤ b.zQp rung recQ := by
  rw [DecoderBinding.zQp]
  split
  · rename_i present
    have covered := h.rows present
    obtain ⟨r, listed⟩ := List.exists_mem_of_ne_nil _ (bound.rows.present.mp present)
    rw [DecoderBinding.covers, List.all_eq_true] at covered
    have := covered r listed
    simp only [Bool.not_eq_true', Bool.or_eq_false_iff, decide_eq_false_iff_not] at this
    omega
  · rw [List.getD_eq_getElem?_getD, List.getElem?_eq_getElem h.listed]
    exact bound.nonneg _ (List.getElem_mem h.listed)

/-! ## The state a record is decoded from -/

/-- The state a record is decoded from: the rung, the hyper-latents of its QP, the slots. -/
structure Readied (b : DecoderBinding) (s : DecoderCore) (rung : Nat) (recQ : Int) (recFlags : UInt32)
    (s' : DecoderCore) : Prop where
  active : s'.active = rung
  zIdx : b.zQp rung recQ ≠ -1 → s'.zIdx = buildZIdx (b.zQp rung recQ) b.geom
  tabled : s'.zIdxQp ≠ -1 → s'.zIdx = buildZIdx s'.zIdxQp b.geom
  refs : s'.refs = s.refs.start (decide (recFlags &&& kRecKeyframe ≠ 0))
  runs : s'.runs = s.runs
  emitted : s'.emitted = s.emitted
  latents : s'.latents = s.latents
  scales : s'.scales = s.scales

variable (recQ recFlags) in
theorem readied (fit : s.Fit b) (rung : Nat) : Readied b s rung recQ recFlags (s.prepare b rung recQ recFlags) := by
  unfold DecoderCore.prepare
  by_cases stale : s.zIdxQp ≠ b.zQp rung recQ
  · simp only [if_pos stale]
    by_cases key : recFlags &&& kRecKeyframe ≠ 0
    · simp only [if_pos key]
      constructor <;> simp [key, Refs.start, DecoderCore.refs]
    · simp only [if_neg key]
      constructor <;> simp [key, Refs.start, DecoderCore.refs]
  · have same : s.zIdxQp = b.zQp rung recQ := Decidable.not_not.mp stale
    have tabled := fit.tabled
    rw [same] at tabled
    simp only [if_neg stale]
    by_cases key : recFlags &&& kRecKeyframe ≠ 0
    · simp only [if_pos key]
      constructor <;> simp_all [Refs.start, DecoderCore.refs]
    · simp only [if_neg key]
      constructor <;> simp_all [Refs.start, DecoderCore.refs]

/-! ## The run of a record -/

/-- A run with the QP `q`: the hyper-latents are read with the map of `q`, the model is the one
made for `q`, and the rows are those of `q`. -/
structure RunWith (d : Decoder) (b : DecoderBinding) (s : DecoderCore) (payload : List UInt8) (q : Int) (run : NpuRun)
    (s' : DecoderCore) : Prop where
  qp : run.qp = q
  zIdx : s'.zIdx = buildZIdx q b.geom
  payload : ∃ latents scales ref,
    decodePayload d.gCoder d.bCoder b.entropy b.geom (buildZIdx q b.geom) s.latents s.scales payload =
      .ok (latents, scales) ∧ run.feed = b.feed latents ref q
  rows : ∀ r ∈ b.qrows.rows, (r.1, r.2.row q.toNat) ∈ run.feed
  model : b.qrows.present = false → ∃ base npu, b.rs.rungQp[run.rung]? = some q ∧ b.rs.models[run.rung]? = some npu ∧
    initRung d.model base d.makeModel q = .ok npu

theorem decodePayload_error {g c : RansCoder} {cfg : EntropyConfig} {geom : Geometry} {zIdx : List Int32}
    {latents : Latents} {scales : Scales} {e : Failure}
    (h : decodePayload g c cfg geom zIdx latents scales payload = .error e) : e.status = .format := by
  simp only [decodePayload] at h
  split at h
  · cases h
    rfl
  · split at h
    · cases h
      rfl
    · split at h
      · cases h
        rfl
      · split at h
        · cases h
          rfl
        · split at h
          · cases h
            rfl
          · split at h
            · cases h
              rfl
            · cases h

variable (sink d b s payload recQ recFlags) in
/-- What every way out of `runFrame` keeps. -/
theorem runFrame_keeps :
    (d.runFrame sink b s payload recQ recFlags).1.active = s.active ∧
      (d.runFrame sink b s payload recQ recFlags).1.zIdx = s.zIdx ∧
      (d.runFrame sink b s payload recQ recFlags).1.zIdxQp = s.zIdxQp := by
  simp only [Decoder.runFrame]
  split
  · exact ⟨rfl, rfl, rfl⟩
  · split
    · exact ⟨rfl, rfl, rfl⟩
    · split
      · exact ⟨rfl, rfl, rfl⟩
      · split
        · exact ⟨rfl, rfl, rfl⟩
        · split
          · exact ⟨rfl, rfl, rfl⟩
          · refine ⟨?_, ?_, ?_⟩ <;> (simp only [DecoderCore.emit, DecoderCore.keep]; split <;> rfl)

variable (sink d b s payload recQ recFlags) in
/-- A payload that is refused comes to no run; any other comes to one. -/
theorem runFrame_runs :
    let out := d.runFrame sink b s payload recQ recFlags
    (∃ e, out.2 = .error e ∧ e.status = .format ∧ out.1 = s) ∨
      ∃ latents scales,
        decodePayload d.gCoder d.bCoder b.entropy b.geom s.zIdx s.latents s.scales payload = .ok (latents, scales) ∧
        out.1.runs = s.runs ++ [{
          rung := s.active, slot := s.slotFor recFlags, qp := b.zQp s.active recQ
          feed := b.feed latents (s.slot (s.slotFor recFlags)) recQ }] := by
  simp only [Decoder.runFrame]
  split
  · rename_i e refused
    exact .inl ⟨e, rfl, decodePayload_error refused, rfl⟩
  · rename_i latents scales taken
    refine .inr ⟨latents, scales, taken, ?_⟩
    split
    · rfl
    · split
      · rfl
      · split
        · rfl
        · split
          · rfl
          · simp only [DecoderCore.emit, DecoderCore.keep]
            split <;> rfl

variable (sink payload recFlags) in
/-- A record of a rung that was chosen is decoded with one QP throughout. -/
theorem runFrame_spec (bound : b.Bound d) (fit : s.Fit b) (chosen : Chosen b recQ rung) (small : recQ < 2 ^ 31)
    {q : Int} (qp : b.zQp rung recQ = q) (listed : b.qrows.present = false → b.rs.rungQp[rung]? = some q) :
    let out := d.runFrame sink b (s.prepare b rung recQ recFlags) payload recQ recFlags
    out.1.Fit b ∧ ((∃ e, out.2 = .error e ∧ e.status = .format ∧ out.1.runs = s.runs) ∨
      ∃ run, out.1.runs = s.runs ++ [run] ∧ RunWith d b s payload q run out.1) := by
  have ready := readied recQ recFlags fit rung
  have nonneg := chosen.nonneg bound
  generalize s.prepare b rung recQ recFlags = s₁ at ready
  have zIdx := ready.zIdx (by omega)
  rw [qp] at zIdx nonneg
  obtain ⟨active, zIdx', zIdxQp⟩ := runFrame_keeps sink d b s₁ payload recQ recFlags
  have runs := runFrame_runs sink d b s₁ payload recQ recFlags
  generalize d.runFrame sink b s₁ payload recQ recFlags = out at active zIdx' zIdxQp runs
  rw [ready.active] at active
  refine ⟨⟨?_, ?_⟩, ?_⟩
  · rw [active]
    exact chosen.listed
  · rw [zIdx', zIdxQp]
    exact ready.tabled
  · rcases runs with ⟨e, failed, status, same⟩ | ⟨latents, scales, taken, run⟩
    · refine .inl ⟨e, failed, status, ?_⟩
      rw [same, ready.runs]
    · rw [ready.active, ready.runs, qp] at run
      rw [zIdx, ready.latents, ready.scales] at taken
      refine .inr ⟨_, run, ?_⟩
      have feed : ∀ ref, b.feed latents ref recQ = b.feed latents ref q := by
        intro ref
        cases present : b.qrows.present with
        | true => rw [← qp, DecoderBinding.zQp, if_pos present]
        | false =>
          have none : b.qrows.rows = [] := by
            by_contra some
            rw [bound.rows.present.mpr some] at present
            cases present
          simp only [DecoderBinding.feed, QRows.feed, none, List.map_nil]
      constructor
      · rfl
      · exact zIdx'.trans zIdx
      · exact ⟨latents, scales, _, taken, feed _⟩
      · intro r held
        have present := bound.rows.present.mpr (List.ne_nil_of_mem held)
        have covered := chosen.rows present
        rw [DecoderBinding.zQp, if_pos present] at qp
        rw [DecoderBinding.covers, List.all_eq_true] at covered
        have below := covered r held
        rw [qp] at below small ⊢
        simp only [Bool.not_eq_true', Bool.or_eq_false_iff, decide_eq_false_iff_not, Int.not_lt, Nat.not_le] at below
        have word : toU32 q = q.toNat := toU32_of_range nonneg (by omega)
        rw [word] at below
        rw [← qptabRow_of_lt (bound.rows.tables r held) below.2, ← word]
        refine List.mem_cons_of_mem _ (List.mem_cons_of_mem _ (List.mem_cons_of_mem _ (List.mem_cons_of_mem _ ?_)))
        exact List.mem_map.mpr ⟨r, held, rfl⟩
      · intro present
        have named := listed present
        obtain ⟨base, made⟩ := bound.made
        have at_ := (List.getElem?_eq_some_iff.mp named)
        obtain ⟨inside, value⟩ := at_
        have modelled : rung < b.rs.models.length := by
          rw [bound.rungs.models]
          exact inside
        refine ⟨base, b.rs.models[rung], named, List.getElem?_eq_getElem modelled, ?_⟩
        have := List.Forall₂.get made inside modelled
        simp only [List.get_eq_getElem] at this
        rwa [value] at this

/-! ## Every record -/

/-- The states of a bound node, from where `lazy_init` leaves it. -/
inductive Decoder.Reached (d : Decoder) (b : DecoderBinding) : DecoderCore → Prop
  | start (s : DecoderCore) : Reached d b (({ s with active := 0 } : DecoderCore).sized b)
  | record {s : DecoderCore} (sink : Nat → Status) (v : View) (reached : Reached d b s) :
    Reached d b (d.decodeRecord sink b s v).1

theorem sized_fit (bound : b.Bound d) (s : DecoderCore) : (({ s with active := 0 } : DecoderCore).sized b).Fit b := by
  constructor
  · exact List.length_pos_iff.mpr bound.rungs.nonempty
  · exact fun set => absurd rfl set

/-- The QP a record is decoded with. -/
theorem decodeFrame_spec (bound : b.Bound d) (fit : s.Fit b) (small : recQ < 2 ^ 31) :
    let out := d.decodeFrame sink b s payload recQ recFlags
    out.1.Fit b ∧ ((∃ e, out.2 = .error e ∧ e.status = .format ∧ out.1.runs = s.runs) ∨
      ∃ run q, (b.Fixed → b.rs.rungQp = [q]) ∧ (¬b.Fixed → q = recQ) ∧ out.1.runs = s.runs ++ [run] ∧
        RunWith d b s payload q run out.1) := by
  rw [Decoder.decodeFrame]
  cases select : b.selectRung s.active recQ with
  | error e => exact ⟨fit, .inl ⟨e, rfl, (selectRung_error select).1, rfl⟩⟩
  | ok rung =>
    have chosen := selectRung_ok bound fit select
    by_cases fixed : b.Fixed
    · obtain ⟨q, alone⟩ := List.length_eq_one_iff.mp fixed.2
      obtain ⟨qp, listed⟩ := chosen.zQp_fixed fixed alone
      obtain ⟨fit', out⟩ := runFrame_spec sink payload recFlags bound fit chosen small qp fun _ => listed
      refine ⟨fit', out.imp_right fun ⟨run, runs, made⟩ => ?_⟩
      exact ⟨run, q, fun _ => alone, fun several => absurd fixed several, runs, made⟩
    · obtain ⟨fit', out⟩ := runFrame_spec sink payload recFlags bound fit chosen small (chosen.zQp fixed)
        fun absent => chosen.qp absent fixed
      refine ⟨fit', out.imp_right fun ⟨run, runs, made⟩ => ?_⟩
      exact ⟨run, recQ, fun single => absurd single fixed, fun _ => rfl, runs, made⟩

section Small

/-- A decoder of one latent of each kind, which takes a row too if it is qp-dynamic. -/
def smallDecoderNpu (rows : Bool) : NpuModel where
  inputs :=
    [⟨nameOf "z_raw", [1, 1, 1, 1]⟩, ⟨nameOf "y_raw_0", [1, 1, 1, 1]⟩, ⟨nameOf "y_raw_1", [1, 1, 1, 1]⟩,
      ⟨nameOf "ref_feature", [1, 1, 1, 1]⟩] ++
      if rows then [⟨nameOf "q_a_row", [1, 1, 1, 1]⟩] else []
  outputs := [⟨nameOf "x_hat", [1, 3, 1, 1]⟩, ⟨nameOf "feature", [1, 1, 1, 1]⟩]
  accepts _ _ := .ok
  run _ := .ok
  output _ i := if i = 0 then [0, 0, 0] else [0x3c00]

/-- A decoder that is bound at QP 1. -/
def smallDecoder (rows : Bool) : Option (Decoder × DecoderBinding) :=
  match Decoder.bindModel (smallBackend (smallDecoderNpu rows)) (smallBundle "decoder" 64) with
  | .error _ => none
  | .ok d =>
    match d.bind 1 with
    | .error _ => none
    | .ok b => some (d, b)

theorem smallDecoder_spec {rows : Bool} (h : smallDecoder rows = some (d, b)) :
    Decoder.bindModel (smallBackend (smallDecoderNpu rows)) (smallBundle "decoder" 64) = .ok d ∧ d.bind 1 = .ok b := by
  simp only [smallDecoder] at h
  split at h
  · cases h
  · rename_i d' made
    split at h
    · cases h
    · rename_i b' bind
      cases h
      exact ⟨made, bind⟩

end Small

end Rkvc.Mlvc
