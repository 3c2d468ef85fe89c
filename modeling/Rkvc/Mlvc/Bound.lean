import Rkvc.Mlvc.Decoder

/-!
# What binding establishes

Both nodes check a bundle before they code with it: the rungs are distinct and have a
model each, the tables hold the rows they announce, the coders and the geometry fit.
-/

namespace Rkvc.Mlvc
set_option autoImplicit false
open Lib

/-- A model for each QP, and no QP twice. -/
structure RungSet.Sound (rs : RungSet) : Prop where
  distinct : rs.rungQp.Nodup
  nonempty : rs.rungQp ≠ []
  models : rs.models.length = rs.rungQp.length

/-- Rows of loaded tables, and then of one rung. -/
structure QRows.Sound (qrows : QRows) (rungQp : List Int) : Prop where
  present : qrows.present = true ↔ qrows.rows ≠ []
  tables : ∀ r ∈ qrows.rows, r.2.Valid
  single : qrows.present = true → rungQp.length = 1

structure EncoderBinding.Bound (b : EncoderBinding) : Prop where
  qp : 0 ≤ b.qp ∧ b.qp ≤ 63
  rungs : b.rs.Sound
  range : ∀ q ∈ b.rs.rungQp, 0 ≤ q ∧ q ≤ 63
  rows : b.qrows.Sound b.rs.rungQp
  coders : CodersReady b.gCoder b.bCoder b.entropy
  geom : GeometryReady b.entropy b.geom

structure DecoderBinding.Bound (d : Decoder) (b : DecoderBinding) : Prop where
  rungs : b.rs.Sound
  /-- Each model has been made for its QP. -/
  made : ∃ base, List.Forall₂ (fun qp npu => initRung d.model base d.makeModel qp = .ok npu) b.rs.rungQp b.rs.models
  nonneg : ∀ q ∈ b.rs.rungQp, 0 ≤ q
  rows : b.qrows.Sound b.rs.rungQp
  coders : CodersReady d.gCoder d.bCoder b.entropy
  geom : GeometryReady b.entropy b.geom

section

variable {model : Model} {makeModel : NpuModelFn} {npu : NpuModel} {rs : RungSet} {qrows : QRows} {rungQp : List Int}
  {qp : Int}

theorem initRungs_sound (collected : collectRungs model qp = .ok rungQp)
    (made : initRungs model rungQp makeModel = .ok rs) : rs.rungQp = rungQp ∧ rs.Sound := by
  obtain ⟨distinct, nonempty, -, -⟩ := collectRungs_spec collected
  obtain ⟨same, base, models⟩ := initRungs_spec made
  refine ⟨same, ?_⟩
  rw [← same] at distinct nonempty models
  constructor
  · exact distinct
  · exact nonempty
  · exact models.length_eq.symm

theorem setupQrows_sound (h : setupQrows model npu = .ok qrows)
    (allowed : ¬(qrows.present = true ∧ rs.rungQp.length ≠ 1)) : qrows.Sound rs.rungQp := by
  obtain ⟨present, tables⟩ := setupQrows_spec h
  constructor
  · exact present
  · exact tables
  · intro rows
    by_contra several
    exact allowed ⟨rows, several⟩

/-- Coders stay ready when the geometry is resolved. -/
theorem CodersReady.resolve {g b : RansCoder} {cfg cfg' : EntropyConfig} {geom : Geometry} (h : CodersReady g b cfg)
    (resolved : resolveEntropyGeometry cfg qp geom = .ok cfg') : CodersReady g b cfg' := by
  obtain ⟨-, scale, channels⟩ := resolveEntropyGeometry_ready resolved
  constructor
  · exact h.gaussian
  · exact h.bitest
  · rw [scale]
    exact h.scale
  · rw [channels]
    exact h.channels

theorem resolveEntropyGeometry_nonneg {cfg cfg' : EntropyConfig} {geom : Geometry}
    (h : resolveEntropyGeometry cfg qp geom = .ok cfg') : 0 ≤ qp := by
  by_contra negative
  rw [resolveEntropyGeometry, if_pos (.inl (Int.not_le.mp negative))] at h
  cases h

end

/-! ## The encoder -/

section Encoder

variable {b b' : EncoderBinding} {npu : NpuModel} {quality : Quality} {makeModel : NpuModelFn} {model : Model}

theorem resolveEncGeom_spec (h : resolveEncGeom npu b = .ok b') :
    b'.qp = b.qp ∧ b'.rs = b.rs ∧ b'.qrows = b.qrows ∧ b'.gCoder = b.gCoder ∧ b'.bCoder = b.bCoder ∧
      resolveEntropyGeometry b.entropy b.qp b'.geom = .ok b'.entropy ∧ b'.imgW ≠ 0 ∧ b'.imgH ≠ 0 := by
  simp only [resolveEncGeom] at h
  split at h
  · split at h
    · cases h
    · split at h
      · cases h
      · rename_i extents
        split at h
        · cases h
        · rename_i entropy resolved
          cases h
          simp only [not_or] at extents
          exact ⟨rfl, rfl, rfl, rfl, rfl, resolved, extents.1, extents.2.1⟩
  · cases h

/-- The coders of a bound encoder are those of its bundle. -/
structure EncoderBinding.Codes (b : EncoderBinding) (model : Model) : Prop where
  taken : ∃ entropy, initRansCoders model {} = .ok (b.gCoder, b.bCoder, entropy) ∧
    resolveEntropyGeometry entropy b.qp b.geom = .ok b.entropy

/-- Each model of a bound encoder has been made for its QP. -/
def EncoderBinding.Made (b : EncoderBinding) (makeModel : NpuModelFn) (model : Model) : Prop :=
  ∃ base, List.Forall₂ (fun qp npu => initRung model base makeModel qp = .ok npu) b.rs.rungQp b.rs.models

theorem bindModel_spec (h : EncoderBinding.bindModel quality makeModel model = .ok b) :
    b.Bound ∧ b.Codes model ∧ collectRungs model b.qp = .ok b.rs.rungQp ∧ b.Made makeModel model ∧
      b.imgW ≠ 0 ∧ b.imgH ≠ 0 := by
  simp only [EncoderBinding.bindModel] at h
  generalize session : (if quality.qp ≥ 0 then quality.qp else kDefaultQp) = qp at h
  have lower : 0 ≤ qp := by
    rw [← session]
    split
    · assumption
    · decide
  split at h
  · cases h
  · split at h
    · cases h
    · rename_i upper
      split at h
      · cases h
      · rename_i g c entropy coders
        split at h
        · cases h
        · rename_i rungs collected
          split at h
          · cases h
          · rename_i rs made
            split at h
            · cases h
            · rename_i npu active
              split at h
              · cases h
              · rename_i qrows rows
                split at h
                · cases h
                · rename_i allowed
                  obtain ⟨sameQp, sameRs, sameRows, sameG, sameB, resolved, extents⟩ := resolveEncGeom_spec h
                  dsimp only at sameQp sameRs sameRows sameG sameB resolved
                  obtain ⟨same, sound⟩ := initRungs_sound collected made
                  obtain ⟨-, -, -, range⟩ := collectRungs_spec collected
                  have ready := (initRansCoders_ready coders).resolve resolved
                  refine ⟨?_, ⟨entropy, ?_, ?_⟩, ?_, ?_, extents⟩
                  · constructor
                    · rw [sameQp]
                      exact ⟨lower, Int.not_lt.mp upper⟩
                    · rw [sameRs]
                      exact sound
                    · rw [sameRs, same]
                      rcases range with range | alone
                      · exact range
                      · rw [alone]
                        intro q listed
                        rw [List.mem_singleton.mp listed]
                        exact ⟨lower, Int.not_lt.mp upper⟩
                    · rw [sameRows, sameRs]
                      exact setupQrows_sound rows allowed
                    · rw [sameG, sameB]
                      exact ready
                    · exact (resolveEntropyGeometry_ready resolved).1
                  · rw [sameG, sameB]
                    exact coders
                  · rw [sameQp]
                    exact resolved
                  · rw [sameQp, sameRs, same]
                    exact collected
                  · rw [EncoderBinding.Made, sameRs, same]
                    exact (initRungs_spec made).2

end Encoder

/-! ## The decoder -/

section Decoder

variable {d : Decoder} {b : DecoderBinding} {npu : NpuModel} {rs : RungSet} {qrows : QRows} {qp : Int}
  {makeModel : NpuModelFn} {model : Model}

/-- `lazy_init` as a whole. -/
def Decoder.bind (d : Decoder) (qp : Int) : Result DecoderBinding :=
  match d.initModels qp with
  | .error e => .error e
  | .ok (npu, rs, qrows) => d.initGeom qp npu rs qrows

theorem lazyInit_eq (s : DecoderState) (h : d.bind s.qp = .ok b) :
    d.lazyInit s =
      ({ s with
          core := ({ s.core with active := 0 } : DecoderCore).sized b
          modelReady := true
          bound := some b }, .ok ()) := by
  rw [Decoder.bind] at h
  rw [Decoder.lazyInit]
  cases models : d.initModels s.qp with
  | error e =>
    rw [models] at h
    cases h
  | ok made =>
    obtain ⟨npu, rs, qrows⟩ := made
    rw [models] at h
    have geom : d.initGeom s.qp npu rs qrows = .ok b := h
    simp only [geom]

theorem resolveDecGeom_spec {entropy : EntropyConfig} (h : resolveDecGeom npu rs qrows entropy = .ok b) :
    b.rs = rs ∧ b.qrows = qrows ∧ b.imgW ≠ 0 ∧ b.imgH ≠ 0 := by
  simp only [resolveDecGeom] at h
  split at h
  · split at h
    · cases h
    · split at h
      · cases h
      · split at h
        · cases h
        · rename_i extents
          cases h
          simp only [not_or] at extents
          exact ⟨rfl, rfl, extents.1, extents.2.1⟩
  · cases h

theorem initGeom_spec (h : d.initGeom qp npu rs qrows = .ok b) :
    b.rs = rs ∧ b.qrows = qrows ∧ resolveEntropyGeometry d.entropy qp b.geom = .ok b.entropy ∧ b.imgW ≠ 0 ∧
      b.imgH ≠ 0 := by
  simp only [Decoder.initGeom] at h
  split at h
  · cases h
  · rename_i b' geom
    split at h
    · cases h
    · rename_i entropy resolved
      cases h
      obtain ⟨sameRs, sameRows, extents⟩ := resolveDecGeom_spec geom
      exact ⟨sameRs, sameRows, resolved, extents⟩

theorem decoder_coders (h : Decoder.bindModel makeModel model = .ok d) :
    initRansCoders model {} = .ok (d.gCoder, d.bCoder, d.entropy) ∧ d.model = model ∧ d.makeModel = makeModel := by
  simp only [Decoder.bindModel] at h
  split at h
  · cases h
  · split at h
    · cases h
    · rename_i g c entropy coders
      cases h
      exact ⟨coders, rfl, rfl⟩

theorem bind_spec (bound : Decoder.bindModel makeModel model = .ok d) (h : d.bind qp = .ok b) :
    b.Bound d ∧ collectRungs model qp = .ok b.rs.rungQp ∧
      resolveEntropyGeometry d.entropy qp b.geom = .ok b.entropy ∧ b.imgW ≠ 0 ∧ b.imgH ≠ 0 := by
  obtain ⟨coders, rfl, rfl⟩ := decoder_coders bound
  simp only [Decoder.bind] at h
  split at h
  · cases h
  · rename_i npu rs qrows models
    obtain ⟨sameRs, sameRows, resolved, extents⟩ := initGeom_spec h
    simp only [Decoder.initModels] at models
    split at models
    · cases models
    · rename_i rungs collected
      split at models
      · cases models
      · rename_i rs' made
        split at models
        · cases models
        · split at models
          · cases models
          · rename_i rows
            split at models
            · cases models
            · rename_i allowed
              cases models
              obtain ⟨same, sound⟩ := initRungs_sound collected made
              obtain ⟨-, -, -, range⟩ := collectRungs_spec collected
              refine ⟨?_, by rw [sameRs, same]; exact collected, resolved, extents⟩
              constructor
              · rw [sameRs]
                exact sound
              · rw [sameRs, same]
                exact (initRungs_spec made).2
              · rw [sameRs, same]
                rcases range with range | alone
                · exact fun q listed => (range q listed).1
                · rw [alone]
                  intro q listed
                  rw [List.mem_singleton.mp listed]
                  exact resolveEntropyGeometry_nonneg resolved
              · rw [sameRs, sameRows]
                exact setupQrows_sound rows allowed
              · exact (initRansCoders_ready coders).resolve resolved
              · exact (resolveEntropyGeometry_ready resolved).1

end Decoder

end Rkvc.Mlvc
