import Rkvc.Core.Determinism
import Rkvc.Mlvc.Bound
import Rkvc.Mlvc.Polls

/-!
# The nodes report failures as failures

`process` of either node returns `Ok` or an error, never one of the statuses that
`Executor::fail` ignores, as long as the NPU backend and the queue behind the node do
(`encoder_honest`, `decoder_honest`); and the decoder's loop ends on every stream.
-/

namespace Rkvc.Mlvc
set_option autoImplicit false
open Lib Pixel Executor

/-- What fails, fails with an error. -/
def FailsHard {α : Type} (r : Result α) : Prop := ∀ e, r = .error e → e.status.isHard = true

section Results

variable {α : Type}

theorem failsHard_ok (a : α) : FailsHard (.ok a : Result α) := nofun

theorem failsHard_reject {st : Status} {stage subject reason : String} (hard : st.isHard = true) :
    FailsHard (Result.reject st stage subject reason : Result α) := by
  rintro e ⟨⟩
  exact hard

theorem failsHard_error {e : Failure} (hard : e.status.isHard = true) : FailsHard (.error e : Result α) := by
  rintro e' ⟨⟩
  exact hard

theorem failsHard_bindFailure {loader : Diag} {subject reason : String} :
    FailsHard (bindFailure loader subject reason : Result α) := by
  rintro e ⟨⟩
  rfl

theorem failsHard_status {st : Status} (honest : okOrHard st) (failed : st ≠ .ok) {stage subject reason : String} :
    FailsHard (Result.reject st stage subject reason : Result α) :=
  failsHard_reject (honest.resolve_left failed)

theorem failsHard_emit {st : Status} (honest : okOrHard st) :
    FailsHard (if st = .ok then .ok () else .error { status := st } : Result Unit) := by
  split
  · exact failsHard_ok ()
  · rename_i failed
    exact failsHard_error (honest.resolve_left failed)

theorem failsHard_also {e : Failure} {stage subject reason : String} (hard : e.status.isHard = true) :
    FailsHard (also e stage subject reason : Result α) := by
  rintro e' ⟨⟩
  exact hard

/-- The status of a result that fails hard. -/
theorem FailsHard.status {r : Result α} (h : FailsHard r) : okOrHard r.status := by
  cases r with
  | ok a => exact .inl rfl
  | error e => exact .inr (h e rfl)

end Results

/-! ## The NPU -/

/-- The backend's calls return `Ok` or an error. -/
structure NpuModel.Honest (npu : NpuModel) : Prop where
  accepts : ∀ i x, okOrHard (npu.accepts i x)
  run : ∀ feed, okOrHard (npu.run feed)

theorem NpuModel.Honest.play {npu : NpuModel} (h : npu.Honest) (feed : Feed) : okOrHard (npu.play feed) := by
  unfold NpuModel.play
  split
  · exact h.accepts _ _
  · exact h.run _

/-- So do the calls that make its models. -/
def NpuModelFn.Honest (makeModel : NpuModelFn) : Prop :=
  ∀ init, makeModel.make = some init → ∀ base patch qp,
    FailsHard (init base patch qp) ∧ ∀ npu, init base patch qp = .ok npu → npu.Honest

/-! ## Binding -/

section Binding

variable {model : Model} {makeModel : NpuModelFn}

theorem initRung_honest (hmake : makeModel.Honest) (base : List UInt8) (qp : Int) :
    FailsHard (initRung model base makeModel qp) ∧
      ∀ npu, initRung model base makeModel qp = .ok npu → npu.Honest := by
  unfold initRung
  split
  · exact ⟨failsHard_reject rfl, fun _ h => absurd h Result.reject_ne_ok⟩
  · rename_i init made
    exact hmake init made _ _ _

theorem mapM_honest {β γ : Type} {f : β → Result γ} {P : γ → Prop}
    (h : ∀ x, FailsHard (f x) ∧ ∀ y, f x = .ok y → P y) (xs : List β) :
    FailsHard (xs.mapM f) ∧ ∀ ys, xs.mapM f = .ok ys → ∀ y ∈ ys, P y := by
  induction xs with
  | nil =>
    refine ⟨failsHard_ok [], ?_⟩
    rintro ys ⟨⟩
    nofun
  | cons x xs ih =>
    rw [List.mapM_cons]
    cases first : f x with
    | error e => exact ⟨failsHard_error ((h x).1 e first), nofun⟩
    | ok y =>
      cases others : xs.mapM f with
      | error e => exact ⟨failsHard_error (ih.1 e others), nofun⟩
      | ok ys =>
        refine ⟨failsHard_ok _, ?_⟩
        rintro zs ⟨⟩ z listed
        rcases List.mem_cons.mp listed with rfl | listed
        · exact (h x).2 _ first
        · exact ih.2 ys others z listed

theorem initRungs_honest (hmake : makeModel.Honest) (rungQp : List Int) :
    FailsHard (initRungs model rungQp makeModel) ∧
      ∀ rs, initRungs model rungQp makeModel = .ok rs → ∀ npu ∈ rs.models, npu.Honest := by
  unfold initRungs
  dsimp only
  split
  · exact ⟨failsHard_reject rfl, fun _ h => absurd h Result.reject_ne_ok⟩
  · rename_i base _
    split
    · exact ⟨failsHard_reject rfl, fun _ h => absurd h Result.reject_ne_ok⟩
    · obtain ⟨fails, models⟩ := mapM_honest (@initRung_honest model makeModel hmake base.data) rungQp
      split
      · rename_i e failed
        exact ⟨failsHard_error (fails e failed), nofun⟩
      · rename_i made
        refine ⟨failsHard_ok _, ?_⟩
        rintro rs ⟨⟩
        exact models _ made

theorem collectRungs_hard (qp : Int) : FailsHard (collectRungs model qp) := by
  unfold collectRungs
  dsimp only
  split
  · exact failsHard_ok _
  split
  · exact failsHard_ok _
  · exact failsHard_reject rfl

theorem bindRows_hard (tables : List QpTable) (infos : List (NpuTensorInfo × Nat)) (rows : List (Nat × QpTable)) :
    FailsHard (bindRows tables infos rows) := by
  induction infos generalizing rows with
  | nil => exact failsHard_ok rows
  | cons info infos ih =>
    unfold bindRows
    split
    · exact ih rows
    split
    · exact failsHard_reject rfl
    split
    · exact failsHard_reject rfl
    · exact ih _

theorem setupQrows_hard (npu : NpuModel) : FailsHard (setupQrows model npu) := by
  unfold setupQrows
  split
  · exact failsHard_ok _
  split
  · exact failsHard_reject rfl
  split
  · exact failsHard_bindFailure
  split
  · rename_i e failed
    exact failsHard_error (bindRows_hard _ _ _ e failed)
  · exact failsHard_ok _

theorem resolveShape_hard (xd : List UInt32) : FailsHard (resolveShape xd) := by
  unfold resolveShape
  dsimp only
  split
  · exact failsHard_ok _
  split
  · exact failsHard_reject rfl
  split
  · exact failsHard_reject rfl
  · exact failsHard_ok _

theorem resolveDecGeom_honest (npu : NpuModel) (rs : RungSet) (qrows : QRows) (entropy : EntropyConfig) :
    FailsHard (resolveDecGeom npu rs qrows entropy) ∧
      ∀ b, resolveDecGeom npu rs qrows entropy = .ok b → b.rs = rs := by
  unfold resolveDecGeom
  dsimp only
  split
  · split
    · exact ⟨failsHard_reject rfl, fun _ h => absurd h Result.reject_ne_ok⟩
    split
    · rename_i e failed
      exact ⟨failsHard_error (resolveShape_hard _ e failed), nofun⟩
    split
    · exact ⟨failsHard_reject rfl, fun _ h => absurd h Result.reject_ne_ok⟩
    · refine ⟨failsHard_ok _, ?_⟩
      rintro b ⟨⟩
      rfl
  · exact ⟨failsHard_reject rfl, fun _ h => absurd h Result.reject_ne_ok⟩

theorem resolveEntropyGeometry_hard (cfg : EntropyConfig) (qp : Int) (geom : Geometry) :
    FailsHard (resolveEntropyGeometry cfg qp geom) := by
  unfold resolveEntropyGeometry
  dsimp only
  split
  · exact failsHard_reject rfl
  split
  · exact failsHard_reject rfl
  split
  · exact failsHard_reject rfl
  · exact failsHard_ok _

end Binding

/-! ## Payloads -/

section Payloads

variable {g b : RansCoder} {cfg : EntropyConfig} {geom : Geometry} {zIdx : List Int32} {latents : Latents}
  {scales : Scales}

theorem extractFor_status (z : List Int32) : okOrHard (extractFor cfg geom z scales).1 := by
  simp only [extractFor, extractScales]
  split
  · exact .inr rfl
  split
  · exact .inr rfl
  · exact .inl rfl

theorem encodePayload_hard : FailsHard (encodePayload g b cfg geom zIdx latents scales) := by
  have scaled := @extractFor_status cfg geom scales latents.z
  unfold encodePayload
  generalize extractFor cfg geom latents.z scales = x at scaled ⊢
  obtain ⟨xs, scales'⟩ := x
  dsimp only at scaled ⊢
  split_ifs with failed
  · exact failsHard_status scaled failed
  all_goals first | exact failsHard_reject rfl | exact failsHard_ok _

theorem decodePayload_hard {payload : List UInt8} :
    FailsHard (decodePayload g b cfg geom zIdx latents scales payload) := by
  unfold decodePayload
  dsimp only
  split_ifs <;> first | exact failsHard_reject rfl | exact failsHard_ok _

end Payloads

/-! ## The encoder -/

section Encoder

variable {K : Type} [Field K] [LinearOrder K] [FloorRing K] {fns : LogExp K} {e : Encoder} {s : EncoderState K}

theorem retarget_hard (control : EncodeControl) : FailsHard (e.retarget s control) := by
  unfold Encoder.retarget
  dsimp only
  split
  · rename_i err failed
    refine failsHard_error ?_
    split at failed
    · split at failed
      · split at failed
        · rename_i err' refused
          cases failed
          unfold RateController.create at refused
          split at refused
          · cases refused
            rfl
          · cases refused
        · cases failed
      · cases failed
    · cases failed
  · exact failsHard_ok _

/-- The models of the rungs return `Ok` or an error. -/
def EncoderBinding.Honest (b : EncoderBinding) : Prop := ∀ npu ∈ b.rs.models, npu.Honest

theorem codeFrame_honest (honest : e.bound.Honest) (input : HostFrame) (kind : FrameKind) (usedQp : Int)
    {sink : Status} (free : okOrHard sink) : FailsHard (e.codeFrame fns s input kind usedQp sink).result := by
  unfold Encoder.codeFrame
  dsimp only
  split
  · exact failsHard_error rfl
  rename_i npu found
  split
  · rename_i failed
    exact failsHard_status ((honest npu (List.mem_of_getElem? found)).play _) failed
  split
  · exact failsHard_reject rfl
  split
  · rename_i err failed
    exact failsHard_error (encodePayload_hard err failed)
  · exact failsHard_emit free

/-- **The encoder reports its failures.** -/
theorem encoder_honest (honest : e.bound.Honest) (input : HostFrame) {sink : Status} (free : okOrHard sink) :
    FailsHard (e.process fns s input sink).result := by
  unfold Encoder.process
  dsimp only
  split
  · exact failsHard_reject rfl
  split
  · exact failsHard_reject rfl
  split
  · rename_i err failed
    exact failsHard_error (retarget_hard _ err failed)
  split
  · exact failsHard_emit free
  · exact codeFrame_honest honest _ _ _ free

theorem all_made {β γ : Type} {R : β → γ → Prop} {xs : List β} {ys : List γ} (h : List.Forall₂ R xs ys) {y : γ}
    (listed : y ∈ ys) : ∃ x, R x y := by
  induction h with
  | nil => cases listed
  | @cons x y' xs ys made _ ih =>
    rcases List.mem_cons.mp listed with rfl | listed
    · exact ⟨x, made⟩
    · exact ih listed

theorem bindModel_honest {quality : Quality} {makeModel : NpuModelFn} {model : Model} {b : EncoderBinding}
    (hmake : makeModel.Honest) (h : EncoderBinding.bindModel quality makeModel model = .ok b) : b.Honest := by
  obtain ⟨-, -, -, ⟨base, made⟩, -⟩ := bindModel_spec h
  intro npu listed
  obtain ⟨qp, from_⟩ := all_made made listed
  exact (initRung_honest hmake base qp).2 npu from_

end Encoder

/-! ## The decoder -/

section Decoder

variable {d : Decoder} {s : DecoderState}

/-- A decoder has bound no model that reports a failure as anything else. -/
def DecoderState.Honest (s : DecoderState) : Prop := ∀ b, s.bound = some b → ∀ npu ∈ b.rs.models, npu.Honest

theorem initModels_honest (hmake : d.makeModel.Honest) (qp : Int) :
    FailsHard (d.initModels qp) ∧ ∀ made, d.initModels qp = .ok made → ∀ npu ∈ made.2.1.models, npu.Honest := by
  unfold Decoder.initModels
  split
  · rename_i err failed
    exact ⟨failsHard_error (collectRungs_hard _ err failed), by simp⟩
  rename_i rungs _
  obtain ⟨fails, models⟩ := @initRungs_honest d.model d.makeModel hmake rungs
  split
  · rename_i err failed
    exact ⟨failsHard_error (fails err failed), by simp⟩
  rename_i rs made
  split
  · exact ⟨failsHard_error rfl, by simp⟩
  split
  · rename_i err failed
    exact ⟨failsHard_error (setupQrows_hard _ err failed), by simp⟩
  split
  · exact ⟨failsHard_reject rfl, fun _ h => absurd h Result.reject_ne_ok⟩
  · refine ⟨failsHard_ok _, ?_⟩
    rintro made' ⟨⟩
    exact models rs made

theorem initGeom_honest (qp : Int) (npu : NpuModel) (rs : RungSet) (qrows : QRows) :
    FailsHard (d.initGeom qp npu rs qrows) ∧ ∀ b, d.initGeom qp npu rs qrows = .ok b → b.rs = rs := by
  obtain ⟨fails, same⟩ := resolveDecGeom_honest npu rs qrows d.entropy
  unfold Decoder.initGeom
  split
  · rename_i err failed
    exact ⟨failsHard_error (fails err failed), by simp⟩
  rename_i b made
  split
  · rename_i err failed
    exact ⟨failsHard_error (resolveEntropyGeometry_hard _ _ _ err failed), by simp⟩
  · refine ⟨failsHard_ok _, ?_⟩
    rintro b' ⟨⟩
    exact same b made

theorem lazyInit_honest (hmake : d.makeModel.Honest) (honest : s.Honest) :
    (d.lazyInit s).1.Honest ∧ FailsHard (d.lazyInit s).2 ∧ (d.lazyInit s).1.demux = s.demux ∧
      ((d.lazyInit s).2.isOk = true → (d.lazyInit s).1.modelReady = true) := by
  obtain ⟨fails, models⟩ := @initModels_honest d hmake s.qp
  unfold Decoder.lazyInit
  split
  · rename_i err failed
    exact ⟨honest, failsHard_error (fails err failed), rfl, nofun⟩
  rename_i npu rs qrows made
  obtain ⟨fails', same⟩ := @initGeom_honest d s.qp npu rs qrows
  dsimp only
  split
  · rename_i err failed
    exact ⟨honest, failsHard_error (fails' err failed), rfl, fun _ => rfl⟩
  · rename_i b bound
    refine ⟨?_, failsHard_ok (), rfl, fun _ => rfl⟩
    rintro b' ⟨⟩
    rw [same b bound]
    exact models _ made

variable {sink : Nat → Status} {b : DecoderBinding} {t : DecoderCore}

theorem selectRung_hard (active : Nat) (recQ : Int) : FailsHard (b.selectRung active recQ) := by
  unfold DecoderBinding.selectRung
  dsimp only
  repeat' split
  all_goals first | exact failsHard_reject rfl | exact failsHard_ok _

theorem runFrame_honest (honest : ∀ npu ∈ b.rs.models, npu.Honest) (free : ∀ n, okOrHard (sink n))
    (payload : List UInt8) (recQ : Int) (recFlags : UInt32) :
    FailsHard (d.runFrame sink b t payload recQ recFlags).2 := by
  unfold Decoder.runFrame
  split
  · rename_i err failed
    exact failsHard_error (decodePayload_hard err failed)
  dsimp only
  split
  · exact failsHard_error rfl
  rename_i npu found
  split
  · rename_i failed
    exact failsHard_status ((honest npu (List.mem_of_getElem? found)).play _) failed
  split
  · exact failsHard_reject rfl
  split
  · exact failsHard_reject rfl
  · exact failsHard_emit (free _)

theorem decodeRecord_honest (honest : ∀ npu ∈ b.rs.models, npu.Honest) (free : ∀ n, okOrHard (sink n)) (v : View) :
    FailsHard (d.decodeRecord sink b t v).2 := by
  unfold Decoder.decodeRecord
  split
  · unfold Decoder.repeatFrame
    split
    · exact failsHard_emit (free _)
    · exact failsHard_ok ()
  · unfold Decoder.decodeFrame
    split
    · rename_i err failed
      exact failsHard_error (selectRung_hard _ _ err failed)
    · exact runFrame_honest honest free _ _ _

/-- A record that has been read leaves the buffer shorter. -/
theorem next_consume {demux demux' : Demuxer} {v : View} (h : demux.next = (.ok v, demux')) :
    demux'.consumeRecord.buf.length < demux.buf.length := by
  have record {d₁ : Demuxer} (h : d₁.nextRecord = (.ok v, demux')) :
      demux'.consumeRecord.buf.length < d₁.buf.length := by
    unfold Demuxer.nextRecord at h
    split at h
    · cases h
    · cases h
    · rename_i v' view
      cases h
      have bounds := readRecord_record view
      rw [Demuxer.consumeRecord]
      dsimp only
      rw [if_neg (by omega), List.length_drop]
      omega
  unfold Demuxer.next at h
  split at h
  · cases h
  split at h
  · exact record h
  split at h
  · split at h <;> cases h
  · refine (record h).trans_le ?_
    simp only [List.length_drop]
    omega

/-- **The decoder reports its failures**, and its loop ends: each round behind the first takes a record off the
buffer. -/
theorem processLoop_honest (hmake : d.makeModel.Honest) {fuel : Nat} (honest : s.Honest)
    (enough : s.demux.buf.length + (if s.modelReady then 0 else 1) < fuel) :
    ∃ s' r, d.processLoop sink fuel s = some (s', r) ∧ s'.Honest ∧ ((∀ n, okOrHard (sink n)) → FailsHard r) := by
  induction fuel generalizing s with
  | zero => exact absurd enough (Nat.not_lt_zero _)
  | succ fuel ih =>
    have room := next_buf s.demux
    cases polled : s.demux.next with
    | mk r demux =>
      rw [polled] at room
      dsimp only at room
      -- a decoder that is not ready binds its model, once
      have init (fresh : s.modelReady = false) {s₁ : DecoderState} {r₁ : Result Unit}
          (made : d.lazyInit { s with demux := demux, qp := demux.header.qp.toInt32.toInt } = (s₁, r₁)) :
          s₁.Honest ∧ FailsHard r₁ ∧
            (r₁.isOk = true → ∃ s' r', d.processLoop sink fuel s₁ = some (s', r') ∧ s'.Honest ∧
              ((∀ n, okOrHard (sink n)) → FailsHard r')) := by
        obtain ⟨honest₁, fails, same, ready⟩ :=
          @lazyInit_honest d { s with demux := demux, qp := demux.header.qp.toInt32.toInt } hmake honest
        rw [made] at honest₁ fails same ready
        refine ⟨honest₁, fails, fun fine => ih honest₁ ?_⟩
        dsimp only at same ready
        rw [fresh, if_neg Bool.false_ne_true] at enough
        rw [if_pos (ready fine), same]
        omega
      rw [Decoder.processLoop, polled]
      dsimp only
      cases r with
      | error e =>
        dsimp only
        split
        · rename_i header
          split
          · rename_i s₁ e₁ made
            obtain ⟨honest₁, fails, -⟩ := init (by simpa using header.2.1) made
            exact ⟨s₁, _, rfl, honest₁, fun _ => failsHard_also (fails e₁ rfl)⟩
          · rename_i s₁ made
            exact (init (by simpa using header.2.1) made).2.2 rfl
        split
        · exact ⟨_, _, rfl, honest, fun _ => failsHard_ok ()⟩
        · exact ⟨_, _, rfl, honest, fun _ => failsHard_reject rfl⟩
      | ok v =>
        dsimp only
        split
        · rename_i fresh
          split
          · rename_i s₁ e₁ made
            obtain ⟨honest₁, fails, -⟩ := init (by simpa using fresh) made
            exact ⟨s₁, _, rfl, honest₁, fun _ => failsHard_also (fails e₁ rfl)⟩
          · rename_i s₁ made
            exact (init (by simpa using fresh) made).2.2 rfl
        rename_i ready
        have ready : s.modelReady = true := by simpa using ready
        split
        · exact ⟨_, _, rfl, honest, fun _ => failsHard_error rfl⟩
        · rename_i b bound
          have decoded := fun free => @decodeRecord_honest d sink b s.core (honest b bound) free v
          generalize d.decodeRecord sink b s.core v = out at decoded ⊢
          obtain ⟨core, r₁⟩ := out
          cases r₁ with
          | error e => exact ⟨_, _, rfl, honest, fun free => failsHard_error (decoded free e rfl)⟩
          | ok _ =>
            refine ih honest ?_
            have shorter := next_consume polled
            dsimp only
            rw [ready, if_pos rfl] at enough ⊢
            omega

/-- A call of the decoder returns, and reports its failure as one. -/
theorem decoder_honest (hmake : d.makeModel.Honest) (honest : s.Honest) (input : HostFrame) :
    ∃ s' r, d.process sink s input = some (s', r) ∧ s'.Honest ∧ ((∀ n, okOrHard (sink n)) → FailsHard r) := by
  unfold Decoder.process
  split
  · exact ⟨s, _, rfl, honest, fun _ => failsHard_reject rfl⟩
  dsimp only
  split
  · exact ⟨_, _, rfl, honest, fun _ => failsHard_reject rfl⟩
  · refine processLoop_honest hmake honest ?_
    dsimp only
    split <;> omega

end Decoder

end Rkvc.Mlvc
