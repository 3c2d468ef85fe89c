import Rkvc.Core.Registry
import Rkvc.Lib.Keyed

/-!
# The model store

`Context::add_model`, and `rkvc_context_add_model_dir`, which adds the models of a
directory one by one and stops at the first that is refused.
-/

namespace Rkvc
set_option autoImplicit false

open Lib

variable {σ : Type}

namespace Context

/-- **`Context::add_model`** -/
def addModel (ctx : Context σ) (m : Model) : Context σ × Status :=
  if m.id = "" then (ctx, .invalid)
  else if (ctx.findModel m.id).isSome then (ctx, .invalid)
  else ({ ctx with models := ctx.models ++ [m] }, .ok)

/-- The loop of `rkvc_context_add_model_dir`. -/
def addModels (ctx : Context σ) : List Model → Context σ × Status
  | [] => (ctx, .ok)
  | m :: rest =>
    match ctx.addModel m with
    | (ctx, .ok) => ctx.addModels rest
    | (ctx, st) => (ctx, st)

/-- **`rkvc_context_add_model_dir`** on a context; `load` is `load_model_dir`. -/
def addModelDir (load : String → Result (List Model)) (ctx : Context σ) (dir : Option String) :
    Context σ × Result Unit :=
  match dir with
  | none => (ctx, .error ⟨.invalid, []⟩)
  | some dir =>
    if dir = "" then (ctx, .error ⟨.invalid, []⟩)
    else match load dir with
      | .error e => (ctx, .error e)
      | .ok models =>
        match ctx.addModels models with
        | (ctx, .ok) => (ctx, .ok ())
        | (ctx, st) => (ctx, Result.reject st "load" "model" "register failed")

/-- A model that the store takes. -/
def Addable (store : List Model) (m : Model) : Prop := m.id ≠ "" ∧ Keyed.lookup Model.id m.id store = none

instance (store : List Model) (m : Model) : Decidable (Addable store m) := inferInstanceAs (Decidable (_ ∧ _))

/-- Models that the store takes one after the other. -/
structure AllAddable (store models : List Model) : Prop where
  named : ∀ m ∈ models, m.id ≠ ""
  fresh : Keyed.Fresh Model.id store models
  distinct : Keyed.Distinct Model.id models

theorem addModel_ok {ctx : Context σ} {m : Model} (addable : Addable ctx.models m) :
    ctx.addModel m = ({ ctx with models := ctx.models ++ [m] }, .ok) := by
  have new : ctx.findModel m.id = none := addable.2
  unfold addModel
  rw [if_neg addable.1, new]
  rfl

theorem addModel_refused {ctx : Context σ} {m : Model} (unfit : ¬Addable ctx.models m) :
    ctx.addModel m = (ctx, .invalid) := by
  unfold addModel
  by_cases named : m.id = ""
  · rw [if_pos named]
  · have known : (ctx.findModel m.id).isSome := by
      rw [← Option.ne_none_iff_isSome]
      exact fun new => unfit ⟨named, new⟩
    rw [if_neg named, if_pos known]

/-- The first model, then the others after it. -/
theorem allAddable_cons {store models : List Model} {m : Model} :
    AllAddable store (m :: models) ↔ Addable store m ∧ AllAddable (store ++ [m]) models := by
  constructor
  · rintro ⟨named, fresh, distinct⟩
    have apart := List.nodup_cons.mp distinct
    refine ⟨⟨named m List.mem_cons_self, fresh m List.mem_cons_self⟩, ?_, ?_, apart.2⟩
    · exact fun n hn => named n (List.mem_cons_of_mem m hn)
    · intro n hn
      have other : m.id ≠ n.id := fun same => apart.1 (same ▸ List.mem_map_of_mem hn)
      have single : Keyed.lookup Model.id n.id [m] = none := by simp [Keyed.lookup, other]
      rw [Keyed.lookup_append, fresh n (List.mem_cons_of_mem m hn), single]
      rfl
  · rintro ⟨first, rest⟩
    have later : ∀ n ∈ models, Keyed.lookup Model.id n.id store = none ∧ m.id ≠ n.id := by
      intro n hn
      have new := rest.fresh n hn
      rw [Keyed.lookup_append, Option.or_eq_none_iff] at new
      exact ⟨new.1, Keyed.lookup_none.mp new.2 m (List.mem_singleton_self m)⟩
    constructor
    · exact List.forall_mem_cons.mpr ⟨first.1, rest.named⟩
    · exact List.forall_mem_cons.mpr ⟨first.2, fun n hn => (later n hn).1⟩
    · apply List.nodup_cons.mpr
      refine ⟨?_, rest.distinct⟩
      intro known
      obtain ⟨n, hn, same⟩ := List.mem_map.mp known
      exact (later n hn).2 same.symm

/-- The loop ends with `Ok` when every model in turn is taken, and then all of them are there. -/
theorem addModels_ok {models : List Model} : ∀ {ctx : Context σ}, AllAddable ctx.models models →
    ctx.addModels models = ({ ctx with models := ctx.models ++ models }, .ok) := by
  induction models with
  | nil =>
    intro ctx _
    unfold addModels
    rw [List.append_nil]
  | cons m models ih =>
    intro ctx addable
    obtain ⟨first, rest⟩ := allAddable_cons.mp addable
    unfold addModels
    rw [addModel_ok first]
    dsimp only
    rw [ih rest, List.append_assoc]
    rfl

theorem addModels_refused {models : List Model} : ∀ {ctx : Context σ}, ¬AllAddable ctx.models models →
    (ctx.addModels models).2 = .invalid := by
  induction models with
  | nil =>
    intro ctx unfit
    exact absurd ⟨nofun, nofun, List.nodup_nil⟩ unfit
  | cons m models ih =>
    intro ctx unfit
    unfold addModels
    by_cases first : Addable ctx.models m
    · rw [addModel_ok first]
      exact ih fun rest => unfit (allAddable_cons.mpr ⟨first, rest⟩)
    · rw [addModel_refused first]

/-- Nothing is ever taken out. -/
theorem mem_addModels {models : List Model} {n : Model} :
    ∀ {ctx : Context σ}, n ∈ ctx.models → n ∈ (ctx.addModels models).1.models := by
  induction models with
  | nil => exact id
  | cons m models ih =>
    intro ctx hn
    unfold addModels
    by_cases first : Addable ctx.models m
    · rw [addModel_ok first]
      exact ih (List.mem_append_left _ hn)
    · rw [addModel_refused first]
      exact hn

/-- The same models, found and listed first as before. -/
structure SameModels (before after : Context σ) : Prop where
  models : ∀ m, m ∈ after.models ↔ m ∈ before.models
  first : after.firstModel = before.firstModel
  find : ∀ id, after.findModel id = before.findModel id

/-- `Ok` with every model of the directory in the store, or an error with the store as it was. -/
structure Atomic (load : String → Result (List Model)) (ctx : Context σ) (dir : Option String) : Prop where
  registered : (ctx.addModelDir load dir).2 = .ok () → ∀ d models, dir = some d → load d = .ok models →
    ∀ m ∈ models, m ∈ (ctx.addModelDir load dir).1.models ∧ (ctx.addModelDir load dir).1.findModel m.id = some m
  unchanged : (ctx.addModelDir load dir).2 ≠ .ok () → SameModels ctx (ctx.addModelDir load dir).1

theorem addModelDir_load {load : String → Result (List Model)} {dir : String} {models : List Model}
    (named : dir ≠ "") (loaded : load dir = .ok models) (ctx : Context σ) :
    ctx.addModelDir load (some dir) =
      match ctx.addModels models with
      | (ctx, .ok) => (ctx, .ok ())
      | (ctx, st) => (ctx, Result.reject st "load" "model" "register failed") := by
  unfold addModelDir
  dsimp only
  rw [if_neg named, loaded]

/-- Without models from a directory nothing happens. -/
theorem addModelDir_none {load : String → Result (List Model)} {dir : Option String}
    (nothing : ∀ d models, dir = some d → d ≠ "" → load d ≠ .ok models) (ctx : Context σ) :
    ∃ e, ctx.addModelDir load dir = (ctx, .error e) := by
  unfold addModelDir
  cases dir with
  | none => exact ⟨_, rfl⟩
  | some d =>
    dsimp only
    by_cases named : d = ""
    · rw [if_pos named]
      exact ⟨_, rfl⟩
    · rw [if_neg named]
      cases loaded : load d with
      | error e => exact ⟨e, rfl⟩
      | ok models => exact absurd loaded (nothing d models rfl named)

/-- A call that returns an error after it has taken a first model. -/
theorem addModels_half {ctx : Context σ} {m : Model} {rest : List Model} (first : Addable ctx.models m)
    (unfit : ¬AllAddable ctx.models (m :: rest)) :
    (ctx.addModels (m :: rest)).2 = .invalid ∧ m ∈ (ctx.addModels (m :: rest)).1.models ∧ m ∉ ctx.models := by
  refine ⟨addModels_refused unfit, ?_, ?_⟩
  · unfold addModels
    rw [addModel_ok first]
    exact mem_addModels (List.mem_append_right _ (List.mem_singleton_self m))
  · intro known
    exact Keyed.lookup_none.mp first.2 m known rfl

/-- **When adding a directory is atomic**: every model is taken in turn, or the first one is refused. -/
theorem addModelDir_atomic_iff (load : String → Result (List Model)) (ctx : Context σ) (dir : Option String) :
    Atomic load ctx dir ↔ ∀ d models, dir = some d → d ≠ "" → load d = .ok models →
      AllAddable ctx.models models ∨ ∀ m ∈ models.head?, ¬Addable ctx.models m := by
  constructor
  · rintro atomic d models rfl named loaded
    by_cases all : AllAddable ctx.models models
    · exact Or.inl all
    · right
      intro m head first
      cases models with
      | nil => cases head
      | cons m' rest =>
        obtain rfl : m' = m := Option.some.inj head
        obtain ⟨failed, inside, outside⟩ := addModels_half first all
        have result := addModelDir_load named loaded ctx
        cases ran : ctx.addModels (m' :: rest) with
        | mk after st =>
          rw [ran] at failed inside result
          obtain rfl : st = .invalid := failed
          have same := atomic.unchanged (by rw [result]; exact Result.reject_ne_ok)
          rw [result] at same
          exact outside ((same.models m').mp inside)
  · intro condition
    by_cases some : ∃ d models, dir = some d ∧ d ≠ "" ∧ load d = .ok models
    · obtain ⟨d, models, rfl, named, loaded⟩ := some
      have result := addModelDir_load named loaded ctx
      by_cases all : AllAddable ctx.models models
      · rw [addModels_ok all] at result
        constructor
        · rintro - d' models' same loaded' m hm
          cases same
          obtain rfl : models = models' := Except.ok.inj (loaded.symm.trans loaded')
          rw [result]
          constructor
          · exact List.mem_append_right _ hm
          · change Keyed.lookup Model.id m.id (ctx.models ++ models) = some m
            rw [Keyed.lookup_append, all.fresh m hm, all.distinct.lookup hm]
            rfl
        · intro failed
          rw [result] at failed
          exact absurd rfl failed
      · have refused := (condition d models rfl named loaded).resolve_left all
        cases models with
        | nil => exact absurd ⟨nofun, nofun, List.nodup_nil⟩ all
        | cons m rest =>
          have first := refused m rfl
          have stays : ctx.addModels (m :: rest) = (ctx, .invalid) := by
            unfold addModels
            rw [addModel_refused first]
          rw [stays] at result
          constructor
          · intro loaded
            rw [result] at loaded
            exact absurd loaded Result.reject_ne_ok
          · intro _
            rw [result]
            exact ⟨fun _ => Iff.rfl, rfl, fun _ => rfl⟩
    · obtain ⟨e, result⟩ := addModelDir_none (fun d models same named loaded =>
        some ⟨d, models, same, named, loaded⟩) ctx
      constructor
      · intro loaded
        rw [result] at loaded
        cases loaded
      · intro _
        rw [result]
        exact ⟨fun _ => Iff.rfl, rfl, fun _ => rfl⟩

/-- A bundle of two models, of which the store has the second. -/
def sharedBundle : List Model :=
  [{ id := "2x", role := "upscale", payloads := [] }, { id := "4x", role := "upscale", payloads := [] }]

def storeOf (models : List Model) : Context Unit := { models }

/-- **A failed call that leaves a model behind**, for a session to bind to. -/
theorem addModelDir_leaves :
    let before := storeOf [{ id := "4x", role := "upscale", payloads := [] }]
    let after := before.addModelDir (fun _ => .ok sharedBundle) (some "models")
    after.2 = Result.reject .invalid "load" "model" "register failed" ∧
      before.findModel "2x" = none ∧ after.1.findModel "2x" = sharedBundle.head? := by
  exact ⟨rfl, rfl, rfl⟩

end Context

end Rkvc
