import Rkvc.Core.Plugins
import Mathlib.Data.List.Sort

/-!
# Discovery of plugins

`discover_dir` loads the plugins of a directory as `readdir` names them, and a
plugin that shares an id with an earlier one is turned away. Which of the two
stays is a matter of the order.
-/

namespace Rkvc
set_option autoImplicit false

open Lib

variable {σ : Type}

/-! ## Distinct ids -/

namespace Registry

/-- No two factories have one id. -/
def Distinct (reg : Registry σ) : Prop := Keyed.Distinct Factory.id reg.all

/-- The registries that `add`, `add_borrowed` and `load_plugin` lead to. -/
inductive Built (fingerprint : String) : Registry σ → Prop where
  | empty : Built fingerprint {}
  | add {reg : Registry σ} (f : Option (Factory σ)) (built : Built fingerprint reg) :
      Built fingerprint (reg.add f).1
  | addBorrowed {reg : Registry σ} (f : Option (Factory σ)) (built : Built fingerprint reg) :
      Built fingerprint (reg.addBorrowed f).1
  | loadPlugin {reg : Registry σ} (path : String) (image : PluginImage σ) (built : Built fingerprint reg) :
      Built fingerprint (reg.loadPlugin fingerprint path image).1

theorem add_perm (reg : Registry σ) (f : Factory σ) :
    (reg.add (some f)).1.all.Perm (Keyed.join Factory.id reg.all f) := by
  unfold add Keyed.join
  dsimp only
  rw [find_eq]
  by_cases known : (Keyed.lookup Factory.id f.id reg.all).isSome
  · rw [if_pos known, if_pos known]
  · rw [if_neg known, if_neg known]
    unfold all
    dsimp only
    rw [List.append_assoc, List.append_assoc]
    exact List.Perm.append_left _ List.perm_append_comm

theorem Built.distinct {fingerprint : String} {reg : Registry σ} (built : Built fingerprint reg) :
    reg.Distinct := by
  induction built with
  | empty => exact List.nodup_nil
  | @add reg f _ ih =>
    cases f with
    | none => exact ih
    | some f => exact ((add_perm reg f).map Factory.id).nodup_iff.mpr (ih.join f)
  | @addBorrowed reg f _ ih =>
    cases f with
    | none => exact ih
    | some f =>
      by_cases named : f.id = ""
      · unfold Registry.addBorrowed
        dsimp only
        rw [if_pos named]
        exact ih
      · unfold Distinct
        rw [addBorrowed_all reg named]
        exact ih.join f
  | @loadPlugin reg path image _ ih =>
    rcases loadPlugin_cases fingerprint reg path image with ⟨table, -, -, -, registered⟩ | ⟨-, e, refused⟩
    · unfold Distinct
      rw [registered]
      exact ih.joinAll
    · rw [refused]
      exact ih

end Registry

/-! ## Ranking -/

theorem Factory.ahead_iff {r : Request} {caps : DeviceCaps} {a b : Factory σ} :
    ahead r caps a b = true ↔ b.priority + b.score r caps < a.priority + a.score r caps ∨
      a.priority + a.score r caps = b.priority + b.score r caps ∧ ¬b.id < a.id := by
  unfold Factory.ahead
  dsimp only
  generalize a.priority + a.score r caps = sa
  generalize b.priority + b.score r caps = sb
  by_cases same : sa = sb
  · rw [if_neg (not_not.mpr same), Bool.not_eq_true', decide_eq_false_iff_not]
    constructor
    · exact fun behind => .inr ⟨same, behind⟩
    · rintro (less | ⟨-, behind⟩)
      · omega
      · exact behind
  · rw [if_pos same, decide_eq_true_iff]
    constructor
    · exact fun more => .inl more
    · rintro (less | ⟨equal, -⟩)
      · exact less
      · exact absurd equal same

/-- The order of `candidates` is total. -/
theorem Factory.ahead_total (r : Request) (caps : DeviceCaps) (a b : Factory σ) :
    (ahead r caps a b || ahead r caps b a) = true := by
  rw [Bool.or_eq_true, ahead_iff, ahead_iff]
  rcases Int.lt_trichotomy (a.priority + a.score r caps) (b.priority + b.score r caps) with less | same | more
  · exact .inr (.inl less)
  · rcases String.le_total a.id b.id with first | second
    · exact .inl (.inr ⟨same, first⟩)
    · exact .inr (.inr ⟨same.symm, second⟩)
  · exact .inl (.inl more)

theorem Factory.ahead_trans (r : Request) (caps : DeviceCaps) (a b c : Factory σ)
    (first : ahead r caps a b = true) (second : ahead r caps b c = true) : ahead r caps a c = true := by
  rw [ahead_iff] at *
  rcases first with more | ⟨same, first⟩
  · left
    omega
  · rcases second with more' | ⟨same', second⟩
    · left
      omega
    · exact .inr ⟨same.trans same', String.le_trans first second⟩

/-- Two factories that rank alike have one id. -/
theorem Factory.ahead_antisymm {r : Request} {caps : DeviceCaps} {a b : Factory σ}
    (first : ahead r caps a b = true) (second : ahead r caps b a = true) : a.id = b.id := by
  rw [ahead_iff] at *
  rcases first with more | ⟨same, first⟩
  · omega
  · rcases second with more' | ⟨same', second⟩
    · omega
    · exact String.le_antisymm first second

/-- **The same factories rank the same**, in whatever order they were registered. -/
theorem Registry.candidates_congr {reg reg' : Registry σ} (distinct : reg.Distinct) (distinct' : reg'.Distinct)
    (same : ∀ f, f ∈ reg.all ↔ f ∈ reg'.all) (stage : NodeStage) (r : Request) (caps : DeviceCaps) :
    reg.candidates stage r caps = reg'.candidates stage r caps := by
  have perm : reg.all.Perm reg'.all := distinct.perm distinct' same
  unfold candidates
  have filtered := perm.filter fun f => f.stage = stage && f.matches r caps
  have sorted : ∀ l : List (Factory σ), (l.mergeSort (Factory.ahead r caps)).Pairwise
      fun a b => Factory.ahead r caps a b = true := fun l =>
    List.pairwise_mergeSort (Factory.ahead_trans r caps) (Factory.ahead_total r caps) l
  apply List.Perm.eq_of_pairwise _ (sorted _) (sorted _)
  · exact (List.mergeSort_perm _ _).trans (filtered.trans (List.mergeSort_perm _ _).symm)
  · intro a b ha hb first second
    have inside : ∀ (reg : Registry σ) f, f ∈ ((reg.all).filter fun f => f.stage = stage && f.matches r caps).mergeSort
        (Factory.ahead r caps) → f ∈ reg.all := fun reg f hf =>
      (List.mem_filter.mp ((List.mergeSort_perm _ _).subset hf)).1
    exact distinct.eq (inside reg a ha) ((same b).mpr (inside reg' b hb)) (Factory.ahead_antisymm first second)

/-- `plan` looks at the registry through its candidates. -/
theorem Context.plan_congr {ctx ctx' : Context σ} (caps : ctx.caps = ctx'.caps)
    (same : ctx.registry.candidates = ctx'.registry.candidates) (req : Request) : ctx.plan req = ctx'.plan req := by
  have endpoints : ctx.endpointStep = ctx'.endpointStep := by
    funext req ep source
    unfold endpointStep
    rw [caps, same]
  have stages : ctx.stageStep = ctx'.stageStep := by
    funext req stage
    unfold stageStep
    rw [caps, same]
  unfold plan
  rw [endpoints, stages]

/-! ## A directory -/

/-- The names that `discover_dir` tries. -/
def isPluginFile (name : String) : Bool :=
  4 ≤ name.utf8ByteSize && ".so".toList.isSuffixOf name.toList

/-- **`discover_dir`**, over the names in the order of `readdir`; `images` tells what a path opens.
What `load_plugin` returns is not looked at. -/
def discoverDir (fingerprint : String) (images : String → PluginImage σ) (dir : String) (names : List String)
    (ctx : Context σ) : Context σ :=
  if dir = "" then ctx
  else names.foldl (fun ctx name =>
    if isPluginFile name then
      let path := dir ++ "/" ++ name
      { ctx with registry := (ctx.registry.loadPlugin fingerprint path (images path)).1 }
    else ctx) ctx

/-- The table of a file of the directory, if it passes the checks. -/
def offeredBy (fingerprint : String) (images : String → PluginImage σ) (dir name : String) :
    Option (List (Factory σ)) :=
  if dir ≠ "" ∧ isPluginFile name then
    (images (dir ++ "/" ++ name)).offered fingerprint (dir ++ "/" ++ name)
  else none

theorem Registry.loadPlugin_all (fingerprint : String) (reg : Registry σ) (path : String) (image : PluginImage σ) :
    (reg.loadPlugin fingerprint path image).1.all =
      Keyed.absorbAll Factory.id reg.all (image.offered fingerprint path).toList := by
  rcases reg.loadPlugin_cases fingerprint path image with ⟨table, offers, fresh, -, registered⟩ | ⟨unfit, e, refused⟩
  · rw [registered, offers]
    exact (Keyed.absorb_fresh fresh).symm
  · rw [refused]
    cases offers : image.offered fingerprint path with
    | none => rfl
    | some table => exact (Keyed.absorb_known (unfit table offers)).symm

/-- A directory brings in the tables of its files, one after the other. -/
theorem discoverDir_all (fingerprint : String) (images : String → PluginImage σ) (dir : String)
    (names : List String) (ctx : Context σ) :
    (discoverDir fingerprint images dir names ctx).registry.all =
      Keyed.absorbAll Factory.id ctx.registry.all (names.filterMap (offeredBy fingerprint images dir)) := by
  unfold discoverDir
  by_cases empty : dir = ""
  · rw [if_pos empty]
    have none : names.filterMap (offeredBy fingerprint images dir) = [] := by
      apply List.filterMap_eq_nil_iff.mpr
      intro name _
      simp [offeredBy, empty]
    rw [none]
    rfl
  · rw [if_neg empty]
    induction names generalizing ctx with
    | nil => rfl
    | cons name names ih =>
      rw [List.foldl_cons, ih]
      have split : (name :: names).filterMap (offeredBy fingerprint images dir) =
          (offeredBy fingerprint images dir name).toList ++ names.filterMap (offeredBy fingerprint images dir) := by
        cases h : offeredBy fingerprint images dir name <;> simp [h]
      rw [split, Keyed.absorbAll_append]
      by_cases file : isPluginFile name = true
      · rw [if_pos file]
        unfold offeredBy
        rw [if_pos ⟨empty, file⟩, ← Registry.loadPlugin_all]
      · rw [if_neg file]
        unfold offeredBy
        rw [if_neg (fun both => file both.2)]
        rfl

/-- A directory changes nothing but the registry. -/
theorem discoverDir_caps (fingerprint : String) (images : String → PluginImage σ) (dir : String)
    (names : List String) (ctx : Context σ) : (discoverDir fingerprint images dir names ctx).caps = ctx.caps := by
  unfold discoverDir
  split
  · rfl
  · induction names generalizing ctx with
    | nil => rfl
    | cons name names ih =>
      rw [List.foldl_cons, ih]
      split <;> rfl

/-- Any order of what a list is mapped to comes from an order of the list. -/
theorem exists_perm_filterMap {α β : Type} {f : α → Option β} {order : List β} :
    ∀ {l : List α}, order.Perm (l.filterMap f) →
      ∃ l' : List α, l'.Perm l ∧ l'.filterMap f = order := by
  induction order with
  | nil =>
    intro l perm
    exact ⟨l, List.Perm.refl l, perm.symm.eq_nil⟩
  | cons b order ih =>
    intro l perm
    obtain ⟨a, ha, hb⟩ := List.mem_filterMap.mp (perm.subset List.mem_cons_self)
    obtain ⟨s, t, rfl⟩ := List.append_of_mem ha
    have moved : (a :: (s ++ t)).Perm (s ++ a :: t) := List.perm_middle.symm
    have rest := perm.trans (moved.symm.filterMap f)
    rw [List.filterMap_cons_some hb] at rest
    obtain ⟨l', perm', mapped⟩ := ih (List.Perm.cons_inv rest)
    refine ⟨a :: l', (perm'.cons a).trans moved, ?_⟩
    rw [List.filterMap_cons_some hb, mapped]

/-- Two contexts that cannot be told apart by what they select. -/
structure SameBackends (ctx ctx' : Context σ) : Prop where
  factories : ∀ f, f ∈ ctx.registry.all ↔ f ∈ ctx'.registry.all
  candidates : ∀ stage r caps, ctx.registry.candidates stage r caps = ctx'.registry.candidates stage r caps
  plan : ∀ req, ctx.plan req = ctx'.plan req

/-- The same factories with distinct ids under the same capabilities select the same. -/
theorem SameBackends.of_factories {ctx ctx' : Context σ} (distinct : ctx.registry.Distinct)
    (distinct' : ctx'.registry.Distinct) (caps : ctx.caps = ctx'.caps)
    (same : ∀ f, f ∈ ctx.registry.all ↔ f ∈ ctx'.registry.all) : SameBackends ctx ctx' := by
  have candidates := Registry.candidates_congr distinct distinct' same
  constructor
  · exact same
  · exact candidates
  · apply Context.plan_congr caps
    funext stage r caps
    exact candidates stage r caps

/-- **The order of a directory.** Ids stay distinct whatever is registered. Plugins that share a factory
only if they are one plugin select the same backends in every order of the directory exactly when no two
different plugins that could be loaded have an id in common. -/
theorem discovery_order_iff {fingerprint : String} {images : String → PluginImage σ} {dir : String}
    {names : List String} {ctx : Context σ} (built : ctx.registry.Built fingerprint)
    (own : ∀ table ∈ names.filterMap (offeredBy fingerprint images dir),
      ∀ table' ∈ names.filterMap (offeredBy fingerprint images dir), ∀ f ∈ table, f ∈ table' → table = table') :
    (∀ reg : Registry σ, reg.Built fingerprint → reg.Distinct) ∧
    ((∀ first second : List String, first.Perm names → second.Perm names →
        SameBackends (discoverDir fingerprint images dir first ctx) (discoverDir fingerprint images dir second ctx)) ↔
      Keyed.Peaceful Factory.id ctx.registry.all (names.filterMap (offeredBy fingerprint images dir))) := by
  constructor
  · exact fun _ built => built.distinct
  rw [← Keyed.absorbAll_perm_iff built.distinct own]
  constructor
  · intro same first second perm perm' f
    obtain ⟨names', order, rfl⟩ := exists_perm_filterMap perm
    obtain ⟨names'', order', rfl⟩ := exists_perm_filterMap perm'
    rw [← discoverDir_all, ← discoverDir_all]
    exact (same names' names'' order order').factories f
  · intro same first second perm perm'
    have distinct : ∀ names, (discoverDir fingerprint images dir names ctx).registry.Distinct := by
      intro names
      unfold Registry.Distinct
      rw [discoverDir_all]
      exact Keyed.Distinct.absorbAll built.distinct
    apply SameBackends.of_factories (distinct first) (distinct second)
    · rw [discoverDir_caps, discoverDir_caps]
    · intro f
      rw [discoverDir_all, discoverDir_all]
      exact same _ _ (perm.filterMap _) (perm'.filterMap _) f

/-! ## Two plugins -/

/-- A decoder called `id` of the given priority. -/
def decoderFactory (id : String) (priority : Int) : Factory Unit :=
  { Factory.always id .decode () with priority }

/-- Two plugin files; the id of the second is a choice. -/
def twoPlugins (second : String) (path : String) : PluginImage Unit :=
  if path = "d/a.so" then .ofFactories "g++" [decoderFactory "codec" 0]
  else if path = "d/b.so" then .ofFactories "g++" [decoderFactory second 1]
  else .missing ""

/-- Two plugins without a common id select the same in both orders. -/
theorem discovery_order_two :
    SameBackends (discoverDir "g++" (twoPlugins "other") "d" ["a.so", "b.so"] {})
      (discoverDir "g++" (twoPlugins "other") "d" ["b.so", "a.so"] {}) := by
  have offers : ["a.so", "b.so"].filterMap (offeredBy "g++" (twoPlugins "other") "d") =
      [[decoderFactory "codec" 0], [decoderFactory "other" 1]] := rfl
  have differ : (decoderFactory "codec" 0).id ≠ (decoderFactory "other" 1).id := by decide
  have order := @discovery_order_iff Unit "g++" (twoPlugins "other") "d" ["a.so", "b.so"] {} .empty (by
      rw [offers]
      intro table ht table' ht' f hf hf'
      simp only [List.mem_cons, List.not_mem_nil, or_false] at ht ht'
      rcases ht with rfl | rfl <;> rcases ht' with rfl | rfl <;>
        simp only [List.mem_singleton] at hf hf' <;> subst hf <;>
        first | rfl | exact absurd (congrArg Factory.id hf') (by decide))
  apply order.2.mpr
  · rw [offers]
    intro table ht table' ht' _ _ f hf g hg same
    simp only [List.mem_cons, List.not_mem_nil, or_false] at ht ht'
    rcases ht with rfl | rfl <;> rcases ht' with rfl | rfl <;>
      simp only [List.mem_singleton] at hf hg <;> subst hf hg <;>
      first | rfl | exact absurd same (by decide)
  · exact List.Perm.refl _
  · exact List.Perm.swap "a.so" "b.so" []

/-- **Two orders of one directory select different decoders.** -/
theorem discovery_order_clash :
    ((discoverDir "g++" (twoPlugins "codec") "d" ["a.so", "b.so"] {}).registry.candidates .decode
        { operation := .decode } {}).map
        (·.priority) = [0] ∧
      ((discoverDir "g++" (twoPlugins "codec") "d" ["b.so", "a.so"] {}).registry.candidates .decode
        { operation := .decode } {}).map
        (·.priority) = [1] := by
  have first : (discoverDir "g++" (twoPlugins "codec") "d" ["a.so", "b.so"] {}).registry =
      { borrowed := [decoderFactory "codec" 0] } := rfl
  have second : (discoverDir "g++" (twoPlugins "codec") "d" ["b.so", "a.so"] {}).registry =
      { borrowed := [decoderFactory "codec" 1] } := rfl
  have single : ∀ f : Factory Unit, f.stage = .decode → f.matches { operation := .decode } {} = true →
      Registry.candidates { borrowed := [f] } .decode { operation := .decode } {} = [f] := by
    intro f stage fits
    simp [Registry.candidates, stage, fits]
  rw [first, second, single _ rfl rfl, single _ rfl rfl]
  exact ⟨rfl, rfl⟩

end Rkvc
