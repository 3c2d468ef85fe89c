import Rkvc.Core.Registry
import Rkvc.Lib.Keyed
import Mathlib.Data.List.ReduceOption

/-!
# Plugins

`Registry::add`, `add_borrowed` and `find`, and `Context::load_plugin`, which
looks at the whole factory table of a plugin before it registers the first entry.
Factories that agree in everything are not told apart.
-/

namespace Rkvc
set_option autoImplicit false

open Lib

variable {σ : Type}

def kPluginAbi : Nat := 1

namespace Registry

/-- All factories, in the order in which `find` and `candidates` go through them. -/
def all (reg : Registry σ) : List (Factory σ) := reg.factories ++ reg.borrowed

def find (reg : Registry σ) (id : String) : Option (Factory σ) := reg.all.find? (·.id = id)

/-- `add`; `none` is the null pointer. -/
def add (reg : Registry σ) (f : Option (Factory σ)) : Registry σ × Status :=
  match f with
  | none => (reg, .invalid)
  | some f =>
    if (reg.find f.id).isSome then (reg, .invalid)
    else ({ reg with factories := reg.factories ++ [f] }, .ok)

/-- **`add_borrowed`** -/
def addBorrowed (reg : Registry σ) (f : Option (Factory σ)) : Registry σ × Status :=
  match f with
  | none => (reg, .invalid)
  | some f =>
    if f.id = "" then (reg, .invalid)
    else if (reg.find f.id).isSome then (reg, .invalid)
    else ({ reg with borrowed := reg.borrowed ++ [f] }, .ok)

end Registry

/-- What a plugin answers; a null string or table is `none`. -/
structure PluginDescriptor (σ : Type) where
  abi : Nat := kPluginAbi
  name : Option String
  version : Option String
  toolchain : Option String
  factoryCount : Nat
  factories : Option (Vector (Option (Factory σ)) factoryCount)

/-- The entries of the table. -/
def PluginDescriptor.table (desc : PluginDescriptor σ) : List (Option (Factory σ)) :=
  desc.factories.elim [] Vector.toList

/-- What `dlopen` and `dlsym` give for a path. -/
inductive PluginImage (σ : Type) where
  | missing (error : String)
  | library (query : Option (Nat → Option (PluginDescriptor σ)))

/-- The checks that come before the table. -/
def PluginDescriptor.refuse (fingerprint : String) (desc : PluginDescriptor σ) : Option (Status × String) :=
  if desc.abi ≠ kPluginAbi then some (.unsupported, "abi mismatch")
  else if desc.name.getD "" = "" ∨ desc.version.getD "" = "" ∨ desc.toolchain.getD "" = "" then
    some (.invalid, "bad descriptor strings")
  else if desc.toolchain ≠ some fingerprint then some (.unsupported, "toolchain mismatch")
  else if desc.factoryCount > 0 ∧ desc.factories.isNone then some (.invalid, "null factory table")
  else none

/-- An entry that the first loop of `load_plugin` stops at. -/
def Registry.badEntry (reg : Registry σ) (f : Option (Factory σ)) : Bool :=
  match f with
  | none => true
  | some f => f.id = "" || (reg.find f.id).isSome

/-- **`Context::load_plugin`**, as far as the registry goes. The second loop does not look at
what `add_borrowed` returns. -/
def Registry.loadPlugin (fingerprint : String) (reg : Registry σ) (path : String) (image : PluginImage σ) :
    Registry σ × Result Unit :=
  let reject (s : Status) (reason : String) : Registry σ × Result Unit :=
    (reg, Result.reject s "load" (if path = "" then "<empty>" else path) reason)
  if path = "" then reject .invalid "empty path"
  else match image with
    | .missing error => reject .notFound (if error = "" then "dlopen failed" else error)
    | .library none => reject .notFound "missing query symbol"
    | .library (some query) =>
      match query kPluginAbi with
      | none => reject .invalid "null descriptor"
      | some desc =>
        match desc.refuse fingerprint with
        | some (s, reason) => reject s reason
        | none =>
          if desc.table.any reg.badEntry then reject .invalid "bad or duplicate factory"
          else (desc.table.foldl (fun reg f => (reg.addBorrowed f).1) reg, .ok ())

/-! ## What a plugin offers -/

/-- A table without null entries and empty ids. -/
def PluginDescriptor.offered (fingerprint : String) (desc : PluginDescriptor σ) : Option (List (Factory σ)) :=
  if desc.refuse fingerprint = none ∧ desc.table.all (fun f => f.any (·.id ≠ "")) then
    some desc.table.reduceOption
  else none

/-- The factories of an image that passes every check that the registry has no part in. -/
def PluginImage.offered (fingerprint : String) (path : String) : PluginImage σ → Option (List (Factory σ))
  | .library (some query) =>
    if path = "" then none else (query kPluginAbi).bind (PluginDescriptor.offered fingerprint)
  | _ => none

namespace Registry

theorem find_eq (reg : Registry σ) (id : String) : reg.find id = Keyed.lookup Factory.id id reg.all := rfl

/-- A new id is registered, and nothing else happens. -/
theorem addBorrowed_all (reg : Registry σ) {f : Factory σ} (named : f.id ≠ "") :
    (reg.addBorrowed (some f)).1.all = Keyed.join Factory.id reg.all f := by
  unfold addBorrowed Keyed.join
  dsimp only
  rw [if_neg named, find_eq]
  by_cases known : (Keyed.lookup Factory.id f.id reg.all).isSome
  · rw [if_pos known, if_pos known]
  · rw [if_neg known, if_neg known]
    simp [all]

/-- The second loop. -/
theorem register_all (fs : List (Factory σ)) (named : ∀ f ∈ fs, f.id ≠ "") :
    ∀ reg : Registry σ, ((fs.map some).foldl (fun reg f => (reg.addBorrowed f).1) reg).all =
      Keyed.joinAll Factory.id reg.all fs := by
  induction fs with
  | nil => exact fun _ => rfl
  | cons f fs ih =>
    intro reg
    rw [List.map_cons, List.foldl_cons, ih (fun g hg => named g (List.mem_cons_of_mem f hg)),
      addBorrowed_all reg (named f List.mem_cons_self)]
    rfl

end Registry

/-- A table whose entries are all there and named. -/
theorem table_eq_map (table : List (Option (Factory σ)))
    (sound : table.all (fun f => f.any (·.id ≠ "")) = true) :
    table = table.reduceOption.map some ∧ ∀ f ∈ table.reduceOption, f.id ≠ "" := by
  induction table with
  | nil => exact ⟨rfl, nofun⟩
  | cons entry rest ih =>
    rw [List.all_cons, Bool.and_eq_true] at sound
    cases entry with
    | none => simp at sound
    | some f =>
      obtain ⟨same, named⟩ := ih sound.2
      constructor
      · rw [List.reduceOption_cons_of_some, List.map_cons, ← same]
      · intro g hg
        rw [List.reduceOption_cons_of_some] at hg
        rcases List.mem_cons.mp hg with rfl | later
        · simpa using sound.1
        · exact named g later

/-- An offered table is the table of the descriptor. -/
theorem PluginDescriptor.offered_some {fingerprint : String} {desc : PluginDescriptor σ}
    {table : List (Factory σ)} (offers : desc.offered fingerprint = some table) :
    desc.refuse fingerprint = none ∧ desc.table = table.map some ∧ ∀ f ∈ table, f.id ≠ "" := by
  unfold PluginDescriptor.offered at offers
  split at offers
  · rename_i sound
    cases offers
    exact ⟨sound.1, table_eq_map desc.table sound.2⟩
  · cases offers

theorem PluginImage.offered_library {path : String} (named : path ≠ "") (fingerprint : String)
    (query : Nat → Option (PluginDescriptor σ)) :
    (PluginImage.library (some query)).offered fingerprint path =
      (query kPluginAbi).bind (PluginDescriptor.offered fingerprint) := by
  unfold PluginImage.offered
  dsimp only
  rw [if_neg named]

theorem PluginImage.offered_empty (fingerprint : String) (image : PluginImage σ) :
    image.offered fingerprint "" = none := by
  cases image with
  | missing error => rfl
  | library query => cases query <;> rfl

namespace Registry

/-- The first loop stops at what is not offered, and at what is known. -/
theorem any_badEntry (reg : Registry σ) {fingerprint : String} {desc : PluginDescriptor σ}
    (checked : desc.refuse fingerprint = none) :
    desc.table.any reg.badEntry = false ↔
      ∃ table, desc.offered fingerprint = some table ∧ Keyed.Fresh Factory.id reg.all table := by
  constructor
  · intro clean
    have entries : ∀ f ∈ desc.table, reg.badEntry f = false := by
      simpa [List.any_eq_false] using clean
    have sound : desc.table.all (fun f => f.any (·.id ≠ "")) = true := by
      rw [List.all_eq_true]
      intro f hf
      have good := entries f hf
      cases f with
      | none => cases good
      | some f =>
        rw [badEntry, Bool.or_eq_false_iff] at good
        simpa using good.1
    refine ⟨desc.table.reduceOption, ?_, ?_⟩
    · unfold PluginDescriptor.offered
      rw [if_pos ⟨checked, sound⟩]
    · intro f hf
      have good := entries (some f) (List.reduceOption_mem_iff.mp hf)
      rw [badEntry, Bool.or_eq_false_iff, find_eq] at good
      exact Option.not_isSome_iff_eq_none.mp (by simp [good.2])
  · rintro ⟨table, offers, fresh⟩
    obtain ⟨-, entries, named⟩ := PluginDescriptor.offered_some offers
    rw [entries, List.any_eq_false]
    intro f hf
    obtain ⟨g, hg, rfl⟩ := List.mem_map.mp hf
    have new := fresh g hg
    simp [badEntry, find_eq, new, named g hg]

/-- **What `load_plugin` does**: an offered table with new ids is registered, anything else
leaves the registry alone. -/
theorem loadPlugin_cases (fingerprint : String) (reg : Registry σ) (path : String) (image : PluginImage σ) :
    (∃ table, image.offered fingerprint path = some table ∧ Keyed.Fresh Factory.id reg.all table ∧
      (reg.loadPlugin fingerprint path image).2 = .ok () ∧
      (reg.loadPlugin fingerprint path image).1.all = Keyed.joinAll Factory.id reg.all table) ∨
    (∀ table, image.offered fingerprint path = some table → ¬Keyed.Fresh Factory.id reg.all table) ∧
      ∃ e, reg.loadPlugin fingerprint path image = (reg, .error e) := by
  by_cases empty : path = ""
  · right
    constructor
    · intro table offers
      rw [empty, PluginImage.offered_empty] at offers
      cases offers
    · unfold loadPlugin
      dsimp only
      rw [if_pos empty]
      exact ⟨_, rfl⟩
  unfold loadPlugin
  dsimp only
  rw [if_neg empty]
  cases image with
  | missing error => exact Or.inr ⟨nofun, _, rfl⟩
  | library query =>
    cases query with
    | none => exact Or.inr ⟨nofun, _, rfl⟩
    | some query =>
      rw [PluginImage.offered_library empty]
      dsimp only
      cases answer : query kPluginAbi with
      | none => exact Or.inr ⟨nofun, _, rfl⟩
      | some desc =>
        rw [Option.bind_some]
        dsimp only
        cases checked : desc.refuse fingerprint with
        | some refusal =>
          refine Or.inr ⟨?_, _, rfl⟩
          intro table offers
          have passed := (PluginDescriptor.offered_some offers).1
          rw [checked] at passed
          cases passed
        | none =>
          dsimp only
          have loop := reg.any_badEntry checked
          by_cases bad : desc.table.any reg.badEntry = true
          · rw [if_pos bad]
            refine Or.inr ⟨?_, _, rfl⟩
            intro table offers fresh
            rw [loop.mpr ⟨table, offers, fresh⟩] at bad
            cases bad
          · rw [if_neg bad]
            obtain ⟨table, offers, fresh⟩ := loop.mp (Bool.not_eq_true _ ▸ bad)
            obtain ⟨-, entries, named⟩ := PluginDescriptor.offered_some offers
            refine Or.inl ⟨table, offers, fresh, rfl, ?_⟩
            rw [entries]
            exact register_all table named reg

end Registry

/-- The table that an image answers with, whatever is in it. -/
def PluginImage.entries : PluginImage σ → List (Option (Factory σ))
  | .library (some query) => (query kPluginAbi).elim [] PluginDescriptor.table
  | _ => []

theorem PluginImage.entries_offered {fingerprint path : String} {image : PluginImage σ}
    {table : List (Factory σ)} (offers : image.offered fingerprint path = some table) :
    image.entries = table.map some := by
  cases image with
  | missing error => cases offers
  | library query =>
    cases query with
    | none => cases offers
    | some query =>
      by_cases empty : path = ""
      · rw [empty, PluginImage.offered_empty] at offers
        cases offers
      · rw [PluginImage.offered_library empty, Option.bind_eq_some_iff] at offers
        obtain ⟨desc, answer, offers⟩ := offers
        unfold PluginImage.entries
        dsimp only
        rw [answer]
        exact (PluginDescriptor.offered_some offers).2.1

namespace Registry

/-- **All or nothing.** A failed load leaves the registry as it was. A load that returns `Ok` has
made every factory of the table the one of its id exactly when no two different entries share
an id. -/
theorem loadPlugin_whole_iff (fingerprint : String) (reg : Registry σ) (path : String) (image : PluginImage σ) :
    (((reg.loadPlugin fingerprint path image).2 = .ok () → ∀ f, some f ∈ image.entries →
        (reg.loadPlugin fingerprint path image).1.find f.id = some f) ∧
      ((reg.loadPlugin fingerprint path image).2 ≠ .ok () →
        (reg.loadPlugin fingerprint path image).1 = reg)) ↔
    ∀ table, image.offered fingerprint path = some table → Keyed.Fresh Factory.id reg.all table →
      ∀ f ∈ table, ∀ g ∈ table, f.id = g.id → f = g := by
  rcases loadPlugin_cases fingerprint reg path image with
    ⟨table, offers, fresh, loaded, registered⟩ | ⟨unfit, e, refused⟩
  · have finds : ∀ f ∈ table, (reg.loadPlugin fingerprint path image).1.find f.id =
        Keyed.lookup Factory.id f.id table := by
      intro f hf
      rw [find_eq, registered, Keyed.lookup_joinAll, fresh f hf, Option.none_or]
    have members : ∀ f, some f ∈ image.entries ↔ f ∈ table := by
      intro f
      simp [PluginImage.entries_offered offers]
    constructor
    · rintro ⟨whole, -⟩ table' offers' - f hf g hg same
      obtain rfl : table = table' := Option.some.inj (offers.symm.trans offers')
      have first := whole loaded f ((members f).mpr hf)
      have second := whole loaded g ((members g).mpr hg)
      rw [same, second] at first
      exact (Option.some.inj first).symm
    · intro single
      constructor
      · intro _ f hf
        have inside := (members f).mp hf
        obtain ⟨g, found⟩ : ∃ g, Keyed.lookup Factory.id f.id table = some g := Keyed.lookup_isSome inside
        obtain ⟨hg, same⟩ := Keyed.lookup_some found
        rw [finds f inside, found, single table offers fresh g hg f inside same]
      · intro failed
        exact absurd loaded failed
  · rw [refused]
    constructor
    · intro _ table offers fresh
      exact absurd fresh (unfit table offers)
    · intro _
      constructor
      · intro loaded
        cases loaded
      · intro _
        rfl

end Registry

/-- A plugin of the given factories that passes the checks. -/
def PluginImage.ofFactories (fingerprint : String) (fs : List (Factory σ)) : PluginImage σ :=
  .library (some fun _ => some
    { name := some "plugin", version := some "1", toolchain := some fingerprint
      factoryCount := fs.length, factories := some ⟨(fs.map some).toArray, by simp⟩ })

/-- Two decoders of one id in one table. -/
def twiceNamed : PluginImage Unit :=
  .ofFactories "g++" [.always "codec" .decode (), { Factory.always "codec" .decode () with priority := 1 }]

/-- **A load that returns `Ok` and loses the second decoder.** -/
theorem loadPlugin_loses :
    (Registry.loadPlugin "g++" {} "a.so" twiceNamed).2 = .ok () ∧
      twiceNamed.entries.length = 2 ∧
      ((Registry.loadPlugin "g++" {} "a.so" twiceNamed).1.find "codec").map (·.priority) = some 0 ∧
      ∃ f, some f ∈ twiceNamed.entries ∧ f.id = "codec" ∧ f.priority = 1 := by
  refine ⟨rfl, rfl, rfl, { Factory.always "codec" .decode () with priority := 1 }, ?_, rfl, rfl⟩
  exact List.mem_cons_of_mem _ List.mem_cons_self

end Rkvc
