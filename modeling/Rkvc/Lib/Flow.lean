import Mathlib.Data.List.ReduceOption

/-!
# Flows of named values

A flow is a list of nodes: each reads values by name, applies an operator to them, and
names what it gives. An operand or a result may be left out. Two flows are compared
through a renaming of the names they both know (`Agrees`), which a node keeps that
stands for one (`exec_rename`), and which whole runs keep if the nodes that stand for
each node do (`run_groups`).
-/

namespace Rkvc.Lib.Flow
set_option autoImplicit false

structure Node (ν ω : Type) where
  op : ω
  reads : List (Option ν)
  writes : List (Option ν)
  deriving DecidableEq

abbrev Env (ν α : Type) := ν → Option α

/-- What an operator makes of its operands. -/
abbrev Meaning (ω α : Type) := ω → List (Option α) → Option (List α)

variable {ν ω α : Type}

namespace Env

/-- The operands of a list of names, each present where it is named. -/
def readAll (env : Env ν α) : List (Option ν) → Option (List (Option α))
  | [] => some []
  | none :: names => (readAll env names).map (none :: ·)
  | some x :: names => (env x).bind fun v => (readAll env names).map (some v :: ·)

variable [DecidableEq ν]

def set (env : Env ν α) (x : ν) (v : α) : Env ν α := fun y => if y = x then some v else env y

/-- Name the results. There may be more of them than names. -/
def writeAll (env : Env ν α) : List (Option ν) → List α → Option (Env ν α)
  | [], _ => some env
  | none :: names, _ :: vs => writeAll env names vs
  | some x :: names, v :: vs => writeAll (env.set x v) names vs
  | _ :: _, [] => none

@[simp] theorem set_self (env : Env ν α) (x : ν) (v : α) : env.set x v x = some v := if_pos rfl

theorem set_ne {env : Env ν α} {x y : ν} {v : α} (other : y ≠ x) : env.set x v y = env y := if_neg other

end Env

section Run

variable [DecidableEq ν]

def Node.exec (m : Meaning ω α) (n : Node ν ω) (env : Env ν α) : Option (Env ν α) :=
  (env.readAll n.reads).bind fun args => (m n.op args).bind fun vs => env.writeAll n.writes vs

def run (m : Meaning ω α) : List (Node ν ω) → Env ν α → Option (Env ν α)
  | [], env => some env
  | n :: nodes, env => (n.exec m env).bind (run m nodes)

variable {m : Meaning ω α} {n : Node ν ω} {nodes later : List (Node ν ω)} {env env₁ env' : Env ν α}

@[simp] theorem run_nil : run m [] env = some env := rfl

theorem run_cons : run m (n :: nodes) env = some env' ↔ ∃ env₁, n.exec m env = some env₁ ∧ run m nodes env₁ = some env' :=
  Option.bind_eq_some_iff

theorem run_append :
    run m (nodes ++ later) env = some env' ↔ ∃ env₁, run m nodes env = some env₁ ∧ run m later env₁ = some env' := by
  induction nodes generalizing env with
  | nil =>
    constructor
    · intro rest
      exact ⟨env, rfl, rest⟩
    · rintro ⟨env₁, same, rest⟩
      cases same
      exact rest
  | cons n nodes ih =>
    rw [List.cons_append, run_cons]
    constructor
    · rintro ⟨env₁, first, rest⟩
      obtain ⟨env₂, second, last⟩ := ih.mp rest
      exact ⟨env₂, run_cons.mpr ⟨env₁, first, second⟩, last⟩
    · rintro ⟨env₂, both, last⟩
      obtain ⟨env₁, first, second⟩ := run_cons.mp both
      exact ⟨env₁, first, ih.mpr ⟨env₂, second, last⟩⟩

/-- What a node does. -/
theorem exec_some : n.exec m env = some env' ↔
    ∃ args vs, env.readAll n.reads = some args ∧ m n.op args = some vs ∧ env.writeAll n.writes vs = some env' := by
  rw [Node.exec, Option.bind_eq_some_iff]
  constructor
  · rintro ⟨args, read, rest⟩
    obtain ⟨vs, meant, written⟩ := Option.bind_eq_some_iff.mp rest
    exact ⟨args, vs, read, meant, written⟩
  · rintro ⟨args, vs, read, meant, written⟩
    exact ⟨args, read, Option.bind_eq_some_iff.mpr ⟨vs, meant, written⟩⟩

/-! ## What is left alone -/

theorem writeAll_other {names : List (Option ν)} {vs : List α} {x : ν} (written : env.writeAll names vs = some env')
    (other : some x ∉ names) : env' x = env x := by
  induction names generalizing env vs with
  | nil =>
    cases written
    rfl
  | cons name names ih =>
    have rest : some x ∉ names := fun listed => other (List.mem_cons_of_mem _ listed)
    match name, vs, written with
    | none, _ :: vs, written => exact ih written rest
    | some y, v :: vs, written =>
      rw [ih written rest]
      refine Env.set_ne fun same => other ?_
      rw [same]
      exact List.mem_cons_self

theorem exec_other {x : ν} (done : n.exec m env = some env') (other : some x ∉ n.writes) : env' x = env x := by
  obtain ⟨args, vs, -, -, written⟩ := exec_some.mp done
  exact writeAll_other written other

theorem run_other {x : ν} (done : run m nodes env = some env') (other : ∀ n ∈ nodes, some x ∉ n.writes) :
    env' x = env x := by
  induction nodes generalizing env with
  | nil =>
    cases done
    rfl
  | cons n nodes ih =>
    obtain ⟨env₁, first, rest⟩ := run_cons.mp done
    rw [ih rest fun n listed => other n (List.mem_cons_of_mem _ listed), exec_other first (other n List.mem_cons_self)]

/-! ## Flows that name every value once -/

/-- The names that are given. -/
def written (nodes : List (Node ν ω)) : List ν := nodes.flatMap fun n => n.writes.reduceOption

omit [DecidableEq ν] in
theorem mem_written {x : ν} : x ∈ written nodes ↔ ∃ n ∈ nodes, some x ∈ n.writes := by
  simp only [written, List.mem_flatMap, List.reduceOption_mem_iff]

/-- What has a value before a run that names every value once has it behind. -/
theorem run_keeps (fresh : ∀ x ∈ written nodes, env x = none) (done : run m nodes env = some env') {x : ν} {v : α}
    (value : env x = some v) : env' x = some v := by
  rw [run_other done fun n listed writes => ?_]
  · exact value
  · rw [fresh x (mem_written.mpr ⟨n, listed, writes⟩)] at value
    cases value

omit [DecidableEq ν] in
theorem readAll_keeps {names : List (Option ν)} {args : List (Option α)}
    (keeps : ∀ x v, env x = some v → env' x = some v) (read : env.readAll names = some args) :
    env'.readAll names = some args := by
  induction names generalizing args with
  | nil => exact read
  | cons name names ih =>
    cases name with
    | none =>
      obtain ⟨rest, later, rfl⟩ := Option.map_eq_some_iff.mp read
      rw [Env.readAll, ih later]
      rfl
    | some x =>
      obtain ⟨v, value, behind⟩ := Option.bind_eq_some_iff.mp read
      obtain ⟨rest, later, rfl⟩ := Option.map_eq_some_iff.mp behind
      rw [Env.readAll, keeps x v value, ih later]
      rfl

/-- Writing again what is there changes nothing. -/
theorem writeAll_again {names : List (Option ν)} {vs : List α} (once : names.reduceOption.Nodup)
    (done : env.writeAll names vs = some env₁) (keeps : ∀ x v, env₁ x = some v → env' x = some v) :
    env'.writeAll names vs = some env' := by
  induction names generalizing env vs with
  | nil => rfl
  | cons name names ih =>
    match name, vs, done with
    | none, _ :: vs, done => exact ih once done
    | some x, v :: vs, done =>
      rw [List.reduceOption_cons_of_some, List.nodup_cons, List.reduceOption_mem_iff] at once
      have rest : (env.set x v).writeAll names vs = some env₁ := done
      have value : env₁ x = some v := by
        rw [writeAll_other rest once.1, Env.set_self]
      have same : env'.set x v = env' := by
        funext y
        by_cases eq : y = x
        · rw [eq, Env.set_self, keeps x v value]
        · rw [Env.set_ne eq]
      rw [Env.writeAll, same]
      exact ih once.2 rest

/-- **Every equation holds in the end**: where every value is named once, running a node again changes nothing. -/
theorem run_fixed (once : (written nodes).Nodup) (fresh : ∀ x ∈ written nodes, env x = none)
    (done : run m nodes env = some env') : ∀ n ∈ nodes, n.exec m env' = some env' := by
  induction nodes generalizing env with
  | nil => exact fun n listed => absurd listed List.not_mem_nil
  | cons n nodes ih =>
    obtain ⟨env₁, first, rest⟩ := run_cons.mp done
    obtain ⟨single, later, apart⟩ := List.nodup_append.mp once
    have fresh₁ : ∀ x ∈ written nodes, env₁ x = none := by
      intro x writes
      rw [exec_other first fun own => ?_]
      · exact fresh x (List.mem_append_right _ writes)
      · exact apart x (List.reduceOption_mem_iff.mpr own) x writes rfl
    refine List.forall_mem_cons.mpr ⟨?_, ih later fresh₁ rest⟩
    obtain ⟨args, vs, read, meant, written⟩ := exec_some.mp first
    have keeps : ∀ x v, env₁ x = some v → env' x = some v := fun x v => run_keeps fresh₁ rest
    have again := writeAll_again single written keeps
    refine exec_some.mpr ⟨args, vs, readAll_keeps (fun x v value => keeps x v ?_) read, meant, again⟩
    rw [exec_other first fun own => ?_]
    · exact value
    · rw [fresh x (List.mem_append_left _ (List.reduceOption_mem_iff.mpr own))] at value
      cases value

end Run

/-! ## Renaming -/

/-- The names of `S` have in `env'`, renamed, what they have in `env`. -/
def Agrees (ρ : ν → ν) (S : ν → Prop) (env env' : Env ν α) : Prop :=
  ∀ x, S x → ∀ v, env x = some v → env' (ρ x) = some v

/-- A renaming of a node. -/
def Node.rename (ρ : ν → ν) (n : Node ν ω) : Node ν ω where
  op := n.op
  reads := n.reads.map (Option.map ρ)
  writes := n.writes.map (Option.map ρ)

section Agree

variable {ρ : ν → ν} {S : ν → Prop} {env env' env₁ : Env ν α}

theorem readAll_agrees (agrees : Agrees ρ S env env') {names : List (Option ν)} {args : List (Option α)}
    (known : ∀ x, some x ∈ names → S x) (read : env.readAll names = some args) :
    env'.readAll (names.map (Option.map ρ)) = some args := by
  induction names generalizing args with
  | nil => exact read
  | cons name names ih =>
    have known' : ∀ x, some x ∈ names → S x := fun x listed => known x (List.mem_cons_of_mem _ listed)
    cases name with
    | none =>
      obtain ⟨rest, later, rfl⟩ := Option.map_eq_some_iff.mp read
      rw [List.map_cons, Option.map_none, Env.readAll, ih known' later]
      rfl
    | some x =>
      obtain ⟨v, value, behind⟩ := Option.bind_eq_some_iff.mp read
      obtain ⟨rest, later, rfl⟩ := Option.map_eq_some_iff.mp behind
      rw [List.map_cons, Option.map_some, Env.readAll, agrees x (known x List.mem_cons_self) v value, ih known' later]
      rfl

variable [DecidableEq ν]

theorem Agrees.set (agrees : Agrees ρ S env env') {x : ν} {v : α} (apart : ∀ y, S y → ρ y = ρ x → y = x) :
    Agrees ρ S (env.set x v) (env'.set (ρ x) v) := by
  intro y known u value
  by_cases same : y = x
  · rw [same, Env.set_self] at value
    rw [same, Env.set_self, value]
  · rw [Env.set_ne same] at value
    rw [Env.set_ne fun eq => same (apart y known eq)]
    exact agrees y known u value

theorem writeAll_agrees (agrees : Agrees ρ S env env') {names : List (Option ν)} {vs : List α}
    (apart : ∀ x, some x ∈ names → ∀ y, S y → ρ y = ρ x → y = x) (written : env.writeAll names vs = some env₁) :
    ∃ env₁', env'.writeAll (names.map (Option.map ρ)) vs = some env₁' ∧ Agrees ρ S env₁ env₁' := by
  induction names generalizing env env' vs with
  | nil =>
    cases written
    exact ⟨env', rfl, agrees⟩
  | cons name names ih =>
    have apart' : ∀ x, some x ∈ names → ∀ y, S y → ρ y = ρ x → y = x :=
      fun x listed => apart x (List.mem_cons_of_mem _ listed)
    match name, vs, written with
    | none, _ :: vs, written => exact ih agrees apart' written
    | some x, v :: vs, written => exact ih (agrees.set (apart x List.mem_cons_self)) apart' written

variable {m : Meaning ω α} {n : Node ν ω}

/-- **A node and its renaming** do the same, where the renaming tells what it writes from what is known. -/
theorem exec_rename (agrees : Agrees ρ S env env') (known : ∀ x, some x ∈ n.reads → S x)
    (apart : ∀ x, some x ∈ n.writes → ∀ y, S y → ρ y = ρ x → y = x) (done : n.exec m env = some env₁) :
    ∃ env₁', (n.rename ρ).exec m env' = some env₁' ∧ Agrees ρ S env₁ env₁' := by
  obtain ⟨args, vs, read, meant, written⟩ := exec_some.mp done
  obtain ⟨env₁', written', agrees'⟩ := writeAll_agrees agrees apart written
  exact ⟨env₁', exec_some.mpr ⟨args, vs, readAll_agrees agrees known read, meant, written'⟩, agrees'⟩

/-- **Flows are compared node by node**: a relation that every node keeps, with the nodes that stand for
it, is kept by the runs. -/
theorem run_groups {R : Env ν α → Env ν α → Prop} {nodes : List (Node ν ω)} {groups : List (List (Node ν ω))}
    (step : List.Forall₂ (fun n group => ∀ env env' env₁, R env env' → n.exec m env = some env₁ →
      ∃ env₁', run m group env' = some env₁' ∧ R env₁ env₁') nodes groups)
    (related : R env env') (done : run m nodes env = some env₁) :
    ∃ env₁', run m groups.flatten env' = some env₁' ∧ R env₁ env₁' := by
  induction step generalizing env env' with
  | nil =>
    cases done
    exact ⟨env', rfl, related⟩
  | cons one _ ih =>
    obtain ⟨env₂, first, rest⟩ := run_cons.mp done
    obtain ⟨env₂', group, related⟩ := one env env' env₂ related first
    obtain ⟨env₁', all, related⟩ := ih related rest
    exact ⟨env₁', run_append.mpr ⟨env₂', group, all⟩, related⟩

/-- Nodes that are left out, or that others stand for one by one. -/
theorem run_kept {β : Type} {R : Env ν α → Env ν α → Prop} {nodes : List β} {f f' : β → Node ν ω} {p : β → Bool}
    (kept : ∀ n ∈ nodes, p n = true → ∀ env env' env₁, R env env' → (f n).exec m env = some env₁ →
      ∃ env₁', (f' n).exec m env' = some env₁' ∧ R env₁ env₁')
    (dropped : ∀ n ∈ nodes, p n = false → ∀ env env' env₁, R env env' → (f n).exec m env = some env₁ → R env₁ env')
    (related : R env env') (done : run m (nodes.map f) env = some env₁) :
    ∃ env₁', run m ((nodes.filter p).map f') env' = some env₁' ∧ R env₁ env₁' := by
  induction nodes generalizing env env' with
  | nil =>
    cases done
    exact ⟨env', rfl, related⟩
  | cons n nodes ih =>
    obtain ⟨env₂, first, rest⟩ := run_cons.mp done
    have kept' := fun n (listed : n ∈ nodes) => kept n (List.mem_cons_of_mem _ listed)
    have dropped' := fun n (listed : n ∈ nodes) => dropped n (List.mem_cons_of_mem _ listed)
    cases keep : p n with
    | true =>
      obtain ⟨env₂', one, related⟩ := kept n List.mem_cons_self keep env env' env₂ related first
      obtain ⟨env₁', all, related⟩ := ih kept' dropped' related rest
      rw [List.filter_cons_of_pos keep]
      exact ⟨env₁', run_cons.mpr ⟨env₂', one, all⟩, related⟩
    | false =>
      rw [List.filter_cons_of_neg (by rw [keep]; exact Bool.false_ne_true)]
      exact ih kept' dropped' (dropped n List.mem_cons_self keep env env' env₂ related first) rest

end Agree

end Rkvc.Lib.Flow
