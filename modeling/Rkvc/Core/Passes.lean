import Rkvc.Core.Graph
import Mathlib.Data.List.Chain

/-!
# What each pass of `Graph::build` keeps

Every pass walks the nodes in order and leaves their origins alone, `splice`
apart; when it fails, it fails at the place it has reached. So each pass has two
facts: what holds of the nodes after it, and where a failure is reported.
-/

namespace Rkvc.Graph
set_option autoImplicit false

open Lib (Logged)

/-! ## Ports -/

/-- What a node offers on its output edge. -/
def outSpec {σ : Type} (a : Link σ) : Spec := ((lastOutput a.ports).getD {}).resolved

/-- What a node asks for on its input edge. -/
def inSpec {σ : Type} (b : Link σ) : Spec := ((firstInput b.ports).getD {}).resolved

/-- The two ends of an edge, as the arity check leaves them. -/
def EdgeReady {σ : Type} (a b : Link σ) : Prop :=
  a.ports.countP (!·.isInput) = 1 ∧ b.ports.countP (·.isInput) = 1

theorem lastOutput_some {ports : List Port} (h : ports.countP (!·.isInput) = 1) :
    ∃ p, lastOutput ports = some p := by
  rw [List.countP_eq_length_filter] at h
  obtain ⟨p, hp⟩ := List.length_eq_one_iff.mp h
  exact ⟨p, by simp [lastOutput, hp]⟩

/-- With one input port, the first is the last. -/
theorem firstInput_eq_lastInput {ports : List Port} (h : ports.countP (·.isInput) = 1) :
    firstInput ports = lastInput ports ∧ ∃ p, lastInput ports = some p := by
  rw [List.countP_eq_length_filter] at h
  obtain ⟨p, hp⟩ := List.length_eq_one_iff.mp h
  have hfirst : firstInput ports = some p := by
    rw [firstInput, ← List.head?_filter, hp, List.head?_cons]
  have hlast : lastInput ports = some p := by simp [lastInput, hp]
  exact ⟨hfirst.trans hlast.symm, p, hlast⟩

/-- Resolving one side leaves the ports of the other side as they are. -/
theorem filter_resolveLast {p q : Port → Bool} (r : Spec) (hpq : ∀ x, p x = true → q x = false)
    (hq : ∀ x, p x = true → q { x with resolved := r } = false) (ports : List Port) :
    (resolveLast p r ports).filter q = ports.filter q := by
  induction ports with
  | nil => rfl
  | cons x rest ih =>
    unfold resolveLast
    split
    · simp only [List.filter_cons, ih]
    split
    · rename_i hx
      simp [hpq x hx, hq x hx]
    · rfl

theorem countP_resolveLast {p q : Port → Bool} (r : Spec)
    (hq : ∀ x, q { x with resolved := r } = q x) (ports : List Port) :
    (resolveLast p r ports).countP q = ports.countP q := by
  induction ports with
  | nil => rfl
  | cons x rest ih =>
    unfold resolveLast
    split
    · simp only [List.countP_cons, ih]
    split
    · simp only [List.countP_cons, hq]
    · rfl

/-- A node with its input resolved offers what it did. -/
@[simp] theorem outSpec_resolveIn {σ : Type} (b : Link σ) (r : Spec) :
    outSpec { b with ports := resolveLast (·.isInput) r b.ports } = outSpec b := by
  have := filter_resolveLast (p := (·.isInput)) (q := (!·.isInput)) r (by simp) (by simp) b.ports
  simp only [outSpec, lastOutput, this]

theorem edgeReady_resolveIn {σ : Type} {b c : Link σ} (r : Spec) :
    EdgeReady { b with ports := resolveLast (·.isInput) r b.ports } c ↔ EdgeReady b c := by
  simp only [EdgeReady, countP_resolveLast (q := (!·.isInput)) r (fun _ => rfl)]

variable {σ : Type}

/-! ## Creating the nodes -/

theorem failStep_error {α : Type} {i : Nat} {s : Status} {reason : String} {c : Culprit} {r : Rejection}
    (h : (failStep (α := α) i s reason c).outcome = .error r) :
    r = { failedStep := i, status := s, culprit := c } := by
  exact (Except.error.inj h).symm

theorem failStep_ne_ok {α : Type} {i : Nat} {s : Status} {reason : String} {c : Culprit} {a : α} :
    (failStep (α := α) i s reason c).outcome ≠ .ok a :=
  nofun

/-- A node that is not created is blamed on its step. -/
theorem createNode_error {req : Request} {srcSpec : Spec} {i : Nat} {st : PlanStep σ} {r : Rejection}
    (h : (createNode req srcSpec i st).outcome = .error r) :
    r.failedStep = i ∧ r.culprit = .node (.step i) := by
  unfold createNode at h
  split at h
  · cases h
  split at h
  · cases h
  split at h
  · rcases Logged.bind_error h with h | ⟨_, -, h⟩
    · cases h
    split at h
    · cases h; exact ⟨rfl, rfl⟩
    · cases failStep_error h; exact ⟨rfl, rfl⟩
    · cases h
  · cases failStep_error h; exact ⟨rfl, rfl⟩

section Create

variable [PluginNode σ]

/-- What `createNodes` can do: reject at a step, or give each step a node that
passed its arity check. -/
theorem createNodes_cons {req : Request} {srcSpec : Spec} {n i : Nat} {st : PlanStep σ}
    {rest : List (PlanStep σ)} {links : List (Link σ)}
    (h : (createNodes req srcSpec n i (st :: rest)).outcome = .ok links) :
    ∃ node tail, (createNode req srcSpec i st).outcome = .ok node ∧
      arityOk i n (node.makePorts.map fun p => { p with resolved := p.desired }) = true ∧
      (createNodes req srcSpec n (i + 1) rest).outcome = .ok tail ∧
      links = ⟨node, node.makePorts.map fun p => { p with resolved := p.desired }, .step i⟩ :: tail := by
  unfold createNodes at h
  obtain ⟨node, hnode, h⟩ := Logged.bind_ok h
  dsimp only at h
  split at h
  · obtain ⟨_, h, -⟩ := Logged.bind_ok h
    exact absurd h failStep_ne_ok
  rename_i arity
  obtain ⟨tail, htail, h⟩ := Logged.bind_ok h
  exact ⟨node, tail, hnode, by simpa using arity, htail, (Except.ok.inj h).symm⟩

theorem createNodes_error {req : Request} {srcSpec : Spec} {n : Nat} {steps : List (PlanStep σ)}
    {r : Rejection} {i : Nat} (h : (createNodes req srcSpec n i steps).outcome = .error r) :
    ∃ k, r.failedStep = k ∧ r.culprit = .node (.step k) := by
  induction steps generalizing i with
  | nil => cases h
  | cons st rest ih =>
    unfold createNodes at h
    rcases Logged.bind_error h with h | ⟨node, -, h⟩
    · exact ⟨i, createNode_error h⟩
    dsimp only at h
    split at h
    · rcases Logged.bind_error h with h | ⟨_, h, -⟩
      · cases failStep_error h; exact ⟨i, rfl, rfl⟩
      · exact absurd h failStep_ne_ok
    rcases Logged.bind_error h with h | ⟨tail, -, h⟩
    · exact ih h
    · cases h

theorem createNodes_origins {req : Request} {srcSpec : Spec} {n : Nat} {steps : List (PlanStep σ)}
    {links : List (Link σ)} {i : Nat} (h : (createNodes req srcSpec n i steps).outcome = .ok links) :
    links.map (·.origin) = (List.range' i steps.length).map .step := by
  induction steps generalizing i links with
  | nil => cases h; rfl
  | cons st rest ih =>
    obtain ⟨node, tail, -, -, htail, rfl⟩ := createNodes_cons h
    simp [ih htail, List.range'_succ]

theorem arityOk_out {i n : Nat} {ports : List Port} (h : arityOk i n ports = true) (hi : i + 1 ≠ n) :
    ports.countP (!·.isInput) = 1 := by
  unfold arityOk at h
  simp only [hi, if_false] at h
  split at h <;> · simp at h; exact h.2

theorem arityOk_in {i n : Nat} {ports : List Port} (h : arityOk (i + 1) n ports = true) :
    ports.countP (·.isInput) = 1 := by
  unfold arityOk at h
  simp only [Nat.succ_ne_zero, if_false] at h
  split at h <;> · simp at h; exact h.1

/-- The arity check leaves one port on each side of every edge. -/
theorem createNodes_ready {req : Request} {srcSpec : Spec} {n : Nat} {steps : List (PlanStep σ)}
    {links : List (Link σ)} {i : Nat} (hn : i + steps.length = n)
    (h : (createNodes req srcSpec n i steps).outcome = .ok links) : links.IsChain EdgeReady := by
  induction steps generalizing i links with
  | nil => cases h; exact .nil
  | cons st rest ih =>
    obtain ⟨node, tail, -, arity, htail, rfl⟩ := createNodes_cons h
    have chain := ih (by simp at hn; omega) htail
    cases rest with
    | nil => cases htail; exact .singleton _
    | cons st' rest' =>
      obtain ⟨node', tail', -, arity', -, rfl⟩ := createNodes_cons htail
      refine List.isChain_cons_cons.mpr ⟨⟨arityOk_out arity ?_, arityOk_in arity'⟩, chain⟩
      simp at hn
      omega

end Create

/-! ## Unifying the edges -/

/-- The edge between two nodes unifies. -/
def EdgeUnifies (a b : Link σ) : Prop :=
  ∃ r, unify (outSpec a) ((lastInput b.ports).getD {}).resolved = .ok r

theorem edgeUnifies_resolveIn {b c : Link σ} (r : Spec) :
    EdgeUnifies { b with ports := resolveLast (·.isInput) r b.ports } c ↔ EdgeUnifies b c := by
  simp only [EdgeUnifies, outSpec_resolveIn]

/-- One step of the edge loop. -/
theorem unifyEdges_cons {i : Nat} {a b : Link σ} {rest links : List (Link σ)}
    (h : (unifyEdges i a (b :: rest)).outcome = .ok links) :
    ∃ r tail, unify (outSpec a) ((lastInput b.ports).getD {}).resolved = .ok r ∧
      (unifyEdges (i + 1) { b with ports := resolveLast (·.isInput) r b.ports } rest).outcome = .ok tail ∧
      links = { a with ports := resolveLast (!·.isInput) r a.ports } :: tail := by
  unfold unifyEdges at h
  split at h
  · obtain ⟨_, -, h⟩ := Logged.bind_ok h
    cases h
  rename_i r hr
  obtain ⟨tail, htail, h⟩ := Logged.bind_ok h
  exact ⟨r, tail, hr, htail, (Except.ok.inj h).symm⟩

theorem unifyEdges_ok {rest links : List (Link σ)} {i : Nat} {a : Link σ}
    (h : (unifyEdges i a rest).outcome = .ok links) :
    links.map (·.origin) = (a :: rest).map (·.origin) ∧ (a :: rest).IsChain EdgeUnifies := by
  induction rest generalizing i a links with
  | nil => cases h; exact ⟨rfl, .singleton a⟩
  | cons b rest ih =>
    obtain ⟨r, tail, hr, htail, rfl⟩ := unifyEdges_cons h
    obtain ⟨origins, chain⟩ := ih htail
    have same : (b :: rest).IsChain EdgeUnifies := by
      cases rest with
      | nil => exact .singleton b
      | cons c rest =>
        rw [List.isChain_cons_cons, edgeUnifies_resolveIn] at chain
        exact List.isChain_cons_cons.mpr chain
    exact ⟨by simpa using origins, List.isChain_cons_cons.mpr ⟨⟨r, hr⟩, same⟩⟩

/-- A rejected edge is blamed on the node behind it. -/
theorem unifyEdges_error {rest : List (Link σ)} {i : Nat} {a : Link σ} {r : Rejection}
    (h : (unifyEdges i a rest).outcome = .error r) :
    ∃ p x y, (a :: rest)[p]? = some x ∧ (a :: rest)[p + 1]? = some y ∧ ¬EdgeUnifies x y ∧
      r.failedStep = i + p + 1 ∧ r.culprit = .edge x.origin y.origin := by
  induction rest generalizing i a with
  | nil => cases h
  | cons b rest ih =>
    unfold unifyEdges at h
    split at h
    · rename_i e he
      rcases Logged.bind_error h with h | ⟨_, -, h⟩
      · cases h
      cases h
      refine ⟨0, a, b, rfl, rfl, ?_, rfl, rfl⟩
      rintro ⟨s, hs⟩
      exact absurd (he.symm.trans hs) nofun
    rename_i s hs
    rcases Logged.bind_error h with h | ⟨_, -, h⟩
    · obtain ⟨p, x, y, hx, hy, bad, step, culprit⟩ := ih h
      cases p with
      | zero =>
        obtain rfl := Option.some.inj hx
        exact ⟨1, b, y, rfl, hy, (edgeUnifies_resolveIn s).not.mp bad, by omega, culprit⟩
      | succ p => exact ⟨p + 2, x, y, hx, hy, bad, by omega, culprit⟩
    · cases h

/-! ## Configuring, binding and opening -/

section Nodes

variable [PluginNode σ]

theorem configureNodes_ok : ∀ {links : List (Link σ)} {i : Nat} {links' : List (Link σ)},
    (configureNodes i links).outcome = .ok links' →
      links'.map (·.origin) = links.map (·.origin) ∧ ∀ a ∈ links, (a.node.configure a.ports).2.2 = .ok
  | [], i, links', h => by cases h; exact ⟨rfl, by simp⟩
  | a :: rest, i, links', h => by
    unfold configureNodes at h
    dsimp only at h
    split at h
    · obtain ⟨_, -, h⟩ := Logged.bind_ok h
      obtain ⟨_, h, -⟩ := Logged.bind_ok h
      cases h
    rename_i accepted
    obtain ⟨tail, htail, h⟩ := Logged.bind_ok h
    cases h
    obtain ⟨origins, all⟩ := configureNodes_ok htail
    exact ⟨by simpa using origins, List.forall_mem_cons.mpr ⟨Decidable.not_not.mp accepted, all⟩⟩

/-- A node that rejects its ports is blamed by its place. -/
theorem configureNodes_error : ∀ {links : List (Link σ)} {i : Nat} {r : Rejection},
    (configureNodes i links).outcome = .error r →
      ∃ p a, links[p]? = some a ∧ (a.node.configure a.ports).2.2 ≠ .ok ∧
        r.failedStep = i + p ∧ r.culprit = .node a.origin
  | [], i, r, h => by cases h
  | a :: rest, i, r, h => by
    unfold configureNodes at h
    dsimp only at h
    split at h
    · rename_i rejected
      rcases Logged.bind_error h with h | ⟨_, -, h⟩
      · cases h
      rcases Logged.bind_error h with h | ⟨_, h, -⟩
      · cases h; exact ⟨0, a, rfl, rejected, rfl, rfl⟩
      · cases h
    rcases Logged.bind_error h with h | ⟨_, -, h⟩
    · obtain ⟨p, a', ha, bad, step, culprit⟩ := configureNodes_error h
      exact ⟨p + 1, a', ha, bad, by omega, culprit⟩
    · cases h

theorem bindModels_ok {ctx : Context σ} {req : Request} : ∀ {links : List (Link σ)} {i : Nat}
    {links' : List (Link σ)}, (bindModels ctx req i links).outcome = .ok links' →
      links'.map (·.origin) = links.map (·.origin)
  | [], i, links', h => by cases h; rfl
  | a :: rest, i, links', h => by
    unfold bindModels at h
    obtain ⟨node, -, h⟩ := Logged.bind_ok h
    obtain ⟨tail, htail, h⟩ := Logged.bind_ok h
    cases h
    simpa using bindModels_ok htail

theorem bindNode_error {ctx : Context σ} {req : Request} {i : Nat} {a : Link σ} {r : Rejection}
    (h : (bindNode ctx req i a).outcome = .error r) :
    a.node.wantsModel = true ∧ r.failedStep = i ∧ r.culprit = .node a.origin := by
  unfold bindNode at h
  split at h
  · cases h
  rename_i wants
  refine ⟨by simpa using wants, ?_⟩
  split at h
  · cases failStep_error h; exact ⟨rfl, rfl⟩
  dsimp only at h
  split at h
  · cases h; exact ⟨rfl, rfl⟩
  · cases h

/-- A node left without its model is blamed by its place. -/
theorem bindModels_error {ctx : Context σ} {req : Request} : ∀ {links : List (Link σ)} {i : Nat}
    {r : Rejection}, (bindModels ctx req i links).outcome = .error r →
      ∃ p a, links[p]? = some a ∧ a.node.wantsModel = true ∧
        r.failedStep = i + p ∧ r.culprit = .node a.origin
  | [], i, r, h => by cases h
  | a :: rest, i, r, h => by
    unfold bindModels at h
    rcases Logged.bind_error h with h | ⟨node, -, h⟩
    · exact ⟨0, a, rfl, bindNode_error h⟩
    rcases Logged.bind_error h with h | ⟨_, -, h⟩
    · obtain ⟨p, a', ha, wants, step, culprit⟩ := bindModels_error h
      exact ⟨p + 1, a', ha, wants, by omega, culprit⟩
    · cases h

/-- The first node that does not open is the one reported. -/
theorem openNodes_error : ∀ {links links' : List (Link σ)} {i f : Nat} {st : Status} {added : Diag},
    openNodes i links = (links', some (f, st), added) →
      ∃ p a, links[p]? = some a ∧ a.node.openNode.2.1 = st ∧ st ≠ .ok ∧ f = i + p
  | [], links', i, f, st, added, h => by cases h
  | a :: rest, links', i, f, st, added, h => by
    unfold openNodes at h
    dsimp only at h
    split at h
    · rename_i bad
      cases h
      exact ⟨0, a, rfl, rfl, bad, rfl⟩
    split at h
    · cases h
    · rename_i hrest
      cases h
      obtain ⟨p, a', ha, hst, bad, step⟩ := openNodes_error hrest
      exact ⟨p + 1, a', ha, hst, bad, by omega⟩

end Nodes

end Rkvc.Graph
