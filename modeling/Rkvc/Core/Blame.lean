import Rkvc.Core.Bridge

/-!
# Which step is blamed

A failure is reported as a place among the nodes of the graph. Until `splice`
that place is the step of the plan; from then on every bridge in front of it has
moved it one further (`splicedAfter_place`). So the step reported is the step
that failed exactly when no bridge stands before it (`blame_iff`), and
`Plan::advance` moves whatever step is reported.
-/

namespace Rkvc.Graph
set_option autoImplicit false

open Lib (Logged)

variable {σ : Type}

/-! ## Places -/

/-- A bridge is spliced between nodes `j` and `j + 1` of a chain. -/
def bridgedAt (links : List (Link σ)) (j : Nat) : Bool :=
  match links[j]?, links[j + 1]? with
  | some a, some b => decide (Bridged a b)
  | _, _ => false

/-- The bridges in front of step `k`. -/
def bridgesBefore (links : List (Link σ)) (k : Nat) : Nat := (List.range k).countP (bridgedAt links)

/-- The first step a node stands for; a bridge stands behind it. -/
def Origin.first : Origin → Nat
  | .step k => k
  | .bridge k => k

/-- Where `splice` puts a node. -/
def place (links : List (Link σ)) : Origin → Nat
  | .step k => k + bridgesBefore links k
  | .bridge k => k + 1 + bridgesBefore links k

theorem bridgesBefore_succ (links : List (Link σ)) (k : Nat) :
    bridgesBefore links (k + 1) = bridgesBefore links k + if bridgedAt links k then 1 else 0 := by
  simp [bridgesBefore, List.range_succ, List.countP_append, List.countP_cons]

theorem bridgesBefore_mono (links : List (Link σ)) {k m : Nat} (h : k ≤ m) :
    bridgesBefore links k ≤ bridgesBefore links m := by
  induction m, h using Nat.le_induction with
  | base => exact Nat.le_refl _
  | succ m _ ih => rw [bridgesBefore_succ]; omega

theorem bridgesBefore_eq_zero {links : List (Link σ)} {k : Nat} :
    bridgesBefore links k = 0 ↔ ∀ j < k, bridgedAt links j = false := by
  simp [bridgesBefore, List.countP_eq_zero]

/-- A later step has a later place. -/
theorem place_step_lt (links : List (Link σ)) {k m : Nat} :
    place links (.step k) < place links (.step m) ↔ k < m := by
  have := bridgesBefore_mono links (k := k) (m := m)
  have := bridgesBefore_mono links (k := m) (m := k)
  simp only [place]
  omega

/-- **Every node of a spliced chain stands at its place.** -/
theorem splicedAfter_place {links : List (Link σ)} :
    ∀ {rest : List (Link σ)} {s : Nat} {a : Link σ}, links.drop s = a :: rest →
      (∀ (j : Nat) (x : Link σ), links[j]? = some x → x.origin = .step j) → ∀ {p : Nat} {x : Link σ},
      (a :: splicedAfter a rest)[p]? = some x → s + bridgesBefore links s + p = place links x.origin := by
  intro rest
  induction rest with
  | nil =>
    intro s a hs origins p x hx
    have ha : a.origin = .step s := origins s a (by rw [← List.head?_drop, hs]; rfl)
    cases p with
    | zero => obtain rfl := Option.some.inj hx; simp [ha, place]
    | succ p => simp [splicedAfter] at hx
  | cons b rest ih =>
    intro s a hs origins p x hx
    have hdrop : links.drop (s + 1) = b :: rest := by
      rw [← List.drop_drop, hs]; rfl
    have hsa : links[s]? = some a := by rw [← List.head?_drop, hs]; rfl
    have hsb : links[s + 1]? = some b := by rw [← List.head?_drop, hdrop]; rfl
    have ha : a.origin = .step s := origins s a hsa
    have hat : bridgedAt links s = decide (Bridged a b) := by simp [bridgedAt, hsa, hsb]
    have hnext := bridgesBefore_succ links s
    cases p with
    | zero => obtain rfl := Option.some.inj hx; simp [ha, place]
    | succ p =>
      rw [List.getElem?_cons_succ] at hx
      unfold splicedAfter at hx
      split at hx
      · rename_i needs
        rw [hat, if_pos (by simpa using needs)] at hnext
        cases p with
        | zero =>
          obtain rfl := Option.some.inj hx
          simp only [bridgeBehind, ha, place]
          omega
        | succ p =>
          rw [List.getElem?_cons_succ] at hx
          have := ih hdrop origins hx
          omega
      · rename_i needs
        rw [hat, if_neg (by simpa using needs)] at hnext
        have := ih hdrop origins hx
        omega

/-! ## The blamed place -/

variable [PluginNode σ] {plan : Plan σ} {ctx : Context σ} {req : Request}

/-- The bridges that the build of a plan splices before step `k`; none if it
does not get that far. -/
def planBridges (plan : Plan σ) (req : Request) (k : Nat) : Nat :=
  match (create plan req).outcome with
  | .ok links => bridgesBefore links k
  | .error _ => 0

theorem create_origin {links : List (Link σ)} (h : (create plan req).outcome = .ok links) :
    ∀ (j : Nat) (x : Link σ), links[j]? = some x → x.origin = .step j := by
  intro j x hx
  have := congrArg (·[j]?) (create_ok h).2.1
  simp only [List.getElem?_map, hx, Option.map_some] at this
  have hj := (List.getElem?_eq_some_iff.mp hx).1
  have hlen := congrArg List.length (create_ok h).2.1
  simp only [List.length_map, List.length_range] at hlen
  rw [List.getElem?_range (by omega)] at this
  exact Option.some.inj this

/-- The place at which a node of the graph is, whatever pass has seen it. -/
theorem place_of_origins {a : Link σ} {rest links : List (Link σ)}
    (hcreate : (create plan req).outcome = .ok (a :: rest))
    (hlinks : links.map (·.origin) = (a :: splicedAfter a rest).map (·.origin)) {p : Nat} {x : Link σ}
    (hx : links[p]? = some x) : p = place (a :: rest) x.origin := by
  have := congrArg (·[p]?) hlinks
  simp only [List.getElem?_map, hx, Option.map_some] at this
  obtain ⟨y, hy, horigin⟩ := Option.map_eq_some_iff.mp this.symm
  have := splicedAfter_place (s := 0) rfl (create_origin hcreate) hy
  simp only [bridgesBefore, List.range_zero, List.countP_nil] at this
  rw [← horigin]
  omega

/-- Where a build reports a rejection. -/
inductive Reported (plan : Plan σ) (req : Request) (r : Rejection) : Prop
  | request (culprit : r.culprit = .request) (step : r.failedStep = 0)
  | step (k : Nat) (culprit : r.culprit = .node (.step k)) (step : r.failedStep = k + planBridges plan req k)
  | bridge (k : Nat) (culprit : r.culprit = .node (.bridge k))
      (step : r.failedStep = k + 1 + planBridges plan req k)
  | edge (k : Nat) (culprit : r.culprit = .edge (.step k) (.step (k + 1)))
      (step : r.failedStep = k + 1 + planBridges plan req k)

/-- **Every rejection is reported at the place of its culprit.** -/
theorem build_reported {inQ outQ : Bool} {r : Rejection} (h : (build plan ctx req inQ outQ).outcome = .error r) :
    Reported plan req r := by
  rcases build_error h with ⟨culprit, step⟩ | ⟨k, step, culprit, hcreate⟩ | ⟨a, rest, hcreate, h⟩
  · exact .request culprit step
  · exact .step k culprit (by simp [planBridges, hcreate, step])
  have bridges : ∀ k, planBridges plan req k = bridgesBefore (a :: rest) k := fun k => by
    simp [planBridges, hcreate]
  have atPlace : ∀ {p : Nat} {o : Origin}, r.culprit = .node o → r.failedStep = p →
      p = place (a :: rest) o → Reported plan req r := by
    intro p o culprit step hp
    cases o with
    | step k => exact .step k culprit (by rw [step, hp, bridges]; rfl)
    | bridge k => exact .bridge k culprit (by rw [step, hp, bridges]; rfl)
  rcases h with h | ⟨unified, hunified, h⟩
  · obtain ⟨p, x, y, hx, hy, stepx, stepy, step, culprit⟩ := unifyEdges_spliced_error (create_ok hcreate).2.2 h
    have hpx := place_of_origins hcreate rfl hx
    have hpy := place_of_origins hcreate rfl hy
    unfold IsStep at stepx stepy
    obtain ⟨k, hk⟩ : ∃ k, x.origin = .step k := by
      cases ho : x.origin with
      | step k => exact ⟨k, rfl⟩
      | bridge k => rw [ho] at stepx; cases stepx
    obtain ⟨m, hm⟩ : ∃ m, y.origin = .step m := by
      cases ho : y.origin with
      | step m => exact ⟨m, rfl⟩
      | bridge m => rw [ho] at stepy; cases stepy
    rw [hk] at hpx culprit
    rw [hm] at hpy culprit
    -- nothing lies between the two places, so the steps are neighbours
    have hkm : k < m := (place_step_lt (a :: rest)).mp (by omega)
    have hmk : ¬k + 1 < m := fun hlt => by
      have hlow := (place_step_lt (a :: rest)).mpr (Nat.lt_add_one k)
      have hhigh := (place_step_lt (a :: rest)).mpr hlt
      omega
    obtain rfl : m = k + 1 := by omega
    refine .edge k culprit ?_
    rw [step, hpx, bridges]
    simp only [place]
    omega
  rcases h with h | ⟨settled, hsettled, h⟩
  · obtain ⟨p, x, hx, -, step, culprit⟩ := configureNodes_error h
    exact atPlace culprit (step.trans (Nat.zero_add p)) (place_of_origins hcreate (unifyEdges_ok hunified).1 hx)
  · obtain ⟨p, x, hx, -, step, culprit⟩ := bindModels_error h
    exact atPlace culprit (step.trans (Nat.zero_add p))
      (place_of_origins hcreate ((configureNodes_ok hsettled).1.trans (unifyEdges_ok hunified).1) hx)

/-- The nodes of a built graph are at their places too. -/
theorem build_ok_place {inQ outQ : Bool} {g : Graph σ} (h : (build plan ctx req inQ outQ).outcome = .ok g)
    {p : Nat} {x : Link σ} (hx : g.links[p]? = some x) :
    ∃ links, (create plan req).outcome = .ok links ∧ p = place links x.origin := by
  unfold build at h
  split at h
  · exact absurd h failStep_ne_ok
  split at h
  · exact absurd h failStep_ne_ok
  rename_i long
  obtain ⟨links, hcreate, h⟩ := Logged.bind_ok h
  obtain ⟨spliced, hsplice, h⟩ := Logged.bind_ok h
  obtain ⟨settled, hnegotiate, h⟩ := Logged.bind_ok h
  obtain ⟨bound, hbind, h⟩ := Logged.bind_ok h
  cases h
  refine ⟨links, hcreate, ?_⟩
  obtain ⟨ready, origins, -⟩ := create_ok hcreate
  cases links with
  | nil =>
    have := congrArg List.length origins
    simp at this
    omega
  | cons a rest =>
    obtain rfl := Except.ok.inj ((splice_ready ready).symm.trans hsplice)
    obtain ⟨unified, hunified, hsettled⟩ := Logged.bind_ok hnegotiate
    exact place_of_origins hcreate
      ((bindModels_ok hbind).trans ((configureNodes_ok hsettled).1.trans (unifyEdges_ok hunified).1)) hx

/-! ## Blame -/

/-- Step `i` is the step of a node; a bridge counts as its two neighbours. -/
def Origin.Covers (o : Origin) (i : Nat) : Prop :=
  match o with
  | .step k => i = k
  | .bridge k => i = k ∨ i = k + 1

/-- Step `i` is the one that rejected, or one that the rejected edge joins. The
checks on the arguments are no step's. -/
def Culprit.Covers (c : Culprit) (i : Nat) : Prop :=
  match c with
  | .request => False
  | .node o => Origin.Covers o i
  | .edge a b => Origin.Covers a i ∨ Origin.Covers b i

/-- No bridge is spliced in front of a node. -/
def NoBridgeBefore (plan : Plan σ) (req : Request) (o : Origin) : Prop :=
  ∀ links, (create plan req).outcome = .ok links → ∀ j < Origin.first o, bridgedAt links j = false

/-- The condition under which a rejection is blamed on the right step. -/
def NoShift (plan : Plan σ) (req : Request) : Culprit → Prop
  | .request => False
  | .node o => NoBridgeBefore plan req o
  | .edge a _ => NoBridgeBefore plan req a

theorem planBridges_eq_zero (plan : Plan σ) (req : Request) (o : Origin) :
    planBridges plan req (Origin.first o) = 0 ↔ NoBridgeBefore plan req o := by
  unfold planBridges NoBridgeBefore
  split
  · rename_i links hlinks
    rw [bridgesBefore_eq_zero]
    exact ⟨fun h links' h' => by cases hlinks.symm.trans h'; exact h, fun h => h links hlinks⟩
  · rename_i e he
    exact ⟨fun _ links' h' => absurd (he.symm.trans h') nofun, fun _ => rfl⟩

/-- **The blamed step.** For every plan and request: a failed build reports the
step that rejected, or one of the two that the rejected edge joins, exactly when
no bridge is spliced before it; a failed open reports the step of the node that
did not open under the same condition; and `advance` moves the reported step and
no other. -/
theorem blame_iff (plan : Plan σ) (ctx : Context σ) (req : Request) (inQ outQ : Bool) :
    (∀ r, (build plan ctx req inQ outQ).outcome = .error r →
      (Culprit.Covers r.culprit r.failedStep ↔ NoShift plan req r.culprit)) ∧
    (∀ g, (build plan ctx req inQ outQ).outcome = .ok g → (openGraph g).2.1 ≠ .ok →
      ∃ x, g.links[(openGraph g).1.failureStep]? = some x ∧ x.node.openNode.2.1 = (openGraph g).2.1 ∧
        (Origin.Covers x.origin (openGraph g).1.failureStep ↔ NoBridgeBefore plan req x.origin)) ∧
    (∀ i moved, plan.advance i = some moved → ∀ k, moved.steps[k]? ≠ plan.steps[k]? ↔ k = i) := by
  refine ⟨?_, ?_, fun i moved h => Plan.advance_moves h⟩
  · intro r h
    cases build_reported h with
    | request culprit step => rw [culprit]; exact Iff.rfl
    | step k culprit step =>
      rw [culprit, step]
      simp only [Culprit.Covers, Origin.Covers, NoShift, ← planBridges_eq_zero, Origin.first]
      omega
    | bridge k culprit step =>
      rw [culprit, step]
      simp only [Culprit.Covers, Origin.Covers, NoShift, ← planBridges_eq_zero, Origin.first]
      omega
    | edge k culprit step =>
      rw [culprit, step]
      simp only [Culprit.Covers, Origin.Covers, NoShift, ← planBridges_eq_zero, Origin.first]
      omega
  · intro g h bad
    have hopen : ∃ links f st added, openNodes 0 g.links = (links, some (f, st), added) ∧
        (openGraph g).1.failureStep = f ∧ (openGraph g).2.1 = st := by
      unfold openGraph at bad ⊢
      split at bad
      · exact absurd rfl bad
      · rename_i links i st added hnodes
        exact ⟨links, i, st, added, hnodes, rfl, rfl⟩
    obtain ⟨links, f, st, added, hnodes, hf, hst⟩ := hopen
    obtain ⟨p, x, hx, hstatus, -, rfl⟩ := openNodes_error hnodes
    rw [Nat.zero_add] at hf
    rw [hf, hst]
    refine ⟨x, hx, hstatus, ?_⟩
    obtain ⟨created, hcreate, hp⟩ := build_ok_place h hx
    have bridges : ∀ k, planBridges plan req k = bridgesBefore created k := fun k => by
      simp [planBridges, hcreate]
    rw [← planBridges_eq_zero, bridges, hp]
    cases x.origin with
    | step k => simp only [Origin.Covers, place, Origin.first]; omega
    | bridge k => simp only [Origin.Covers, place, Origin.first]; omega

/-! ## A transform behind a decoder -/

/-- Decode to dma-bufs, then transform host frames: the first transform does not
accept its ports, the second does. -/
def transformPlan : Plan FixedNode :=
  .betweenQueues [{
    stage := .decode
    candidates := [some (.always "decoder" .decode
      (.stage { fmt := .bitstream } { fmt := .nv12, domain := .dmabuf }))] }, {
    candidates := [
      some (.always "first" .transform (.stage { fmt := .nv12 } { fmt := .nv12 } .negotiate)),
      some (.always "second" .transform (.stage { fmt := .nv12 } { fmt := .nv12 }))] }]

/-- The transform of step 2 rejects; the sink, step 3, is blamed, and has no
other candidate. Moved to its second candidate, step 2 would have been built. -/
theorem bridge_shifts_blame :
    (build transformPlan {} (decodeRequest { fmt := .nv12 })).outcome =
        .error { failedStep := 3, status := .negotiate, culprit := .node (.step 2) } ∧
      ¬Culprit.Covers (.node (.step 2)) 3 ∧
      (transformPlan.advance 3).isNone = true ∧
      ((transformPlan.advance 2).map fun moved =>
        (build moved {} (decodeRequest { fmt := .nv12 })).outcome.isOk) = some true :=
  ⟨rfl, by simp [Culprit.Covers, Origin.Covers], rfl, rfl⟩

end Rkvc.Graph
