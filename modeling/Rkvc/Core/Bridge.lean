import Rkvc.Core.Passes

/-!
# Download bridges

`splice` decides on the ports the nodes desire; `unify` and `configure` judge
the ports that result. The decision asks only that the two sides merge once the
domain is out of the way, and a consumer with an unknown format merges with
everything: it leaves the bridge's output port unresolved, and
`DownloadNode::configure` turns that down. So a bridge is sound exactly in front
of a consumer that names its format (`bridgeSound_iff`), and a chain survives
its splicing exactly when all its bridges are (`bridges_sound_iff`).
-/

namespace Rkvc.Graph
set_option autoImplicit false

open Lib (Logged)

/-! ## One bridge -/

/-- The specs of the bridge's own ports, before negotiation. -/
def bridgeIn : Spec := { domain := .dmabuf }

def bridgeOut : Spec := { domain := .host }

/-- The bridge's ports, resolved. -/
def bridgePorts (inp out : Spec) : List Port :=
  [{ name := "in", isInput := true, desired := bridgeIn, resolved := inp },
    { name := "out", desired := bridgeOut, resolved := out }]

/-- Both new edges unify, and the bridge accepts what they resolve to. -/
def BridgeSound (out inp : Spec) : Prop :=
  ∃ r₁ r₂, unify out bridgeIn = .ok r₁ ∧ unify bridgeOut inp = .ok r₂ ∧
    (downloadConfigure ({}, {}) (bridgePorts r₁ r₂)).2 = .ok

/-- What the decision to splice knows. -/
theorem needsDownloadBridge_spec {out inp : Spec} (h : needsDownloadBridge out inp = true) :
    out.domain = .dmabuf ∧ inp.domain = .host ∧ out.fmt ≠ .unknown ∧ isLinear out = true ∧
      ∃ r, unify { out with domain := .host } inp = .ok r := by
  unfold needsDownloadBridge at h
  split at h
  · cases h
  rename_i domains
  split at h
  · cases h
  rename_i known
  simp only [not_or, ne_eq, Decidable.not_not] at domains known
  refine ⟨domains.1, domains.2, known.1, by simpa using known.2, ?_⟩
  cases hu : unify { out with domain := .host } inp with
  | ok r => exact ⟨r, rfl⟩
  | error e => rw [hu] at h; cases h

/-- Without a bridge, the edge of a consumer that names its format does not unify. -/
theorem needsDownloadBridge_conflict {out inp r : Spec} (h : needsDownloadBridge out inp = true)
    (known : inp.fmt ≠ .unknown) : unify out inp ≠ .ok r := by
  obtain ⟨hout, hin, hfmt, -, -⟩ := needsDownloadBridge_spec h
  intro hr
  have := (unify_known hfmt known hr).2.1
  rw [hout, hin] at this
  cases this

/-- The edges of a bridge resolve to what stands on its two sides. -/
theorem unify_bridge {out : Spec} (inp : Spec) (hfmt : out.fmt ≠ .unknown) :
    unify out bridgeIn = .ok out ∧ unify bridgeOut inp = .ok inp :=
  ⟨unify_unknown_right hfmt rfl, unify_unknown_left inp rfl⟩

theorem downloadConfigure_ok {kept : Spec × Spec} {out inp : Spec} (h : needsDownloadBridge out inp = true) :
    (downloadConfigure kept (bridgePorts out inp)).2 = .ok ↔ inp.fmt ≠ .unknown := by
  obtain ⟨hout, hin, hfmt, linear, r, hr⟩ := needsDownloadBridge_spec h
  by_cases known : inp.fmt = .unknown
  · simp [downloadConfigure, configureBase, bridgePorts, known]
  · have same : out.fmt = inp.fmt := (unify_known (a := { out with domain := .host }) hfmt known hr).1
    simp [downloadConfigure, configureBase, bridgePorts, known, hout, hin, same, linear]

/-- **One bridge is sound exactly when its consumer names a format.** -/
theorem bridgeSound_of_needs {out inp : Spec} (h : needsDownloadBridge out inp = true) :
    BridgeSound out inp ↔ inp.fmt ≠ .unknown := by
  have resolved := unify_bridge inp (needsDownloadBridge_spec h).2.2.1
  rw [← downloadConfigure_ok h]
  constructor
  · rintro ⟨r₁, r₂, h₁, h₂, ok⟩
    obtain rfl := Except.ok.inj (resolved.1.symm.trans h₁)
    obtain rfl := Except.ok.inj (resolved.2.symm.trans h₂)
    exact ok
  · intro ok
    exact ⟨out, inp, resolved.1, resolved.2, ok⟩

/-! ## A spliced chain -/

variable {σ : Type}

/-- A bridge is needed between two nodes. -/
def Bridged (a b : Link σ) : Prop := needsDownloadBridge (outSpec a) (inSpec b) = true

instance (a b : Link σ) : Decidable (Bridged a b) := inferInstanceAs (Decidable (_ = true))

/-- The nodes behind `a`, with their bridges. -/
def splicedAfter (a : Link σ) : List (Link σ) → List (Link σ)
  | [] => []
  | b :: rest =>
    if Bridged a b then bridgeBehind a :: b :: splicedAfter b rest else b :: splicedAfter b rest

/-- Where every edge has its ports, `splice` cannot fail. -/
theorem splice_ready {a : Link σ} {rest : List (Link σ)} {i : Nat} (ready : (a :: rest).IsChain EdgeReady) :
    (splice i (a :: rest)).outcome = .ok (a :: splicedAfter a rest) := by
  induction rest generalizing a i with
  | nil => rfl
  | cons b rest ih =>
    obtain ⟨edge, tail⟩ := List.isChain_cons_cons.mp ready
    obtain ⟨outp, hout⟩ := lastOutput_some edge.1
    obtain ⟨hfirst, inp, hin⟩ := firstInput_eq_lastInput edge.2
    have hb : Bridged a b ↔ needsDownloadBridge outp.resolved inp.resolved = true := by
      simp [Bridged, outSpec, inSpec, hout, hfirst, hin]
    simp only [splice, hout, hfirst.trans hin]
    unfold splicedAfter
    split
    · rename_i needs
      rw [if_pos (hb.mpr needs), Logged.outcome_bind, ih tail]
      rfl
    · rename_i needs
      rw [if_neg (hb.not.mpr needs), Logged.outcome_bind, ih tail]
      rfl

/-- Splicing looks at the output of the node in front only. -/
theorem splicedAfter_resolveIn (b : Link σ) (r : Spec) (rest : List (Link σ)) :
    splicedAfter { b with ports := resolveLast (·.isInput) r b.ports } rest = splicedAfter b rest := by
  cases rest with
  | nil => rfl
  | cons c rest => simp only [splicedAfter, Bridged, outSpec_resolveIn]; rfl

/-- A chain without a bridge is left alone. -/
theorem splicedAfter_none {a : Link σ} {rest : List (Link σ)}
    (h : (a :: rest).IsChain fun a b => ¬Bridged a b) : splicedAfter a rest = rest := by
  induction rest generalizing a with
  | nil => rfl
  | cons b rest ih =>
    obtain ⟨edge, tail⟩ := List.isChain_cons_cons.mp h
    rw [splicedAfter, if_neg edge, ih tail]

/-- The nodes of a spliced chain are those of the chain, and bridges. -/
theorem mem_splicedAfter {a x : Link σ} {rest : List (Link σ)} (h : x ∈ splicedAfter a rest) :
    x ∈ rest ∨ ∃ c, x = bridgeBehind c := by
  induction rest generalizing a with
  | nil => cases h
  | cons b rest ih =>
    unfold splicedAfter at h
    split at h
    · rcases List.mem_cons.mp h with rfl | h
      · exact .inr ⟨a, rfl⟩
      rcases List.mem_cons.mp h with rfl | h
      · exact .inl List.mem_cons_self
      · exact (ih h).imp_left (List.mem_cons_of_mem _)
    · rcases List.mem_cons.mp h with rfl | h
      · exact .inl List.mem_cons_self
      · exact (ih h).imp_left (List.mem_cons_of_mem _)

@[simp] theorem outSpec_bridgeBehind (a : Link σ) : outSpec (bridgeBehind a) = bridgeOut := rfl

/-- An edge into or out of a bridge always unifies. -/
theorem edgeUnifies_bridge (a b : Link σ) :
    EdgeUnifies a (bridgeBehind b) ∧ EdgeUnifies (bridgeBehind a) b := by
  refine ⟨?_, _, unify_unknown_left _ rfl⟩
  by_cases hfmt : (outSpec a).fmt = .unknown
  · exact ⟨_, unify_unknown_left _ hfmt⟩
  · exact ⟨_, unify_unknown_right hfmt rfl⟩

/-! ## The whole chain -/

/-- A node of the plan, as opposed to a spliced one. -/
def IsStep (a : Link σ) : Prop := a.origin.isStep = true

theorem createNodes_isStep [PluginNode σ] {req : Request} {srcSpec : Spec} {n i : Nat}
    {steps : List (PlanStep σ)} {links : List (Link σ)}
    (h : (createNodes req srcSpec n i steps).outcome = .ok links) : ∀ a ∈ links, IsStep a := by
  intro a ha
  have := List.mem_map_of_mem (f := (·.origin)) ha
  rw [createNodes_origins h, List.mem_map] at this
  obtain ⟨k, -, hk⟩ := this
  rw [IsStep, ← hk]
  rfl

/-- Where a bridge goes in, the consumer names its format. -/
def NamesFormat (a b : Link σ) : Prop := Bridged a b → (inSpec b).fmt ≠ .unknown

instance (a b : Link σ) : Decidable (NamesFormat a b) := inferInstanceAs (Decidable (_ → _))

theorem namesFormat_resolveIn {b c : Link σ} (r : Spec) :
    NamesFormat { b with ports := resolveLast (·.isInput) r b.ports } c ↔ NamesFormat b c := by
  simp only [NamesFormat, Bridged, outSpec_resolveIn]

/-- A fact about the edge behind a node survives resolving the node's input. -/
theorem isChain_resolveIn {R : Link σ → Link σ → Prop} {b : Link σ} {rest : List (Link σ)} {r : Spec}
    (hR : ∀ c, R b c → R { b with ports := resolveLast (·.isInput) r b.ports } c)
    (h : (b :: rest).IsChain R) :
    ({ b with ports := resolveLast (·.isInput) r b.ports } :: rest).IsChain R := by
  cases rest with
  | nil => exact .singleton _
  | cons c rest =>
    rw [List.isChain_cons_cons] at h ⊢
    exact ⟨hR c h.1, h.2⟩

variable [PluginNode σ]

/-- **Where consumers name their formats, every bridge accepts its ports.** The
induction follows the edge loop: a bridge meets first what its producer offers,
then what its consumer asks for. -/
theorem bridges_accept {a : Link σ} {rest links : List (Link σ)} {i : Nat} (step : IsStep a)
    (steps : ∀ b ∈ rest, IsStep b) (ready : (a :: rest).IsChain EdgeReady)
    (names : (a :: rest).IsChain NamesFormat)
    (h : (unifyEdges i a (splicedAfter a rest)).outcome = .ok links) :
    ∀ x ∈ links, ¬IsStep x → (x.node.configure x.ports).2.2 = .ok := by
  induction rest generalizing i a links with
  | nil =>
    cases h
    rintro x hx bad
    rw [List.mem_singleton.mp hx] at bad
    exact absurd step bad
  | cons b rest ih =>
    obtain ⟨edge, ready⟩ := List.isChain_cons_cons.mp ready
    obtain ⟨named, names⟩ := List.isChain_cons_cons.mp names
    obtain ⟨stepb, steps⟩ := List.forall_mem_cons.mp steps
    have go : ∀ {j r tail}, (unifyEdges j { b with ports := resolveLast (·.isInput) r b.ports }
        (splicedAfter b rest)).outcome = .ok tail →
        ∀ x ∈ tail, ¬IsStep x → (x.node.configure x.ports).2.2 = .ok := by
      intro j r tail htail
      rw [← splicedAfter_resolveIn b r] at htail
      exact ih (a := { b with ports := resolveLast (·.isInput) r b.ports }) stepb steps
        (isChain_resolveIn (fun c => (edgeReady_resolveIn r).mpr) ready)
        (isChain_resolveIn (fun c => (namesFormat_resolveIn r).mpr) names) htail
    unfold splicedAfter at h
    split at h
    · rename_i needs
      obtain ⟨r₁, links, h₁, hbridge, rfl⟩ := unifyEdges_cons h
      obtain ⟨r₂, tail, h₂, htail, rfl⟩ := unifyEdges_cons hbridge
      have resolved := unify_bridge (inSpec b) (needsDownloadBridge_spec needs).2.2.1
      obtain rfl := Except.ok.inj (resolved.1.symm.trans h₁)
      have hin : inSpec b = ((lastInput b.ports).getD {}).resolved := by
        rw [inSpec, (firstInput_eq_lastInput edge.2).1]
      rw [outSpec_resolveIn, outSpec_bridgeBehind, ← hin] at h₂
      obtain rfl := Except.ok.inj (resolved.2.symm.trans h₂)
      rintro x hx bad
      rcases List.mem_cons.mp hx with rfl | hx
      · exact absurd step bad
      rcases List.mem_cons.mp hx with rfl | hx
      · exact (downloadConfigure_ok needs).mpr (named needs)
      · exact go htail x hx bad
    · obtain ⟨r, tail, -, htail, rfl⟩ := unifyEdges_cons h
      rintro x hx bad
      rcases List.mem_cons.mp hx with rfl | hx
      · exact absurd step bad
      · exact go htail x hx bad

/-! ## The passes over a spliced chain -/

/-- Bridges are download nodes, before and after they are configured. -/
def BridgesDownload (links : List (Link σ)) : Prop :=
  ∀ x ∈ links, ¬IsStep x → ∃ kept, x.node = .download kept

omit [PluginNode σ] in
theorem splicedAfter_download {a : Link σ} {rest : List (Link σ)} (steps : ∀ b ∈ a :: rest, IsStep b) :
    BridgesDownload (a :: splicedAfter a rest) := by
  intro x hx bad
  rcases List.mem_cons.mp hx with rfl | hx
  · exact absurd (steps _ List.mem_cons_self) bad
  rcases mem_splicedAfter hx with hx | ⟨c, rfl⟩
  · exact absurd (steps x (List.mem_cons_of_mem _ hx)) bad
  · exact ⟨_, rfl⟩

omit [PluginNode σ] in
theorem unifyEdges_download {rest links : List (Link σ)} {i : Nat} {a : Link σ}
    (h : (unifyEdges i a rest).outcome = .ok links) (down : BridgesDownload (a :: rest)) :
    BridgesDownload links := by
  induction rest generalizing i a links with
  | nil => cases h; exact down
  | cons b rest ih =>
    obtain ⟨r, tail, -, htail, rfl⟩ := unifyEdges_cons h
    obtain ⟨ha, hrest⟩ := List.forall_mem_cons.mp down
    obtain ⟨hb, hrest⟩ := List.forall_mem_cons.mp hrest
    exact List.forall_mem_cons.mpr ⟨ha, ih htail (List.forall_mem_cons.mpr ⟨hb, hrest⟩)⟩

theorem configureNodes_download {links links' : List (Link σ)} {i : Nat}
    (h : (configureNodes i links).outcome = .ok links') (down : BridgesDownload links) :
    BridgesDownload links' := by
  induction links generalizing i links' with
  | nil => cases h; exact down
  | cons a rest ih =>
    unfold configureNodes at h
    dsimp only at h
    split at h
    · obtain ⟨_, -, h⟩ := Logged.bind_ok h
      obtain ⟨_, h, -⟩ := Logged.bind_ok h
      cases h
    obtain ⟨tail, htail, h⟩ := Logged.bind_ok h
    cases h
    obtain ⟨ha, hrest⟩ := List.forall_mem_cons.mp down
    refine List.forall_mem_cons.mpr ⟨?_, ih htail hrest⟩
    intro bad
    obtain ⟨kept, hkept⟩ := ha bad
    exact ⟨(downloadConfigure kept a.ports).1, by simp only [hkept]; rfl⟩

omit [PluginNode σ] in
/-- An edge of a spliced chain that does not unify joins two steps. -/
theorem unifyEdges_spliced_error {a : Link σ} {rest : List (Link σ)} {r : Rejection}
    (steps : ∀ b ∈ a :: rest, IsStep b) (h : (unifyEdges 0 a (splicedAfter a rest)).outcome = .error r) :
    ∃ p x y, (a :: splicedAfter a rest)[p]? = some x ∧ (a :: splicedAfter a rest)[p + 1]? = some y ∧
      IsStep x ∧ IsStep y ∧ r.failedStep = p + 1 ∧ r.culprit = .edge x.origin y.origin := by
  obtain ⟨p, x, y, hx, hy, bad, step, culprit⟩ := unifyEdges_error h
  have isStep : ∀ z ∈ a :: splicedAfter a rest, (∀ c, z ≠ bridgeBehind c) → IsStep z := by
    intro z hz hne
    rcases List.mem_cons.mp hz with rfl | hz
    · exact steps _ List.mem_cons_self
    rcases mem_splicedAfter hz with hz | ⟨c, rfl⟩
    · exact steps z (List.mem_cons_of_mem _ hz)
    · exact absurd rfl (hne c)
  refine ⟨p, x, y, hx, hy, isStep x (List.mem_of_getElem? hx) ?_, isStep y (List.mem_of_getElem? hy) ?_,
    by omega, culprit⟩
  · rintro c rfl
    exact bad (edgeUnifies_bridge c y).2
  · rintro c rfl
    exact bad (edgeUnifies_bridge x c).1

/-! ## Building -/

variable {plan : Plan σ} {ctx : Context σ} {req : Request}

/-- A created chain: its nodes stand for steps, and its edges have their ports. -/
theorem create_ok {links : List (Link σ)} (h : (create plan req).outcome = .ok links) :
    links.IsChain EdgeReady ∧ links.map (·.origin) = (List.range plan.steps.length).map .step ∧
      ∀ a ∈ links, IsStep a := by
  obtain ⟨srcSpec, -, h⟩ := Logged.bind_ok h
  refine ⟨createNodes_ready (by simp) h, ?_, createNodes_isStep h⟩
  rw [createNodes_origins h, List.range_eq_range']

omit [PluginNode σ] in
theorem sourceSpec_error {r : Rejection} (h : (sourceSpec req).outcome = .error r) :
    r.culprit = .request ∧ r.failedStep = 0 := by
  have dim : ∀ {stated demanded : Nat} {reason : String},
      (demandDim stated demanded reason).outcome = .error r → r.culprit = .request ∧ r.failedStep = 0 := by
    intro stated demanded reason h
    unfold demandDim at h
    split at h
    · cases failStep_error h; exact ⟨rfl, rfl⟩
    · cases h
  rcases Logged.bind_error h with h | ⟨_, -, h⟩
  · exact dim h
  rcases Logged.bind_error h with h | ⟨_, -, h⟩
  · exact dim h
  · cases h

/-- The five places in which `Graph::build` can stop. -/
theorem build_error {inQ outQ : Bool} {r : Rejection} (h : (build plan ctx req inQ outQ).outcome = .error r) :
    (r.culprit = .request ∧ r.failedStep = 0) ∨
    (∃ k, r.failedStep = k ∧ r.culprit = .node (.step k) ∧ (create plan req).outcome = .error r) ∨
    ∃ a rest, (create plan req).outcome = .ok (a :: rest) ∧
      ((unifyEdges 0 a (splicedAfter a rest)).outcome = .error r ∨
        ∃ unified, (unifyEdges 0 a (splicedAfter a rest)).outcome = .ok unified ∧
          ((configureNodes 0 unified).outcome = .error r ∨
            ∃ settled, (configureNodes 0 unified).outcome = .ok settled ∧
              (bindModels ctx req 0 settled).outcome = .error r)) := by
  unfold build at h
  split at h
  · cases failStep_error h; exact .inl ⟨rfl, rfl⟩
  split at h
  · cases failStep_error h; exact .inl ⟨rfl, rfl⟩
  rename_i long
  rcases Logged.bind_error h with hcreate | ⟨links, hcreate, h⟩
  · rcases Logged.bind_error hcreate with hsrc | ⟨_, -, hnodes⟩
    · exact .inl (sourceSpec_error hsrc)
    · obtain ⟨k, step, culprit⟩ := createNodes_error hnodes
      exact .inr (.inl ⟨k, step, culprit, hcreate⟩)
  obtain ⟨ready, origins, -⟩ := create_ok hcreate
  cases links with
  | nil =>
    have := congrArg List.length origins
    simp at this
    omega
  | cons a rest =>
    refine .inr (.inr ⟨a, rest, hcreate, ?_⟩)
    rw [Logged.outcome_bind, splice_ready ready] at h
    rcases Logged.bind_error h with h | ⟨settled, hsettled, h⟩
    · rcases Logged.bind_error h with h | ⟨unified, hunified, h⟩
      · exact .inl h
      · exact .inr ⟨unified, hunified, .inl h⟩
    · obtain ⟨unified, hunified, hsettled⟩ := Logged.bind_ok hsettled
      rcases Logged.bind_error h with h | ⟨_, -, h⟩
      · exact .inr ⟨unified, hunified, .inr ⟨settled, hsettled, h⟩⟩
      · cases h

/-- A bridge, or an edge of one, rejects. -/
def Culprit.AtBridge : Culprit → Prop
  | .request => False
  | .node o => o.isStep = false
  | .edge a b => a.isStep = false ∨ b.isStep = false

/-- Where consumers name their formats, no build is rejected at a bridge. -/
theorem build_not_atBridge {links : List (Link σ)} {inQ outQ : Bool} {r : Rejection}
    (hlinks : (create plan req).outcome = .ok links) (names : links.IsChain NamesFormat)
    (h : (build plan ctx req inQ outQ).outcome = .error r) : ¬Culprit.AtBridge r.culprit := by
  obtain ⟨ready, -, steps⟩ := create_ok hlinks
  rcases build_error h with ⟨culprit, -⟩ | ⟨k, -, culprit, -⟩ | ⟨a, rest, hcreate, h⟩
  · rw [culprit]; exact id
  · rw [culprit]; exact Bool.noConfusion
  obtain rfl := Except.ok.inj (hlinks.symm.trans hcreate)
  rcases h with h | ⟨unified, hunified, h⟩
  · obtain ⟨p, x, y, -, -, hx, hy, -, culprit⟩ := unifyEdges_spliced_error steps h
    rw [culprit]
    rintro (bad | bad)
    · exact absurd (hx.symm.trans bad) nofun
    · exact absurd (hy.symm.trans bad) nofun
  rcases h with h | ⟨settled, hsettled, h⟩
  · obtain ⟨p, x, hx, bad, -, culprit⟩ := configureNodes_error h
    rw [culprit]
    intro hbridge
    refine bad (bridges_accept (steps a List.mem_cons_self) (fun b hb => steps b (List.mem_cons_of_mem _ hb))
      ready names hunified x (List.mem_of_getElem? hx) ?_)
    exact fun hstep => absurd (hstep.symm.trans hbridge) nofun
  · obtain ⟨p, x, hx, wants, -, culprit⟩ := bindModels_error h
    rw [culprit]
    intro hbridge
    have down := configureNodes_download hsettled (unifyEdges_download hunified (splicedAfter_download steps))
    obtain ⟨kept, hkept⟩ := down x (List.mem_of_getElem? hx)
      (fun hstep => absurd (hstep.symm.trans hbridge) nofun)
    rw [hkept] at wants
    cases wants

/-- **Download bridges are sound exactly where consumers name their formats.**
For the chain a plan creates: every bridge that is spliced in has edges that
unify and ports it accepts, a chain that negotiates without bridges negotiates
as before once it is spliced, and no build is rejected at a bridge. -/
theorem bridges_sound_iff {links : List (Link σ)} (hlinks : (create plan req).outcome = .ok links) :
    (links.IsChain (fun a b => Bridged a b → BridgeSound (outSpec a) (inSpec b)) ∧
      (∀ settled, (negotiate links).outcome = .ok settled →
        (splice 0 links >>= negotiate).outcome = .ok settled) ∧
      ∀ inQ outQ r, (build plan ctx req inQ outQ).outcome = .error r → ¬Culprit.AtBridge r.culprit) ↔
    links.IsChain NamesFormat := by
  constructor
  · rintro ⟨sound, -, -⟩
    exact sound.imp fun a b h needs => (bridgeSound_of_needs needs).mp (h needs)
  intro names
  obtain ⟨ready, -, -⟩ := create_ok hlinks
  refine ⟨names.imp fun a b h needs => (bridgeSound_of_needs needs).mpr (h needs), ?_,
    fun inQ outQ r => build_not_atBridge hlinks names⟩
  intro settled h
  cases links with
  | nil => exact h
  | cons a rest =>
    obtain ⟨unified, hunified, -⟩ := Logged.bind_ok h
    have unifies := (unifyEdges_ok hunified).2
    have none : (a :: rest).IsChain fun a b => ¬Bridged a b := by
      rw [List.isChain_iff_getElem] at names unifies ready ⊢
      intro i hi needs
      obtain ⟨r, hr⟩ := unifies i hi
      rw [← (firstInput_eq_lastInput (ready i hi).2).1] at hr
      exact needsDownloadBridge_conflict needs (names i hi needs) hr
    rw [Logged.outcome_bind, splice_ready ready, splicedAfter_none none]
    exact h

/-! ## A decoder in front of a sink -/

/-- A decoder that emits NV12 as dma-bufs, between two queues. -/
def decodePlan : Plan FixedNode :=
  .betweenQueues [{
    stage := .decode
    candidates := [some (.always "decoder" .decode
      (.stage { fmt := .bitstream } { fmt := .nv12, domain := .dmabuf }))] }]

/-- Decode into `outputSpec`. -/
def decodeRequest (outputSpec : Spec) : Request where
  operation := .decode
  inputSpec := { fmt := .bitstream }
  outputSpec

/-- The chain of the plan, for a caller that takes NV12. -/
def decodeChain : List (Link FixedNode) :=
  match (create decodePlan (decodeRequest { fmt := .nv12 })).outcome with
  | .ok links => links
  | .error _ => []

theorem bridges_sound_nv12 :
    decodeChain.IsChain (fun a b => Bridged a b → BridgeSound (outSpec a) (inSpec b)) ∧
      (build decodePlan {} (decodeRequest { fmt := .nv12 })).outcome.isOk = true :=
  ⟨((@bridges_sound_iff _ _ decodePlan {} (decodeRequest { fmt := .nv12 }) decodeChain rfl).mpr (by decide)).1, rfl⟩

/-- The caller that leaves the format open: its chain negotiates without the
bridge, and is rejected at the bridge with it. -/
theorem open_format_rejected :
    (create decodePlan (decodeRequest {}) >>= negotiate).outcome.isOk = true ∧
      (build decodePlan {} (decodeRequest {})).outcome =
        .error { failedStep := 2, status := .negotiate, culprit := .node (.bridge 1) } :=
  ⟨rfl, rfl⟩

end Rkvc.Graph
