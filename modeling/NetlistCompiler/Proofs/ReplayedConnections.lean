import NetlistCompiler.Proofs.BuiltModules
import NetlistCompiler.Proofs.Replay

/-!
# Replayed connections

Once nodes stand at corresponding places, references give corresponding ends, and connecting
corresponding ends joins corresponding wires.
-/

namespace NetlistCompiler

open Construct

namespace Replay

/-- The node of the first construction stands at a place in the second one. -/
def Stands (ρ : Placement) (b : Body) (a a' : Nat) : Prop :=
  ∃ n n', b.module.nodes[a]? = some n ∧ ρ a = some (a', n')

/-- Names refer to nodes at corresponding places. -/
def Visible (ρ : Placement) (b : Body) (σ : Scopes) : Prop :=
  ∀ name, Option.Rel (Stands ρ b) (b.scopes.findSome? fun scope => scope.lookup name)
    (σ.findSome? fun scope => scope.lookup name)

lemma Stands.mono {ρ ρ' : Placement} {b b' : Body} {a a' : Nat} (h : Stands ρ b a a')
    (hρ : ρ.Extends ρ') (hb : b.module.Begins b'.module) : Stands ρ' b' a a' := by
  obtain ⟨n, n', hn, hplace⟩ := h
  exact ⟨n, n', getElem?_of_isPrefix hb.nodes hn, hρ _ _ hplace⟩

lemma optionRel_mono {α β : Type} {R S : α → β → Prop} (hRS : ∀ a b, R a b → S a b) {x : Option α}
    {y : Option β} (h : Option.Rel R x y) : Option.Rel S x y := by
  cases h with
  | some hab => exact .some (hRS _ _ hab)
  | none => exact .none

lemma lasting_visible : Lasting Visible := by
  intro ρ ρ' b b' σ hρ hb hscopes h name
  rw [hscopes]
  exact optionRel_mono (fun a a' hstands => hstands.mono hρ hb) (h name)

end Replay

/-- The ports of a node and of the node at the corresponding place. -/
def Replay.PortStands (ρ : Placement) (b : Body) (a a' : Nat) (side : Side) (port : Nat)
    (q q' : Port) : Prop :=
  ∃ n n', b.module.nodes[a]? = some n ∧ ρ a = some (a', n') ∧ (n.ports side)[port]? = some q ∧
    (n'.ports side)[port]? = some q'

/-- The ends are on corresponding ports, and at the same place in them. -/
structure Endpoint.PlacedAs (b : Body) (ρ : Placement) (side : Side) (e e' : Endpoint) : Prop where
  port : e'.port = e.port
  whole : e'.whole = e.whole
  tree : ∃ q q', Replay.PortStands ρ b e.node e'.node side e.port q q' ∧ q.kind = q'.kind ∧
    e.tree.Like (q.shape.SameWire q'.shape) e'.tree

structure Ends.PlacedAs (b : Body) (ρ : Placement) (x x' : Ends) : Prop where
  sinks : List.Forall₂ (Endpoint.PlacedAs b ρ .input) x.sinks x'.sinks
  sources : List.Forall₂ (Endpoint.PlacedAs b ρ .output) x.sources x'.sources

lemma Replay.PortStands.mono {ρ ρ' : Placement} {b b' : Body} {a a' : Nat} {side : Side}
    {port : Nat} {q q' : Port} (h : PortStands ρ b a a' side port q q') (hρ : ρ.Extends ρ')
    (hb : b.module.Begins b'.module) : PortStands ρ' b' a a' side port q q' := by
  obtain ⟨n, n', hn, hplace, hports⟩ := h
  exact ⟨n, n', getElem?_of_isPrefix hb.nodes hn, hρ _ _ hplace, hports⟩

lemma Endpoint.PlacedAs.mono {ρ ρ' : Placement} {b b' : Body} {side : Side} {e e' : Endpoint}
    (h : e.PlacedAs b ρ side e') (hρ : ρ.Extends ρ') (hb : b.module.Begins b'.module) :
    e.PlacedAs b' ρ' side e' := by
  obtain ⟨q, q', hstands, hrest⟩ := h.tree
  exact ⟨h.port, h.whole, q, q', hstands.mono hρ hb, hrest⟩

lemma Ends.PlacedAs.mono {ρ ρ' : Placement} {b b' : Body} {x x' : Ends} (h : x.PlacedAs b ρ x')
    (hρ : ρ.Extends ρ') (hb : b.module.Begins b'.module) : x.PlacedAs b' ρ' x' :=
  ⟨h.sinks.imp fun _ _ he => he.mono hρ hb, h.sources.imp fun _ _ he => he.mono hρ hb⟩

/-! ### Ends of nodes -/

lemma Body.endsOf_placedAs {ρ : Placement} {b t : Body} {a a' : Nat} (h : Replay.Stands ρ b a a')
    (hview : Replay.View ρ b t) :
    (Body.endsOf b.module a).PlacedAs b ρ (Body.endsOf t.module a') := by
  obtain ⟨n, n', hn, hplace⟩ := h
  have ht := hview.stands a _ hplace
  have hresembles := hview.resembles a _ n hplace hn
  have hside : ∀ side, List.Forall₂ (Endpoint.PlacedAs b ρ side) (Body.endpoints b.module a side)
      (Body.endpoints t.module a' side) := by
    intro side
    unfold Body.endpoints Module.portsOf
    dsimp only at ht
    rw [hn, ht]
    refine forall₂_mapIdx (hresembles.ports side) ?_
    intro i q q' hq hq' hqq'
    exact ⟨rfl, rfl, q, q', ⟨n, n', hn, hplace, hq, hq'⟩, hqq'.kind, PortTree.ofShape_like hqq'.shape⟩
  exact ⟨hside .input, hside .output⟩

namespace Construct

variable {c c' : BodyContext}

lemma access_like (hb : c.bindings.Like c'.bindings) {Q : Nat → Nat → Prop} {t t' u : PortTree}
    (ht : t.Like Q t') {a : Accessor} (h : access c t a = .ok u) :
    ∃ u', access c' t' a = .ok u' ∧ u.Like Q u' := by
  have hrange : ∀ {place : Int64} {length i : Nat}, inRange c place length = .ok i →
      inRange c' place length = .ok i := by
    intro place length i hi
    unfold inRange at hi ⊢
    split at hi
    · next hbounds =>
      cases hi
      exact if_pos hbounds
    · cases hi
  have hlength : ∀ {kind : String} {n : Nat}, vectorLength c t kind = .ok n →
      vectorLength c' t' kind = .ok n := by
    intro kind n hn
    unfold vectorLength at hn ⊢
    rw [← ht.length?]
    cases hl : t.length? with
    | none =>
      rw [hl] at hn
      cases hn
    | some m =>
      rw [hl] at hn
      exact hn
  cases a with
  | member name =>
    have hmember := ht.member? name
    simp only [access] at h ⊢
    generalize t.member? name = x at h hmember
    generalize t'.member? name = y at hmember
    cases hmember with
    | none => cases h
    | some hlike =>
      cases h
      exact ⟨_, rfl, hlike⟩
  | «index» place =>
    obtain ⟨n, hn, hrest⟩ := exists_of_bind_eq_ok h
    obtain ⟨value, hvalue, hrest⟩ := exists_of_bind_eq_ok hrest
    obtain ⟨i, hi, hrest⟩ := exists_of_bind_eq_ok hrest
    have hitem := ht.item? i
    rw [StaticExpr.eval_congr hb] at hvalue
    simp only [access, hlength hn, hvalue, hrange hi, bind, Except.bind]
    generalize t.item? i = x at hrest hitem
    generalize t'.item? i = y at hitem
    cases hitem with
    | none => cases hrest
    | some hlike =>
      cases hrest
      exact ⟨_, rfl, hlike⟩
  | slice first last =>
    obtain ⟨n, hn, hrest⟩ := exists_of_bind_eq_ok h
    obtain ⟨start, hstart, hrest⟩ := exists_of_bind_eq_ok hrest
    obtain ⟨stop, hstop, hrest⟩ := exists_of_bind_eq_ok hrest
    obtain ⟨i, hi, hrest⟩ := exists_of_bind_eq_ok hrest
    obtain ⟨j, hj, hrest⟩ := exists_of_bind_eq_ok hrest
    have hslice := ht.slice? i j
    rw [StaticExpr.eval_congr hb] at hstart hstop
    simp only [access, hlength hn, hstart, hstop, hrange hi, hrange hj, bind, Except.bind]
    by_cases hordered : j < i
    · rw [if_pos hordered] at hrest
      cases hrest
    · rw [if_neg hordered] at hrest ⊢
      dsimp only at hrest ⊢
      generalize t.slice? i j = x at hrest hslice
      generalize t'.slice? i j = y at hslice
      cases hslice with
      | none => cases hrest
      | some hlike =>
        cases hrest
        exact ⟨_, rfl, hlike⟩

lemma accessEndpoint_placedAs (hb : c.bindings.Like c'.bindings) {b : Body} {ρ : Placement}
    {side : Side} {a : Accessor} (e e' : Endpoint) (he : e.PlacedAs b ρ side e') (d : Endpoint)
    (h : accessEndpoint c a e = .ok d) :
    ∃ d', accessEndpoint c' a e' = .ok d' ∧ d.PlacedAs b ρ side d' := by
  obtain ⟨u, hu, hend⟩ := exists_of_bind_eq_ok h
  cases hend
  obtain ⟨q, q', hstands, hkind, hlike⟩ := he.tree
  obtain ⟨u', hu', hlike'⟩ := access_like hb hlike hu
  refine ⟨{ e' with tree := u', whole := false }, ?_, he.port, rfl, q, q', hstands, hkind, hlike'⟩
  unfold accessEndpoint
  rw [hu']
  rfl

lemma accessEnds_placedAs (hb : c.bindings.Like c'.bindings) {b : Body} {ρ : Placement}
    {accessors : List Accessor} {x x' y : Ends} (hx : x.PlacedAs b ρ x')
    (h : accessEnds c x accessors = .ok y) :
    ∃ y', accessEnds c' x' accessors = .ok y' ∧ y.PlacedAs b ρ y' := by
  induction accessors generalizing x x' with
  | nil =>
    cases h
    exact ⟨x', rfl, hx⟩
  | cons a rest ih =>
    obtain ⟨sinks, hsinks, hrest⟩ := exists_of_bind_eq_ok h
    obtain ⟨sources, hsources, hrest⟩ := exists_of_bind_eq_ok hrest
    obtain ⟨sinks', hsinks', hrel⟩ :=
      exists_mapM_of_forall₂ (accessEndpoint_placedAs hb) hx.sinks hsinks
    obtain ⟨sources', hsources', hrel'⟩ :=
      exists_mapM_of_forall₂ (accessEndpoint_placedAs hb) hx.sources hsources
    obtain ⟨y', hy', hplaced⟩ := ih (show Ends.PlacedAs _ _ _ ⟨sinks', sources'⟩ from ⟨hrel, hrel'⟩) hrest
    refine ⟨y', ?_, hplaced⟩
    rw [accessEnds, hsinks', hsources']
    exact hy'

/-- The ends that a reference to a node stands for. -/
def referenceEnds (c : BodyContext) (m : Module) (id : Nat) (name : String)
    (accessors : List Accessor) : Except BuildError Ends :=
  match m.nodes[id]?, accessors with
  | some n, .member port :: rest =>
    if hasNamedPorts n then
      let selected := selectPort n port (Body.endsOf m id)
      if selected.sinks.isEmpty && selected.sources.isEmpty then
        .error (.unresolvedPort c.label s!"{name}.{port}")
      else accessEnds c selected rest
    else accessEnds c (Body.endsOf m id) accessors
  | _, _ => accessEnds c (Body.endsOf m id) accessors

lemma reference_eq (c : BodyContext) (name : String) (accessors : List Accessor) :
    reference c name accessors = (do
      let id ← lookup c name
      let b ← get
      referenceEnds c b.module id name accessors) := by
  unfold reference
  refine congrArg _ (funext fun id => congrArg _ (funext fun b => ?_))
  unfold referenceEnds
  dsimp only
  generalize b.module.nodes[id]? = found
  rcases found with _ | n
  · rfl
  · rcases accessors with _ | ⟨_ | _ | _, rest⟩
    · rfl
    · dsimp only
      split
      · split <;> rfl
      · rfl
    · rfl
    · rfl

lemma hasNamedPorts_congr {n n' : Node} (h : n.kind.Like n'.kind) :
    hasNamedPorts n = hasNamedPorts n' := by
  unfold hasNamedPorts
  generalize n.kind = k at h
  generalize n'.kind = k' at h
  cases h <;> rfl

lemma selectPort_placedAs {b : Body} {ρ : Placement} {n n' : Node} (hresembles : n.Resembles n')
    (hnamed : hasNamedPorts n = true) (port : String) {x x' : Ends} (hx : x.PlacedAs b ρ x') :
    (selectPort n port x).PlacedAs b ρ (selectPort n' port x') := by
  have hpass : n.kind ≠ .pass := by
    intro hkind
    simp [hasNamedPorts, hkind] at hnamed
  have hfilter : ∀ side (es es' : List Endpoint),
      List.Forall₂ (Endpoint.PlacedAs b ρ side) es es' →
      List.Forall₂ (Endpoint.PlacedAs b ρ side)
        (es.filter fun e => ((n.ports side)[e.port]?.map fun p => p.name == port).getD false)
        (es'.filter fun e => ((n'.ports side)[e.port]?.map fun p => p.name == port).getD false) := by
    intro side es es' h
    induction h with
    | nil => exact .nil
    | @cons e e' es es' he _ ih =>
      have hsame : ((n.ports side)[e.port]?.map fun p => p.name == port).getD false =
          ((n'.ports side)[e'.port]?.map fun p => p.name == port).getD false := by
        have hget := forall₂_getElem? (hresembles.ports side) e.port
        rw [he.port]
        generalize (n.ports side)[e.port]? = q at hget
        generalize (n'.ports side)[e.port]? = q' at hget
        cases hget with
        | none => rfl
        | some hq =>
          rcases hq.name with hname | ⟨hkind, -⟩
          · simp [hname]
          · exact absurd hkind hpass
      rw [List.filter_cons, List.filter_cons, hsame]
      split
      · exact .cons he ih
      · exact ih
  exact ⟨hfilter .input _ _ hx.sinks, hfilter .output _ _ hx.sources⟩

lemma referenceEnds_placedAs (hb : c.bindings.Like c'.bindings) {b t : Body} {ρ : Placement}
    {a a' : Nat} (hstands : Replay.Stands ρ b a a') (hview : Replay.View ρ b t) {name : String}
    {accessors : List Accessor} {x : Ends}
    (h : referenceEnds c b.module a name accessors = .ok x) :
    ∃ x', referenceEnds c' t.module a' name accessors = .ok x' ∧ x.PlacedAs b ρ x' := by
  have hends := Body.endsOf_placedAs hstands hview
  obtain ⟨n, n', hn, hplace⟩ := hstands
  have ht : t.module.nodes[a']? = some n' := hview.stands a _ hplace
  have hresembles := hview.resembles a _ n hplace hn
  unfold referenceEnds at h ⊢
  rw [hn] at h
  rw [ht]
  cases accessors with
  | nil => exact accessEnds_placedAs hb hends h
  | cons accessor rest =>
    cases accessor with
    | member port =>
      dsimp only at h ⊢
      rw [← hasNamedPorts_congr hresembles.kind]
      split at h
      · next hnamed =>
        have hselected := selectPort_placedAs hresembles hnamed port hends
        rw [if_pos hnamed]
        split at h
        · cases h
        · next hempty =>
          rw [isEmpty_eq_of_forall₂ hselected.sinks, isEmpty_eq_of_forall₂ hselected.sources] at hempty
          rw [if_neg hempty]
          exact accessEnds_placedAs hb hselected h
      · next hnamed =>
        rw [if_neg hnamed]
        exact accessEnds_placedAs hb hends h
    | «index» place => exact accessEnds_placedAs hb hends h
    | slice first last => exact accessEnds_placedAs hb hends h

end Construct

/-! ### References -/

namespace Replay

variable {V : Replay} {α β : Type} {c c' : BodyContext}

instance : Nonempty Body :=
  ⟨⟨.empty (.plain "") [] [], [], 0⟩⟩

instance : Nonempty Ends :=
  ⟨.none⟩

lemma Lasting.and {P P' : Placement → Body → Scopes → Prop} (h : Lasting P) (h' : Lasting P') :
    Lasting fun ρ b σ => P ρ b σ ∧ P' ρ b σ := by
  rintro ρ ρ' b b' σ hρ hb hscopes ⟨hP, hP'⟩
  exact ⟨h ρ ρ' b b' σ hρ hb hscopes hP, h' ρ ρ' b b' σ hρ hb hscopes hP'⟩

lemma lasting_stands (a a' : Nat) : Lasting fun ρ b _ => Stands ρ b a a' :=
  fun _ _ _ _ _ hρ hb _ h => h.mono hρ hb

lemma lasting_endsPlacedAs (x x' : Ends) : Lasting fun ρ b _ => x.PlacedAs b ρ x' :=
  fun _ _ _ _ _ hρ hb _ h => h.mono hρ hb

lemma follows_liftExcept {P : Placement → Body → Scopes → Prop}
    {R : Placement → Body → α → β → Prop} {x : Except BuildError α} {y : Except BuildError β}
    (h : ∀ ρ b σ, P ρ b σ → ∀ a, x = .ok a → ∃ d, y = .ok d ∧ R ρ b a d) :
    V.Follows P (liftM x) (liftM y) R := by
  constructor
  · intro b s a b' s' hran hs
    obtain ⟨-, rfl, rfl⟩ := ran_liftExcept hran
    exact ⟨hs, s.grows_self, b.module.begins_self, rfl⟩
  · intro b s a b' s' hran _ _
    obtain ⟨hx, rfl, rfl⟩ := ran_liftExcept hran
    rw [Set.Ico_self, Set.Ico_self]
    apply redoes_silent
    intro ρ X t r _ hready hP
    obtain ⟨d, rfl, hR⟩ := h ρ b _ hP a hx
    exact leads_pure ⟨rfl, rfl, hready, hR⟩

lemma ran_lookup {name : String} {b b' : Body} {s s' : Session} {a : Nat}
    (h : (lookup c name).Ran b s a b' s') :
    b = b' ∧ s = s' ∧ b.scopes.findSome? (fun scope => scope.lookup name) = some a := by
  obtain ⟨b₁, _, _, hget, hrest⟩ := exists_of_ran_bind h
  cases hget
  split at hrest
  · next id hid =>
    cases hrest
    exact ⟨rfl, rfl, hid⟩
  · cases hrest

lemma follows_lookup (name : String) :
    V.Follows Visible (lookup c name) (lookup c' name) Stands := by
  constructor
  · intro b s a b' s' hran hs
    obtain ⟨rfl, rfl, -⟩ := ran_lookup hran
    exact ⟨hs, s.grows_self, b.module.begins_self, rfl⟩
  · intro b s a b' s' hran _ _
    obtain ⟨rfl, rfl, hfound⟩ := ran_lookup hran
    rw [Set.Ico_self, Set.Ico_self]
    apply redoes_silent
    intro ρ X t r _ hready hvisible
    have hname := hvisible name
    rw [hfound] at hname
    refine Leads.bind (Q := fun t₁ t₂ r' => t = t₁ ∧ t = t₂ ∧ r = r') (leads_get ⟨rfl, rfl, rfl⟩) ?_
    rintro _ _ _ ⟨rfl, rfl, rfl⟩
    generalize t.scopes.findSome? (fun scope => scope.lookup name) = found at hname
    cases hname with
    | some hstands => exact leads_pure ⟨rfl, rfl, hready, hstands⟩

lemma follows_reference (hb : c.bindings.Like c'.bindings) (name : String)
    (accessors : List Accessor) :
    V.Follows Visible (reference c name accessors) (reference c' name accessors)
      fun ρ b x x' => x.PlacedAs b ρ x' := by
  rw [reference_eq, reference_eq]
  refine (follows_lookup name).bind lasting_visible fun a a' => ?_
  refine follows_get.bind (lasting_visible.and (lasting_stands a a')) fun b₁ t => ?_
  apply follows_liftExcept
  rintro ρ b σ ⟨⟨-, hstands⟩, rfl, hview⟩ x hx
  exact referenceEnds_placedAs hb hstands hview hx

/-- The ends of a node that a name refers to. -/
lemma follows_endsOf {P : Placement → Body → Scopes → Prop} (hP : Lasting P) {a a' : Nat}
    (hstands : ∀ ρ b σ, P ρ b σ → Stands ρ b a a') :
    V.Follows P (do return Body.endsOf (← get).module a) (do return Body.endsOf (← get).module a')
      fun ρ b x x' => x.PlacedAs b ρ x' := by
  refine follows_get.bind hP fun b₁ t => follows_pure ?_
  rintro ρ b σ ⟨h, rfl, hview⟩
  exact Body.endsOf_placedAs (hstands ρ _ σ h) hview

/-! ### Connections -/

lemma Ico_add_one (k : Nat) : Set.Ico k (k + 1) = {k} := by
  ext l
  rw [Set.mem_Ico, Set.mem_singleton_iff]
  omega

lemma Ico_addNode (m : Module) (n : Node) :
    Set.Ico m.nodes.size (m.addNode n).nodes.size = {m.nodes.size} := by
  rw [← Ico_add_one]
  simp [Module.addNode]

lemma ran_wire {d w : Wire} {b b' : Body} {s s' : Session} {a : Unit}
    (h : (wire c d w).Ran b s a b' s') :
    s = s' ∧ b' = { b with module := b.module.extend [] [⟨d, w⟩] } := by
  obtain ⟨b₁, _, _, hget, hrest⟩ := exists_of_ran_bind h
  cases hget
  split at hrest
  · next m hm =>
    obtain ⟨rfl, -⟩ := Module.of_connect_eq_ok hm
    cases hrest
    exact ⟨rfl, rfl⟩
  · cases hrest
  · cases hrest

/-- The step changes nothing but the connections of the module, to which it adds. -/
def Connecting (x : Construct α) : Prop :=
  ∀ b s a b' s', x.Ran b s a b' s' → s = s' ∧ ∃ cs, b' = { b with module := b.module.extend [] cs }

lemma Connecting.advancing {x : Construct α} (h : Connecting x) (p : Program) : Advancing p x := by
  intro b s a b' s' hran hs
  obtain ⟨rfl, cs, rfl⟩ := h b s a b' s' hran
  exact ⟨hs, s.grows_self, b.module.begins_extend cs, rfl⟩

lemma connecting_of_unchanged {x : Construct α}
    (h : ∀ b s a b' s', x.Ran b s a b' s' → b = b' ∧ s = s') : Connecting x := by
  intro b s a b' s' hran
  obtain ⟨rfl, rfl⟩ := h b s a b' s' hran
  exact ⟨rfl, [], by rw [Module.extend_nil]⟩

lemma connecting_pure (a : α) : Connecting (pure a : Construct α) := by
  apply connecting_of_unchanged
  rintro b s _ _ _ ⟨⟩
  exact ⟨rfl, rfl⟩

lemma connecting_throw (e : BuildError) : Connecting (throw e : Construct α) := by
  rintro b s a b' s' ⟨⟩

lemma connecting_get : Connecting get := by
  apply connecting_of_unchanged
  rintro b s _ _ _ ⟨⟩
  exact ⟨rfl, rfl⟩

lemma connecting_liftExcept (x : Except BuildError α) : Connecting (liftM x : Construct α) :=
  connecting_of_unchanged fun _ _ _ _ _ hran => (ran_liftExcept hran).2

lemma connecting_lookup (name : String) : Connecting (lookup c name) := by
  apply connecting_of_unchanged
  intro b s a b' s' hran
  obtain ⟨hb, hs, -⟩ := ran_lookup hran
  exact ⟨hb, hs⟩

lemma connecting_wire (d w : Wire) : Connecting (wire c d w) := by
  intro b s a b' s' hran
  obtain ⟨rfl, rfl⟩ := ran_wire hran
  exact ⟨rfl, _, rfl⟩

lemma Connecting.bind {x : Construct α} {f : α → Construct β} (hx : Connecting x)
    (hf : ∀ a, Connecting (f a)) : Connecting (x >>= f) := by
  intro b s a b' s' hran
  obtain ⟨a₁, b₁, s₁, hran₁, hran₂⟩ := exists_of_ran_bind hran
  obtain ⟨rfl, cs, rfl⟩ := hx b s a₁ b₁ s₁ hran₁
  obtain ⟨rfl, cs', rfl⟩ := hf a₁ _ _ a b' s' hran₂
  refine ⟨rfl, cs ++ cs', ?_⟩
  dsimp only
  rw [Module.extend_extend, List.append_nil]

lemma connecting_forM {ι : Type} {f : ι → Construct PUnit} (hf : ∀ x, Connecting (f x))
    (xs : List ι) : Connecting (xs.forM f) := by
  induction xs with
  | nil => exact connecting_pure _
  | cons x xs ih => exact (hf x).bind fun _ => ih

lemma connecting_reference (name : String) (accessors : List Accessor) :
    Connecting (reference c name accessors) := by
  rw [reference_eq]
  exact (connecting_lookup name).bind fun _ => connecting_get.bind fun _ =>
    connecting_liftExcept _

lemma wirePlacedAs_begins {m m' : Module} {ρ : Placement} {w w' : Wire} (h : w.PlacedAs m ρ w')
    (hm : m.Begins m') : w.PlacedAs m' ρ w' := by
  obtain ⟨n, n', q, q', hplace, hn, hrest⟩ := h.slot
  exact ⟨h.side, h.port, n, n', q, q', hplace, getElem?_of_isPrefix hm.nodes hn, hrest⟩

lemma follows_wire (hV : V.Valid) {d d' w w' : Wire} :
    V.Follows (fun ρ b _ => d.PlacedAs b.module ρ d' ∧ w.PlacedAs b.module ρ w') (wire c d w)
      (wire c' d' w') fun _ _ _ _ => True := by
  refine ⟨(connecting_wire d w).advancing _, ?_⟩
  intro b s a b' s' hran _ hwithin
  obtain ⟨rfl, rfl⟩ := ran_wire hran
  have hnodes : Set.Ico b.module.nodes.size (b.module.extend [] [⟨d, w⟩]).nodes.size = ∅ := by
    simp [Module.extend]
  have hconnections : Set.Ico b.module.connections.size
      (b.module.extend [] [⟨d, w⟩]).connections.size = {b.module.connections.size} := by
    rw [← Ico_add_one]
    simp [Module.extend]
  rw [hnodes, hconnections]
  rintro ρ X t r hplaced hready - hfree ⟨hd, hw⟩
  have hbegins := (b.module.begins_extend [⟨d, w⟩]).trans hwithin.begins
  have himage : (Connection.mk d w).PlacedAs V.module ρ ⟨d', w'⟩ :=
    ⟨wirePlacedAs_begins hd hbegins, wirePlacedAs_begins hw hbegins⟩
  have hget : V.module.connections[b.module.connections.size]? = some ⟨d, w⟩ :=
    getElem?_of_isPrefix hwithin.begins.connections (by simp [Module.extend])
  have hconnect := hplaced.connect_eq_ok hV.wired hV.fits (Set.disjoint_singleton_right.mp hfree)
    hget himage
  dsimp only at hconnect
  refine Leads.bind (Q := fun t₁ t₂ r' => t = t₁ ∧ t = t₂ ∧ r = r') (leads_get ⟨rfl, rfl, rfl⟩) ?_
  rintro _ _ _ ⟨rfl, rfl, rfl⟩
  rw [hconnect]
  exact leads_set ⟨rfl, hready, ρ, ρ.adds_empty, hplaced.connect hget himage, trivial⟩

lemma PortStands.wire {ρ : Placement} {b : Body} {a a' port : Nat} {side : Side} {q q' : Port}
    (h : PortStands ρ b a a' side port q q') {slot slot' : Slot}
    (hslot : slot.Matches q.shape q'.shape slot') :
    (Wire.mk a side port slot).PlacedAs b.module ρ ⟨a', side, port, slot'⟩ := by
  obtain ⟨n, n', hn, hplace, hq, hq'⟩ := h
  exact ⟨rfl, rfl, n, n', q, q', hplace, hn, hq, hq', hslot⟩

lemma isStream_congr {ρ : Placement} {b t : Body} {e e' : Endpoint} {side : Side} {q q' : Port}
    (hport : e'.port = e.port) (h : PortStands ρ b e.node e'.node side e.port q q')
    (hkind : q.kind = q'.kind) (hview : View ρ b t) :
    isStream b.module e side = isStream t.module e' side := by
  obtain ⟨n, n', hn, hplace, hq, hq'⟩ := h
  have ht : t.module.nodes[e'.node]? = some n' := hview.stands _ _ hplace
  unfold isStream Module.portsOf
  rw [hn, ht, hport]
  dsimp only
  rw [hq, hq']
  simp only [hkind]

lemma advancing_bind {p : Program} {x : Construct α} {f : α → Construct β} (hx : Advancing p x)
    (hf : ∀ a, Advancing p (f a)) : Advancing p (x >>= f) := by
  intro b s a b' s' hran hs
  obtain ⟨_, b₁, s₁, hran₁, hran₂⟩ := exists_of_ran_bind hran
  have hadvances := hx b s _ b₁ s₁ hran₁ hs
  exact hadvances.trans (hf _ b₁ s₁ a b' s' hran₂ hadvances.sound)

lemma advancing_pure {p : Program} (a : α) : Advancing p (pure a : Construct α) := by
  intro b s a b' s' hran hs
  cases hran
  exact ⟨hs, s.grows_self, b.module.begins_self, rfl⟩

lemma advancing_get (p : Program) : Advancing p get := by
  intro b s a b' s' hran hs
  cases hran
  exact ⟨hs, s.grows_self, b.module.begins_self, rfl⟩

/-- The wires of two ends, and of a handshake if there is one. -/
def connectPairs (c : BodyContext) (source sink : Endpoint) (pairs : List (Nat × Nat))
    (handshake : Bool) : Construct Unit := do
  pairs.forM fun (i, j) =>
    wire c ⟨source.node, .output, source.port, .data i⟩ ⟨sink.node, .input, sink.port, .data j⟩
  if handshake then
    wire c ⟨source.node, .output, source.port, .valid⟩ ⟨sink.node, .input, sink.port, .valid⟩
    wire c ⟨sink.node, .input, sink.port, .ready⟩ ⟨source.node, .output, source.port, .ready⟩

lemma connecting_connectPairs (source sink : Endpoint) (pairs : List (Nat × Nat))
    (handshake : Bool) : Connecting (connectPairs c source sink pairs handshake) := by
  refine (connecting_forM (fun x => connecting_wire _ _) pairs).bind fun _ => ?_
  split
  · exact (connecting_wire _ _).bind fun _ => connecting_wire _ _
  · exact connecting_pure _

lemma follows_connectPairs (hV : V.Valid) {source source' sink sink' : Endpoint}
    (hsource : source'.port = source.port) (hsink : sink'.port = sink.port) {q q' r r' : Port}
    {pairs pairs' : List (Nat × Nat)} (hpairs : PermRel (fun x y =>
      q.shape.SameWire q'.shape x.1 y.1 ∧ r.shape.SameWire r'.shape x.2 y.2) pairs pairs')
    (handshake : Bool) :
    V.Follows (fun ρ b _ => PortStands ρ b source.node source'.node .output source.port q q' ∧
        PortStands ρ b sink.node sink'.node .input sink.port r r')
      (connectPairs c source sink pairs handshake) (connectPairs c' source' sink' pairs' handshake)
      fun _ _ _ _ => True := by
  have hlasting : Lasting fun ρ b _ =>
      PortStands ρ b source.node source'.node .output source.port q q' ∧
        PortStands ρ b sink.node sink'.node .input sink.port r r' := by
    rintro ρ ρ' b b' σ hρ hb - ⟨h, h'⟩
    exact ⟨h.mono hρ hb, h'.mono hρ hb⟩
  unfold connectPairs
  rw [hsource, hsink]
  refine Follows.bind (follows_forM hlasting ?_) hlasting fun _ _ => ?_
  · obtain ⟨zs, hzs, hperm⟩ := hpairs
    refine ⟨zs, hzs.imp ?_, hperm⟩
    rintro x y ⟨hleft, hright⟩
    refine (follows_wire hV).pre ?_
    rintro ρ b σ ⟨h, h'⟩
    exact ⟨h.wire (.data hleft), h'.wire (.data hright)⟩
  · split
    · refine Follows.pre (P := fun ρ b _ =>
        PortStands ρ b source.node source'.node .output source.port q q' ∧
          PortStands ρ b sink.node sink'.node .input sink.port r r') ?_ fun ρ b σ h => h.1
      refine Follows.bind (R := fun _ _ _ _ => True) ((follows_wire hV).pre ?_) hlasting fun _ _ => ?_
      · rintro ρ b σ ⟨h, h'⟩
        exact ⟨h.wire .valid, h'.wire .valid⟩
      · refine (follows_wire hV).pre ?_
        rintro ρ b σ ⟨⟨h, h'⟩, -⟩
        exact ⟨h'.wire .ready, h.wire .ready⟩
    · exact follows_pure fun _ _ _ _ => trivial

lemma connect_eq (c : BodyContext) (source sink : Endpoint) :
    connect c source sink = (do
      let b ← get
      match source.tree.pairLeaves? sink.tree with
      | none =>
        throw (.connectionShape c.label (Body.endpointText b.module source .output)
          (Body.endpointText b.module sink .input))
      | some pairs => connectPairs c source sink pairs (source.whole && sink.whole &&
          isStream b.module source .output && isStream b.module sink .input)) :=
  rfl

lemma lasting_ends {source source' sink sink' : Endpoint} : Lasting fun ρ b _ =>
    source.PlacedAs b ρ .output source' ∧ sink.PlacedAs b ρ .input sink' := by
  rintro ρ ρ' b b' σ hρ hb - ⟨h, h'⟩
  exact ⟨h.mono hρ hb, h'.mono hρ hb⟩

lemma follows_connect (hV : V.Valid) {source source' sink sink' : Endpoint} :
    V.Follows (fun ρ b _ => source.PlacedAs b ρ .output source' ∧ sink.PlacedAs b ρ .input sink')
      (connect c source sink) (connect c' source' sink') fun _ _ _ _ => True := by
  rw [connect_eq, connect_eq]
  refine follows_get.bind lasting_ends fun b₁ t => ?_
  split
  · exact follows_throw _ _
  · next pairs hpairs =>
    have hconnecting := connecting_connectPairs (c := c) source sink pairs
      (source.whole && sink.whole && isStream b₁.module source .output &&
        isStream b₁.module sink .input)
    refine ⟨hconnecting.advancing _, ?_⟩
    intro b s a b' s' hran hs hwithin ρ X t₁ r hplaced hready hA hB hP
    obtain ⟨⟨hsource, hsink⟩, rfl, hview⟩ := hP
    obtain ⟨q, q', hq, hkind, hlike⟩ := hsource.tree
    obtain ⟨u, u', hu, hkind', hlike'⟩ := hsink.tree
    obtain ⟨pairs', hpairs', hrel⟩ := PortTree.pairLeaves?_like _ _ _ _ hlike hlike' hpairs
    rw [isStream_congr hsource.port hq hkind hview, isStream_congr hsink.port hu hkind' hview,
      ← hsource.whole, ← hsink.whole] at hran
    rw [hpairs']
    exact (follows_connectPairs hV hsource.port hsink.port hrel _).redoes _ s a b' s' hran hs hwithin
      ρ X t₁ r hplaced hready hA hB ⟨hq, hu⟩

lemma connecting_connect (source sink : Endpoint) : Connecting (connect c source sink) := by
  rw [connect_eq]
  refine connecting_get.bind fun b => ?_
  split
  · exact connecting_throw _
  · exact connecting_connectPairs _ _ _ _

lemma connecting_connectStage (sources sinks : List Endpoint) :
    Connecting (connectStage c sources sinks) := by
  have hpairs : Connecting ((sources.zip sinks).forM fun x => connect c x.1 x.2) :=
    connecting_forM (fun x : Endpoint × Endpoint => connecting_connect x.1 x.2) _
  unfold connectStage
  split
  · exact (connecting_throw _).bind fun _ => hpairs
  · exact hpairs

lemma follows_absurd {P : Placement → Body → Scopes → Prop} {R : Placement → Body → α → β → Prop}
    {x : Construct α} {y : Construct β} (hadvances : Advancing V.first x)
    (h : ∀ ρ b σ, ¬ P ρ b σ) : V.Follows P x y R :=
  ⟨hadvances, fun b _ _ _ _ _ _ _ ρ _ _ _ _ _ _ _ hP => absurd hP (h ρ b _)⟩

lemma lasting_forall₂ {ι γ : Type} {E : Placement → Body → ι → γ → Prop}
    (hE : ∀ x z, Lasting fun ρ b _ => E ρ b x z) (xs : List ι) (zs : List γ) :
    Lasting fun ρ b _ => List.Forall₂ (E ρ b) xs zs :=
  fun ρ ρ' b b' σ hρ hb hscopes h =>
    h.imp fun x z hxz => hE x z ρ ρ' b b' σ hρ hb hscopes hxz

/-- Steps for corresponding members of two lists, in the order of the lists. -/
lemma follows_forM₂ {ι γ : Type} {f : ι → Construct PUnit} {g : γ → Construct PUnit}
    {E : Placement → Body → ι → γ → Prop} (hE : ∀ x z, Lasting fun ρ b _ => E ρ b x z)
    (hfg : ∀ x z, V.Follows (fun ρ b _ => E ρ b x z) (f x) (g z) fun _ _ _ _ => True)
    (hf : ∀ x, Advancing V.first (f x)) (xs : List ι) (zs : List γ) :
    V.Follows (fun ρ b _ => List.Forall₂ (E ρ b) xs zs) (xs.forM f) (zs.forM g)
      fun _ _ _ _ => True := by
  induction xs generalizing zs with
  | nil =>
    cases zs with
    | nil => exact follows_pure fun _ _ _ _ => trivial
    | cons z zs => exact follows_absurd (advancing_pure _) nofun
  | cons x xs ih =>
    cases zs with
    | nil => exact follows_absurd (advancing_forM fun x _ => hf x) nofun
    | cons z zs =>
      refine Follows.bind ((hfg x z).pre ?_) (lasting_forall₂ hE _ _) fun _ _ => (ih zs).pre ?_
      · intro ρ b σ h
        cases h with
        | cons hhead _ => exact hhead
      · rintro ρ b σ ⟨h, -⟩
        cases h with
        | cons _ htail => exact htail

lemma follows_connectStage (hV : V.Valid) {sources sources' sinks sinks' : List Endpoint} :
    V.Follows (fun ρ b _ => List.Forall₂ (Endpoint.PlacedAs b ρ .output) sources sources' ∧
        List.Forall₂ (Endpoint.PlacedAs b ρ .input) sinks sinks')
      (connectStage c sources sinks) (connectStage c' sources' sinks') fun _ _ _ _ => True := by
  have hpairs := follows_forM₂ (V := V)
    (E := fun ρ b x x' => x.1.PlacedAs b ρ .output x'.1 ∧ x.2.PlacedAs b ρ .input x'.2)
    (f := fun x => connect c x.1 x.2) (g := fun x => connect c' x.1 x.2) (fun x z => lasting_ends)
    (fun x z => follows_connect hV) (fun x => (connecting_connect x.1 x.2).advancing _)
    (sources.zip sinks) (sources'.zip sinks')
  refine ⟨(connecting_connectStage sources sinks).advancing _, ?_⟩
  intro b s a b' s' hran hs hwithin ρ X t r hplaced hready hA hB hP
  obtain ⟨hsources, hsinks⟩ := hP
  unfold connectStage at hran ⊢
  rw [hsources.length_eq, hsinks.length_eq] at hran
  split at hran
  · obtain ⟨_, _, _, hthrow, -⟩ := exists_of_ran_bind hran
    cases hthrow
  · next hlengths =>
    rw [if_neg hlengths]
    refine hpairs.redoes b s a b' s' hran hs hwithin ρ X t r hplaced hready hA hB ?_
    exact forall₂_zip hsources hsinks

lemma connecting_connectStages (stages : List Ends) : Connecting (connectStages c stages) := by
  induction stages with
  | nil => exact connecting_pure _
  | cons first rest ih =>
    cases rest with
    | nil => exact connecting_pure _
    | cons second rest => exact (connecting_connectStage _ _).bind fun _ => ih

lemma connecting_joinStages (stages : List Ends) : Connecting (joinStages c stages) :=
  (connecting_connectStages stages).bind fun _ => connecting_pure _

lemma lasting_stages (stages stages' : List Ends) :
    Lasting fun ρ b _ => List.Forall₂ (Ends.PlacedAs b ρ) stages stages' :=
  lasting_forall₂ lasting_endsPlacedAs stages stages'

lemma follows_connectStages (hV : V.Valid) (stages stages' : List Ends) :
    V.Follows (fun ρ b _ => List.Forall₂ (Ends.PlacedAs b ρ) stages stages')
      (connectStages c stages) (connectStages c' stages') fun _ _ _ _ => True := by
  induction stages generalizing stages' with
  | nil =>
    cases stages' with
    | nil => exact follows_pure fun _ _ _ _ => trivial
    | cons _ _ => exact follows_absurd (advancing_pure _) nofun
  | cons first rest ih =>
    cases stages' with
    | nil => exact follows_absurd ((connecting_connectStages _).advancing _) nofun
    | cons first' rest' =>
      cases rest with
      | nil =>
        cases rest' with
        | nil => exact follows_pure fun _ _ _ _ => trivial
        | cons _ _ => exact follows_absurd (advancing_pure _) (by rintro _ _ _ (_ | ⟨_, ⟨⟩⟩))
      | cons second rest =>
        cases rest' with
        | nil =>
          exact follows_absurd ((connecting_connectStages _).advancing _)
            (by rintro _ _ _ (_ | ⟨_, ⟨⟩⟩))
        | cons second' rest' =>
          refine Follows.bind ((follows_connectStage hV).pre ?_) (lasting_stages _ _) fun _ _ =>
            (ih (second' :: rest')).pre ?_
          · rintro ρ b σ (_ | ⟨hfirst, _ | ⟨hsecond, -⟩⟩)
            exact ⟨hfirst.sources, hsecond.sinks⟩
          · rintro ρ b σ ⟨_ | ⟨_, htail⟩, -⟩
            exact htail

lemma follows_joinStages (hV : V.Valid) (stages stages' : List Ends) :
    V.Follows (fun ρ b _ => List.Forall₂ (Ends.PlacedAs b ρ) stages stages') (joinStages c stages)
      (joinStages c' stages') fun ρ b x x' => x.PlacedAs b ρ x' := by
  refine (follows_connectStages hV stages stages').bind (lasting_stages _ _) fun _ _ =>
    follows_pure ?_
  rintro ρ b σ ⟨h, -⟩
  have hnone : Ends.none.PlacedAs b ρ .none := ⟨.nil, .nil⟩
  have hhead : (stages.headD .none).PlacedAs b ρ (stages'.headD .none) := by
    cases h with
    | nil => exact hnone
    | cons hhead _ => exact hhead
  have hlast : (stages.getLastD .none).PlacedAs b ρ (stages'.getLastD .none) := by
    have hlast : ∀ (xs xs' : List Ends) (x x' : Ends), List.Forall₂ (Ends.PlacedAs b ρ) xs xs' →
        x.PlacedAs b ρ x' → (xs.getLastD x).PlacedAs b ρ (xs'.getLastD x') := by
      intro xs xs' x x' hxs hx
      induction hxs generalizing x x' with
      | nil => exact hx
      | cons hy _ ih =>
        rw [List.getLastD_cons, List.getLastD_cons]
        exact ih _ _ hy
    exact hlast _ _ _ _ h hnone
  exact ⟨hhead.sinks, hlast.sources⟩

end Replay

end NetlistCompiler
