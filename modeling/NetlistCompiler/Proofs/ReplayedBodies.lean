import NetlistCompiler.Proofs.ReplayedConnections

/-!
# Replayed bodies

Every step of the construction of a body is replayed by the same step for an alike context: an
instance of a module is replayed by building a module for an alike invocation, and a chain by its
nodes and the connections between its stages.
-/

namespace NetlistCompiler

open Construct

namespace Replay

variable {V : Replay} {α β : Type} {c c' : BodyContext}

/-! ### Nodes -/

lemma follows_anonymousName (hV : V.Valid) {P : Placement → Body → Scopes → Prop} :
    V.Follows P anonymousName anonymousName fun _ _ name name' => NamesMatch name name' := by
  constructor
  · intro b s a b' s' hran hs
    cases hran
    exact ⟨hs.congr rfl rfl hs.waiting, ⟨rfl, fun _ _ hm => hm⟩, b.module.begins_self, rfl⟩
  · intro b s a b' s' hran _ _
    cases hran
    rw [Set.Ico_self, Set.Ico_self]
    apply redoes_silent
    intro ρ X t r _ hready _
    exact ⟨rfl, rfl, hV.mention r _ hready, .inr ⟨_, _, rfl, rfl⟩⟩

/-- Whatever module the first session has built, the second one can build for an alike invocation. -/
def Rebuilds (V : Replay) (build build' : Invocation → Elaborate Nat) : Prop :=
  ∀ j j' s s' id, j.Like j' → s.Sound V.first → (build j).run s = some (.ok id, s') →
    (∀ (k : Nat) m, s'.design.modules[k]? = some m → V.modules[k]? = some m) →
    ∀ r, V.Ready r → (build' j').Leads r V.tooDeep (fun id' r' => V.Ready r' ∧
      ∃ m', r'.design.modules[id']? = some m' ∧ m'.invocation.agrees j' = true) fun _ _ => V.fails

/-- What the contexts of the two constructions have in common. -/
structure Contexts (V : Replay) (c c' : BodyContext) : Prop where
  first : c.program = V.first
  second : c'.program = V.second
  unfolding : c.unfolding.Follows V.tooDeep V.first c'.unfolding
  bindings : c.bindings.Like c'.bindings
  sound : BuildsSoundly V.first c.build
  distinct : ∀ j, Instantiates c j → j.Distinct
  build : V.Rebuilds c.build c'.build

/-- How an instance came about, and the session after it. -/
inductive Instanced (c : BodyContext) (name : String) (i : Invocation) (s s' : Session) : Node → Prop
  | primitive {op : PrimitiveOp} {q : Primitive} {mentioned : Array String} :
    c.program.callee i.function = .ok (.primitive op) → Primitive.ofCall op i = .ok q →
    s' = { s with mentioned } → Instanced c name i s s' (primitiveNode name q)
  | function {d : FunctionDefinition} {id : Nat} :
    c.program.callee i.function = .ok (.function d) → (c.build i).run s = some (.ok id, s') →
    Instanced c name i s s' (instanceNode name i id s')

lemma ran_addNode {n : Node} {b b' : Body} {s s' : Session} {a : Nat}
    (h : (addNode n).Ran b s a b' s') :
    a = b.module.nodes.size ∧ s = s' ∧ b' = { b with module := b.module.addNode n } :=
  (leads_addNode (N := True) (E := fun _ _ => True) (fun _ => trivial)
    fun _ => ⟨rfl, rfl, rfl⟩ : (addNode n).Leads b s True (fun a b' s' =>
      a = b.module.nodes.size ∧ s = s' ∧ b' = { b with module := b.module.addNode n })
      fun _ _ => True).of_ran h

lemma ran_instantiate {name : String} {i : Invocation} {b b' : Body} {s s' : Session} {a : Nat}
    (h : (instantiate c name i).Ran b s a b' s') : a = b.module.nodes.size ∧
      ∃ n, b' = { b with module := b.module.addNode n } ∧ Instanced c name i s s' n := by
  obtain ⟨callee, b₁, s₁, hran, hrest⟩ := exists_of_ran_bind h
  obtain ⟨hcallee, rfl, rfl⟩ := ran_liftExcept hran
  cases callee with
  | primitive op =>
    obtain ⟨q, b₂, s₂, hran, hrest⟩ := exists_of_ran_bind hrest
    obtain ⟨hcall, rfl, rfl⟩ := ran_liftExcept hran
    obtain ⟨_, b₃, s₃, hmention, hrest⟩ := exists_of_ran_bind hrest
    cases hmention
    obtain ⟨rfl, rfl, rfl⟩ := ran_addNode hrest
    exact ⟨rfl, _, rfl, .primitive hcallee hcall rfl⟩
  | function d =>
    obtain ⟨id, b₂, s₂, hran, hrest⟩ := exists_of_ran_bind hrest
    obtain ⟨rfl, hbuild⟩ := ran_lift hran
    obtain ⟨_, b₃, s₃, hsession, hrest⟩ := exists_of_ran_bind hrest
    cases hsession
    obtain ⟨rfl, rfl, rfl⟩ := ran_addNode hrest
    exact ⟨rfl, _, rfl, .function hcallee hbuild⟩

lemma advances_addNode {p : Program} {b : Body} {s s' : Session} (n : Node) (hsound : s'.Sound p)
    (hgrows : s.Grows s') : Advances p b s { b with module := b.module.addNode n } s' :=
  ⟨hsound, hgrows, b.module.begins_addNode n, rfl⟩

lemma advances_instanced (hc : Contexts V c c') {name : String} {i : Invocation}
    (hi : i.Distinct) {b : Body} {s s' : Session} {n : Node} (h : Instanced c name i s s' n)
    (hs : s.Sound V.first) :
    Advances V.first b s { b with module := b.module.addNode n } s' := by
  cases h with
  | primitive _ _ hs' =>
    subst hs'
    exact advances_addNode _ (hs.congr rfl rfl hs.waiting) ⟨rfl, fun _ _ hm => hm⟩
  | function _ hbuild =>
    obtain ⟨⟨hsound, hgrows⟩, -⟩ := (hc.sound i s hi hs).of_run hbuild
    exact advances_addNode _ hsound hgrows

/-- A node is added in the second construction. -/
lemma leads_place (hV : V.Valid) {ρ : Placement} {X : Set Nat} {t : Body} {r : Session} {k : Nat}
    {n n' : Node} (hplaced : Placed V.module t.module ρ X) (hready : V.Ready r) (hnone : ρ k = none)
    (hn : V.module.nodes[k]? = some n) (hresembles : n.Resembles n') :
    (addNode n').Leads t r V.tooDeep (fun a' t' r' => t'.scopes = t.scopes ∧ V.Ready r' ∧
      ∃ ρ', ρ.Adds ρ' {k} ∧ Placed V.module t'.module ρ' (X ∪ ∅) ∧ ∃ n', ρ' k = some (a', n'))
      fun _ _ => V.fails := by
  refine leads_addNode (fun hwide => ?_) fun _ =>
    ⟨rfl, hready, _, Placement.adds_place hnone _, ?_, n', ρ.place_self k _⟩
  · rw [Node.fits_iff.mpr (hresembles.fits (hV.fits n (Array.mem_of_getElem? hn)))] at hwide
    cases hwide
  rw [Set.union_empty]
  exact hplaced.addNode hnone hn hresembles

lemma portsExpanded_like {p p' : Program} (hp : p.SameHeads p') (hmembers : p.DistinctMembers)
    {m m' : Module} (hm : m.PortsExpanded p) (hm' : m'.PortsExpanded p')
    (h : m.invocation.Like m'.invocation) :
    List.Forall₂ Port.Like m.inputs m'.inputs ∧ List.Forall₂ Port.Like m.outputs m'.outputs := by
  obtain ⟨depth, σ, hσ, hinputs, houtputs⟩ := hm
  obtain ⟨depth', σ', hσ', hinputs', houtputs'⟩ := hm'
  have hlike := Invocation.ports_follows hp (Program.unfolding_follows hp hmembers depth depth') h σ hσ
  rw [hσ'] at hlike
  rw [hinputs, houtputs, hinputs', houtputs']
  exact ⟨hlike.inputs, hlike.outputs⟩

/-- An instance of an alike invocation is added in the second construction. -/
lemma leads_instantiate (hV : V.Valid) (hc : Contexts V c c') {name name' : String}
    (hname : NamesMatch name name') {i i' : Invocation} (hi : i.Like i') {s s' : Session} {n : Node}
    (h : Instanced c name i s s' n) (hs : s.Sound V.first)
    (hmodules : ∀ (k : Nat) m, s'.design.modules[k]? = some m → V.modules[k]? = some m)
    {ρ : Placement} {X : Set Nat} {t : Body} {r : Session} {k : Nat}
    (hplaced : Placed V.module t.module ρ X) (hready : V.Ready r) (hnone : ρ k = none)
    (hn : V.module.nodes[k]? = some n) :
    (instantiate c' name' i').Leads t r V.tooDeep (fun a' t' r' => t'.scopes = t.scopes ∧
      V.Ready r' ∧ ∃ ρ', ρ.Adds ρ' {k} ∧ Placed V.module t'.module ρ' (X ∪ ∅) ∧
        ∃ n', ρ' k = some (a', n')) fun _ _ => V.fails := by
  obtain ⟨hfunction, -, -⟩ := hi.values
  have hcallees : ∀ f, c.program.callee i.function = .ok f →
      ∃ f', c'.program.callee i'.function = .ok f' ∧ f.SameHead f' := by
    intro f hf
    rw [hc.first] at hf
    rw [hc.second, ← hfunction]
    exact hV.heads.callee _ f hf
  cases h with
  | @primitive op q mentioned hcallee hcall hs' =>
    obtain ⟨f', hf', hhead⟩ := hcallees _ hcallee
    cases hhead
    obtain ⟨q', hq', hlike⟩ := Primitive.ofCall_like hi hcall
    unfold instantiate
    rw [hf']
    refine Leads.bind (Q := fun f t' r' => f = .primitive op ∧ t = t' ∧ r = r')
      (leads_liftExcept (fun f hf => ⟨(Except.ok.inj hf).symm, rfl, rfl⟩) nofun) ?_
    rintro _ _ _ ⟨rfl, rfl, rfl⟩
    refine Leads.bind (Q := fun p t' r' => p = q' ∧ t = t' ∧ r = r')
      (leads_liftExcept (fun p hp => ?_) fun e he => ?_) ?_
    · rw [hq'] at hp
      exact ⟨(Except.ok.inj hp).symm, rfl, rfl⟩
    · rw [hq'] at he
      cases he
    rintro _ _ _ ⟨rfl, rfl, rfl⟩
    refine Leads.bind (Q := fun _ t' r' => t = t' ∧ V.Ready r')
      (leads_lift (Elaborate.leads_mention fun mentioned => ⟨rfl, hV.mention r mentioned hready⟩)) ?_
    rintro _ _ r' ⟨rfl, hready'⟩
    exact leads_place hV hplaced hready' hnone hn (Node.resembles_of_ports hname (.primitive hlike)
      hlike.signature.inputs hlike.signature.outputs)
  | @function d id hcallee hbuild =>
    obtain ⟨f', hf', hhead⟩ := hcallees _ hcallee
    cases hhead with
    | @function _ d' hd =>
      obtain ⟨⟨hsound, -⟩, m, hm, hagrees⟩ := (hc.sound i s hi.left hs).of_run hbuild
      unfold instantiate
      rw [hf']
      refine Leads.bind (Q := fun f t' r' => f = .function d' ∧ t = t' ∧ r = r')
        (leads_liftExcept (fun f hf => ⟨(Except.ok.inj hf).symm, rfl, rfl⟩) nofun) ?_
      rintro _ _ _ ⟨rfl, rfl, rfl⟩
      refine Leads.bind (Q := fun id' t' r' => t = t' ∧ V.Ready r' ∧
        ∃ m', r'.design.modules[id']? = some m' ∧ m'.invocation.agrees i' = true)
        (leads_lift ((hc.build i i' s s' id hi hs hbuild hmodules r hready).imp
          fun _ _ h => ⟨rfl, h⟩)) ?_
      rintro id' _ r' ⟨rfl, hready', m', hm', hagrees'⟩
      refine Leads.bind (Q := fun s₁ t' r₁ => r' = s₁ ∧ t = t' ∧ r' = r₁)
        (leads_getSession ⟨rfl, rfl, rfl⟩) ?_
      rintro _ _ _ ⟨rfl, rfl, rfl⟩
      have hsound' := hV.sound r' hready'
      have hlike : m.invocation.Like i :=
        (Invocation.like_iff_agrees (hsound.distinct m (Array.mem_of_getElem? hm)) hi.left).mpr hagrees
      have hlike' : m'.invocation.Like i' :=
        (Invocation.like_iff_agrees (hsound'.distinct m' (Array.mem_of_getElem? hm')) hi.right).mpr
          hagrees'
      obtain ⟨hinputs, houtputs⟩ := portsExpanded_like hV.heads hV.members
        (hsound.ports m (Array.mem_of_getElem? hm)) (hsound'.ports m' (Array.mem_of_getElem? hm'))
        ((hlike.trans hi).trans hlike'.symm)
      refine leads_place hV hplaced hready' hnone hn
        (Node.resembles_of_ports hname (.instance id id' hi) ?_ ?_)
      · simpa [instanceNode, hm, hm'] using hinputs
      · simpa [instanceNode, hm, hm'] using houtputs

/-- The invocation that a node of the body is an instance of. -/
def Invokes (c : BodyContext) : NodeBody → Invocation → Prop
  | .function instantiation, i =>
    (instantiation.expand c.program c.unfolding c.bindings).run = some (.ok i)
  | .genericFunction parameter, i => c.bindings.functions.lookup parameter = some i
  | .interface _, _ => False

lemma Invokes.instantiates {body : NodeBody} {i : Invocation} (h : Invokes c body i) :
    Instantiates c i := by
  cases body with
  | function instantiation => exact .inl ⟨instantiation, h⟩
  | genericFunction parameter => exact .inr ⟨parameter, h⟩
  | interface e => exact h.elim

/-- How a node came about, and the session after it. -/
inductive Created (c : BodyContext) (name : String) (s s' : Session) : NodeBody → Node → Prop
  | invoked {body : NodeBody} {i : Invocation} {n : Node} {mentioned : Array String} :
    Invokes c body i → Instanced c name i { s with mentioned } s' n → Created c name s s' body n
  | pass {e : InterfaceExpr} {shape : Shape} {mentioned : Array String} :
    (e.expand c.program c.unfolding c.bindings).run = some (.ok shape) → s' = { s with mentioned } →
    Created c name s s' (.interface e) (passNode name shape)

lemma ran_create {name : String} {body : NodeBody} {b b' : Body} {s s' : Session} {a : Nat}
    (h : (create c name body).Ran b s a b' s') : a = b.module.nodes.size ∧
      ∃ n, b' = { b with module := b.module.addNode n } ∧ Created c name s s' body n := by
  cases body with
  | function instantiation =>
    obtain ⟨i, b₁, s₁, hran, hrest⟩ := exists_of_ran_bind h
    obtain ⟨hi, rfl, rfl⟩ := ran_ofExpand hran
    obtain ⟨_, b₂, s₂, hmention, hrest⟩ := exists_of_ran_bind hrest
    cases hmention
    obtain ⟨rfl, n, rfl, hinstanced⟩ := ran_instantiate hrest
    exact ⟨rfl, n, rfl, .invoked hi hinstanced⟩
  | genericFunction parameter =>
    rw [create] at h
    split at h
    · next i hi =>
      obtain ⟨rfl, n, rfl, hinstanced⟩ := ran_instantiate h
      exact ⟨rfl, n, rfl, .invoked hi hinstanced⟩
    · cases h
  | interface e =>
    obtain ⟨shape, b₁, s₁, hran, hrest⟩ := exists_of_ran_bind h
    obtain ⟨hshape, rfl, rfl⟩ := ran_ofExpand hran
    obtain ⟨_, b₂, s₂, hmention, hrest⟩ := exists_of_ran_bind hrest
    cases hmention
    obtain ⟨rfl, rfl, rfl⟩ := ran_addNode hrest
    exact ⟨rfl, _, rfl, .pass hshape rfl⟩

lemma advancing_create (hc : Contexts V c c') (name : String) (body : NodeBody) :
    Advancing V.first (create c name body) := by
  intro b s a b' s' hran hs
  have hmentioned : ∀ mentioned, Session.Sound V.first { s with mentioned } :=
    fun _ => hs.congr rfl rfl hs.waiting
  obtain ⟨-, n, rfl, hcreated⟩ := ran_create hran
  cases hcreated with
  | @invoked _ i n mentioned hi hinstanced =>
    obtain ⟨hsound, hgrows, hbegins, hscopes⟩ := advances_instanced (b := b) hc
      (hc.distinct i hi.instantiates) hinstanced (hmentioned mentioned)
    exact ⟨hsound, ⟨hgrows.stack, hgrows.modules⟩, hbegins, hscopes⟩
  | @pass e shape mentioned _ hs' =>
    subst hs'
    exact advances_addNode _ (hmentioned mentioned) ⟨rfl, fun _ _ hm => hm⟩

lemma resembles_pass {name name' : String} (hname : NamesMatch name name') {s t : Shape}
    (h : s.Like t) : (passNode name s).Resembles (passNode name' t) := by
  refine ⟨hname, .pass, ?_⟩
  have hport : Port.Resembles (passNode name s) (passNode name' t) (.signal name s)
      (.signal name' t) := ⟨.inr ⟨rfl, rfl, rfl⟩, rfl, h⟩
  intro side
  cases side with
  | input => exact .cons hport .nil
  | output => exact .cons hport .nil

lemma follows_create (hV : V.Valid) (hc : Contexts V c c') {name name' : String}
    (hname : NamesMatch name name') (body : NodeBody) {P : Placement → Body → Scopes → Prop} :
    V.Follows P (create c name body) (create c' name' body) Stands := by
  refine ⟨advancing_create hc name body, ?_⟩
  intro b s a b' s' hran hs hwithin
  have hmentioned : ∀ mentioned, Session.Sound V.first { s with mentioned } :=
    fun _ => hs.congr rfl rfl hs.waiting
  obtain ⟨rfl, n, rfl, hcreated⟩ := ran_create hran
  have hconnections : Set.Ico b.module.connections.size (b.module.addNode n).connections.size = ∅ :=
    Set.Ico_self _
  have hnew : (b.module.addNode n).nodes[b.module.nodes.size]? = some n := by
    simp [Module.addNode]
  have hn := getElem?_of_isPrefix hwithin.begins.nodes hnew
  rw [Ico_addNode, hconnections]
  refine Redoes.post (Q := fun ρ a' => ∃ n', ρ b.module.nodes.size = some (a', n')) ?_ ?_
  · rintro ρ X t r hplaced hready hnone - -
    have hfree := hnone _ (Set.mem_singleton _)
    cases hcreated with
    | @invoked _ i n mentioned hi hinstanced =>
      have hleads : ∀ i' t' r', t'.module = t.module → t'.scopes = t.scopes → V.Ready r' →
          i.Like i' → (instantiate c' name' i').Leads t' r' V.tooDeep (fun a' t'' r'' =>
            t''.scopes = t.scopes ∧ V.Ready r'' ∧ ∃ ρ', ρ.Adds ρ' {b.module.nodes.size} ∧
              Placed V.module t''.module ρ' (X ∪ ∅) ∧
                ∃ n', ρ' b.module.nodes.size = some (a', n')) fun _ _ => V.fails := by
        intro i' t' r' hmodule hscopes hready' hlike
        rw [← hmodule] at hplaced
        rw [← hscopes]
        exact leads_instantiate hV hc hname hlike hinstanced (hmentioned mentioned) hwithin.modules
          hplaced hready' hfree hn
      cases body with
      | function instantiation =>
        have hexpand := Instantiation.expand_follows hV.heads hc.unfolding hc.bindings instantiation
        rw [← hc.first, ← hc.second] at hexpand
        rw [create]
        refine Leads.bind (Q := fun i' t' r' => i.Like i' ∧ t = t' ∧ r = r')
          (leads_lift (Elaborate.leads_ofExpand_of_follows hexpand hi fun i' h => ⟨h, rfl, rfl⟩)) ?_
        rintro i' _ _ ⟨hlike, rfl, rfl⟩
        refine Leads.bind (Q := fun _ t' r' => t = t' ∧ V.Ready r')
          (leads_lift (Elaborate.leads_mention fun mentioned => ⟨rfl, hV.mention r mentioned hready⟩)) ?_
        rintro _ _ r' ⟨rfl, hready'⟩
        exact hleads i' t r' rfl rfl hready' hlike
      | genericFunction parameter =>
        have hlookup := hc.bindings.functions parameter
        rw [show c.bindings.functions.lookup parameter = some i from hi] at hlookup
        rw [create]
        generalize c'.bindings.functions.lookup parameter = found at hlookup
        cases hlookup with
        | some hlike => exact hleads _ t r rfl rfl hready hlike
      | interface e => exact hi.elim
    | @pass e shape mentioned hshape _ =>
      have hexpand := InterfaceExpr.expand_follows hV.heads hc.unfolding hc.bindings e
      rw [← hc.first, ← hc.second] at hexpand
      rw [create]
      refine Leads.bind (Q := fun shape' t' r' => shape.Like shape' ∧ t = t' ∧ r = r')
        (leads_lift (Elaborate.leads_ofExpand_of_follows hexpand hshape fun shape' h => ⟨h, rfl, rfl⟩)) ?_
      rintro shape' _ _ ⟨hlike, rfl, rfl⟩
      refine Leads.bind (Q := fun _ t' r' => t = t' ∧ V.Ready r')
        (leads_lift (Elaborate.leads_mention fun mentioned => ⟨rfl, hV.mention r mentioned hready⟩)) ?_
      rintro _ _ r' ⟨rfl, hready'⟩
      exact leads_place hV hplaced hready' hfree hn (resembles_pass hname hlike)
  · rintro ρ a' ⟨n', hplace⟩
    exact ⟨n, n', hnew, hplace⟩

/-! ### Chains -/

mutual

lemma follows_node (hV : V.Valid) (hc : Contexts V c c') : ∀ n : CircuitNode,
    V.Follows Visible (node c n) (node c' n) fun ρ b x x' => x.PlacedAs b ρ x'
  | .reference name accessors => by
    rw [node, node]
    exact follows_reference hc.bindings name accessors
  | .declared name body => by
    rw [node, node]
    refine (follows_lookup name).bind lasting_visible fun a a' => ?_
    exact follows_endsOf (lasting_visible.and (lasting_stands a a')) fun _ _ _ h => h.2
  | .anonymous body => by
    rw [node, node]
    refine (follows_anonymousName hV).bind lasting_visible fun name name' => ?_
    refine follows_of_fact ?_ fun hname => ?_
    · exact advancing_bind (advancing_create hc name body) fun _ =>
        advancing_bind (advancing_get _) fun _ => advancing_pure _
    · refine (follows_create hV hc hname body).bind lasting_visible fun a a' => ?_
      exact follows_endsOf (lasting_visible.and (lasting_stands a a')) fun _ _ _ h => h.2
  | .nested chain => by
    rw [node, node]
    refine (follows_stages hV hc chain).bind lasting_visible fun xs xs' => ?_
    exact (follows_joinStages hV xs xs').pre fun _ _ _ h => h.2

lemma follows_stages (hV : V.Valid) (hc : Contexts V c c') : ∀ groups : List (List CircuitNode),
    V.Follows Visible (stages c groups) (stages c' groups)
      fun ρ b xs xs' => List.Forall₂ (Ends.PlacedAs b ρ) xs xs'
  | [] => by
    rw [stages, stages]
    exact follows_pure fun _ _ _ _ => .nil
  | group :: rest => by
    rw [stages, stages]
    refine (follows_nodes hV hc group).bind lasting_visible fun x x' => ?_
    refine ((follows_stages hV hc rest).pre fun _ _ _ h => h.1).bind
      (lasting_visible.and (lasting_endsPlacedAs x x')) fun xs xs' => follows_pure ?_
    rintro ρ b σ ⟨⟨-, hx⟩, hxs⟩
    exact .cons hx hxs

lemma follows_nodes (hV : V.Valid) (hc : Contexts V c c') : ∀ ns : List CircuitNode,
    V.Follows Visible (nodes c ns) (nodes c' ns) fun ρ b x x' => x.PlacedAs b ρ x'
  | [] => by
    rw [nodes, nodes]
    exact follows_pure fun _ _ _ _ => ⟨.nil, .nil⟩
  | n :: rest => by
    rw [nodes, nodes]
    refine (follows_node hV hc n).bind lasting_visible fun x x' => ?_
    refine ((follows_nodes hV hc rest).pre fun _ _ _ h => h.1).bind
      (lasting_visible.and (lasting_endsPlacedAs x x')) fun y y' => follows_pure ?_
    rintro ρ b σ ⟨⟨-, hx⟩, hy⟩
    exact ⟨List.rel_append hx.sinks hy.sinks, List.rel_append hx.sources hy.sources⟩

end

end Replay

end NetlistCompiler
