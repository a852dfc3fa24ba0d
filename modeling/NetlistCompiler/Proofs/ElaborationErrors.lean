import NetlistCompiler.Proofs.ElaborationSteps
import NetlistCompiler.Proofs.KnownNames
import NetlistCompiler.Proofs.PortTrees
import NetlistCompiler.Proofs.Sessions

/-!
# How elaboration fails

The elaboration of a resolved program never misses a name. It misses a port or a field only where a
chain has a member access, and it connects only wires that exist, provided that no port is too wide
to be counted.
-/

namespace NetlistCompiler

/-! ### What a program builds -/

mutual

/-- The nodes of a chain, those in parentheses included. -/
def CircuitNode.leaves : CircuitNode → List CircuitNode
  | .reference name accessors => [.reference name accessors]
  | .declared name body => [.declared name body]
  | .anonymous body => [.anonymous body]
  | .nested chain => CircuitNode.chainLeaves chain

def CircuitNode.chainLeaves : List (List CircuitNode) → List CircuitNode
  | [] => []
  | group :: rest => CircuitNode.groupLeaves group ++ CircuitNode.chainLeaves rest

def CircuitNode.groupLeaves : List CircuitNode → List CircuitNode
  | [] => []
  | n :: rest => n.leaves ++ CircuitNode.groupLeaves rest

end

mutual

/-- The nodes of the chains of a statement; of a conditional, those of the branch that it takes. -/
def Statement.leaves (b : Bindings) : Statement → List CircuitNode
  | .connection chain => CircuitNode.chainLeaves chain
  | .conditional predicate thenBody elseBody =>
    match predicate.eval b with
    | .error _ => []
    | .ok value =>
      if value ≠ 0 then Statement.blockLeaves b thenBody else Statement.blockLeaves b elseBody

def Statement.blockLeaves (b : Bindings) : List Statement → List CircuitNode
  | [] => []
  | s :: rest => s.leaves b ++ Statement.blockLeaves b rest

end

/-- What a node adds to the module. -/
def CircuitNode.body? : CircuitNode → Option NodeBody
  | .declared _ body => some body
  | .anonymous body => some body
  | _ => none

/-- A node with this body is an instance of the invocation. -/
def NodeBody.StandsFor (p : Program) (b : Bindings) (i : Invocation) : NodeBody → Prop
  | .function instantiation =>
    ∃ depth, (instantiation.expand p (p.unfolding depth) b).run = some (.ok i)
  | .genericFunction name => b.functions.lookup name = some i
  | .interface _ => False

/-- The invocation calls a function, whose generic parameters get their values from it. -/
def Invocation.Opens (p : Program) (i : Invocation) (d : FunctionDefinition) (b : Bindings) :
    Prop :=
  p.callee i.function = .ok (.function d) ∧ ∃ depth,
    (d.generics.bind p (p.unfolding depth) d.name i.interfaces i.parameters).run = some (.ok b)

/-- The invocations for which a program needs modules or primitives. -/
inductive Program.Needs (p : Program) : Invocation → Prop
  | entry {d : FunctionDefinition} (mem : d ∈ p.functions)
    (plain : d.generics.isEmpty = true) : Needs p (.plain d.name)
  | node {i j : Invocation} {d : FunctionDefinition} {b : Bindings} {n : CircuitNode}
    {body : NodeBody} (outer : Needs p i) (opens : i.Opens p d b)
    (mem : n ∈ Statement.blockLeaves b d.statements) (hbody : n.body? = some body)
    (stands : body.StandsFor p b j) : Needs p j

/-- No port that the program expands is too wide to be counted in 32 bits. -/
def Program.PortsFit (p : Program) : Prop :=
  ∀ i, p.Needs i → ∀ depth σ, (i.ports p (p.unfolding depth)).run = some (.ok σ) → σ.Fits

/-- What is behind an error of elaboration. A port or field is missing where a chain of the named
module has a member access, and an internal error, like that of a port that is too wide, needs such
a port. -/
def BuildError.Explained (p : Program) : BuildError → Prop
  | unresolvedPort label name => ∃ i d b node accessors member, p.Needs i ∧ i.Opens p d b ∧
      label = i.describe ∧
      CircuitNode.reference node accessors ∈ Statement.blockLeaves b d.statements ∧
      .member member ∈ accessors ∧ (name = member ∨ name = node ++ "." ++ member)
  | portTooWide => ¬ p.PortsFit
  | internal _ => ¬ p.PortsFit
  | e => e.Ordinary

lemma BuildError.Ordinary.explained {p : Program} {e : BuildError} (h : e.Ordinary) :
    e.Explained p := by
  cases e <;> first | exact h | exact h.elim

/-! ### Bodies under construction -/

namespace Body

/-- The ports of the nodes fit, if those of the program do, and names refer to nodes that are
there. -/
structure Steady (p : Program) (b : Body) : Prop where
  fits : p.PortsFit → ∀ n ∈ b.module.nodes, ∀ side, ∀ port ∈ n.ports side, port.Fits
  scopes : ∀ scope ∈ b.scopes, ∀ f ∈ scope, f.2 < b.module.nodes.size

structure Grows (b b' : Body) : Prop where
  scopes : b'.scopes = b.scopes
  nodes : ∀ (k : Nat) n, b.module.nodes[k]? = some n → b'.module.nodes[k]? = some n

/-- Every name of the list refers to a node. -/
def Sees (visible : List String) (b : Body) : Prop :=
  ∀ name ∈ visible, (b.scopes.findSome? fun scope => scope.lookup name).isSome = true

/-- The property is kept while nodes are added. -/
def Stable (H : Body → Prop) : Prop :=
  ∀ b b', b.Grows b' → H b → H b'

variable {b b' b'' : Body}

lemma grows_self (b : Body) : b.Grows b :=
  ⟨rfl, fun _ _ h => h⟩

lemma Grows.trans (h : b.Grows b') (h' : b'.Grows b'') : b.Grows b'' :=
  ⟨h'.scopes.trans h.scopes, fun k n hn => h'.nodes k n (h.nodes k n hn)⟩

lemma Grows.size_le (h : b.Grows b') : b.module.nodes.size ≤ b'.module.nodes.size := by
  by_contra hlt
  have hget := h.nodes b'.module.nodes.size b.module.nodes[b'.module.nodes.size] (by simp)
  simp at hget

lemma stable_true : Stable fun _ => True :=
  fun _ _ _ _ => trivial

lemma stable_sees (visible : List String) : Stable (Sees visible) := by
  intro b b' hgrows h name hname
  rw [hgrows.scopes]
  exact h name hname

lemma stable_lt (id : Nat) : Stable fun b => id < b.module.nodes.size := by
  intro b b' hgrows h
  exact lt_of_lt_of_le h hgrows.size_le

lemma stable_grows (b : Body) : Stable b.Grows :=
  fun _ _ hgrows h => h.trans hgrows

lemma Stable.and {H H' : Body → Prop} (h : Stable H) (h' : Stable H') :
    Stable fun b => H b ∧ H' b :=
  fun b b' hgrows hb => ⟨h b b' hgrows hb.1, h' b b' hgrows hb.2⟩

end Body

def Session.PortsFit (s : Session) : Prop :=
  ∀ m ∈ s.design.modules, ∀ port ∈ m.inputs ++ m.outputs, port.Fits

open Elaborate Body

/-- Where the body of a needed invocation is built. -/
structure BodyContext.Sits (c : BodyContext) (i : Invocation) (d : FunctionDefinition) : Prop where
  label : c.label = i.describe
  unfolding : ∃ depth, c.unfolding = c.program.unfolding depth
  resolved : c.program.Scoped
  needs : c.program.Needs i
  opens : i.Opens c.program d c.bindings
  covers : c.bindings.Covers c.program d.generics
  build : ∀ j s f, c.program.Needs j → j.Known c.program →
    c.program.callee j.function = .ok (.function f) → s.PortsFit →
    (c.build j).Leads s True (fun _ s' => s'.PortsFit) fun e _ => e.Explained c.program

lemma BodyContext.Sits.knows {c : BodyContext} {i : Invocation} {d : FunctionDefinition}
    (h : c.Sits i d) : c.unfolding.Knows c.program := by
  obtain ⟨depth, hdepth⟩ := h.unfolding
  rw [hdepth]
  exact Program.unfolding_knows h.resolved depth

namespace Construct

variable {α β : Type} {p : Program} {H H' : Body → Prop}

/-- From a body that satisfies `H`, the step only adds nodes and connections and gives a value that
satisfies `R`, or it fails with an error that can be explained. -/
def Safe (p : Program) (H : Body → Prop) (R : α → Body → Prop) (x : Construct α) : Prop :=
  ∀ b s, b.Steady p → s.PortsFit → H b → x.Leads b s True
    (fun a b' s' => b'.Steady p ∧ s'.PortsFit ∧ b.Grows b' ∧ R a b') fun e _ => e.Explained p

lemma safe_pure {R : α → Body → Prop} {a : α} (h : ∀ b, H b → R a b) :
    Safe p H R (pure a : Construct α) := by
  intro b s hb hs hH
  exact leads_pure ⟨hb, hs, b.grows_self, h b hH⟩

lemma safe_throw {R : α → Body → Prop} {e : BuildError} (h : e.Explained p) :
    Safe p H R (throw e : Construct α) := by
  intro b s _ _ _
  exact leads_throw h

lemma safe_throw_bind {S : β → Body → Prop} {e : BuildError} (h : e.Explained p)
    (f : α → Construct β) : Safe p H S (throw e >>= f) := by
  intro b s _ _ _
  exact leads_throw h

lemma Safe.bind {R : α → Body → Prop} {S : β → Body → Prop} {x : Construct α} {f : α → Construct β}
    (hx : Safe p H R x) (hH : Stable H) (hf : ∀ a, Safe p (fun b => H b ∧ R a b) S (f a)) :
    Safe p H S (x >>= f) := by
  intro b s hb hs hstart
  apply (hx b s hb hs hstart).bind
  rintro a b' s' ⟨hb', hs', hgrows, hR⟩
  refine (hf a b' s' hb' hs' ⟨hH b b' hgrows hstart, hR⟩).imp ?_
  rintro a' b'' s'' ⟨hb'', hs'', hgrows', hS⟩
  exact ⟨hb'', hs'', hgrows.trans hgrows', hS⟩

lemma Safe.pre {R : α → Body → Prop} {x : Construct α} (hx : Safe p H R x)
    (h : ∀ b, H' b → H b) : Safe p H' R x :=
  fun b s hb hs hstart => hx b s hb hs (h b hstart)

lemma Safe.post {R S : α → Body → Prop} {x : Construct α} (hx : Safe p H R x)
    (h : ∀ a b, R a b → S a b) : Safe p H S x := by
  intro b s hb hs hstart
  refine (hx b s hb hs hstart).imp ?_
  rintro a b' s' ⟨hb', hs', hgrows, hR⟩
  exact ⟨hb', hs', hgrows, h a b' hR⟩

/-- A fact among the preconditions that is not about the body. -/
lemma safe_of_fact {P : Prop} {R : α → Body → Prop} {x : Construct α} (h : P → Safe p H R x) :
    Safe p (fun b => H b ∧ P) R x :=
  fun b s hb hs hstart => h hstart.2 b s hb hs hstart.1

lemma safe_get : Safe p H (fun a b => a.Steady p ∧ H a ∧ a.Grows b) get := by
  intro b s hb hs hstart
  exact leads_get ⟨hb, hs, b.grows_self, hb, hstart, b.grows_self⟩

lemma safe_getSession : Safe p H (fun s _ => s.PortsFit) (getThe Session) := by
  intro b s hb hs hstart
  exact leads_getSession ⟨hb, hs, b.grows_self, hs⟩

lemma safe_liftExcept {R : α → Body → Prop} {x : Except BuildError α}
    (hok : ∀ a, x = .ok a → ∀ b, H b → R a b) (herror : ∀ e, x = .error e → e.Explained p) :
    Safe p H R (liftM x : Construct α) := by
  intro b s hb hs hstart
  exact leads_liftExcept (fun a ha => ⟨hb, hs, b.grows_self, hok a ha b hstart⟩) herror

lemma safe_ofExpand {Q : α → Prop} {x : Expand α} (hx : Expand.Yields Q x) :
    Safe p H (fun a _ => Q a ∧ x.run = some (.ok a)) (liftM (ofExpand x) : Construct α) := by
  intro b s hb hs hstart
  refine leads_lift (leads_ofExpand (fun _ => trivial) ?_ ?_)
  · intro a ha
    exact ⟨hb, hs, b.grows_self, hx _ ha, ha⟩
  · intro e he
    exact (hx _ he).explained

lemma safe_mention (names : List String) :
    Safe p H (fun _ _ => True) (liftM (mention names) : Construct Unit) := by
  intro b s hb hs _
  exact leads_lift (leads_mention fun _ => ⟨hb, hs, b.grows_self, trivial⟩)

lemma safe_addNode {n : Node} (hn : p.PortsFit → ∀ side, ∀ port ∈ n.ports side, port.Fits) :
    Safe p H (fun id b => id < b.module.nodes.size) (addNode n) := by
  intro b s hb hs _
  refine leads_addNode (fun hwide hfit => ?_) fun _ => ⟨⟨?_, ?_⟩, hs, ⟨rfl, ?_⟩, ?_⟩
  · rw [Node.fits_iff.mpr (hn hfit)] at hwide
    cases hwide
  · intro hfit n' hn'
    rcases Array.mem_push.mp hn' with hn' | rfl
    · exact hb.fits hfit n' hn'
    · exact hn hfit
  · intro scope hscope f hf
    have hlt := hb.scopes scope hscope f hf
    simp only [Module.addNode, Array.size_push]
    omega
  · intro k n' hn'
    have hk : k < b.module.nodes.size := (Array.getElem?_eq_some_iff.mp hn').1
    rw [Module.addNode, Array.getElem?_push, if_neg (by omega)]
    exact hn'
  · simp [Module.addNode]

section

variable {c : BodyContext} {i : Invocation} {d : FunctionDefinition}

lemma safe_lookup {visible : List String} {name : String} (hname : name ∈ visible) :
    Safe p (Sees visible) (fun id b => id < b.module.nodes.size) (lookup c name) := by
  apply safe_get.bind (stable_sees visible)
  intro a
  obtain hsome | hnone := (a.scopes.findSome? fun scope => scope.lookup name).eq_none_or_eq_some
  · rw [hsome]
    intro b s _ _ hb
    have hsees := hb.2.2.1 name hname
    rw [hsome] at hsees
    cases hsees
  · obtain ⟨id, hid⟩ := hnone
    rw [hid]
    apply safe_pure
    intro b hb
    obtain ⟨scope, hscope, hlookup⟩ := List.exists_of_findSome?_eq_some hid
    have hlt := hb.2.1.scopes scope hscope _ (mem_of_lookup_eq_some hlookup)
    exact stable_lt id a b hb.2.2.2 hlt

lemma fits_of_getD {s : Session} (hs : s.PortsFit) (id : Nat) (side : Side) :
    ∀ port ∈ Node.ports ⟨"", .pass, (s.design.modules[id]?.map Module.inputs).getD [],
      (s.design.modules[id]?.map Module.outputs).getD []⟩ side, port.Fits := by
  intro port hport
  cases hm : s.design.modules[id]? with
  | none =>
    rw [hm] at hport
    cases side <;> simp [Node.ports] at hport
  | some m =>
    rw [hm] at hport
    apply hs m (Array.mem_of_getElem? hm) port
    rw [List.mem_append]
    cases side with
    | input => exact .inl hport
    | output => exact .inr hport

lemma safe_instantiate (hc : c.Sits i d) (name : String) {j : Invocation}
    (hneeds : c.program.Needs j) (hknown : j.Known c.program) :
    Safe c.program (fun _ => True) (fun id b => id < b.module.nodes.size)
      (instantiate c name j) := by
  obtain ⟨callee, hcallee⟩ := (Invocation.known_iff.mp hknown).1
  refine Safe.bind (R := fun f _ => c.program.callee j.function = .ok f)
    (safe_liftExcept (fun f hf b _ => hf) ?_) stable_true ?_
  · intro e he
    rw [hcallee] at he
    cases he
  · intro f
    apply safe_of_fact
    intro hf
    cases f with
    | primitive op =>
      refine Safe.bind (R := fun q _ => Primitive.ofCall op j = .ok q)
        (safe_liftExcept (fun q hq b _ => hq) ?_) stable_true ?_
      · intro e he
        exact (Primitive.ordinary_of_ofCall he).explained
      · intro q
        apply safe_of_fact
        intro hq
        apply (safe_mention _).bind stable_true
        intro _
        apply safe_addNode
        intro hfit side port hport
        have hports := Invocation.ports_of_primitive (u := c.program.unfolding 0) hf hq
        apply hfit j hneeds 0 q.signature hports port
        rw [List.mem_append]
        cases side with
        | input => exact .inl hport
        | output => exact .inr hport
    | function f =>
      refine Safe.bind (R := fun _ _ => True) ?_ stable_true ?_
      · intro b s hb hs _
        refine leads_lift ((hc.build j s f hneeds hknown hf hs).imp ?_)
        intro id s' hs'
        exact ⟨hb, hs', b.grows_self, trivial⟩
      · intro id
        apply safe_getSession.bind (stable_true.and stable_true)
        intro s
        apply safe_of_fact
        intro hs
        exact safe_addNode fun _ side => fits_of_getD hs id side

lemma safe_create (hc : c.Sits i d) (name : String) {body : NodeBody}
    (hbody : body.Scoped c.program d.generics)
    (hneeds : ∀ j, body.StandsFor c.program c.bindings j → c.program.Needs j) :
    Safe c.program (fun _ => True) (fun id b => id < b.module.nodes.size) (create c name body) := by
  cases body with
  | function instantiation =>
    refine Safe.bind (safe_ofExpand (Instantiation.expand_yields hc.knows hc.covers _ hbody))
      stable_true ?_
    intro j
    apply safe_of_fact
    rintro ⟨hknown, hrun⟩
    apply (safe_mention _).bind stable_true
    intro _
    obtain ⟨depth, hdepth⟩ := hc.unfolding
    rw [hdepth] at hrun
    exact (safe_instantiate hc name (hneeds j ⟨depth, hrun⟩) hknown).pre fun _ _ => trivial
  | genericFunction parameter =>
    obtain ⟨j, hj⟩ := Option.isSome_iff_exists.mp (hc.covers.functions parameter hbody)
    rw [create, hj]
    exact safe_instantiate hc name (hneeds j hj) (hc.covers.known parameter j hj)
  | interface e =>
    refine Safe.bind (safe_ofExpand (InterfaceExpr.expand_yields hc.knows hc.covers hbody))
      stable_true ?_
    intro shape
    apply safe_of_fact
    rintro ⟨hfits, -⟩
    apply (safe_mention _).bind stable_true
    intro _
    apply safe_addNode
    intro _ side port hport
    cases side with
    | input =>
      obtain rfl := List.mem_singleton.mp hport
      exact hfits
    | output =>
      obtain rfl := List.mem_singleton.mp hport
      exact hfits

/-! ### Declarations -/

/-- The step adds nodes and connections and gives names in the innermost block, at least those of
the list. -/
def Declares (p : Program) (names : List String) (x : Construct Unit) : Prop :=
  ∀ b s scope outer, b.Steady p → s.PortsFit → b.scopes = scope :: outer → x.Leads b s True
    (fun _ b' s' => b'.Steady p ∧ s'.PortsFit ∧
      (∀ (k : Nat) n, b.module.nodes[k]? = some n → b'.module.nodes[k]? = some n) ∧
      ∃ added, b'.scopes = (added ++ scope) :: outer ∧
        ∀ name ∈ names, (added.lookup name).isSome = true) fun e _ => e.Explained p

lemma declares_pure : Declares p [] (pure ()) := by
  intro b s scope outer hb hs hscopes
  exact leads_pure ⟨hb, hs, fun _ _ h => h, [], hscopes, by simp⟩

lemma isSome_lookup_append {γ : Type} {l l' : List (String × γ)} {name : String}
    (h : (l.lookup name).isSome = true ∨ (l'.lookup name).isSome = true) :
    ((l ++ l').lookup name).isSome = true := by
  rw [List.lookup_append, Option.isSome_or, Bool.or_eq_true]
  exact h

lemma Declares.bind {names names' : List String} {x : Construct Unit}
    {f : Unit → Construct Unit} (hx : Declares p names x) (hf : ∀ a, Declares p names' (f a)) :
    Declares p (names ++ names') (x >>= f) := by
  intro b s scope outer hb hs hscopes
  apply (hx b s scope outer hb hs hscopes).bind
  rintro a b' s' ⟨hb', hs', hnodes, added, hscopes', hadded⟩
  refine (hf a b' s' (added ++ scope) outer hb' hs' hscopes').imp ?_
  rintro _ b'' s'' ⟨hb'', hs'', hnodes', added', hscopes'', hadded'⟩
  refine ⟨hb'', hs'', fun k n hn => hnodes' k n (hnodes k n hn), added' ++ added, ?_, ?_⟩
  · rw [hscopes'', List.append_assoc]
  · intro name hname
    apply isSome_lookup_append
    rcases List.mem_append.mp hname with hname | hname
    · exact .inr (hadded name hname)
    · exact .inl (hadded' name hname)

lemma declares_named (name : String) {x : Construct Nat}
    (hx : Safe p (fun _ => True) (fun id b => id < b.module.nodes.size) x) :
    Declares p [name] (do bindName name (← x)) := by
  intro b s scope outer hb hs hscopes
  apply (hx b s hb hs trivial).bind
  rintro id b' s' ⟨hb', hs', hgrows, hid⟩
  refine leads_bindName (hgrows.scopes.trans hscopes)
    ⟨⟨hb'.fits, ?_⟩, hs', hgrows.nodes, [(name, id)], rfl, by simp⟩
  have hscopes' := hb'.scopes
  rw [hgrows.scopes, hscopes, List.forall_mem_cons] at hscopes'
  exact List.forall_mem_cons.mpr ⟨List.forall_mem_cons.mpr ⟨hid, hscopes'.1⟩, hscopes'.2⟩

/-- A node of the body makes its invocation a needed one. -/
lemma needs_of_leaf (hc : c.Sits i d) {n : CircuitNode} {body : NodeBody}
    (hn : n ∈ Statement.blockLeaves c.bindings d.statements) (hbody : n.body? = some body)
    {j : Invocation} (hj : body.StandsFor c.program c.bindings j) : c.program.Needs j :=
  .node hc.needs hc.opens hn hbody hj

mutual

lemma declares_declare (hc : c.Sits i d) {visible : List String} : ∀ n : CircuitNode,
    n.Scoped c.program d.generics visible →
    n.leaves ⊆ Statement.blockLeaves c.bindings d.statements →
    Declares c.program n.names (declare c n)
  | .declared name body, hn, hleaves => by
    rw [declare, CircuitNode.names]
    apply declares_named
    apply safe_create hc name hn.2
    intro j hj
    exact needs_of_leaf hc (n := .declared name body) (hleaves (by simp [CircuitNode.leaves])) rfl hj
  | .nested chain, hn, hleaves => by
    rw [declare, CircuitNode.names]
    rw [CircuitNode.leaves] at hleaves
    exact declares_declareChain hc chain hn hleaves
  | .reference name accessors, _, _ => by
    rw [declare, CircuitNode.names]
    exact declares_pure
  | .anonymous body, _, _ => by
    rw [declare, CircuitNode.names]
    exact declares_pure

lemma declares_declareChain (hc : c.Sits i d) {visible : List String} :
    ∀ groups : List (List CircuitNode), CircuitNode.ChainScoped c.program d.generics visible groups →
    CircuitNode.chainLeaves groups ⊆ Statement.blockLeaves c.bindings d.statements →
    Declares c.program (CircuitNode.chainNames groups) (declareChain c groups)
  | [], _, _ => by
    rw [declareChain, CircuitNode.chainNames]
    exact declares_pure
  | group :: rest, hgroups, hleaves => by
    rw [declareChain, CircuitNode.chainNames]
    rw [CircuitNode.chainLeaves, List.append_subset] at hleaves
    exact (declares_declareGroup hc group hgroups.1 hleaves.1).bind fun _ =>
      declares_declareChain hc rest hgroups.2 hleaves.2

lemma declares_declareGroup (hc : c.Sits i d) {visible : List String} : ∀ ns : List CircuitNode,
    CircuitNode.GroupScoped c.program d.generics visible ns →
    CircuitNode.groupLeaves ns ⊆ Statement.blockLeaves c.bindings d.statements →
    Declares c.program (CircuitNode.groupNames ns) (declareGroup c ns)
  | [], _, _ => by
    rw [declareGroup, CircuitNode.groupNames]
    exact declares_pure
  | n :: rest, hns, hleaves => by
    rw [declareGroup, CircuitNode.groupNames]
    rw [CircuitNode.groupLeaves, List.append_subset] at hleaves
    exact (declares_declare hc n hns.1 hleaves.1).bind fun _ =>
      declares_declareGroup hc rest hns.2 hleaves.2

end

lemma declares_declareBlock (hc : c.Sits i d) {visible : List String} {block : List Statement}
    (hblock : Statement.BlockScoped c.program d.generics visible block)
    (hleaves : Statement.blockLeaves c.bindings block ⊆
      Statement.blockLeaves c.bindings d.statements) :
    Declares c.program (Statement.blockNames block) (declareBlock c block) := by
  induction block with
  | nil => exact declares_pure
  | cons s rest ih =>
    rw [Statement.blockLeaves, List.append_subset] at hleaves
    rw [Statement.BlockScoped] at hblock
    cases s with
    | connection chain =>
      rw [Statement.leaves] at hleaves
      exact (declares_declareChain hc chain hblock.1 hleaves.1).bind fun _ => ih hblock.2 hleaves.2
    | conditional predicate thenBody elseBody => exact ih hblock.2 hleaves.2

/-! ### Ends of connections -/

end

end Construct

/-- The end is on a port of the module, and its tree has wires of that port only. -/
def Endpoint.Valid (m : Module) (side : Side) (e : Endpoint) : Prop :=
  ∃ port, (m.portsOf e.node side)[e.port]? = some port ∧
    ∀ leaf ∈ e.tree.leaves, leaf < port.shape.wireCount

structure Ends.Valid (m : Module) (ends : Ends) : Prop where
  sinks : ∀ e ∈ ends.sinks, e.Valid m .input
  sources : ∀ e ∈ ends.sources, e.Valid m .output

lemma Endpoint.stable_valid (side : Side) (e : Endpoint) :
    Stable fun b => e.Valid b.module side := by
  rintro b b' hgrows ⟨port, hport, hleaves⟩
  refine ⟨port, ?_, hleaves⟩
  cases hn : b.module.nodes[e.node]? with
  | none =>
    unfold Module.portsOf at hport
    rw [hn] at hport
    simp at hport
  | some n =>
    unfold Module.portsOf at hport ⊢
    rw [hgrows.nodes _ _ hn]
    rw [hn] at hport
    exact hport

lemma Ends.stable_valid (ends : Ends) : Stable fun b => ends.Valid b.module := by
  intro b b' hgrows h
  exact ⟨fun e he => Endpoint.stable_valid .input e b b' hgrows (h.sinks e he),
    fun e he => Endpoint.stable_valid .output e b b' hgrows (h.sources e he)⟩

lemma Body.valid_endpoints (m : Module) (node : Nat) (side : Side) :
    ∀ e ∈ endpoints m node side, e.Valid m side := by
  intro e he
  obtain ⟨k, hk, rfl⟩ := List.mem_mapIdx.mp he
  refine ⟨_, List.getElem?_eq_getElem hk, ?_⟩
  intro leaf hleaf
  have hlt := (PortTree.mem_leaves_number.mp hleaf).2
  omega

lemma Body.valid_endsOf (m : Module) (node : Nat) : (endsOf m node).Valid m :=
  ⟨valid_endpoints m node .input, valid_endpoints m node .output⟩

namespace Construct

variable {α β : Type} {p : Program} {H : Body → Prop} {c : BodyContext} {i : Invocation}
  {d : FunctionDefinition}

/-- The value satisfies `Q`, or the error can be explained. -/
def Gives (p : Program) (Q : α → Prop) (x : Except BuildError α) : Prop :=
  match x with
  | .ok a => Q a
  | .error e => e.Explained p

lemma Gives.bind {Q : α → Prop} {R : β → Prop} {x : Except BuildError α}
    {f : α → Except BuildError β} (hx : Gives p Q x) (hf : ∀ a, Q a → Gives p R (f a)) :
    Gives p R (x >>= f) := by
  cases x with
  | error e => exact hx
  | ok a => exact hf a hx

lemma Gives.safe {R : α → Body → Prop} {x : Except BuildError α}
    (h : Gives p (fun a => ∀ b, H b → R a b) x) : Safe p H R (liftM x : Construct α) := by
  apply safe_liftExcept
  · rintro a rfl
    exact h
  · rintro e rfl
    exact h

lemma gives_eval (hc : c.Sits i d) {e : StaticExpr} (he : e.Scoped d.generics) :
    Gives c.program (fun _ => True) (e.eval c.bindings) := by
  cases h : e.eval c.bindings with
  | error error => exact (ordinary_of_eval hc.covers he h).explained
  | ok value => trivial

lemma gives_vectorLength (t : PortTree) (text : String) :
    Gives p (fun _ => True) (vectorLength c t text) := by
  unfold vectorLength
  split <;> trivial

lemma gives_inRange (place : Int64) (length : Nat) :
    Gives p (fun _ => True) (inRange c place length) := by
  unfold inRange
  split <;> trivial

/-- An access stays within the wires of a tree. Only a member access can miss a name. -/
lemma gives_access (hc : c.Sits i d) {a : Accessor} (ha : a.Scoped d.generics)
    (hmember : ∀ name, a = .member name →
      (BuildError.unresolvedPort c.label name).Explained c.program) (t : PortTree) :
    Gives c.program (fun u : PortTree => u.leaves ⊆ t.leaves) (access c t a) := by
  cases a with
  | member name =>
    rw [access]
    split
    · next u hu => exact (PortTree.sublist_leaves_member? hu).subset
    · exact hmember name rfl
  | index place =>
    rw [access]
    apply (gives_vectorLength t _).bind
    intro length _
    apply (gives_eval hc ha).bind
    intro value _
    apply (gives_inRange value length).bind
    intro k _
    split
    · next u hu => exact (PortTree.sublist_leaves_item? hu).subset
    · trivial
  | slice first last =>
    rw [access]
    apply (gives_vectorLength t _).bind
    intro length _
    apply (gives_eval hc ha.1).bind
    intro start _
    apply (gives_eval hc ha.2).bind
    intro stop _
    apply (gives_inRange start length).bind
    intro k _
    apply (gives_inRange stop length).bind
    intro l _
    dsimp only
    split
    · trivial
    · split
      · next u hu => exact (PortTree.sublist_leaves_slice? hu).subset
      · trivial

lemma gives_accessEndpoints (hc : c.Sits i d) {a : Accessor} (ha : a.Scoped d.generics)
    (hmember : ∀ name, a = .member name →
      (BuildError.unresolvedPort c.label name).Explained c.program) {m : Module} {side : Side}
    {es : List Endpoint} (hes : ∀ e ∈ es, e.Valid m side) :
    Gives c.program (fun r : List Endpoint => ∀ e ∈ r, e.Valid m side)
      (es.mapM (accessEndpoint c a)) := by
  induction es with
  | nil => exact fun e he => by simp at he
  | cons e es ih =>
    rw [List.forall_mem_cons] at hes
    rw [List.mapM_cons]
    refine Gives.bind (Q := fun e => e.Valid m side) ?_ ?_
    · apply (gives_access hc ha hmember e.tree).bind
      intro u hu
      obtain ⟨port, hport, hleaves⟩ := hes.1
      exact ⟨port, hport, fun leaf hleaf => hleaves leaf (hu hleaf)⟩
    · intro e' he'
      apply (ih hes.2).bind
      intro es' hes'
      exact List.forall_mem_cons.mpr ⟨he', hes'⟩

lemma gives_accessEnds (hc : c.Sits i d) {accessors : List Accessor}
    (hscoped : ∀ a ∈ accessors, a.Scoped d.generics)
    (hmember : ∀ name, .member name ∈ accessors →
      (BuildError.unresolvedPort c.label name).Explained c.program) {m : Module} {ends : Ends}
    (hends : ends.Valid m) :
    Gives c.program (fun r : Ends => r.Valid m) (accessEnds c ends accessors) := by
  induction accessors generalizing ends with
  | nil => exact hends
  | cons a rest ih =>
    rw [List.forall_mem_cons] at hscoped
    have hfirst : ∀ name, a = .member name →
        (BuildError.unresolvedPort c.label name).Explained c.program :=
      fun name ha => hmember name (ha ▸ List.mem_cons_self ..)
    rw [accessEnds]
    apply (gives_accessEndpoints hc hscoped.1 hfirst hends.sinks).bind
    intro sinks hsinks
    apply (gives_accessEndpoints hc hscoped.1 hfirst hends.sources).bind
    intro sources hsources
    exact ih hscoped.2 (fun name hname => hmember name (List.mem_cons_of_mem _ hname))
      ⟨hsinks, hsources⟩

lemma valid_selectPort {m : Module} {n : Node} {name : String} {ends : Ends}
    (hends : ends.Valid m) : (selectPort n name ends).Valid m :=
  ⟨fun e he => hends.sinks e (List.mem_filter.mp he).1,
    fun e he => hends.sources e (List.mem_filter.mp he).1⟩

lemma safe_reference (hc : c.Sits i d) {visible : List String} {name : String}
    {accessors : List Accessor} (hname : name ∈ visible)
    (hscoped : ∀ a ∈ accessors, a.Scoped d.generics)
    (hleaf : .reference name accessors ∈ Statement.blockLeaves c.bindings d.statements) :
    Safe c.program (Sees visible) (fun ends b => ends.Valid b.module)
      (reference c name accessors) := by
  have hmember : ∀ text member, .member member ∈ accessors →
      (text = member ∨ text = name ++ "." ++ member) →
      (BuildError.unresolvedPort c.label text).Explained c.program := by
    intro text member hmem htext
    exact ⟨i, d, c.bindings, name, accessors, member, hc.needs, hc.opens, hc.label, hleaf, hmem,
      htext⟩
  -- an access to the ends of a node in the module found so far
  have haccess : ∀ (a : Body) (rest : List Accessor) (ends : Ends), rest ⊆ accessors →
      ends.Valid a.module → Gives c.program
        (fun r : Ends => ∀ b, a.Grows b → r.Valid b.module) (accessEnds c ends rest) := by
    intro a rest ends hrest hends
    have hgives := gives_accessEnds hc (fun x hx => hscoped x (hrest hx))
      (fun member hm => hmember member member (hrest hm) (.inl rfl)) hends
    cases h : accessEnds c ends rest with
    | error e =>
      rw [h] at hgives
      exact hgives
    | ok r =>
      rw [h] at hgives
      exact fun b hgrows => Ends.stable_valid r a b hgrows hgives
  apply (safe_lookup hname).bind (stable_sees visible)
  intro id
  apply safe_get.bind ((stable_sees visible).and (stable_lt id))
  intro a
  have hends := Body.valid_endsOf a.module id
  dsimp only
  split
  · next n member rest _ =>
    split
    · split
      · exact safe_throw_bind (hmember _ member (List.mem_cons_self ..) (.inr rfl)) _
      · refine Safe.pre (Gives.safe (H := a.Grows) ?_) fun b hb => hb.2.2.2
        exact haccess a rest _ (List.subset_cons_self ..) (valid_selectPort hends)
    · refine Safe.pre (Gives.safe (H := a.Grows) ?_) fun b hb => hb.2.2.2
      exact haccess a _ _ (List.Subset.refl _) hends
  · refine Safe.pre (Gives.safe (H := a.Grows) ?_) fun b hb => hb.2.2.2
    exact haccess a _ _ (List.Subset.refl _) hends

/-! ### Connections -/

lemma nodes_of_connect {m m' : Module} {driver driven : Wire}
    (h : m.connect driver driven = .ok m') : m'.nodes = m.nodes := by
  obtain ⟨rfl, -⟩ := Module.of_connect_eq_ok h
  simp [Module.extend]

/-- Wires that are there, in the right direction, can only fail to be connected because of another
driver. -/
lemma alreadyDriven_of_connect {m : Module} {driver driven : Wire} {e : ConnectError}
    (hwires : m.hasWire driver = true ∧ m.hasWire driven = true)
    (hdriver : driver.isProduced = true) (hdriven : driven.isProduced = false)
    (h : m.connect driver driven = .error e) : ∃ existing, e = .alreadyDriven driven existing := by
  unfold Module.connect at h
  rw [hwires.1, hwires.2, hdriver, hdriven] at h
  cases hm : m.driver? driven with
  | none =>
    rw [hm] at h
    cases h
  | some existing =>
    rw [hm] at h
    cases h
    exact ⟨existing, rfl⟩

lemma safe_wire {driver driven : Wire} (hdriver : driver.isProduced = true)
    (hdriven : driven.isProduced = false) :
    Safe p (fun b => p.PortsFit → b.module.hasWire driver = true ∧ b.module.hasWire driven = true)
      (fun _ _ => True) (wire c driver driven) := by
  intro b s hb hs hwires
  refine Leads.bind (Q := fun b' b₁ s₁ => b = b' ∧ b = b₁ ∧ s = s₁) (leads_get ⟨rfl, rfl, rfl⟩) ?_
  rintro _ _ _ ⟨rfl, rfl, rfl⟩
  split
  · next m hm =>
    have hnodes := nodes_of_connect hm
    refine leads_set ⟨⟨?_, ?_⟩, hs, ⟨rfl, ?_⟩, trivial⟩
    · dsimp only
      rw [hnodes]
      exact hb.fits
    · dsimp only
      rw [hnodes]
      exact hb.scopes
    · dsimp only
      rw [hnodes]
      exact fun _ _ hn => hn
  · exact leads_throw trivial
  · next e hother he =>
    refine leads_throw ?_
    intro hfit
    obtain ⟨existing, rfl⟩ := alreadyDriven_of_connect (hwires hfit) hdriver hdriven he
    exact hother driven existing rfl

lemma stable_hasWire (P : Prop) (driver driven : Wire) :
    Stable fun b => P → b.module.hasWire driver = true ∧ b.module.hasWire driven = true := by
  have hwire : ∀ w, Stable fun b => b.module.hasWire w = true := by
    intro w b b' hgrows h
    obtain ⟨n, hn⟩ : ∃ n, b.module.nodes[w.node]? = some n :=
      ⟨_, Array.getElem?_eq_getElem (Module.node_lt_of_hasWire h)⟩
    rw [← h]
    exact Module.hasWire_congr (by rw [hn, hgrows.nodes _ _ hn])
  intro b b' hgrows h hP
  exact ⟨hwire driver b b' hgrows (h hP).1, hwire driven b b' hgrows (h hP).2⟩

/-- Wires of a valid end exist if the ports of the module fit. -/
lemma hasWire_of_valid {b : Body} (hb : b.Steady p) (hfit : p.PortsFit) {side : Side}
    {e : Endpoint} (he : e.Valid b.module side) {leaf : Nat} (hleaf : leaf ∈ e.tree.leaves) :
    b.module.hasWire ⟨e.node, side, e.port, .data leaf⟩ = true := by
  obtain ⟨port, hport, hleaves⟩ := he
  have hfits : port.Fits := by
    unfold Module.portsOf at hport
    cases hn : b.module.nodes[e.node]? with
    | none =>
      rw [hn] at hport
      simp at hport
    | some n =>
      rw [hn] at hport
      exact hb.fits hfit n (Array.mem_of_getElem? hn) side port (List.mem_of_getElem? hport)
  have hlt := hleaves leaf hleaf
  unfold Port.Fits at hfits
  have hwidth : leaf < port.shape.width := by
    unfold Shape.width
    omega
  simp [Module.hasWire, Module.port?, hport, hwidth]

lemma hasWire_of_isStream {m : Module} {e : Endpoint} {side : Side} (h : isStream m e side = true)
    {slot : Slot} (hslot : ∀ leaf, slot ≠ .data leaf) :
    m.hasWire ⟨e.node, side, e.port, slot⟩ = true := by
  unfold isStream at h
  unfold Module.hasWire Module.port?
  dsimp only
  split at h
  · next port hport =>
    rw [hport]
    cases slot with
    | data leaf => exact absurd rfl (hslot leaf)
    | valid => exact h
    | ready => exact h
  · cases h

lemma safe_forM {f : α → Construct PUnit} {l : List α} (hH : Stable H)
    (hf : ∀ a ∈ l, Safe p H (fun _ _ => True) (f a)) :
    Safe p H (fun _ _ => True) (l.forM f) := by
  induction l with
  | nil => exact safe_pure fun _ _ => trivial
  | cons a l ih =>
    rw [List.forall_mem_cons] at hf
    exact hf.1.bind hH fun _ => (ih hf.2).pre fun _ h => h.1

lemma safe_connect {source sink : Endpoint} :
    Safe p (fun b => source.Valid b.module .output ∧ sink.Valid b.module .input)
      (fun _ _ => True) (connect c source sink) := by
  have hstable : Stable fun b => source.Valid b.module .output ∧ sink.Valid b.module .input :=
    (Endpoint.stable_valid .output source).and (Endpoint.stable_valid .input sink)
  apply safe_get.bind hstable
  intro a
  refine Safe.pre (H := fun b => a.Grows b ∧
      a.Steady p ∧ source.Valid a.module .output ∧ sink.Valid a.module .input)
    (safe_of_fact ?_) fun b hb => ⟨hb.2.2.2, hb.2.1, hb.2.2.1⟩
  rintro ⟨ha, hsource, hsink⟩
  dsimp only
  split
  · exact safe_throw trivial
  · next pairs hpairs =>
    refine Safe.bind (safe_forM (stable_grows a) ?_) (stable_grows a) ?_
    · rintro x hx
      obtain ⟨hleft, hright⟩ := PortTree.mem_leaves_of_pairLeaves? _ _ hpairs x hx
      refine (safe_wire rfl rfl).pre fun b hgrows => stable_hasWire p.PortsFit _ _ a b hgrows ?_
      intro hfit
      exact ⟨hasWire_of_valid ha hfit hsource hleft, hasWire_of_valid ha hfit hsink hright⟩
    · intro _
      split
      · next hstreams =>
        simp only [Bool.and_eq_true] at hstreams
        have hwires : ∀ (slot : Slot), (∀ leaf, slot ≠ .data leaf) →
            a.module.hasWire ⟨source.node, .output, source.port, slot⟩ = true ∧
              a.module.hasWire ⟨sink.node, .input, sink.port, slot⟩ = true :=
          fun slot hslot => ⟨hasWire_of_isStream hstreams.1.2 hslot,
            hasWire_of_isStream hstreams.2 hslot⟩
        refine Safe.pre (H := a.Grows) ?_ fun b hb => hb.1
        refine Safe.bind (R := fun _ _ => True) ((safe_wire rfl rfl).pre ?_) (stable_grows a) ?_
        · intro b hgrows
          exact stable_hasWire p.PortsFit _ _ a b hgrows fun _ => hwires .valid (by simp)
        · intro _
          refine (safe_wire rfl rfl).pre ?_
          rintro b ⟨hgrows, -⟩
          exact stable_hasWire p.PortsFit _ _ a b hgrows fun _ => (hwires .ready (by simp)).symm
      · exact safe_pure fun _ _ => trivial

lemma safe_connectStage {sources sinks : List Endpoint} :
    Safe p (fun b => (∀ e ∈ sources, e.Valid b.module .output) ∧
      ∀ e ∈ sinks, e.Valid b.module .input) (fun _ _ => True) (connectStage c sources sinks) := by
  have hstable : Stable fun b => (∀ e ∈ sources, e.Valid b.module .output) ∧
      ∀ e ∈ sinks, e.Valid b.module .input := by
    rintro b b' hgrows ⟨hsources, hsinks⟩
    exact ⟨fun e he => e.stable_valid .output b b' hgrows (hsources e he),
      fun e he => e.stable_valid .input b b' hgrows (hsinks e he)⟩
  unfold connectStage
  split
  · refine safe_throw_bind ?_ _
    trivial
  · refine safe_forM hstable ?_
    rintro ⟨source, sink⟩ hmem
    obtain ⟨hsource, hsink⟩ := List.of_mem_zip hmem
    exact safe_connect.pre fun b hb => ⟨hb.1 source hsource, hb.2 sink hsink⟩

lemma stable_stages (stages : List Ends) : Stable fun b => ∀ ends ∈ stages, ends.Valid b.module :=
  fun b b' hgrows h ends hends => ends.stable_valid b b' hgrows (h ends hends)

lemma safe_connectStages (stages : List Ends) :
    Safe p (fun b => ∀ ends ∈ stages, ends.Valid b.module) (fun _ _ => True)
      (connectStages c stages) := by
  induction stages with
  | nil => exact safe_pure fun _ _ => trivial
  | cons first rest ih =>
    cases rest with
    | nil => exact safe_pure fun _ _ => trivial
    | cons second rest =>
      refine Safe.bind (R := fun _ _ => True) (safe_connectStage.pre ?_) (stable_stages _) ?_
      · intro b hb
        exact ⟨(hb first (by simp)).sources, (hb second (by simp)).sinks⟩
      · intro _
        exact ih.pre fun b hb ends hends => hb.1 ends (List.mem_cons_of_mem _ hends)

lemma safe_joinStages (stages : List Ends) :
    Safe p (fun b => ∀ ends ∈ stages, ends.Valid b.module) (fun ends b => ends.Valid b.module)
      (joinStages c stages) := by
  apply (safe_connectStages stages).bind (stable_stages stages)
  intro _
  apply safe_pure
  rintro b ⟨hstages, -⟩
  cases stages with
  | nil => exact ⟨by simp [Ends.none], by simp [Ends.none]⟩
  | cons first rest =>
    refine ⟨(hstages first (by simp)).sinks, ?_⟩
    have hlast : (first :: rest).getLastD .none ∈ first :: rest := by
      rw [List.getLastD_eq_getLast?, List.getLast?_eq_some_getLast (by simp)]
      exact List.getLast_mem _
    exact (hstages _ hlast).sources

lemma safe_anonymousName : Safe p H (fun _ _ => True) anonymousName := by
  intro b s hb hs _
  refine Leads.bind (Q := fun b' b₁ s₁ => b = b' ∧ b = b₁ ∧ s = s₁) (leads_get ⟨rfl, rfl, rfl⟩) ?_
  rintro _ _ _ ⟨rfl, rfl, rfl⟩
  refine Leads.bind (Q := fun _ b' s' => b'.Steady p ∧ s'.PortsFit ∧ b.Grows b')
    (leads_set ⟨⟨hb.fits, hb.scopes⟩, hs, rfl, fun _ _ hn => hn⟩) ?_
  rintro _ b' s' ⟨hb', hs', hgrows⟩
  refine Leads.bind (Q := fun _ b'' s'' => b' = b'' ∧ s''.PortsFit)
    (leads_lift (leads_mention fun _ => ⟨rfl, hs'⟩)) ?_
  rintro _ _ s'' ⟨rfl, hs''⟩
  exact leads_pure ⟨hb', hs'', hgrows, trivial⟩

/-! ### Chains -/

lemma safe_endsOf {H : Body → Prop} {x : Construct Nat}
    (hx : Safe p H (fun id b => id < b.module.nodes.size) x) (hH : Stable H) :
    Safe p H (fun ends b => ends.Valid b.module) (do
      let id ← x
      return Body.endsOf (← get).module id) := by
  apply hx.bind hH
  intro id
  apply safe_get.bind (hH.and (stable_lt id))
  intro a
  apply safe_pure
  rintro b ⟨-, -, -, hgrows⟩
  exact Ends.stable_valid _ a b hgrows (Body.valid_endsOf a.module id)

mutual

lemma safe_node (hc : c.Sits i d) {visible : List String} : ∀ n : CircuitNode,
    n.Scoped c.program d.generics visible →
    n.leaves ⊆ Statement.blockLeaves c.bindings d.statements →
    Safe c.program (Sees visible) (fun ends b => ends.Valid b.module) (node c n)
  | .reference name accessors, hn, hleaves => by
    rw [node]
    exact safe_reference hc hn.1 hn.2 (hleaves (by simp [CircuitNode.leaves]))
  | .declared name body, hn, hleaves => by
    rw [node]
    exact safe_endsOf (safe_lookup hn.1) (stable_sees visible)
  | .anonymous body, hn, hleaves => by
    rw [node]
    apply safe_anonymousName.bind (stable_sees visible)
    intro name
    refine Safe.pre (H := fun _ => True) (safe_endsOf (safe_create hc name hn ?_) stable_true)
      fun _ _ => trivial
    intro j hj
    exact needs_of_leaf hc (n := .anonymous body) (hleaves (by simp [CircuitNode.leaves])) rfl hj
  | .nested chain, hn, hleaves => by
    rw [node]
    rw [CircuitNode.leaves] at hleaves
    apply (safe_stages hc chain hn hleaves).bind (stable_sees visible)
    intro stages
    exact (safe_joinStages stages).pre fun b hb => hb.2

lemma safe_stages (hc : c.Sits i d) {visible : List String} :
    ∀ groups : List (List CircuitNode), CircuitNode.ChainScoped c.program d.generics visible groups →
    CircuitNode.chainLeaves groups ⊆ Statement.blockLeaves c.bindings d.statements →
    Safe c.program (Sees visible) (fun stages b => ∀ ends ∈ stages, ends.Valid b.module)
      (stages c groups)
  | [], _, _ => by
    rw [stages]
    exact safe_pure fun _ _ => by simp
  | group :: rest, hgroups, hleaves => by
    rw [stages]
    rw [CircuitNode.chainLeaves, List.append_subset] at hleaves
    apply (safe_nodes hc group hgroups.1 hleaves.1).bind (stable_sees visible)
    intro ends
    apply ((safe_stages hc rest hgroups.2 hleaves.2).pre fun b hb => hb.1).bind
      ((stable_sees visible).and (Ends.stable_valid ends))
    intro rest'
    apply safe_pure
    rintro b ⟨⟨-, hends⟩, hrest⟩
    exact List.forall_mem_cons.mpr ⟨hends, hrest⟩

lemma safe_nodes (hc : c.Sits i d) {visible : List String} : ∀ ns : List CircuitNode,
    CircuitNode.GroupScoped c.program d.generics visible ns →
    CircuitNode.groupLeaves ns ⊆ Statement.blockLeaves c.bindings d.statements →
    Safe c.program (Sees visible) (fun ends b => ends.Valid b.module) (nodes c ns)
  | [], _, _ => by
    rw [nodes]
    exact safe_pure fun _ _ => ⟨by simp [Ends.none], by simp [Ends.none]⟩
  | n :: rest, hns, hleaves => by
    rw [nodes]
    rw [CircuitNode.groupLeaves, List.append_subset] at hleaves
    apply (safe_node hc n hns.1 hleaves.1).bind (stable_sees visible)
    intro ends
    apply ((safe_nodes hc rest hns.2 hleaves.2).pre fun b hb => hb.1).bind
      ((stable_sees visible).and (Ends.stable_valid ends))
    intro ends'
    apply safe_pure
    rintro b ⟨⟨-, hends⟩, hends'⟩
    refine ⟨?_, ?_⟩
    · intro e he
      rcases List.mem_append.mp he with he | he
      · exact hends.sinks e he
      · exact hends'.sinks e he
    · intro e he
      rcases List.mem_append.mp he with he | he
      · exact hends.sources e he
      · exact hends'.sources e he

end

/-! ### Statements -/

/-- A block of its own: its declarations come first, and its names are gone afterwards. -/
lemma safe_inBlock {visible names : List String} {declarations rest : Construct Unit}
    (hdeclarations : Declares p names declarations)
    (hrest : Safe p (Sees (names ++ visible)) (fun _ _ => True) rest) :
    Safe p (Sees visible) (fun _ _ => True) (inBlock do
      declarations
      rest) := by
  intro b s hb hs hsees
  refine Leads.bind (Q := fun _ b' s' => b'.Steady p ∧ s'.PortsFit ∧ b'.module = b.module ∧
    b'.scopes = [] :: b.scopes) (leads_modify ⟨⟨hb.fits, ?_⟩, hs, rfl, rfl⟩) ?_
  · exact List.forall_mem_cons.mpr ⟨by simp, hb.scopes⟩
  rintro _ b₁ s₁ ⟨hb₁, hs₁, hmodule, hscopes₁⟩
  refine Leads.bind (Q := fun _ b' s' => b'.Steady p ∧ s'.PortsFit ∧
    (∀ (k : Nat) n, b.module.nodes[k]? = some n → b'.module.nodes[k]? = some n) ∧
    b'.scopes.tail = b.scopes) ?_ ?_
  · refine Leads.bind (hdeclarations b₁ s₁ [] b.scopes hb₁ hs₁ hscopes₁) ?_
    rintro _ b₂ s₂ ⟨hb₂, hs₂, hnodes₂, added, hscopes₂, hadded⟩
    have hsees₂ : b₂.Sees (names ++ visible) := by
      intro name hname
      rw [hscopes₂, List.append_nil, List.findSome?_cons]
      rcases List.mem_append.mp hname with hname | hname
      · obtain ⟨id, hid⟩ := Option.isSome_iff_exists.mp (hadded name hname)
        rw [hid]
        rfl
      · cases added.lookup name with
        | some id => rfl
        | none => exact hsees name hname
    refine (hrest b₂ s₂ hb₂ hs₂ hsees₂).imp ?_
    rintro _ b₃ s₃ ⟨hb₃, hs₃, hgrows, -⟩
    refine ⟨hb₃, hs₃, ?_, ?_⟩
    · intro k n hn
      exact hgrows.nodes k n (hnodes₂ k n (hmodule ▸ hn))
    · rw [hgrows.scopes, hscopes₂]
      rfl
  · rintro _ b₃ s₃ ⟨hb₃, hs₃, hnodes, htail⟩
    refine leads_modify ⟨⟨hb₃.fits, ?_⟩, hs₃, ⟨htail, hnodes⟩, trivial⟩
    exact fun scope hscope => hb₃.scopes scope (List.mem_of_mem_tail hscope)

mutual

lemma safe_statement (hc : c.Sits i d) {visible : List String} : ∀ s : Statement,
    s.Scoped c.program d.generics visible →
    s.leaves c.bindings ⊆ Statement.blockLeaves c.bindings d.statements →
    Safe c.program (Sees visible) (fun _ _ => True) (statement c s)
  | .connection groups, hs, hleaves => by
    rw [statement]
    rw [Statement.leaves] at hleaves
    refine Safe.bind (R := fun _ _ => True) ?_ (stable_sees visible)
      fun _ => safe_pure fun _ _ => trivial
    apply (safe_stages hc groups hs hleaves).bind (stable_sees visible)
    intro stages
    exact ((safe_joinStages stages).pre fun b hb => hb.2).post fun _ _ _ => trivial
  | .conditional predicate thenBody elseBody, hs, hleaves => by
    rw [statement]
    rw [Statement.leaves] at hleaves
    refine Safe.bind (R := fun value _ => predicate.eval c.bindings = .ok value)
      (safe_liftExcept (fun value hvalue _ _ => hvalue) ?_) (stable_sees visible) ?_
    · intro e he
      exact (ordinary_of_eval hc.covers hs.1 he).explained
    · intro value
      apply safe_of_fact
      intro hvalue
      rw [hvalue] at hleaves
      split
      · next htrue =>
        dsimp only at hleaves
        rw [if_pos htrue] at hleaves
        exact safe_inBlock (declares_declareBlock hc hs.2.1 hleaves)
          (safe_statements hc thenBody hs.2.1 hleaves)
      · next hfalse =>
        dsimp only at hleaves
        rw [if_neg hfalse] at hleaves
        exact safe_inBlock (declares_declareBlock hc hs.2.2 hleaves)
          (safe_statements hc elseBody hs.2.2 hleaves)

lemma safe_statements (hc : c.Sits i d) {visible : List String} : ∀ ss : List Statement,
    Statement.BlockScoped c.program d.generics visible ss →
    Statement.blockLeaves c.bindings ss ⊆ Statement.blockLeaves c.bindings d.statements →
    Safe c.program (Sees visible) (fun _ _ => True) (statements c ss)
  | [], _, _ => by
    rw [statements]
    exact safe_pure fun _ _ => trivial
  | s :: rest, hss, hleaves => by
    rw [statements]
    rw [Statement.blockLeaves, List.append_subset] at hleaves
    exact (safe_statement hc s hss.1 hleaves.1).bind (stable_sees visible) fun _ =>
      (safe_statements hc rest hss.2 hleaves.2).pre fun b hb => hb.1

end

lemma declares_ports {ports : List Port} (hfits : ∀ port ∈ ports, port.Fits)
    (f : Port → Node) (hf : ∀ port side, ∀ q ∈ (f port).ports side, q = port) :
    Declares p (ports.map Port.name)
      (ports.forM fun port => do bindName port.name (← addNode (f port))) := by
  induction ports with
  | nil => exact declares_pure
  | cons port rest ih =>
    rw [List.forall_mem_cons] at hfits
    have hport : Declares p [port.name] (do bindName port.name (← addNode (f port))) := by
      apply declares_named
      apply safe_addNode
      intro _ side q hq
      rw [hf port side q hq]
      exact hfits.1
    exact hport.bind fun _ => ih hfits.2

/-- The body of a function, from an empty module on. -/
lemma leads_function_safe (hc : c.Sits i d) {σ : Signature} (hσ : σ.Fits)
    (hnames : (d.inputs ++ d.outputs).map FunctionPort.name ⊆
      (σ.inputs ++ σ.outputs).map Port.name) {s : Session} (hs : s.PortsFit) :
    (function c σ.inputs σ.outputs d.statements).Leads
      ⟨.empty i σ.inputs σ.outputs, [[]], 0⟩ s True (fun _ _ s' => s'.PortsFit)
      fun e _ => e.Explained c.program := by
  have hinputs : Declares c.program (σ.inputs.map Port.name) (σ.inputs.forM fun port => do
      bindName port.name (← addNode ⟨port.name, .input, [], [port]⟩)) := by
    refine declares_ports (fun port hport => hσ port (List.mem_append_left _ hport)) _ ?_
    intro port side q hq
    cases side <;> simp [Node.ports] at hq
    exact hq
  have houtputs : Declares c.program (σ.outputs.map Port.name) (σ.outputs.forM fun port => do
      bindName port.name (← addNode ⟨port.name, .output, [port], []⟩)) := by
    refine declares_ports (fun port hport => hσ port (List.mem_append_right _ hport)) _ ?_
    intro port side q hq
    cases side <;> simp [Node.ports] at hq
    exact hq
  have hempty : Body.Steady c.program ⟨.empty i σ.inputs σ.outputs, [[]], 0⟩ :=
    ⟨by simp [Module.empty], by simp⟩
  have hstatements := (hc.resolved.function _ d hc.opens.1).statements
  refine Leads.bind (hinputs _ s [] [] hempty hs rfl) ?_
  rintro _ b₁ s₁ ⟨hb₁, hs₁, -, added₁, hscopes₁, hadded₁⟩
  refine Leads.bind (houtputs b₁ s₁ _ [] hb₁ hs₁ hscopes₁) ?_
  rintro _ b₂ s₂ ⟨hb₂, hs₂, -, added₂, hscopes₂, hadded₂⟩
  have hsees : b₂.Sees ((d.inputs ++ d.outputs).map FunctionPort.name) := by
    intro name hname
    have hname' := hnames hname
    rw [List.map_append, List.mem_append] at hname'
    have hsome : ((added₂ ++ (added₁ ++ [])).lookup name).isSome = true := by
      apply isSome_lookup_append
      rcases hname' with hname' | hname'
      · exact .inr (isSome_lookup_append (.inl (hadded₁ name hname')))
      · exact .inl (hadded₂ name hname')
    obtain ⟨id, hid⟩ := Option.isSome_iff_exists.mp hsome
    rw [hscopes₂, List.findSome?_cons, hid]
    rfl
  have hblock := safe_inBlock
    (declares_declareBlock hc hstatements (List.Subset.refl _))
    (safe_statements hc d.statements hstatements (List.Subset.refl _)) b₂ s₂ hb₂ hs₂ hsees
  exact hblock.imp fun _ _ _ h => h.2.1

end Construct

/-! ### Whole programs -/

/-- What a module declares fits: the widths of its ports are checked. -/
lemma leads_construct_fits {p : Program} (hp : p.Scoped) {depth : Nat}
    {build : Invocation → Elaborate Nat} {i : Invocation} {d : FunctionDefinition}
    (hknown : i.Known p) (hcallee : p.callee i.function = .ok (.function d)) (s : Session) :
    (i.construct p depth build).Leads s True
      (fun m _ => ∀ port ∈ m.inputs ++ m.outputs, port.Fits) fun _ _ => True := by
  have hd := hp.function _ d hcallee
  have hu := Program.unfolding_knows hp depth
  refine Invocation.leads_construct (J := fun m _ => ∀ port ∈ m.inputs ++ m.outputs, port.Fits)
    (F := fun _ => True) (fun _ => trivial) ?_ ?_
  · intro op primitive m mentioned hop
    rw [hcallee] at hop
    cases hop
  · intro d' b σ mentioned hd' hbind hσ
    rw [hcallee] at hd'
    cases hd'
    have hb := Generics.bind_yields hu hd.generics d.name i.interfaces
      (Invocation.known_iff.mp hknown).2 _ hbind
    refine ⟨?_, FunctionDefinition.signature_yields hu hd hb _ hσ⟩
    constructor
    · exact fun _ _ _ => trivial
    · exact fun _ _ _ h => h
    · exact fun _ _ _ _ h => h
    · exact fun _ _ _ _ h => h
    · exact fun _ _ _ _ _ h => h
    · exact fun _ _ _ _ _ h => h
    · exact fun _ s _ j _ _ _ h => (leads_true _ s).imp fun _ _ _ => ⟨trivial, fun _ => h⟩
    · intro m s driver driven m' _ hconnect h
      obtain ⟨rfl, -⟩ := Module.of_connect_eq_ok hconnect
      exact h

lemma leads_construct_safe {p : Program} (hp : p.Scoped) (depth : Nat)
    {build : Invocation → Elaborate Nat} {i : Invocation} {d : FunctionDefinition}
    (hneeds : p.Needs i) (hknown : i.Known p) (hcallee : p.callee i.function = .ok (.function d))
    (hbuild : ∀ j s f, p.Needs j → j.Known p → p.callee j.function = .ok (.function f) →
      s.PortsFit → (build j).Leads s True (fun _ s' => s'.PortsFit) fun e _ => e.Explained p)
    {s : Session} (hs : s.PortsFit) :
    (i.construct p depth build).Leads s True (fun _ s' => s'.PortsFit)
      fun e _ => e.Explained p := by
  have hd := hp.function _ d hcallee
  have hu := Program.unfolding_knows hp depth
  have hbind := Generics.bind_yields hu hd.generics d.name i.interfaces
    (Invocation.known_iff.mp hknown).2
  rw [Invocation.construct_of_function hcallee]
  refine Leads.bind (Q := fun b s' => s = s' ∧
    (d.generics.bind p (p.unfolding depth) d.name i.interfaces i.parameters).run = some (.ok b))
    (leads_ofExpand (fun _ => trivial) (fun _ h => ⟨rfl, h⟩)
      fun _ h => (hbind _ h).explained) ?_
  rintro b _ ⟨rfl, hb⟩
  have hcovers : b.Covers p d.generics := hbind _ hb
  have hsignature := FunctionDefinition.signature_yields hu hd hcovers
  refine Leads.bind (Q := fun σ s' => s = s' ∧
    (d.signature p (p.unfolding depth) b).run = some (.ok σ))
    (leads_ofExpand (fun _ => trivial) (fun _ h => ⟨rfl, h⟩)
      fun _ h => (hsignature _ h).explained) ?_
  rintro σ _ ⟨rfl, hσ⟩
  refine Leads.bind (Q := fun _ s' => s'.PortsFit) (leads_mention fun _ => hs) ?_
  intro _ s' hs'
  have hnames : (d.inputs ++ d.outputs).map FunctionPort.name ⊆
      (σ.inputs ++ σ.outputs).map Port.name := by
    obtain ⟨hinputs, houtputs⟩ := FunctionDefinition.names_signature hσ
    rw [List.map_append, List.map_append, hinputs, houtputs]
    exact List.Subset.refl _
  have hbody := Construct.leads_function_safe
    (c := ⟨p, p.unfolding depth, p.expansionNames depth, b, i.describe, build⟩)
    ⟨rfl, ⟨depth, rfl⟩, hp, hneeds, ⟨hcallee, depth, hb⟩, hcovers, hbuild⟩ (hsignature _ hσ) hnames hs'
  exact Leads.bind hbody fun _ _ h => leads_pure h

/-- Building a needed module fails for an explained reason only. -/
lemma leads_build_explained {p : Program} (hp : p.Scoped) (depth : Nat) {i : Invocation}
    {d : FunctionDefinition} (hneeds : p.Needs i) (hknown : i.Known p)
    (hcallee : p.callee i.function = .ok (.function d)) {s : Session} (hs : s.PortsFit) :
    (i.build p depth).Leads s True (fun _ s' => s'.PortsFit) fun e _ => e.Explained p := by
  induction depth generalizing i d s with
  | zero => exact trivial
  | succ depth ih =>
    rw [Invocation.build]
    refine Leads.bind (Q := fun s₁ s' => s = s₁ ∧ s = s') (leads_get ⟨rfl, rfl⟩) ?_
    rintro _ _ ⟨rfl, rfl⟩
    split
    · exact leads_pure hs
    · split
      · exact Leads.bind (Q := fun _ _ => False) (leads_throw trivial)
          fun _ _ hfalse => hfalse.elim
      · refine Leads.bind (Q := fun m s' => (∀ port ∈ m.inputs ++ m.outputs, port.Fits) ∧
          s'.PortsFit) (leads_whileBuilding ?_) ?_
        · have hsafe := leads_construct_safe hp depth hneeds hknown hcallee
            (fun j s f hj hj' hf hs => ih hj hj' hf hs) (s := { s with stack := i :: s.stack }) hs
          exact ((leads_construct_fits hp hknown hcallee _).and hsafe).impError fun _ _ h => h.2
        · rintro m s' ⟨hm, hs'⟩ m' hm'
          rcases Array.mem_push.mp hm' with hm' | rfl
          · exact hs' m' hm'
          · exact hm

lemma leads_buildAll_explained {p : Program} (hp : p.Scoped) (depth : Nat) {s : Session}
    (hs : s.PortsFit) :
    (p.buildAll depth).Leads s True (fun _ s' => s'.PortsFit) fun e _ => e.Explained p := by
  have hentries : ∀ ds : List FunctionDefinition,
      (∀ d ∈ ds, d ∈ p.functions ∧ d.generics.isEmpty = true) → ∀ s : Session, s.PortsFit →
      Leads (ds.forM (FunctionDefinition.buildEntry p depth)) s True (fun _ s' => s'.PortsFit)
        fun e _ => e.Explained p := by
    intro ds hds
    induction ds with
    | nil => exact fun s hs => leads_pure hs
    | cons d rest ih =>
      intro s hs
      rw [List.forall_mem_cons] at hds
      obtain ⟨⟨hmem, hplain⟩, hrest⟩ := hds
      obtain ⟨d', hcallee⟩ := Program.exists_function_of_mem hmem rfl
      have hknown : (Invocation.plain d.name).Known p := ⟨⟨_, hcallee⟩, trivial⟩
      refine Leads.bind (Q := fun _ s' => s'.PortsFit) ?_ fun _ s' hs' => ih hrest s' hs'
      refine Leads.bind (leads_build_explained hp depth (.entry hmem hplain) hknown hcallee hs) ?_
      intro id s' hs' m hm
      apply hs' m
      simpa [Design.addEntry, apply_ite Design.modules] using hm
  refine hentries _ ?_ s hs
  intro d hd
  rw [List.mem_filter] at hd
  exact hd

/-- The elaboration of a resolved program does not fail for want of a function, an interface, a
generic value or a node. A missing port or field comes from a member access in a chain of a module
that the program needs, and if all ports fit none is too wide and there is no internal error. -/
theorem Program.buildAll_error_of_resolve {source : Surface.Program} {p : Program}
    (hp : source.resolve = .ok p) {depth : Nat} {e : BuildError} {s : Session}
    (hrun : (p.buildAll depth).run .empty = some (.error e, s)) :
    (∀ name, e ≠ .unknownFunction name) ∧ (∀ name, e ≠ .unknownInterface name) ∧
    (∀ name, e ≠ .unboundGeneric name) ∧ (∀ label name, e ≠ .unresolvedNode label name) ∧
    (∀ label name, e = .unresolvedPort label name →
      ∃ i d b node accessors member, p.Needs i ∧ i.Opens p d b ∧ label = i.describe ∧
        CircuitNode.reference node accessors ∈ Statement.blockLeaves b d.statements ∧
        .member member ∈ accessors ∧ (name = member ∨ name = node ++ "." ++ member)) ∧
    (p.PortsFit → e ≠ .portTooWide ∧ ∀ cause, e ≠ .internal cause) := by
  have hempty : Session.empty.PortsFit := by
    intro m hm
    simp [Session.empty, Design.empty] at hm
  have hexplained : e.Explained p :=
    (leads_buildAll_explained (Resolution.scoped_of_resolve hp) depth hempty).of_run hrun
  refine ⟨?_, ?_, ?_, ?_, ?_, ?_⟩
  · rintro name rfl
    exact hexplained
  · rintro name rfl
    exact hexplained
  · rintro name rfl
    exact hexplained
  · rintro label name rfl
    exact hexplained
  · rintro label name rfl
    exact hexplained
  · intro hfit
    refine ⟨?_, ?_⟩
    · rintro rfl
      exact hexplained hfit
    · rintro cause rfl
      exact hexplained hfit

/-- A function that asks its input, a wire, for a member. -/
def Surface.Program.strayMember : Surface.Program :=
  ⟨[], [⟨"top", [], [⟨"a", .wire, .signal⟩], [⟨"b", .wire, .signal⟩],
    [.connect [.lone (.member (.name "a") "low"), .lone (.name "b")]]⟩]⟩

theorem Program.buildAll_error_of_resolve_strayMember :
    ∃ p s, Surface.Program.strayMember.resolve = .ok p ∧
      (p.buildAll 2).run .empty = some (.error (.unresolvedPort "top()" "low"), s) ∧
      ∃ i d b node accessors member, p.Needs i ∧ i.Opens p d b ∧ "top()" = i.describe ∧
        CircuitNode.reference node accessors ∈ Statement.blockLeaves b d.statements ∧
        .member member ∈ accessors ∧ ("low" = member ∨ "low" = node ++ "." ++ member) := by
  let p := Surface.Program.strayMember.resolve.toOption.getD ⟨[], []⟩
  have hp : Surface.Program.strayMember.resolve = .ok p := rfl
  have hfails : ((p.buildAll 2).run .empty).map (fun r => match r.1 with
      | .ok _ => none
      | .error e => some e) = some (some (.unresolvedPort "top()" "low")) := by decide +kernel
  obtain ⟨⟨r, s⟩, hrun, hr⟩ := Option.map_eq_some_iff.mp hfails
  cases r with
  | ok _ => cases hr
  | error e =>
    cases hr
    obtain ⟨-, -, -, -, hmember, -⟩ := buildAll_error_of_resolve hp hrun
    exact ⟨p, s, hp, hrun, hmember _ _ rfl⟩

end NetlistCompiler
