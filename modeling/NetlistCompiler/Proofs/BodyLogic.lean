import NetlistCompiler.Proofs.ElaborationErrors

/-!
# A logic for bodies

The construction of a body is a sequence of steps that add a node or connect two ends, each of them
on a port of the module. What every such step keeps, the whole construction keeps, and what a node
leaves behind is there in the end for every node of the branches that are taken.
-/

namespace NetlistCompiler

/-- The nodes of the first module are in the second one, under the same numbers. -/
def Module.Grows (m m' : Module) : Prop :=
  ∀ (k : Nat) n, m.nodes[k]? = some n → m'.nodes[k]? = some n

namespace Module

variable {m m' m'' : Module}

lemma grows_self (m : Module) : m.Grows m :=
  fun _ _ h => h

lemma Grows.trans (h : m.Grows m') (h' : m'.Grows m'') : m.Grows m'' :=
  fun k n hn => h' k n (h k n hn)

lemma grows_of_nodes_eq (h : m'.nodes = m.nodes) : m.Grows m' := by
  intro k n hn
  rw [h]
  exact hn

lemma grows_addNode (m : Module) (n : Node) : m.Grows (m.addNode n) := by
  intro k n' hn'
  have hlt := (Array.getElem?_eq_some_iff.mp hn').1
  rw [addNode, Array.getElem?_push_lt hlt]
  exact (Array.getElem?_eq_getElem hlt).symm.trans hn'

lemma Grows.port? (h : m.Grows m') {node port : Nat} {side : Side} {q : Port}
    (hq : (m.portsOf node side)[port]? = some q) : (m'.portsOf node side)[port]? = some q := by
  unfold portsOf at hq ⊢
  cases hn : m.nodes[node]? with
  | none =>
    rw [hn] at hq
    simp at hq
  | some n =>
    rw [hn] at hq
    rw [h node n hn]
    exact hq

/-- The property is kept while nodes are added. -/
def Stable (H : Module → Prop) : Prop :=
  ∀ m m', m.Grows m' → H m → H m'

lemma stable_true : Stable fun _ => True :=
  fun _ _ _ _ => trivial

lemma Stable.and {H S : Module → Prop} (hH : Stable H) (hS : Stable S) :
    Stable fun m => H m ∧ S m :=
  fun m m' hgrows h => ⟨hH m m' hgrows h.1, hS m m' hgrows h.2⟩

end Module

/-! ### Ends on ports -/

/-- The place of a port on a side of a module: its node, and its number there. -/
@[ext] structure PortPlace where
  node : Nat
  port : Nat

def Endpoint.place (e : Endpoint) : PortPlace :=
  ⟨e.node, e.port⟩

namespace Connection

/-- A data wire of an output port drives one of an input port. -/
def data (source sink : PortPlace) (i j : Nat) : Connection :=
  ⟨⟨source.node, .output, source.port, .data i⟩, ⟨sink.node, .input, sink.port, .data j⟩⟩

/-- The output port tells the input port that its data is valid. -/
def valid (source sink : PortPlace) : Connection :=
  ⟨⟨source.node, .output, source.port, .valid⟩, ⟨sink.node, .input, sink.port, .valid⟩⟩

/-- The input port tells the output port that it is ready. -/
def ready (source sink : PortPlace) : Connection :=
  ⟨⟨sink.node, .input, sink.port, .ready⟩, ⟨source.node, .output, source.port, .ready⟩⟩

end Connection

/-- The end is on a port of the module. If it is the whole port, its tree is that of the port. -/
def Endpoint.OnPort (m : Module) (side : Side) (e : Endpoint) : Prop :=
  ∃ q, (m.portsOf e.node side)[e.port]? = some q ∧ (e.whole = true → e.tree = .ofShape q.shape)

structure Ends.OnPorts (m : Module) (ends : Ends) : Prop where
  sinks : ∀ e ∈ ends.sinks, e.OnPort m .input
  sources : ∀ e ∈ ends.sources, e.OnPort m .output

lemma Ends.stable_onPorts (ends : Ends) : Module.Stable fun m => ends.OnPorts m := by
  intro m m' hgrows h
  constructor
  · intro e he
    obtain ⟨q, hq, hwhole⟩ := h.sinks e he
    exact ⟨q, hgrows.port? hq, hwhole⟩
  · intro e he
    obtain ⟨q, hq, hwhole⟩ := h.sources e he
    exact ⟨q, hgrows.port? hq, hwhole⟩

lemma Ends.onPorts_none (m : Module) : Ends.none.OnPorts m :=
  ⟨by simp [none], by simp [none]⟩

lemma Ends.OnPorts.append {m : Module} {a b : Ends} (ha : a.OnPorts m) (hb : b.OnPorts m) :
    (a.append b).OnPorts m := by
  constructor
  · intro e he
    rcases List.mem_append.mp he with he | he
    · exact ha.sinks e he
    · exact hb.sinks e he
  · intro e he
    rcases List.mem_append.mp he with he | he
    · exact ha.sources e he
    · exact hb.sources e he

lemma Body.onPort_endpoints (m : Module) (node : Nat) (side : Side) :
    ∀ e ∈ endpoints m node side, e.OnPort m side := by
  intro e he
  obtain ⟨k, hk, rfl⟩ := List.mem_mapIdx.mp he
  exact ⟨_, List.getElem?_eq_getElem hk, fun _ => rfl⟩

lemma Body.onPorts_endsOf (m : Module) (node : Nat) : (endsOf m node).OnPorts m :=
  ⟨onPort_endpoints m node .input, onPort_endpoints m node .output⟩

namespace Construct

variable {c : BodyContext} {m : Module}

/-- An end that has been narrowed is on the same port, and not the whole of it. -/
lemma onPort_of_accessEndpoints {a : Accessor} {side : Side} {es es' : List Endpoint}
    (h : es.mapM (accessEndpoint c a) = .ok es') (hes : ∀ e ∈ es, e.OnPort m side) :
    ∀ e ∈ es', e.OnPort m side := by
  induction es generalizing es' with
  | nil =>
    cases h
    simp
  | cons e es ih =>
    rw [List.forall_mem_cons] at hes
    rw [List.mapM_cons] at h
    obtain ⟨e₁, hfirst, h⟩ := exists_of_bind_eq_ok h
    obtain ⟨es₁, hrest, h⟩ := exists_of_bind_eq_ok h
    cases h
    obtain ⟨u, -, hnarrow⟩ := exists_of_bind_eq_ok hfirst
    cases hnarrow
    obtain ⟨q, hq, -⟩ := hes.1
    exact List.forall_mem_cons.mpr ⟨⟨q, hq, by rintro ⟨⟩⟩, ih hrest hes.2⟩

lemma onPorts_of_accessEnds {accessors : List Accessor} {ends ends' : Ends}
    (h : accessEnds c ends accessors = .ok ends') (hends : ends.OnPorts m) : ends'.OnPorts m := by
  induction accessors generalizing ends with
  | nil =>
    cases h
    exact hends
  | cons a rest ih =>
    rw [accessEnds] at h
    obtain ⟨sinks, hsinks, h⟩ := exists_of_bind_eq_ok h
    obtain ⟨sources, hsources, h⟩ := exists_of_bind_eq_ok h
    exact ih h ⟨onPort_of_accessEndpoints hsinks hends.sinks,
      onPort_of_accessEndpoints hsources hends.sources⟩

lemma onPorts_selectPort {n : Node} {name : String} {ends : Ends} (hends : ends.OnPorts m) :
    (selectPort n name ends).OnPorts m :=
  ⟨fun e he => hends.sinks e (List.mem_filter.mp he).1,
    fun e he => hends.sources e (List.mem_filter.mp he).1⟩

/-! ### Steps that add nodes and connections -/

open Elaborate

variable {α β : Type} {N : Prop} {J : Module → Session → Prop} {F : Session → Prop}
  {H : Module → Prop}

/-- From a module that satisfies `H`, the step keeps an invariant and all nodes and gives a value
that satisfies `Q`. It has no result only if `N`, and if it fails it leaves a session that satisfies
`F`. -/
def Runs (N : Prop) (J : Module → Session → Prop) (F : Session → Prop) (H : Module → Prop)
    (Q : α → Module → Prop) (x : Construct α) : Prop :=
  ∀ b s, J b.module s → H b.module → x.Leads b s N
    (fun a b' s' => J b'.module s' ∧ b.module.Grows b'.module ∧ Q a b'.module) fun _ s' => F s'

lemma runs_pure {Q : α → Module → Prop} {a : α} (h : ∀ m, H m → Q a m) :
    Runs N J F H Q (pure a : Construct α) := by
  intro b s hb hH
  exact leads_pure ⟨hb, b.module.grows_self, h _ hH⟩

lemma Runs.bind {Q : α → Module → Prop} {R : β → Module → Prop} {x : Construct α}
    {f : α → Construct β} (hx : Runs N J F H Q x) (hH : Module.Stable H)
    (hf : ∀ a, Runs N J F (fun m => H m ∧ Q a m) R (f a)) : Runs N J F H R (x >>= f) := by
  intro b s hb hpre
  apply (hx b s hb hpre).bind
  rintro a b' s' ⟨hb', hgrows, hQ⟩
  apply (hf a b' s' hb' ⟨hH _ _ hgrows hpre, hQ⟩).imp
  rintro r b'' s'' ⟨hb'', hgrows', hR⟩
  exact ⟨hb'', hgrows.trans hgrows', hR⟩

lemma Runs.pre {H' : Module → Prop} {Q : α → Module → Prop} {x : Construct α}
    (hx : Runs N J F H Q x) (h : ∀ m, H' m → H m) : Runs N J F H' Q x :=
  fun b s hb hpre => hx b s hb (h _ hpre)

lemma Runs.post {Q R : α → Module → Prop} {x : Construct α} (hx : Runs N J F H Q x)
    (h : ∀ a m, Q a m → R a m) : Runs N J F H R x := by
  intro b s hb hpre
  apply (hx b s hb hpre).imp
  rintro a b' s' ⟨hb', hgrows, hQ⟩
  exact ⟨hb', hgrows, h a _ hQ⟩

/-- What holds before and is kept while nodes are added holds afterwards. -/
lemma Runs.frame {S : Module → Prop} {Q : α → Module → Prop} {x : Construct α}
    (hx : Runs N J F H Q x) (hS : Module.Stable S) :
    Runs N J F (fun m => H m ∧ S m) (fun a m => Q a m ∧ S m) x := by
  intro b s hb hpre
  apply (hx b s hb hpre.1).imp
  rintro a b' s' ⟨hb', hgrows, hQ⟩
  exact ⟨hb', hgrows, hQ, hS _ _ hgrows hpre.2⟩

/-- Two steps one after the other, each of which leaves something behind. -/
lemma Runs.seq {S T : Module → Prop} {x : Construct α} {f : α → Construct β}
    (hx : Runs N J F H (fun _ => S) x) (hH : Module.Stable H) (hS : Module.Stable S)
    (hf : ∀ a, Runs N J F H (fun _ => T) (f a)) :
    Runs N J F H (fun _ m => S m ∧ T m) (x >>= f) :=
  hx.bind hH fun a => ((hf a).frame hS).post fun _ _ h => ⟨h.2, h.1⟩

lemma runs_get : Runs N J F H (fun a m => H a.module ∧ a.module.Grows m) get := by
  intro b s hb hH
  exact leads_get ⟨hb, b.module.grows_self, hH, b.module.grows_self⟩

lemma runs_modify {f : Body → Body} (hf : ∀ b, (f b).module = b.module) :
    Runs N J F H (fun _ => H) (modify f) := by
  intro b s hb hH
  refine leads_modify ?_
  rw [hf]
  exact ⟨hb, b.module.grows_self, hH⟩

lemma runs_forM {f : α → Construct PUnit} {l : List α} (hH : Module.Stable H)
    (hf : ∀ a ∈ l, Runs N J F H (fun _ _ => True) (f a)) :
    Runs N J F H (fun _ _ => True) (l.forM f) := by
  induction l with
  | nil => exact runs_pure fun _ _ => trivial
  | cons a l ih =>
    refine (hf a (by simp)).bind hH fun _ => ?_
    exact (ih fun a' ha' => hf a' (by simp [ha'])).pre fun _ h => h.1

lemma runs_bindName (name : String) (id : Nat) : Runs N J F H (fun _ => H) (bindName name id) := by
  apply runs_modify
  intro b
  split <;> rfl

/-- If a node fits and is added, then `K` holds. -/
def Admits (K : Module → Session → Prop) (n : Node) (m : Module) (s : Session) : Prop :=
  n.signature.fits = true → K (m.addNode n) s

lemma leads_addNode_of_admits {n : Node} {C : Module → Prop} {b : Body} {s : Session} (hfails : F s)
    (h : Admits (fun m s => J m s ∧ C m) n b.module s) :
    (addNode n).Leads b s N
      (fun _ b' s' => J b'.module s' ∧ b.module.Grows b'.module ∧ C b'.module)
      fun _ s' => F s' := by
  refine leads_addNode (fun _ => hfails) fun hfits => ?_
  obtain ⟨hJ, hC⟩ := h hfits
  exact ⟨hJ, b.module.grows_addNode n, hC⟩

/-- The body of a node stands for an invocation, as far as the context opens definitions. -/
def Makes (c : BodyContext) (i : Invocation) : NodeBody → Prop
  | .function instantiation =>
    (instantiation.expand c.program c.unfolding c.bindings).run = some (.ok i)
  | .genericFunction parameter => c.bindings.functions.lookup parameter = some i
  | .interface _ => False

/-! ### Connections of two ends -/

lemma Leads.impError {x : Construct α} {b : Body} {s : Session} {Q : α → Body → Session → Prop}
    {E E' : BuildError → Session → Prop} (hx : x.Leads b s N Q E)
    (h : ∀ e s', E e s' → E' e s') : x.Leads b s N Q E' :=
  Elaborate.Leads.impError hx h

lemma leads_wire {d w : Wire} {b : Body} {s : Session} :
    (wire c d w).Leads b s N
      (fun _ b' s' => b'.module = b.module.extend [] [⟨d, w⟩] ∧ s = s') fun _ s' => s = s' := by
  refine Leads.bind (Q := fun b' b₁ s₁ => b = b' ∧ b = b₁ ∧ s = s₁) (leads_get ⟨rfl, rfl, rfl⟩) ?_
  rintro _ _ _ ⟨rfl, rfl, rfl⟩
  split
  · next m hconnect => exact leads_set ⟨(Module.of_connect_eq_ok hconnect).1, rfl⟩
  · exact leads_throw rfl
  · exact leads_throw rfl

lemma leads_wires (link : α → Connection) {l : List α} {b : Body} {s : Session} :
    (l.forM fun a => wire c (link a).driver (link a).driven).Leads b s N
      (fun _ b' s' => b'.module = b.module.extend [] (l.map link) ∧ s = s') fun _ s' => s = s' := by
  induction l generalizing b with
  | nil => exact leads_pure ⟨(b.module.extend_nil).symm, rfl⟩
  | cons a l ih =>
    refine Leads.bind leads_wire ?_
    rintro _ b₁ _ ⟨hb₁, rfl⟩
    refine ih.imp ?_
    rintro _ b₂ _ ⟨hb₂, rfl⟩
    rw [hb₁, Module.extend_extend] at hb₂
    exact ⟨hb₂, rfl⟩

/-- Two ends are connected by their data wires, in pairs, and by a handshake if they are whole
streams. -/
lemma leads_connect (c : BodyContext) (source sink : Endpoint) {b : Body} {s : Session} :
    (connect c source sink).Leads b s N (fun _ b' s' => s = s' ∧
      ∃ pairs, source.tree.pairLeaves? sink.tree = some pairs ∧
        b'.module = b.module.extend []
          (pairs.map (fun x => .data source.place sink.place x.1 x.2) ++
            if source.whole && sink.whole && isStream b.module source .output &&
              isStream b.module sink .input then
              [.valid source.place sink.place, .ready source.place sink.place]
            else [])) fun _ s' => s = s' := by
  refine Leads.bind (Q := fun b' b₁ s₁ => b = b' ∧ b = b₁ ∧ s = s₁) (leads_get ⟨rfl, rfl, rfl⟩) ?_
  rintro _ _ _ ⟨rfl, rfl, rfl⟩
  dsimp only
  split
  · exact leads_throw rfl
  · next pairs hpairs =>
    refine Leads.bind
      (leads_wires fun x : Nat × Nat => .data source.place sink.place x.1 x.2) ?_
    rintro _ b₁ _ ⟨hb₁, rfl⟩
    split
    · refine Leads.bind leads_wire ?_
      rintro _ b₂ _ ⟨hb₂, rfl⟩
      refine leads_wire.imp ?_
      rintro _ b₃ _ ⟨hb₃, rfl⟩
      refine ⟨rfl, pairs, hpairs, ?_⟩
      rw [hb₃, hb₂, hb₁, Module.extend_extend, Module.extend_extend]
      simp only [List.nil_append]
      rfl
    · refine leads_pure ⟨rfl, pairs, hpairs, ?_⟩
      rw [hb₁, List.append_nil]

/-- An invariant that more connections do not disturb is kept. -/
lemma runs_connect_of_extend (c : BodyContext) (hfails : ∀ m s, J m s → F s)
    (hJ : ∀ m s cs, J m s → J (m.extend [] cs) s) (source sink : Endpoint) :
    Runs N J F H (fun _ _ => True) (connect c source sink) := by
  intro b s hb _
  have hsteps := leads_connect (N := N) (b := b) (s := s) c source sink
  refine (hsteps.imp ?_).impError ?_
  · rintro _ b' _ ⟨rfl, pairs, -, hb'⟩
    rw [hb']
    exact ⟨hJ _ _ _ hb, Module.grows_of_nodes_eq (by simp [Module.extend]), trivial⟩
  · rintro _ _ rfl
    exact hfails _ _ hb

/-! ### Rules for a whole body -/

/-- Rules for the single steps of a construction with bodies of nodes that satisfy `A`: they keep
the invariant, and a node leaves `C` behind. -/
structure Rules (c : BodyContext) (A : NodeBody → Prop) (C : NodeBody → Module → Prop) (N : Prop)
    (J : Module → Session → Prop) (F : Session → Prop) : Prop where
  fails : ∀ m s, J m s → F s
  mention : ∀ m s mentioned, J m s → J m { s with mentioned }
  stable : ∀ body, Module.Stable (C body)
  instantiation : ∀ x : Instantiation, A (.function x) →
    (x.expand c.program c.unfolding c.bindings).run = none → N
  interface : ∀ e : InterfaceExpr, A (.interface e) →
    (e.expand c.program c.unfolding c.bindings).run = none → N
  pass : ∀ m s name e shape, A (.interface e) →
    (e.expand c.program c.unfolding c.bindings).run = some (.ok shape) → J m s →
    Admits (fun m s => J m s ∧ C (.interface e) m) (passNode name shape) m s
  primitive : ∀ m s name body i op q, A body → Makes c i body →
    c.program.callee i.function = .ok (.primitive op) → Primitive.ofCall op i = .ok q → J m s →
    Admits (fun m s => J m s ∧ C body m) (primitiveNode name q) m s
  build : ∀ m s name body i d, A body → Makes c i body →
    c.program.callee i.function = .ok (.function d) → J m s →
    (c.build i).Leads s N (fun id s' => F s' ∧
      Admits (fun m s => J m s ∧ C body m) (instanceNode name i id s') m s') fun _ s' => F s'
  connect : ∀ source sink, Runs N J F
    (fun m => source.OnPort m .output ∧ sink.OnPort m .input) (fun _ _ => True)
    (connect c source sink)

namespace Rules

variable {A : NodeBody → Prop} {C : NodeBody → Module → Prop}

lemma runs_throw (h : Rules c A C N J F) {Q : α → Module → Prop} (e : BuildError) :
    Runs N J F H Q (throw e : Construct α) := by
  intro b s hb _
  exact leads_throw (h.fails b.module s hb)

lemma runs_liftExcept (h : Rules c A C N J F) {Q : α → Module → Prop} {x : Except BuildError α}
    (hx : ∀ a, x = .ok a → ∀ m, H m → Q a m) : Runs N J F H Q (liftM x : Construct α) := by
  intro b s hb hH
  refine leads_liftExcept ?_ fun _ _ => h.fails b.module s hb
  intro a ha
  exact ⟨hb, b.module.grows_self, hx a ha _ hH⟩

lemma runs_mention (h : Rules c A C N J F) (names : List String) :
    Runs N J F H (fun _ => H) (liftM (Elaborate.mention names) : Construct Unit) := by
  intro b s hb hH
  exact leads_lift (leads_mention fun mentioned =>
    ⟨h.mention b.module s mentioned hb, b.module.grows_self, hH⟩)

lemma runs_lookup (h : Rules c A C N J F) (hH : Module.Stable H) (name : String) :
    Runs N J F H (fun _ _ => True) (lookup c name) := by
  apply runs_get.bind hH
  intro b
  split
  · exact runs_pure fun _ _ => trivial
  · exact h.runs_throw _

lemma runs_instantiate (h : Rules c A C N J F) (name : String) {body : NodeBody} (hA : A body)
    {i : Invocation} (hi : Makes c i body) :
    Runs N J F (fun _ => True) (fun _ => C body) (instantiate c name i) := by
  intro b s hb _
  refine Leads.bind (Q := fun callee b' s' => c.program.callee i.function = .ok callee ∧ b = b' ∧
    s = s') (leads_liftExcept (fun _ hcallee => ⟨hcallee, rfl, rfl⟩)
      fun _ _ => h.fails b.module s hb) ?_
  rintro callee _ _ ⟨hcallee, rfl, rfl⟩
  cases callee with
  | primitive op =>
    refine Leads.bind (Q := fun q b' s' => Primitive.ofCall op i = .ok q ∧ b = b' ∧ s = s')
      (leads_liftExcept (fun _ hq => ⟨hq, rfl, rfl⟩) fun _ _ => h.fails b.module s hb) ?_
    rintro q _ _ ⟨hq, rfl, rfl⟩
    refine Leads.bind (Q := fun _ b' s' => b = b' ∧ J b.module s')
      (leads_lift (leads_mention fun mentioned => ⟨rfl, h.mention b.module s mentioned hb⟩)) ?_
    rintro _ _ s' ⟨rfl, hb'⟩
    exact leads_addNode_of_admits (h.fails b.module s' hb')
      (h.primitive b.module s' name body i op q hA hi hcallee hq hb')
  | function d =>
    refine Leads.bind (Q := fun id b' s' => b = b' ∧ F s' ∧
      Admits (fun m s => J m s ∧ C body m) (instanceNode name i id s') b.module s')
      (leads_lift ((h.build b.module s name body i d hA hi hcallee hb).imp
        fun _ _ hadmits => ⟨rfl, hadmits⟩)) ?_
    rintro id _ s' ⟨rfl, hfails, hadmits⟩
    refine Leads.bind (Q := fun s₁ b₁ s₂ => s' = s₁ ∧ b = b₁ ∧ s' = s₂)
      (leads_getSession ⟨rfl, rfl, rfl⟩) ?_
    rintro _ _ _ ⟨rfl, rfl, rfl⟩
    exact leads_addNode_of_admits hfails hadmits

lemma runs_create (h : Rules c A C N J F) (name : String) {body : NodeBody} (hA : A body) :
    Runs N J F (fun _ => True) (fun _ => C body) (create c name body) := by
  cases body with
  | function x =>
    intro b s hb _
    refine Leads.bind (Q := fun i b' s' => b = b' ∧ s = s' ∧ Makes c i (.function x))
      (leads_lift (leads_ofExpand (h.instantiation x hA) (fun i hi => ⟨rfl, rfl, hi⟩)
        fun _ _ => h.fails b.module s hb)) ?_
    rintro i _ _ ⟨rfl, rfl, hi⟩
    exact (((h.runs_mention _).bind Module.stable_true fun _ =>
      (h.runs_instantiate name hA hi).pre fun _ _ => trivial) b s hb trivial)
  | genericFunction parameter =>
    rw [create]
    split
    · next i hi => exact h.runs_instantiate name hA hi
    · exact h.runs_throw _
  | interface e =>
    intro b s hb _
    refine Leads.bind (Q := fun shape b' s' => b = b' ∧ s = s' ∧
      (e.expand c.program c.unfolding c.bindings).run = some (.ok shape))
      (leads_lift (leads_ofExpand (h.interface e hA) (fun shape hshape => ⟨rfl, rfl, hshape⟩)
        fun _ _ => h.fails b.module s hb)) ?_
    rintro shape _ _ ⟨rfl, rfl, hshape⟩
    refine Leads.bind (Q := fun _ b' s' => b = b' ∧ J b.module s')
      (leads_lift (leads_mention fun mentioned => ⟨rfl, h.mention b.module s mentioned hb⟩)) ?_
    rintro _ _ s' ⟨rfl, hb'⟩
    exact leads_addNode_of_admits (h.fails b.module s' hb')
      (h.pass b.module s' name e shape hA hshape hb')

end Rules

/-! ### Nodes of a chain -/

/-- All nodes that are added have a body that satisfies `A`. -/
def Allowed (A : NodeBody → Prop) (ns : List CircuitNode) : Prop :=
  ∀ n ∈ ns, ∀ body, n.body? = some body → A body

/-- All nodes that are added have left something behind. -/
def Covered (C : NodeBody → Module → Prop) (ns : List CircuitNode) (m : Module) : Prop :=
  ∀ n ∈ ns, ∀ body, n.body? = some body → C body m

/-- The same for the nodes that are declared. -/
def CoveredNames (C : NodeBody → Module → Prop) (ns : List CircuitNode) (m : Module) : Prop :=
  ∀ name body, .declared name body ∈ ns → C body m

section

variable {A : NodeBody → Prop} {C : NodeBody → Module → Prop} {ns ns' : List CircuitNode}

lemma allowed_append : Allowed A (ns ++ ns') ↔ Allowed A ns ∧ Allowed A ns' :=
  List.forall_mem_append

lemma covered_append {m : Module} : Covered C (ns ++ ns') m ↔ Covered C ns m ∧ Covered C ns' m :=
  List.forall_mem_append

lemma coveredNames_append {m : Module} :
    CoveredNames C (ns ++ ns') m ↔ CoveredNames C ns m ∧ CoveredNames C ns' m := by
  simp only [CoveredNames, List.mem_append, or_imp, forall_and]

namespace Rules

lemma stable_covered (h : Rules c A C N J F) (ns : List CircuitNode) :
    Module.Stable (Covered C ns) :=
  fun m m' hgrows hm n hn body hbody => h.stable body m m' hgrows (hm n hn body hbody)

lemma stable_coveredNames (h : Rules c A C N J F) (ns : List CircuitNode) :
    Module.Stable (CoveredNames C ns) :=
  fun m m' hgrows hm name body hmem => h.stable body m m' hgrows (hm name body hmem)

end Rules

end

namespace Rules

variable {A : NodeBody → Prop} {C : NodeBody → Module → Prop}

mutual

lemma runs_declare (h : Rules c A C N J F) : ∀ n : CircuitNode, Allowed A n.leaves →
    Runs N J F (fun _ => True) (fun _ => CoveredNames C n.leaves) (declare c n)
  | .declared name body, hA => by
    rw [declare, CircuitNode.leaves]
    rw [CircuitNode.leaves] at hA
    refine (h.runs_create name (hA _ (List.mem_singleton_self _) body rfl)).bind
      Module.stable_true fun id => ?_
    refine (runs_bindName name id).post ?_
    rintro _ m ⟨-, hC⟩ name' body' hmem
    cases List.mem_singleton.mp hmem
    exact hC
  | .nested chain, hA => by
    rw [declare, CircuitNode.leaves]
    rw [CircuitNode.leaves] at hA
    exact runs_declareChain h chain hA
  | .reference name accessors, _ => by
    rw [declare, CircuitNode.leaves]
    exact runs_pure fun _ _ name' body' hmem => by simp at hmem
  | .anonymous body, _ => by
    rw [declare, CircuitNode.leaves]
    exact runs_pure fun _ _ name' body' hmem => by simp at hmem

lemma runs_declareChain (h : Rules c A C N J F) : ∀ groups : List (List CircuitNode),
    Allowed A (CircuitNode.chainLeaves groups) → Runs N J F (fun _ => True)
      (fun _ => CoveredNames C (CircuitNode.chainLeaves groups)) (declareChain c groups)
  | [], _ => by
    rw [declareChain, CircuitNode.chainLeaves]
    exact runs_pure fun _ _ name body hmem => by simp at hmem
  | group :: rest, hA => by
    rw [declareChain, CircuitNode.chainLeaves]
    rw [CircuitNode.chainLeaves, allowed_append] at hA
    exact ((runs_declareGroup h group hA.1).seq Module.stable_true (h.stable_coveredNames _)
      fun _ => runs_declareChain h rest hA.2).post fun _ _ => coveredNames_append.mpr

lemma runs_declareGroup (h : Rules c A C N J F) : ∀ ns : List CircuitNode,
    Allowed A (CircuitNode.groupLeaves ns) → Runs N J F (fun _ => True)
      (fun _ => CoveredNames C (CircuitNode.groupLeaves ns)) (declareGroup c ns)
  | [], _ => by
    rw [declareGroup, CircuitNode.groupLeaves]
    exact runs_pure fun _ _ name body hmem => by simp at hmem
  | n :: rest, hA => by
    rw [declareGroup, CircuitNode.groupLeaves]
    rw [CircuitNode.groupLeaves, allowed_append] at hA
    exact ((runs_declare h n hA.1).seq Module.stable_true (h.stable_coveredNames _)
      fun _ => runs_declareGroup h rest hA.2).post fun _ _ => coveredNames_append.mpr

end

lemma runs_reference (h : Rules c A C N J F) (hH : Module.Stable H) (name : String)
    (accessors : List Accessor) :
    Runs N J F H (fun ends m => ends.OnPorts m) (reference c name accessors) := by
  apply (h.runs_lookup hH name).bind hH
  intro id
  apply runs_get.bind (hH.and Module.stable_true)
  intro b
  have haccess : ∀ ends rest, Ends.OnPorts b.module ends → Runs N J F
      (fun m => (H m ∧ True) ∧ (H b.module ∧ True) ∧ b.module.Grows m)
      (fun ends m => ends.OnPorts m) (liftM (accessEnds c ends rest) : Construct Ends) := by
    intro ends rest hends
    apply h.runs_liftExcept
    intro ends' hends' m hm
    exact ends'.stable_onPorts _ _ hm.2.2 (onPorts_of_accessEnds hends' hends)
  have hends := Body.onPorts_endsOf b.module id
  dsimp only
  split
  · split
    · split
      · exact (h.runs_throw (Q := fun _ _ => False) _).bind
          ((hH.and Module.stable_true).and fun m m' hgrows hm => ⟨hm.1, hm.2.trans hgrows⟩)
          fun _ => fun _ _ _ hfalse => hfalse.2.elim
      · exact haccess _ _ (onPorts_selectPort hends)
    · exact haccess _ _ hends
  · exact haccess _ _ hends

/-! ### Connections of a chain -/

lemma runs_connectStage (h : Rules c A C N J F) (sources sinks : List Endpoint) :
    Runs N J F (fun m => (∀ e ∈ sources, e.OnPort m .output) ∧ ∀ e ∈ sinks, e.OnPort m .input)
      (fun _ _ => True) (connectStage c sources sinks) := by
  have hstable : Module.Stable fun m =>
      (∀ e ∈ sources, e.OnPort m .output) ∧ ∀ e ∈ sinks, e.OnPort m .input := by
    intro m m' hgrows hm
    have hends := (Ends.mk sinks sources).stable_onPorts m m' hgrows ⟨hm.2, hm.1⟩
    exact ⟨hends.sources, hends.sinks⟩
  have hall : Runs N J F
      (fun m => (∀ e ∈ sources, e.OnPort m .output) ∧ ∀ e ∈ sinks, e.OnPort m .input)
      (fun _ _ => True)
      ((sources.zip sinks).forM fun pair => Construct.connect c pair.1 pair.2) := by
    apply runs_forM hstable
    intro pair hpair
    obtain ⟨hsource, hsink⟩ := List.of_mem_zip hpair
    exact (h.connect pair.1 pair.2).pre fun m hm => ⟨hm.1 _ hsource, hm.2 _ hsink⟩
  unfold connectStage
  split
  · exact (h.runs_throw (Q := fun _ _ => False) _).bind hstable
      fun _ => fun _ _ _ hfalse => hfalse.2.elim
  · exact hall

lemma runs_connectStages (h : Rules c A C N J F) (stages : List Ends) :
    Runs N J F (fun m => ∀ ends ∈ stages, ends.OnPorts m) (fun _ _ => True)
      (connectStages c stages) := by
  induction stages with
  | nil => exact runs_pure fun _ _ => trivial
  | cons first rest ih =>
    cases rest with
    | nil => exact runs_pure fun _ _ => trivial
    | cons second rest =>
      have hstable : Module.Stable fun m => ∀ ends ∈ first :: second :: rest, ends.OnPorts m :=
        fun m m' hgrows hm ends hends => ends.stable_onPorts m m' hgrows (hm ends hends)
      refine ((h.runs_connectStage first.sources second.sinks).pre ?_).bind hstable
        fun _ => ih.pre ?_
      · intro m hm
        exact ⟨(hm first (by simp)).sources, (hm second (by simp)).sinks⟩
      · intro m hm ends hends
        exact hm.1 ends (List.mem_cons_of_mem _ hends)

lemma runs_joinStages (h : Rules c A C N J F) (stages : List Ends) :
    Runs N J F (fun m => ∀ ends ∈ stages, ends.OnPorts m) (fun ends m => ends.OnPorts m)
      (joinStages c stages) := by
  have hstable : Module.Stable fun m => ∀ ends ∈ stages, ends.OnPorts m :=
    fun m m' hgrows hm ends hends => ends.stable_onPorts m m' hgrows (hm ends hends)
  refine (h.runs_connectStages stages).bind hstable fun _ => runs_pure ?_
  rintro m ⟨hstages, -⟩
  constructor
  · cases stages with
    | nil => simp [Ends.none]
    | cons first rest => exact (hstages first (by simp)).sinks
  · cases hlast : stages.getLast? with
    | none => simp [List.getLastD_eq_getLast?, hlast, Ends.none]
    | some last =>
      simp only [List.getLastD_eq_getLast?, hlast, Option.getD_some]
      exact (hstages last (List.mem_of_getLast? hlast)).sources

lemma runs_anonymousName (h : Rules c A C N J F) : Runs N J F H (fun _ => H) anonymousName := by
  intro b s hb hH
  refine (leads_get (Q := fun b' b₁ s₁ => b = b' ∧ b = b₁ ∧ s = s₁) ⟨rfl, rfl, rfl⟩).bind ?_
  rintro _ _ _ ⟨rfl, rfl, rfl⟩
  refine Leads.bind (Q := fun _ b₂ s₂ => b₂.module = b.module ∧ s = s₂) (leads_set ?_) ?_
  · exact ⟨rfl, rfl⟩
  rintro _ b₂ _ ⟨hmodule, rfl⟩
  refine Leads.bind (Q := fun _ b' s' => J b'.module s' ∧ b'.module = b.module)
    (leads_lift (leads_mention fun mentioned => ⟨?_, hmodule⟩)) ?_
  · rw [hmodule]
    exact h.mention b.module s mentioned hb
  · rintro _ b' s' ⟨hb', hmodule'⟩
    rw [hmodule'] at hb'
    refine leads_pure ?_
    rw [hmodule']
    exact ⟨hb', b.module.grows_self, hH⟩

/-- All ports of a node as ends. -/
lemma runs_endsOf (hH : Module.Stable H) {S : Module → Prop} (hS : Module.Stable S)
    {x : Construct Nat} (hx : Runs N J F H (fun _ => S) x) :
    Runs N J F H (fun ends m => ends.OnPorts m ∧ S m) (do
      let id ← x
      return Body.endsOf (← get).module id) := by
  apply hx.bind hH
  intro id
  apply runs_get.bind (hH.and hS)
  intro b
  apply runs_pure
  rintro m ⟨⟨-, hm⟩, -, hgrows⟩
  exact ⟨(Body.endsOf b.module id).stable_onPorts _ _ hgrows (Body.onPorts_endsOf b.module id), hm⟩

mutual

/-- The declared nodes are there already, the others are added. -/
lemma runs_node (h : Rules c A C N J F) : ∀ n : CircuitNode, Allowed A n.leaves →
    Runs N J F (CoveredNames C n.leaves) (fun ends m => ends.OnPorts m ∧ Covered C n.leaves m)
      (node c n)
  | .reference name accessors, _ => by
    rw [node, CircuitNode.leaves]
    refine (h.runs_reference (h.stable_coveredNames _) name accessors).post ?_
    intro ends m hends
    refine ⟨hends, ?_⟩
    intro n hn body hbody
    cases List.mem_singleton.mp hn
    cases hbody
  | .declared name body, _ => by
    rw [node, CircuitNode.leaves]
    have hstable := h.stable_coveredNames [.declared name body]
    have hlookup := ((h.runs_lookup Module.stable_true name).frame hstable).post fun _ _ hm => hm.2
    refine (runs_endsOf hstable hstable (hlookup.pre fun _ hm => ⟨trivial, hm⟩)).post ?_
    rintro ends m ⟨hends, hnames⟩
    refine ⟨hends, ?_⟩
    intro n hn body' hbody
    cases List.mem_singleton.mp hn
    cases hbody
    exact hnames name body (by simp)
  | .anonymous body, hA => by
    rw [node, CircuitNode.leaves]
    rw [CircuitNode.leaves] at hA
    have hstable := h.stable_coveredNames [.anonymous body]
    apply h.runs_anonymousName.bind hstable
    intro name
    have hcreate := h.runs_create name (hA _ (List.mem_singleton_self _) body rfl)
    refine ((runs_endsOf Module.stable_true (h.stable body) hcreate).pre
      fun _ _ => trivial).post ?_
    rintro ends m ⟨hends, hC⟩
    refine ⟨hends, ?_⟩
    intro n hn body' hbody
    cases List.mem_singleton.mp hn
    cases hbody
    exact hC
  | .nested chain, hA => by
    rw [node, CircuitNode.leaves]
    rw [CircuitNode.leaves] at hA
    apply (runs_stages h chain hA).bind (h.stable_coveredNames _)
    intro stages
    exact ((h.runs_joinStages stages).frame (h.stable_covered _)).pre fun _ hm => hm.2

lemma runs_stages (h : Rules c A C N J F) : ∀ groups : List (List CircuitNode),
    Allowed A (CircuitNode.chainLeaves groups) →
    Runs N J F (CoveredNames C (CircuitNode.chainLeaves groups))
      (fun stages m => (∀ ends ∈ stages, ends.OnPorts m) ∧
        Covered C (CircuitNode.chainLeaves groups) m) (stages c groups)
  | [], _ => by
    rw [stages, CircuitNode.chainLeaves]
    exact runs_pure fun _ _ => ⟨by simp, fun n hn => by simp at hn⟩
  | group :: rest, hA => by
    rw [stages, CircuitNode.chainLeaves]
    rw [CircuitNode.chainLeaves, allowed_append] at hA
    have hstable := h.stable_coveredNames
      (CircuitNode.groupLeaves group ++ CircuitNode.chainLeaves rest)
    apply ((runs_nodes h group hA.1).pre fun _ hm => (coveredNames_append.mp hm).1).bind hstable
    intro ends
    have hfirst := ends.stable_onPorts.and (h.stable_covered (CircuitNode.groupLeaves group))
    apply ((runs_stages h rest hA.2).pre fun _ hm => (coveredNames_append.mp hm.1).2).bind
      (hstable.and hfirst)
    intro rest'
    apply runs_pure
    rintro m ⟨⟨-, hends, hcovered⟩, hrest, hcovered'⟩
    exact ⟨List.forall_mem_cons.mpr ⟨hends, hrest⟩, covered_append.mpr ⟨hcovered, hcovered'⟩⟩

lemma runs_nodes (h : Rules c A C N J F) : ∀ ns : List CircuitNode,
    Allowed A (CircuitNode.groupLeaves ns) →
    Runs N J F (CoveredNames C (CircuitNode.groupLeaves ns))
      (fun ends m => ends.OnPorts m ∧ Covered C (CircuitNode.groupLeaves ns) m) (nodes c ns)
  | [], _ => by
    rw [nodes, CircuitNode.groupLeaves]
    exact runs_pure fun m _ => ⟨Ends.onPorts_none m, fun n hn => by simp at hn⟩
  | n :: rest, hA => by
    rw [nodes, CircuitNode.groupLeaves]
    rw [CircuitNode.groupLeaves, allowed_append] at hA
    have hstable := h.stable_coveredNames (n.leaves ++ CircuitNode.groupLeaves rest)
    apply ((runs_node h n hA.1).pre fun _ hm => (coveredNames_append.mp hm).1).bind hstable
    intro ends
    have hfirst := ends.stable_onPorts.and (h.stable_covered n.leaves)
    apply ((runs_nodes h rest hA.2).pre fun _ hm => (coveredNames_append.mp hm.1).2).bind
      (hstable.and hfirst)
    intro ends'
    apply runs_pure
    rintro m ⟨⟨-, hends, hcovered⟩, hends', hcovered'⟩
    exact ⟨hends.append hends', covered_append.mpr ⟨hcovered, hcovered'⟩⟩

end

/-! ### Statements -/

lemma runs_inBlock {S T : Module → Prop} {declarations rest : Construct Unit}
    (hdeclarations : Runs N J F (fun _ => True) (fun _ => S) declarations)
    (hrest : Runs N J F S (fun _ => T) rest) :
    Runs N J F (fun _ => True) (fun _ => T) (inBlock do
      declarations
      rest) := by
  have hsteps : Runs N J F (fun _ => True) (fun _ => T) (do
      declarations
      rest) :=
    hdeclarations.bind Module.stable_true fun _ => hrest.pre fun _ hm => hm.2
  intro b s hb _
  refine Leads.bind (Q := fun _ b' s' => J b'.module s' ∧ b.module.Grows b'.module)
    (leads_modify ⟨hb, b.module.grows_self⟩) ?_
  rintro _ b₁ s₁ ⟨hb₁, hgrows₁⟩
  refine Leads.bind (hsteps b₁ s₁ hb₁ trivial) ?_
  rintro _ b₂ s₂ ⟨hb₂, hgrows₂, hT⟩
  exact leads_modify ⟨hb₂, hgrows₁.trans hgrows₂, hT⟩

end Rules

end Construct

/-- The nodes of the chain that a statement is. -/
def Statement.ownLeaves : Statement → List CircuitNode
  | .connection chain => CircuitNode.chainLeaves chain
  | .conditional _ _ _ => []

lemma Statement.ownLeaves_subset {b : Bindings} (block : List Statement) :
    block.flatMap ownLeaves ⊆ blockLeaves b block := by
  induction block with
  | nil => simp
  | cons s rest ih =>
    rw [List.flatMap_cons, blockLeaves]
    refine List.append_subset.mpr ⟨?_, List.subset_append_of_subset_right _ ih⟩
    cases s with
    | connection chain =>
      rw [ownLeaves, leaves]
      exact List.subset_append_left _ _
    | conditional predicate thens elses => simp [ownLeaves]

namespace Construct

open Elaborate

variable {c : BodyContext} {N : Prop} {J : Module → Session → Prop} {F : Session → Prop}
  {A : NodeBody → Prop} {C : NodeBody → Module → Prop}

namespace Rules

lemma runs_declareBlock (h : Rules c A C N J F) {block : List Statement}
    (hA : Allowed A (block.flatMap Statement.ownLeaves)) :
    Runs N J F (fun _ => True) (fun _ => CoveredNames C (block.flatMap Statement.ownLeaves))
      (declareBlock c block) := by
  induction block with
  | nil => exact runs_pure fun _ _ name body hmem => by simp at hmem
  | cons s rest ih =>
    rw [List.flatMap_cons, allowed_append] at hA
    rw [List.flatMap_cons]
    cases s with
    | connection chain =>
      exact ((h.runs_declareChain chain hA.1).seq Module.stable_true (h.stable_coveredNames _)
        fun _ => ih hA.2).post fun _ _ => coveredNames_append.mpr
    | conditional predicate thens elses => exact ih hA.2

/-- The declarations of a block, and then its statements. -/
lemma runs_block (h : Rules c A C N J F) {block : List Statement}
    (hA : Allowed A (Statement.blockLeaves c.bindings block))
    (hstatements : Runs N J F (CoveredNames C (block.flatMap Statement.ownLeaves))
      (fun _ => Covered C (Statement.blockLeaves c.bindings block)) (statements c block)) :
    Runs N J F (fun _ => True) (fun _ => Covered C (Statement.blockLeaves c.bindings block))
      (inBlock do
        declareBlock c block
        statements c block) :=
  runs_inBlock (h.runs_declareBlock fun n hn => hA n (Statement.ownLeaves_subset block hn))
    hstatements

mutual

lemma runs_statement (h : Rules c A C N J F) : ∀ s : Statement, Allowed A (s.leaves c.bindings) →
    Runs N J F (CoveredNames C s.ownLeaves) (fun _ => Covered C (s.leaves c.bindings))
      (statement c s)
  | .connection groups, hA => by
    rw [statement, Statement.ownLeaves, Statement.leaves]
    rw [Statement.leaves] at hA
    have hnames := h.stable_coveredNames (CircuitNode.chainLeaves groups)
    refine Runs.bind (Q := fun _ => Covered C (CircuitNode.chainLeaves groups)) ?_ hnames
      fun _ => runs_pure fun _ hm => hm.2
    apply (h.runs_stages groups hA).bind hnames
    intro stages
    exact (((h.runs_joinStages stages).frame (h.stable_covered _)).pre fun _ hm => hm.2).post
      fun _ _ hm => hm.2
  | .conditional predicate thens elses, hA => by
    rw [statement, Statement.ownLeaves]
    refine Runs.bind (Q := fun value _ => predicate.eval c.bindings = .ok value)
      (h.runs_liftExcept fun value hvalue _ _ => hvalue) (h.stable_coveredNames _) ?_
    intro value
    by_cases hvalue : predicate.eval c.bindings = .ok value
    · rw [Statement.leaves, hvalue] at hA ⊢
      dsimp only at hA ⊢
      split
      · next htrue =>
        rw [if_pos htrue] at hA
        exact (h.runs_block hA (runs_statements h thens hA)).pre fun _ _ => trivial
      · next hfalse =>
        rw [if_neg hfalse] at hA
        exact (h.runs_block hA (runs_statements h elses hA)).pre fun _ _ => trivial
    · exact fun _ _ _ hpre => absurd hpre.2 hvalue

lemma runs_statements (h : Rules c A C N J F) : ∀ block : List Statement,
    Allowed A (Statement.blockLeaves c.bindings block) →
    Runs N J F (CoveredNames C (block.flatMap Statement.ownLeaves))
      (fun _ => Covered C (Statement.blockLeaves c.bindings block)) (statements c block)
  | [], _ => by
    rw [statements, Statement.blockLeaves]
    exact runs_pure fun _ _ n hn => by simp at hn
  | s :: rest, hA => by
    rw [statements, Statement.blockLeaves, List.flatMap_cons]
    rw [Statement.blockLeaves, allowed_append] at hA
    have hnames := h.stable_coveredNames (s.ownLeaves ++ rest.flatMap Statement.ownLeaves)
    exact (((runs_statement h s hA.1).pre fun _ hm => (coveredNames_append.mp hm).1).seq hnames
      (h.stable_covered _) fun _ =>
        (runs_statements h rest hA.2).pre fun _ hm => (coveredNames_append.mp hm).2).post
      fun _ _ => covered_append.mpr

end

/-- The whole body of a function: the nodes of its ports, then its block. -/
theorem runs_function (h : Rules c A C N J F) (inputs outputs : List Port) (block : List Statement)
    (hinputs : ∀ q ∈ inputs, ∀ m s, J m s → Admits J ⟨q.name, .input, [], [q]⟩ m s)
    (houtputs : ∀ q ∈ outputs, ∀ m s, J m s → Admits J ⟨q.name, .output, [q], []⟩ m s)
    (hA : Allowed A (Statement.blockLeaves c.bindings block)) :
    Runs N J F (fun _ => True) (fun _ => Covered C (Statement.blockLeaves c.bindings block))
      (function c inputs outputs block) := by
  have hport : ∀ (n : Node) (name : String), (∀ m s, J m s → Admits J n m s) →
      Runs N J F (fun _ => True) (fun _ _ => True) (do bindName name (← addNode n)) := by
    intro n name hn
    refine Runs.bind (Q := fun _ _ => True) ?_ Module.stable_true
      fun id => (runs_bindName name id).post fun _ _ _ => trivial
    intro b s hb _
    exact leads_addNode_of_admits (C := fun _ => True) (h.fails b.module s hb)
      fun hfits => ⟨hn b.module s hb hfits, trivial⟩
  refine Runs.bind (runs_forM Module.stable_true fun q hq => hport _ _ (hinputs q hq))
    Module.stable_true fun _ => Runs.pre (H := fun _ => True) ?_ fun _ _ => trivial
  refine Runs.bind (runs_forM Module.stable_true fun q hq => hport _ _ (houtputs q hq))
    Module.stable_true fun _ => Runs.pre (H := fun _ => True) ?_ fun _ _ => trivial
  exact h.runs_block hA (h.runs_statements block hA)

end Rules

end Construct

end NetlistCompiler
