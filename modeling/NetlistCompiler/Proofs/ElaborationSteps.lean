import NetlistCompiler.Elaboration
import NetlistCompiler.Proofs.Wiring

/-!
# Steps of elaboration

A step of elaboration has no result, fails or succeeds, and it leaves a session in the last two
cases. `Leads` says what holds in each case, and has a rule for every way to put steps together. An
invariant of the module under construction and of the session, which the addition of a node and a
connection keep, is kept by the construction of a whole body.
-/

namespace NetlistCompiler

namespace Elaborate

variable {α β : Type} {s : Session} {N : Prop} {E : BuildError → Session → Prop}

/-- How a step ends in a session: without a result only if `N`, with a value and a session that
satisfy `Q`, or with an error and a session that satisfy `E`. -/
def Leads (x : Elaborate α) (s : Session) (N : Prop) (Q : α → Session → Prop)
    (E : BuildError → Session → Prop) : Prop :=
  match x.run s with
  | none => N
  | some (.ok a, s') => Q a s'
  | some (.error e, s') => E e s'

lemma run_bind_step (x : Elaborate α) (f : α → Elaborate β) (s : Session) :
    (x >>= f).run s =
      match x.run s with
      | none => none
      | some (.ok a, s') => (f a).run s'
      | some (.error e, s') => some (.error e, s') := by
  change Option.bind (x.run s) _ = _
  rcases x.run s with _ | ⟨_ | _, _⟩ <;> rfl

lemma leads_pure {a : α} {Q : α → Session → Prop} (h : Q a s) : (pure a : Elaborate α).Leads s N Q E :=
  h

lemma leads_throw {e : BuildError} {Q : α → Session → Prop} (h : E e s) :
    (throw e : Elaborate α).Leads s N Q E :=
  h

lemma Leads.bind {x : Elaborate α} {f : α → Elaborate β} {Q : α → Session → Prop}
    {R : β → Session → Prop} (hx : x.Leads s N Q E)
    (hf : ∀ a s', Q a s' → (f a).Leads s' N R E) : (x >>= f).Leads s N R E := by
  unfold Leads at hx ⊢
  rw [run_bind_step]
  generalize x.run s = r at hx
  rcases r with _ | ⟨_ | a, s'⟩
  · exact hx
  · exact hx
  · exact hf a s' hx

lemma Leads.imp {x : Elaborate α} {Q R : α → Session → Prop} (hx : x.Leads s N Q E)
    (h : ∀ a s', Q a s' → R a s') : x.Leads s N R E := by
  unfold Leads at hx ⊢
  generalize x.run s = r at hx
  rcases r with _ | ⟨_ | a, s'⟩
  · exact hx
  · exact hx
  · exact h a s' hx

lemma Leads.impError {x : Elaborate α} {Q : α → Session → Prop} {E' : BuildError → Session → Prop}
    (hx : x.Leads s N Q E) (h : ∀ e s', E e s' → E' e s') : x.Leads s N Q E' := by
  unfold Leads at hx ⊢
  generalize x.run s = r at hx
  rcases r with _ | ⟨e | _, s'⟩
  · exact hx
  · exact h e s' hx
  · exact hx

lemma Leads.impNone {x : Elaborate α} {N' : Prop} {Q : α → Session → Prop} (hx : x.Leads s N Q E)
    (h : N → N') : x.Leads s N' Q E := by
  unfold Leads at hx ⊢
  generalize x.run s = r at hx
  rcases r with _ | ⟨_ | _, _⟩
  · exact h hx
  · exact hx
  · exact hx

lemma Leads.and {x : Elaborate α} {N' : Prop} {Q Q' : α → Session → Prop}
    {E' : BuildError → Session → Prop} (hx : x.Leads s N Q E) (hx' : x.Leads s N' Q' E') :
    x.Leads s N (fun a s' => Q a s' ∧ Q' a s') fun e s' => E e s' ∧ E' e s' := by
  unfold Leads at hx hx' ⊢
  generalize x.run s = r at hx hx'
  rcases r with _ | ⟨_ | _, _⟩
  · exact hx
  · exact ⟨hx, hx'⟩
  · exact ⟨hx, hx'⟩

lemma leads_true (x : Elaborate α) (s : Session) :
    x.Leads s True (fun _ _ => True) fun _ _ => True := by
  unfold Leads
  split <;> trivial

lemma leads_get {Q : Session → Session → Prop} (h : Q s s) : (get : Elaborate Session).Leads s N Q E :=
  h

lemma leads_liftM {x : Except BuildError α} {Q : α → Session → Prop} (hok : ∀ a, x = .ok a → Q a s)
    (herror : ∀ e, x = .error e → E e s) : (liftM x : Elaborate α).Leads s N Q E := by
  cases x with
  | error e => exact herror e rfl
  | ok a => exact hok a rfl

lemma leads_ofExpand {x : Expand α} {Q : α → Session → Prop} (hnone : x.run = none → N)
    (hok : ∀ a, x.run = some (.ok a) → Q a s) (herror : ∀ e, x.run = some (.error e) → E e s) :
    (ofExpand x).Leads s N Q E := by
  have hrun : (ofExpand x).run s = x.run.map fun r => (r, s) := rfl
  unfold Leads
  rw [hrun]
  rcases hx : x.run with _ | (e | a)
  · exact hnone hx
  · exact herror e hx
  · exact hok a hx

lemma leads_mention {names : List String} {Q : Unit → Session → Prop}
    (h : ∀ mentioned, Q () { s with mentioned }) : (mention names).Leads s N Q E :=
  h _

lemma leads_whileBuilding {i : Invocation} {x : Elaborate α} {Q : α → Session → Prop}
    (h : x.Leads { s with stack := i :: s.stack } N
      (fun a s' => Q a { s' with stack := s'.stack.tail })
      fun e s' => E e { s' with stack := s'.stack.tail }) :
    (whileBuilding i x).Leads s N Q E := by
  have hrun : (whileBuilding i x).run s = (x.run { s with stack := i :: s.stack }).map
      fun r => (r.1, { r.2 with stack := r.2.stack.tail }) := rfl
  unfold Leads at h ⊢
  rw [hrun]
  generalize x.run { s with stack := i :: s.stack } = r at h
  rcases r with _ | ⟨_ | _, _⟩
  · exact h
  · exact h
  · exact h

/-- What a step may end with, read off one of its runs. -/
lemma Leads.of_run {x : Elaborate α} {Q : α → Session → Prop} (h : x.Leads s N Q E)
    {r : Except BuildError α} {s' : Session} (hrun : x.run s = some (r, s')) :
    match r with
    | .ok a => Q a s'
    | .error e => E e s' := by
  unfold Leads at h
  rw [hrun] at h
  cases r <;> exact h

end Elaborate

/-! ### Steps of the construction of a module -/

namespace Construct

open Elaborate

variable {α β : Type} {b : Body} {s : Session} {N : Prop} {E : BuildError → Session → Prop}

/-- How a step of a construction ends, given the module under construction as well. -/
def Leads (x : Construct α) (b : Body) (s : Session) (N : Prop) (Q : α → Body → Session → Prop)
    (E : BuildError → Session → Prop) : Prop :=
  (x.run b).Leads s N (fun r s' => Q r.1 r.2 s') E

lemma leads_pure {a : α} {Q : α → Body → Session → Prop} (h : Q a b s) :
    (pure a : Construct α).Leads b s N Q E :=
  h

lemma leads_throw {e : BuildError} {Q : α → Body → Session → Prop} (h : E e s) :
    (throw e : Construct α).Leads b s N Q E :=
  h

lemma Leads.bind {x : Construct α} {f : α → Construct β} {Q : α → Body → Session → Prop}
    {R : β → Body → Session → Prop} (hx : x.Leads b s N Q E)
    (hf : ∀ a b' s', Q a b' s' → (f a).Leads b' s' N R E) : (x >>= f).Leads b s N R E := by
  unfold Leads
  rw [StateT.run_bind]
  exact Elaborate.Leads.bind hx fun r s' hr => hf r.1 r.2 s' hr

lemma Leads.imp {x : Construct α} {Q R : α → Body → Session → Prop} (hx : x.Leads b s N Q E)
    (h : ∀ a b' s', Q a b' s' → R a b' s') : x.Leads b s N R E :=
  Elaborate.Leads.imp hx fun r s' hr => h r.1 r.2 s' hr

lemma leads_get {Q : Body → Body → Session → Prop} (h : Q b b s) :
    (get : Construct Body).Leads b s N Q E :=
  h

lemma leads_set {b' : Body} {Q : PUnit → Body → Session → Prop} (h : Q ⟨⟩ b' s) :
    (set b' : Construct PUnit).Leads b s N Q E :=
  h

lemma leads_modify {f : Body → Body} {Q : PUnit → Body → Session → Prop} (h : Q ⟨⟩ (f b) s) :
    (modify f : Construct PUnit).Leads b s N Q E :=
  h

lemma leads_getSession {Q : Session → Body → Session → Prop} (h : Q s b s) :
    (getThe Session : Construct Session).Leads b s N Q E :=
  h

lemma leads_lift {x : Elaborate α} {Q : α → Body → Session → Prop}
    (h : x.Leads s N (fun a s' => Q a b s') E) : (liftM x : Construct α).Leads b s N Q E :=
  Elaborate.Leads.bind h fun _ _ hQ => hQ

lemma leads_liftExcept {x : Except BuildError α} {Q : α → Body → Session → Prop}
    (hok : ∀ a, x = .ok a → Q a b s) (herror : ∀ e, x = .error e → E e s) :
    (liftM x : Construct α).Leads b s N Q E :=
  leads_lift (leads_liftM hok herror)

/-! ### Invariants -/

/-- The step keeps an invariant of the module under construction and the session, and a step that
fails leaves a session that satisfies `F`. -/
def Keeps (J : Module → Session → Prop) (F : Session → Prop) (x : Construct α) : Prop :=
  ∀ b s, J b.module s → x.Leads b s True (fun _ b' s' => J b'.module s') fun _ s' => F s'

/-- The node that stands for an instance of a finished module. -/
def instanceNode (name : String) (i : Invocation) (id : Nat) (s : Session) : Node :=
  ⟨name, .instance id i, (s.design.modules[id]?.map Module.inputs).getD [],
    (s.design.modules[id]?.map Module.outputs).getD []⟩

def passNode (name : String) (shape : Shape) : Node :=
  ⟨name, .pass, [.signal name shape], [.signal name shape]⟩

def primitiveNode (name : String) (primitive : Primitive) : Node :=
  ⟨name, .primitive primitive, primitive.signature.inputs, primitive.signature.outputs⟩

/-- The invocations that nodes of the body can be instances of. -/
def Instantiates (c : BodyContext) (i : Invocation) : Prop :=
  (∃ instantiation : Instantiation,
      (instantiation.expand c.program c.unfolding c.bindings).run = some (.ok i)) ∨
    ∃ parameter, c.bindings.functions.lookup parameter = some i

/-- An invariant that every single step of a construction keeps. -/
structure Closed (c : BodyContext) (J : Module → Session → Prop) (F : Session → Prop) : Prop where
  fails : ∀ m s, J m s → F s
  mention : ∀ m s mentioned, J m s → J m { s with mentioned }
  input : ∀ m s, ∀ p : Port, p.fits = true → J m s → J (m.addNode ⟨p.name, .input, [], [p]⟩) s
  output : ∀ m s, ∀ p : Port, p.fits = true → J m s → J (m.addNode ⟨p.name, .output, [p], []⟩) s
  pass : ∀ m s name shape, (passNode name shape).signature.fits = true → J m s →
    J (m.addNode (passNode name shape)) s
  primitive : ∀ m s name primitive, (primitiveNode name primitive).signature.fits = true → J m s →
    J (m.addNode (primitiveNode name primitive)) s
  build : ∀ m s name i d, Instantiates c i → c.program.callee i.function = .ok (.function d) →
    J m s → (c.build i).Leads s True (fun id s' => F s' ∧
      ((instanceNode name i id s').signature.fits = true →
        J (m.addNode (instanceNode name i id s')) s')) fun _ s' => F s'
  connect : ∀ m s d w m', ((∃ leaf, d.slot = .data leaf) ↔ ∃ leaf, w.slot = .data leaf) →
    m.connect d w = .ok m' → J m s → J m' s

section

variable {c : BodyContext} {J : Module → Session → Prop} {F : Session → Prop}

lemma keeps_pure (a : α) : Keeps J F (pure a) := by
  intro b s hb
  exact leads_pure hb

lemma Keeps.bind {x : Construct α} {f : α → Construct β} (hx : Keeps J F x)
    (hf : ∀ a, Keeps J F (f a)) : Keeps J F (x >>= f) := by
  intro b s hb
  exact (hx b s hb).bind fun a b' s' hb' => hf a b' s' hb'

lemma keeps_get : Keeps J F get := by
  intro b s hb
  exact leads_get hb

lemma keeps_modify {f : Body → Body} (hf : ∀ b, (f b).module = b.module) :
    Keeps J F (modify f) := by
  intro b s hb
  refine leads_modify ?_
  rw [hf]
  exact hb

lemma keeps_forM {f : α → Construct PUnit} (hf : ∀ a, Keeps J F (f a)) (l : List α) :
    Keeps J F (l.forM f) := by
  induction l with
  | nil => exact keeps_pure _
  | cons a l ih => exact (hf a).bind fun _ => ih

lemma keeps_bindName (name : String) (id : Nat) : Keeps J F (bindName name id) := by
  apply keeps_modify
  intro b
  split <;> rfl

/-- A node is added, unless one of its ports is too wide. -/
lemma leads_addNode {n : Node} {Q : Nat → Body → Session → Prop}
    (hwide : n.signature.fits = false → E .portTooWide s)
    (h : n.signature.fits = true →
      Q b.module.nodes.size { b with module := b.module.addNode n } s) :
    (addNode n).Leads b s N Q E := by
  unfold addNode
  split
  · next hfits => exact h hfits
  · next hfits => exact hwide (Bool.not_eq_true _ ▸ hfits)

lemma leads_bindName {scope : List (String × Nat)} {outer : List (List (String × Nat))}
    (hscopes : b.scopes = scope :: outer) {name : String} {id : Nat}
    {Q : PUnit → Body → Session → Prop}
    (h : Q ⟨⟩ { b with scopes := ((name, id) :: scope) :: outer } s) :
    (bindName name id).Leads b s N Q E := by
  apply leads_modify
  rw [hscopes]
  exact h

lemma keeps_addNode (hc : Closed c J F) {n : Node}
    (hn : ∀ m s, n.signature.fits = true → J m s → J (m.addNode n) s) :
    Keeps J F (addNode n) := by
  intro b s hb
  exact leads_addNode (fun _ => hc.fails b.module s hb) fun hfits => hn b.module s hfits hb

lemma keeps_throw (hc : Closed c J F) (e : BuildError) : Keeps J F (throw e : Construct α) := by
  intro b s hb
  exact leads_throw (hc.fails b.module s hb)

lemma keeps_liftExcept (hc : Closed c J F) (x : Except BuildError α) : Keeps J F (liftM x : Construct α) := by
  intro b s hb
  exact leads_liftExcept (fun _ _ => hb) fun _ _ => hc.fails b.module s hb

lemma keeps_ofExpand (hc : Closed c J F) (x : Expand α) : Keeps J F (liftM (ofExpand x) : Construct α) := by
  intro b s hb
  exact leads_lift (leads_ofExpand (fun _ => trivial) (fun _ _ => hb)
    fun _ _ => hc.fails b.module s hb)

lemma keeps_mention (hc : Closed c J F) (names : List String) : Keeps J F (liftM (mention names) : Construct Unit) := by
  intro b s hb
  exact leads_lift (leads_mention fun mentioned => hc.mention b.module s mentioned hb)

lemma keeps_lookup (hc : Closed c J F) (name : String) : Keeps J F (lookup c name) := by
  apply keeps_get.bind
  intro b
  split
  · exact keeps_pure _
  · exact keeps_throw hc _

lemma keeps_instantiate (hc : Closed c J F) (name : String) {i : Invocation} (hi : Instantiates c i) :
    Keeps J F (instantiate c name i) := by
  intro b s hb
  refine Leads.bind (Q := fun callee b' s' => c.program.callee i.function = .ok callee ∧ b = b' ∧
    s = s') (leads_liftExcept (fun _ h => ⟨h, rfl, rfl⟩) fun _ _ => hc.fails b.module s hb) ?_
  rintro callee _ _ ⟨hcallee, rfl, rfl⟩
  cases callee with
  | primitive op =>
    revert hb
    apply Keeps.bind (keeps_liftExcept hc _)
    intro primitive
    apply (keeps_mention hc _).bind
    intro _
    exact keeps_addNode hc fun m s => hc.primitive m s name primitive
  | function d =>
    refine Leads.bind (Q := fun id b' s' => F s' ∧
      ((instanceNode name i id s').signature.fits = true →
        J (b'.module.addNode (instanceNode name i id s')) s'))
      (leads_lift (hc.build b.module s name i d hi hcallee hb)) ?_
    rintro id b' s' ⟨hs', hb'⟩
    refine Leads.bind (Q := fun s₁ b₁ s₂ => s₁ = s' ∧ b₁ = b' ∧ s₂ = s')
      (leads_getSession ⟨rfl, rfl, rfl⟩) ?_
    rintro _ _ _ ⟨rfl, rfl, rfl⟩
    exact leads_addNode (fun _ => hs') hb'

lemma keeps_create (hc : Closed c J F) (name : String) (body : NodeBody) : Keeps J F (create c name body) := by
  cases body with
  | function instantiation =>
    intro b s hb
    refine Leads.bind (Q := fun i b' s' =>
      J b'.module s' ∧ (instantiation.expand c.program c.unfolding c.bindings).run = some (.ok i))
      (leads_lift (leads_ofExpand (fun _ => trivial) (fun i hi => ⟨hb, hi⟩)
        fun _ _ => hc.fails b.module s hb)) ?_
    rintro i b' s' ⟨hb', hi⟩
    apply (keeps_mention hc _ b' s' hb').bind
    intro _ b₁ s₁ hb₁
    exact keeps_instantiate hc name (.inl ⟨instantiation, hi⟩) b₁ s₁ hb₁
  | genericFunction parameter =>
    rw [create]
    split
    · next i hi => exact keeps_instantiate hc name (.inr ⟨parameter, hi⟩)
    · exact keeps_throw hc _
  | interface e =>
    apply (keeps_ofExpand hc _).bind
    intro shape
    apply (keeps_mention hc _).bind
    intro _
    exact keeps_addNode hc fun m s => hc.pass m s name shape

mutual

lemma keeps_declare (hc : Closed c J F) : ∀ n : CircuitNode, Keeps J F (declare c n)
  | .declared name body => by
    rw [declare]
    exact (keeps_create hc name body).bind fun id => keeps_bindName name id
  | .nested chain => by
    rw [declare]
    exact keeps_declareChain hc chain
  | .reference name accessors => by
    rw [declare]
    exact keeps_pure _
  | .anonymous body => by
    rw [declare]
    exact keeps_pure _

lemma keeps_declareChain (hc : Closed c J F) : ∀ groups : List (List CircuitNode), Keeps J F (declareChain c groups)
  | [] => by
    rw [declareChain]
    exact keeps_pure _
  | group :: rest => by
    rw [declareChain]
    exact (keeps_declareGroup hc group).bind fun _ => keeps_declareChain hc rest

lemma keeps_declareGroup (hc : Closed c J F) : ∀ nodes : List CircuitNode, Keeps J F (declareGroup c nodes)
  | [] => by
    rw [declareGroup]
    exact keeps_pure _
  | n :: rest => by
    rw [declareGroup]
    exact (keeps_declare hc n).bind fun _ => keeps_declareGroup hc rest

end

lemma keeps_declareBlock (hc : Closed c J F) (block : List Statement) : Keeps J F (declareBlock c block) := by
  induction block with
  | nil => exact keeps_pure _
  | cons s rest ih =>
    cases s with
    | connection chain => exact (keeps_declareChain hc chain).bind fun _ => ih
    | conditional predicate thenBody elseBody => exact ih

lemma keeps_wire (hc : Closed c J F) {d w : Wire}
    (hslots : (∃ leaf, d.slot = .data leaf) ↔ ∃ leaf, w.slot = .data leaf) :
    Keeps J F (wire c d w) := by
  intro b s hb
  refine (leads_get (Q := fun b' b₁ s₁ => b' = b ∧ b₁ = b ∧ s₁ = s) ⟨rfl, rfl, rfl⟩).bind ?_
  rintro b' b₁ s₁ ⟨rfl, rfl, rfl⟩
  split
  · next m hconnect => exact leads_set (hc.connect _ _ _ _ m hslots hconnect hb)
  · exact leads_throw (hc.fails _ _ hb)
  · exact leads_throw (hc.fails _ _ hb)

lemma keeps_connect (hc : Closed c J F) (source sink : Endpoint) : Keeps J F (connect c source sink) := by
  apply keeps_get.bind
  intro b
  dsimp only
  split
  · exact keeps_throw hc _
  · next pairs _ =>
    apply (keeps_forM _ pairs).bind
    · intro _
      split
      · apply (keeps_wire hc (by simp)).bind
        intro _
        exact keeps_wire hc (by simp)
      · exact keeps_pure _
    · rintro ⟨i, j⟩
      exact keeps_wire hc (by simp)

lemma keeps_connectStage (hc : Closed c J F) (sources sinks : List Endpoint) :
    Keeps J F (connectStage c sources sinks) := by
  have hpair : ∀ p : Endpoint × Endpoint, Keeps J F (connect c p.1 p.2) :=
    fun p => keeps_connect hc p.1 p.2
  unfold connectStage
  split
  · exact (keeps_throw hc _).bind fun _ => keeps_forM hpair _
  · exact keeps_forM hpair _

lemma keeps_connectStages (hc : Closed c J F) (stages : List Ends) : Keeps J F (connectStages c stages) := by
  induction stages with
  | nil => exact keeps_pure _
  | cons first rest ih =>
    cases rest with
    | nil => exact keeps_pure _
    | cons second rest =>
      exact (keeps_connectStage hc first.sources second.sinks).bind fun _ => ih

lemma keeps_joinStages (hc : Closed c J F) (stages : List Ends) : Keeps J F (joinStages c stages) :=
  (keeps_connectStages hc stages).bind fun _ => keeps_pure _

lemma keeps_anonymousName (hc : Closed c J F) : Keeps J F anonymousName := by
  intro b s hb
  refine (leads_get (Q := fun b' b₁ s₁ => b'.module = b.module ∧ s₁ = s) ⟨rfl, rfl⟩).bind ?_
  rintro b' b₁ s₁ ⟨hb', rfl⟩
  refine (leads_set (Q := fun _ b₂ s₂ => J b₂.module s₂) ?_).bind ?_
  · dsimp only
    rw [hb']
    exact hb
  · intro _ b₂ s₂ hb₂
    exact ((keeps_mention hc _).bind fun _ => keeps_pure _) b₂ s₂ hb₂

lemma keeps_reference (hc : Closed c J F) (name : String) (accessors : List Accessor) :
    Keeps J F (reference c name accessors) := by
  apply (keeps_lookup hc name).bind
  intro id
  apply keeps_get.bind
  intro b
  dsimp only
  split
  · split
    · split
      · exact (keeps_throw hc _).bind fun _ => keeps_liftExcept hc _
      · exact keeps_liftExcept hc _
    · exact keeps_liftExcept hc _
  · exact keeps_liftExcept hc _

mutual

lemma keeps_node (hc : Closed c J F) : ∀ n : CircuitNode, Keeps J F (node c n)
  | .reference name accessors => by
    rw [node]
    exact keeps_reference hc name accessors
  | .declared name body => by
    rw [node]
    exact (keeps_lookup hc name).bind fun _ => keeps_get.bind fun _ => keeps_pure _
  | .anonymous body => by
    rw [node]
    apply (keeps_anonymousName hc).bind
    intro name
    exact (keeps_create hc name body).bind fun _ => keeps_get.bind fun _ => keeps_pure _
  | .nested chain => by
    rw [node]
    exact (keeps_stages hc chain).bind fun _ => keeps_joinStages hc _

lemma keeps_stages (hc : Closed c J F) : ∀ groups : List (List CircuitNode), Keeps J F (stages c groups)
  | [] => by
    rw [stages]
    exact keeps_pure _
  | group :: rest => by
    rw [stages]
    exact (keeps_nodes hc group).bind fun _ => (keeps_stages hc rest).bind fun _ => keeps_pure _

lemma keeps_nodes (hc : Closed c J F) : ∀ ns : List CircuitNode, Keeps J F (nodes c ns)
  | [] => by
    rw [nodes]
    exact keeps_pure _
  | n :: rest => by
    rw [nodes]
    exact (keeps_node hc n).bind fun _ => (keeps_nodes hc rest).bind fun _ => keeps_pure _

end

lemma keeps_inBlock {steps : Construct Unit} (h : Keeps J F steps) : Keeps J F (inBlock steps) := by
  refine Keeps.bind (keeps_modify ?_) ?_
  · intro b
    rfl
  · intro _
    exact h.bind fun _ => keeps_modify fun b => rfl

mutual

lemma keeps_statement (hc : Closed c J F) : ∀ s : Statement, Keeps J F (statement c s)
  | .connection groups => by
    rw [statement]
    exact ((keeps_stages hc groups).bind fun _ => keeps_joinStages hc _).bind fun _ => keeps_pure _
  | .conditional predicate thenBody elseBody => by
    rw [statement]
    apply (keeps_liftExcept hc _).bind
    intro value
    split
    · exact keeps_inBlock ((keeps_declareBlock hc thenBody).bind fun _ =>
        keeps_statements hc thenBody)
    · exact keeps_inBlock ((keeps_declareBlock hc elseBody).bind fun _ =>
        keeps_statements hc elseBody)

lemma keeps_statements (hc : Closed c J F) : ∀ ss : List Statement, Keeps J F (statements c ss)
  | [] => by
    rw [statements]
    exact keeps_pure _
  | s :: rest => by
    rw [statements]
    exact (keeps_statement hc s).bind fun _ => keeps_statements hc rest

end

/-- The body of a function keeps the invariant, from the nodes of its ports to the last
statement. -/
theorem keeps_function (hc : Closed c J F) (inputs outputs : List Port) (body : List Statement) :
    Keeps J F (function c inputs outputs body) := by
  refine Keeps.bind (keeps_forM (fun p => ?_) inputs) fun _ =>
    Keeps.bind (keeps_forM (fun p => ?_) outputs) fun _ => ?_
  · refine Keeps.bind (keeps_addNode hc fun m s hfits => hc.input m s p ?_) fun id =>
      keeps_bindName p.name id
    simpa [Node.signature, Signature.fits] using hfits
  · refine Keeps.bind (keeps_addNode hc fun m s hfits => hc.output m s p ?_) fun id =>
      keeps_bindName p.name id
    simpa [Node.signature, Signature.fits] using hfits
  · exact keeps_inBlock ((keeps_declareBlock hc body).bind fun _ => keeps_statements hc body)

end

end Construct

lemma Invocation.construct_of_function {p : Program} {depth : Nat}
    {build : Invocation → Elaborate Nat} {i : Invocation} {d : FunctionDefinition}
    (h : p.callee i.function = .ok (.function d)) :
    i.construct p depth build = (do
      let b ← Elaborate.ofExpand
        (d.generics.bind p (p.unfolding depth) d.name i.interfaces i.parameters)
      let signature ← Elaborate.ofExpand (d.signature p (p.unfolding depth) b)
      Elaborate.mention (d.generics.names p (p.unfolding depth) (p.expansionNames depth) b ++
        d.names p (p.unfolding depth) (p.expansionNames depth) b)
      let (_, body) ← (Construct.function
        ⟨p, p.unfolding depth, p.expansionNames depth, b, i.describe, build⟩
        signature.inputs signature.outputs d.statements).run
        ⟨.empty i signature.inputs signature.outputs, [[]], 0⟩
      return body.module) := by
  unfold construct
  rw [h]
  rfl

open Elaborate in
/-- How the construction of a module ends, given an invariant of what it builds from the bare
module on. -/
lemma Invocation.leads_construct {p : Program} {depth : Nat} {build : Invocation → Elaborate Nat}
    {i : Invocation} {s : Session} {J : Module → Session → Prop} {F : Session → Prop}
    (hfails : ∀ mentioned, F { s with mentioned })
    (hprimitive : ∀ op primitive m mentioned, p.callee i.function = .ok (.primitive op) →
      Primitive.ofCall op i = .ok primitive → primitive.signature.fits = true →
      Module.ofPrimitive i primitive = .ok m → J m { s with mentioned })
    (hfunction : ∀ d b signature mentioned, p.callee i.function = .ok (.function d) →
      (d.generics.bind p (p.unfolding depth) d.name i.interfaces i.parameters).run = some (.ok b) →
      (d.signature p (p.unfolding depth) b).run = some (.ok signature) →
      Construct.Closed ⟨p, p.unfolding depth, p.expansionNames depth, b, i.describe, build⟩ J F ∧
        J (.empty i signature.inputs signature.outputs) { s with mentioned }) :
    (i.construct p depth build).Leads s True J fun _ s' => F s' := by
  refine Leads.bind (Q := fun callee s' => s = s' ∧ p.callee i.function = .ok callee)
    (leads_liftM (fun _ h => ⟨rfl, h⟩) fun _ _ => hfails _) ?_
  rintro callee _ ⟨rfl, hcallee⟩
  cases callee with
  | primitive op =>
    refine Leads.bind (Q := fun primitive s' => s = s' ∧ Primitive.ofCall op i = .ok primitive)
      (leads_liftM (fun _ h => ⟨rfl, h⟩) fun _ _ => hfails _) ?_
    rintro primitive _ ⟨rfl, hcall⟩
    refine Leads.bind (Q := fun _ s' => ∃ mentioned, s' = { s with mentioned })
      (leads_mention fun mentioned => ⟨mentioned, rfl⟩) ?_
    rintro _ _ ⟨mentioned, rfl⟩
    split
    · next hfits =>
      split
      · next m hm => exact leads_pure (hprimitive op primitive m mentioned hcallee hcall hfits hm)
      · exact leads_throw (hfails mentioned)
    · exact leads_throw (hfails mentioned)
  | function d =>
    refine Leads.bind (Q := fun b s' => s = s' ∧
      (d.generics.bind p (p.unfolding depth) d.name i.interfaces i.parameters).run = some (.ok b))
      (leads_ofExpand (fun _ => trivial) (fun _ h => ⟨rfl, h⟩) fun _ _ => hfails _) ?_
    rintro b _ ⟨rfl, hbind⟩
    refine Leads.bind (Q := fun signature s' => s = s' ∧
      (d.signature p (p.unfolding depth) b).run = some (.ok signature))
      (leads_ofExpand (fun _ => trivial) (fun _ h => ⟨rfl, h⟩) fun _ _ => hfails _) ?_
    rintro signature _ ⟨rfl, hsignature⟩
    refine Leads.bind (Q := fun _ s' => ∃ mentioned, s' = { s with mentioned })
      (leads_mention fun mentioned => ⟨mentioned, rfl⟩) ?_
    rintro _ _ ⟨mentioned, rfl⟩
    obtain ⟨hclosed, hempty⟩ := hfunction d b signature mentioned hcallee hbind hsignature
    have hbody := Construct.keeps_function hclosed signature.inputs signature.outputs d.statements
      ⟨.empty i signature.inputs signature.outputs, [[]], 0⟩ _ hempty
    exact Leads.bind hbody fun r s' hr => leads_pure hr

end NetlistCompiler
