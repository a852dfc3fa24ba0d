import NetlistCompiler.Proofs.ExpansionLikeness

/-!
# Aliases and substitution

An alias stands for its body: wherever an alias with generic values expands, its body with the
expressions for these values written in place of the parameters expands to the same shape. The body
of the alias is opened one level deeper, under its own bindings and with the alias among the
definitions being opened, so expansion is first shown to keep its results when it may go deeper and
when fewer definitions are being opened.
-/

namespace NetlistCompiler

namespace Expand

variable {α β : Type}

/-- Whenever the first expansion succeeds, the second one succeeds with the same value. -/
def Within (x y : Expand α) : Prop :=
  ∀ a, x.run = some (.ok a) → y.run = some (.ok a)

lemma within_self (x : Expand α) : x.Within x := by
  intro a ha
  exact ha

lemma within_throw (e : BuildError) (y : Expand α) : Within (throw e) y := by
  intro a ha
  cases ha

lemma within_pure {a : α} {y : Expand α} (h : y.run = some (.ok a)) : Within (pure a) y := by
  intro a' ha'
  cases ha'
  exact h

lemma within_liftM {x y : Except BuildError α} (h : ∀ a, x = .ok a → y = .ok a) :
    Within (liftM x : Expand α) (liftM y) := by
  intro a ha
  cases x with
  | error e => cases ha
  | ok a' =>
    cases ha
    rw [h a rfl]
    rfl

lemma Within.bind {x y : Expand α} {f g : α → Expand β} (hxy : x.Within y)
    (hfg : ∀ a, (f a).Within (g a)) : Within (x >>= f) (y >>= g) := by
  intro b hb
  obtain ⟨a, ha, hfa⟩ := exists_of_run_bind hb
  rw [run_bind_expand, hxy a ha]
  exact hfg a b hfa

end Expand

open Expand

/-! ### Substitution -/

/-- Expressions for generic parameters; of two expressions for a name, the first counts. -/
structure Substitution where
  interfaces : List (String × InterfaceExpr)
  integers : List (String × StaticExpr)
  functions : List (String × ArgumentExpr)

namespace Substitution

def empty : Substitution :=
  ⟨[], [], []⟩

def bindInterface (σ : Substitution) (name : String) (e : InterfaceExpr) : Substitution :=
  { σ with interfaces := (name, e) :: σ.interfaces }

/-- An expression for a parameter that is an integer or a function. -/
def bindArgument (σ : Substitution) (name : String) : ArgumentExpr → Substitution
  | .static value => { σ with integers := (name, value) :: σ.integers }
  | argument => { σ with functions := (name, argument) :: σ.functions }

end Substitution

/-- The expressions that a definition is given for its generic parameters, place by place. -/
def Generics.substitution (g : Generics) (interfaces : List InterfaceExpr)
    (parameters : List ArgumentExpr) : Substitution :=
  let σ := (g.interfaces.zip interfaces).foldl (fun σ x => σ.bindInterface x.1 x.2) .empty
  (g.parameters.zip parameters).foldl (fun σ x => σ.bindArgument x.1.name x.2) σ

def StaticExpr.substitute (σ : Substitution) : StaticExpr → StaticExpr
  | .int value => .int value
  | .bool value => .bool value
  | .parameter name => (σ.integers.lookup name).getD (.parameter name)
  | .binary op lhs rhs => .binary op (lhs.substitute σ) (rhs.substitute σ)

mutual

/-- Puts expressions in the place of the generic parameters that an interface mentions. -/
def InterfaceExpr.substitute (σ : Substitution) : InterfaceExpr → InterfaceExpr
  | .wire => .wire
  | .vector element size => .vector (element.substitute σ) (size.substitute σ)
  | .generic name => (σ.interfaces.lookup name).getD (.generic name)
  | .defined name interfaces parameters =>
    .defined name (InterfaceExpr.substituteList σ interfaces)
      (ArgumentExpr.substituteList σ parameters)

def InterfaceExpr.substituteList (σ : Substitution) : List InterfaceExpr → List InterfaceExpr
  | [] => []
  | e :: rest => e.substitute σ :: InterfaceExpr.substituteList σ rest

def ArgumentExpr.substitute (σ : Substitution) : ArgumentExpr → ArgumentExpr
  | .static value => .static (value.substitute σ)
  | .instantiation value => .instantiation (value.substitute σ)
  | .reference name => (σ.functions.lookup name).getD (.reference name)

def ArgumentExpr.substituteList (σ : Substitution) : List ArgumentExpr → List ArgumentExpr
  | [] => []
  | a :: rest => a.substitute σ :: ArgumentExpr.substituteList σ rest

def Instantiation.substitute (σ : Substitution) : Instantiation → Instantiation
  | ⟨function, interfaces, parameters⟩ =>
    ⟨function, InterfaceExpr.substituteList σ interfaces,
      ArgumentExpr.substituteList σ parameters⟩

end

lemma StaticExpr.substitute_empty (e : StaticExpr) : e.substitute .empty = e := by
  induction e with
  | int value => rfl
  | bool value => rfl
  | parameter name => rfl
  | binary op lhs rhs ihl ihr => rw [substitute, ihl, ihr]

mutual

lemma InterfaceExpr.substitute_empty : ∀ e : InterfaceExpr, e.substitute .empty = e
  | .wire => by rw [InterfaceExpr.substitute]
  | .vector element size => by
    rw [InterfaceExpr.substitute, InterfaceExpr.substitute_empty element,
      StaticExpr.substitute_empty]
  | .generic name => by
    rw [InterfaceExpr.substitute]
    rfl
  | .defined name interfaces parameters => by
    rw [InterfaceExpr.substitute, InterfaceExpr.substituteList_empty interfaces,
      ArgumentExpr.substituteList_empty parameters]

lemma InterfaceExpr.substituteList_empty :
    ∀ es : List InterfaceExpr, InterfaceExpr.substituteList .empty es = es
  | [] => by rw [InterfaceExpr.substituteList]
  | e :: rest => by
    rw [InterfaceExpr.substituteList, InterfaceExpr.substitute_empty e,
      InterfaceExpr.substituteList_empty rest]

lemma ArgumentExpr.substitute_empty : ∀ a : ArgumentExpr, a.substitute .empty = a
  | .static value => by rw [ArgumentExpr.substitute, StaticExpr.substitute_empty]
  | .instantiation value => by
    rw [ArgumentExpr.substitute, Instantiation.substitute_empty value]
  | .reference name => by
    rw [ArgumentExpr.substitute]
    rfl

lemma ArgumentExpr.substituteList_empty :
    ∀ as : List ArgumentExpr, ArgumentExpr.substituteList .empty as = as
  | [] => by rw [ArgumentExpr.substituteList]
  | a :: rest => by
    rw [ArgumentExpr.substituteList, ArgumentExpr.substitute_empty a,
      ArgumentExpr.substituteList_empty rest]

lemma Instantiation.substitute_empty : ∀ i : Instantiation, i.substitute .empty = i
  | ⟨function, interfaces, parameters⟩ => by
    rw [Instantiation.substitute, InterfaceExpr.substituteList_empty interfaces,
      ArgumentExpr.substituteList_empty parameters]

end

/-! ### Expansion after substitution -/

/-- What the first way of opening definitions succeeds with, the second one succeeds with too, also
when fewer definitions are being opened. -/
structure Unfolding.Within (u u' : Unfolding) : Prop where
  interface : ∀ {active active' : List String}, active' ⊆ active → ∀ d ss as,
    (u.interface active d ss as).Within (u'.interface active' d ss as)
  ports : ∀ i, (u.ports i).Within (u'.ports i)

section

variable {p : Program} {u u' : Unfolding} {b c : Bindings} {σ : Substitution}

/-- The expression has this shape, no matter which of the definitions `active` are being opened. -/
def InterfaceExpr.StandsFor (p : Program) (u : Unfolding) (b : Bindings) (active : List String)
    (e : InterfaceExpr) (s : Shape) : Prop :=
  ∀ active' ⊆ active, (e.expandIn p u b active').run = some (.ok s)

/-- Under `b` the expressions stand for the values that `c` binds. -/
structure Substitution.Realizes (p : Program) (u : Unfolding) (b : Bindings) (active : List String)
    (σ : Substitution) (c : Bindings) : Prop where
  interfaces : ∀ name s, c.interfaces.lookup name = some s →
    ((InterfaceExpr.generic name).substitute σ).StandsFor p u b active s
  integers : ∀ name value, c.integers.lookup name = some value →
    ((StaticExpr.parameter name).substitute σ).eval b = .ok value
  functions : ∀ name i, c.functions.lookup name = some i →
    (((ArgumentExpr.reference name).substitute σ).expand p u b).run = some (.ok (.function i))

lemma Substitution.Realizes.alone {active : List String} (h : σ.Realizes p u b active c) :
    σ.Realizes p u b [] c := by
  refine ⟨?_, h.integers, h.functions⟩
  intro name s hs active' hactive'
  exact h.interfaces name s hs active' (List.subset_nil.mp hactive' ▸ List.nil_subset active)

lemma StaticExpr.eval_substitute (hσ : σ.Realizes p u b [] c) (e : StaticExpr)
    {value : Int64} (h : e.eval c = .ok value) : (e.substitute σ).eval b = .ok value := by
  induction e generalizing value with
  | int n => exact h
  | bool n => exact h
  | parameter name =>
    rw [eval] at h
    split at h
    · next v hv =>
      cases h
      exact hσ.integers name value hv
    · cases h
  | binary op lhs rhs ihl ihr =>
    obtain ⟨l, hl, h⟩ := exists_of_bind_eq_ok h
    obtain ⟨r, hr, h⟩ := exists_of_bind_eq_ok h
    rw [substitute, eval, ihl hl, ihr hr]
    exact h

mutual

lemma InterfaceExpr.expandIn_substitute (hu : u.Within u') {active active' : List String}
    (hσ : σ.Realizes p u' b active' c) (hactive : active' ⊆ active) : ∀ e : InterfaceExpr,
    (e.expandIn p u c active).Within ((e.substitute σ).expandIn p u' b active')
  | .wire => by
    rw [InterfaceExpr.substitute, InterfaceExpr.expandIn, InterfaceExpr.expandIn]
    exact within_self _
  | .vector element size => by
    rw [InterfaceExpr.substitute, InterfaceExpr.expandIn, InterfaceExpr.expandIn]
    apply (within_liftM fun value => size.eval_substitute hσ.alone).bind
    intro value
    apply (within_self _).bind
    intro n
    apply (InterfaceExpr.expandIn_substitute hu hσ hactive element).bind
    intro s
    exact within_self _
  | .generic name => by
    -- the expression in its place expands under the caller's bindings
    rw [InterfaceExpr.expandIn]
    split
    · next s hs => exact within_pure (hσ.interfaces name s hs active' (List.Subset.refl _))
    · exact within_throw _ _
  | .defined name interfaces parameters => by
    rw [InterfaceExpr.substitute, InterfaceExpr.expandIn, InterfaceExpr.expandIn]
    split
    · exact within_throw _ _
    · next d hd =>
      by_cases hopened : active.contains name
      · rw [if_pos hopened]
        exact within_throw _ _
      · have hopened' : ¬ active'.contains name := by
          rw [List.contains_iff_mem] at hopened ⊢
          exact fun h => hopened (hactive h)
        rw [if_neg hopened, if_neg hopened']
        apply (InterfaceExpr.expandListIn_substitute hu hσ hactive interfaces).bind
        intro ss
        apply (ArgumentExpr.expandList_substitute hu hσ.alone parameters).bind
        intro as
        exact hu.interface hactive d ss as

lemma InterfaceExpr.expandListIn_substitute (hu : u.Within u') {active active' : List String}
    (hσ : σ.Realizes p u' b active' c) (hactive : active' ⊆ active) : ∀ es : List InterfaceExpr,
    (InterfaceExpr.expandListIn p u c active es).Within
      (InterfaceExpr.expandListIn p u' b active' (InterfaceExpr.substituteList σ es))
  | [] => by
    rw [InterfaceExpr.substituteList, InterfaceExpr.expandListIn, InterfaceExpr.expandListIn]
    exact within_self _
  | e :: rest => by
    rw [InterfaceExpr.substituteList, InterfaceExpr.expandListIn, InterfaceExpr.expandListIn]
    apply (InterfaceExpr.expandIn_substitute hu hσ hactive e).bind
    intro s
    apply (InterfaceExpr.expandListIn_substitute hu hσ hactive rest).bind
    intro ss
    exact within_self _

lemma ArgumentExpr.expand_substitute (hu : u.Within u') (hσ : σ.Realizes p u' b [] c) :
    ∀ a : ArgumentExpr, (a.expand p u c).Within ((a.substitute σ).expand p u' b)
  | .static value => by
    rw [ArgumentExpr.substitute, ArgumentExpr.expand, ArgumentExpr.expand]
    apply (within_liftM fun n => value.eval_substitute hσ).bind
    intro n
    exact within_self _
  | .instantiation value => by
    rw [ArgumentExpr.substitute, ArgumentExpr.expand, ArgumentExpr.expand]
    apply (Instantiation.expand_substitute hu hσ value).bind
    intro i
    exact within_self _
  | .reference name => by
    rw [ArgumentExpr.expand]
    split
    · next i hi => exact within_pure (hσ.functions name i hi)
    · exact within_throw _ _

lemma ArgumentExpr.expandList_substitute (hu : u.Within u') (hσ : σ.Realizes p u' b [] c) :
    ∀ as : List ArgumentExpr, (ArgumentExpr.expandList p u c as).Within
      (ArgumentExpr.expandList p u' b (ArgumentExpr.substituteList σ as))
  | [] => by
    rw [ArgumentExpr.substituteList, ArgumentExpr.expandList, ArgumentExpr.expandList]
    exact within_self _
  | a :: rest => by
    rw [ArgumentExpr.substituteList, ArgumentExpr.expandList, ArgumentExpr.expandList]
    apply (ArgumentExpr.expand_substitute hu hσ a).bind
    intro value
    apply (ArgumentExpr.expandList_substitute hu hσ rest).bind
    intro values
    exact within_self _

lemma Instantiation.expand_substitute (hu : u.Within u') (hσ : σ.Realizes p u' b [] c) :
    ∀ i : Instantiation, (i.expand p u c).Within ((i.substitute σ).expand p u' b)
  | ⟨function, interfaces, parameters⟩ => by
    rw [Instantiation.substitute, Instantiation.expand, Instantiation.expand]
    apply (InterfaceExpr.expandPorts_substitute hu hσ interfaces).bind
    intro ss
    apply (ArgumentExpr.expandList_substitute hu hσ parameters).bind
    intro as
    exact within_self _

lemma InterfaceExpr.expandPorts_substitute (hu : u.Within u') (hσ : σ.Realizes p u' b [] c) :
    ∀ es : List InterfaceExpr, (InterfaceExpr.expandPorts p u c es).Within
      (InterfaceExpr.expandPorts p u' b (InterfaceExpr.substituteList σ es))
  | [] => by
    rw [InterfaceExpr.substituteList, InterfaceExpr.expandPorts, InterfaceExpr.expandPorts]
    exact within_self _
  | e :: rest => by
    rw [InterfaceExpr.substituteList, InterfaceExpr.expandPorts, InterfaceExpr.expandPorts]
    apply (InterfaceExpr.expandIn_substitute hu hσ (List.Subset.refl []) e).bind
    intro s
    apply (within_self _).bind
    intro s
    apply (InterfaceExpr.expandPorts_substitute hu hσ rest).bind
    intro ss
    exact within_self _

end

/-! ### Deeper expansion -/

variable {active active' : List String}

/-- Without a substitution, every parameter stands for its own value. -/
lemma Substitution.realizes_empty : empty.Realizes p u b active b := by
  constructor
  · intro name s hs active' _
    rw [InterfaceExpr.substitute_empty, InterfaceExpr.expandIn, hs]
    rfl
  · intro name value hvalue
    rw [StaticExpr.substitute_empty, StaticExpr.eval, hvalue]
  · intro name i hi
    rw [ArgumentExpr.substitute_empty, ArgumentExpr.expand, hi]
    rfl

lemma InterfaceExpr.expandIn_within (hu : u.Within u') (hactive : active' ⊆ active)
    (e : InterfaceExpr) : (e.expandIn p u b active).Within (e.expandIn p u' b active') := by
  have h := expandIn_substitute (p := p) (b := b) hu Substitution.realizes_empty hactive e
  rwa [substitute_empty] at h

lemma InterfaceExpr.expandListIn_within (hu : u.Within u') (hactive : active' ⊆ active)
    (es : List InterfaceExpr) :
    (expandListIn p u b active es).Within (expandListIn p u' b active' es) := by
  have h := expandListIn_substitute (p := p) (b := b) hu Substitution.realizes_empty hactive es
  rwa [substituteList_empty] at h

lemma InterfaceExpr.expandPorts_within (hu : u.Within u') (es : List InterfaceExpr) :
    (expandPorts p u b es).Within (expandPorts p u' b es) := by
  have h := expandPorts_substitute (p := p) (b := b) hu Substitution.realizes_empty es
  rwa [substituteList_empty] at h

lemma Generics.checkSignature_within (hu : u.Within u') (owner : String) (q : Parameter) :
    (checkSignature p u owner b q).Within (checkSignature p u' owner b q) := by
  unfold checkSignature
  split
  · next inputs outputs i _ _ =>
    apply (InterfaceExpr.expandPorts_within hu inputs).bind
    intro ss
    apply (InterfaceExpr.expandPorts_within hu outputs).bind
    intro ts
    apply (hu.ports i).bind
    intro found
    exact within_self _
  · exact within_self _

lemma Generics.bind_within (hu : u.Within u') (g : Generics) (owner : String) (ss : List Shape)
    (as : List Argument) : (g.bind p u owner ss as).Within (g.bind p u' owner ss as) := by
  apply (within_self _).bind
  intro b
  have hchecks : Within (g.parameters.forM (checkSignature p u owner b))
      (g.parameters.forM (checkSignature p u' owner b)) := by
    induction g.parameters with
    | nil => exact within_self _
    | cons q rest ih => exact (checkSignature_within hu owner q).bind fun _ => ih
  exact hchecks.bind fun _ => within_self _

lemma InterfaceDefinition.expand_within (hu : u.Within u') (hactive : active' ⊆ active)
    (d : InterfaceDefinition) (ss : List Shape) (as : List Argument) :
    (d.expand p u active ss as).Within (d.expand p u' active' ss as) := by
  have hopened : d.name :: active' ⊆ d.name :: active := List.cons_subset_cons _ hactive
  apply (d.generics.bind_within hu d.name ss as).bind
  intro b
  cases d.body with
  | «alias» e => exact e.expandIn_within hu hopened
  | record members =>
    apply (InterfaceExpr.expandListIn_within hu hopened _).bind
    intro shapes
    exact within_self _

lemma FunctionPort.expandList_within (hu : u.Within u') (ports : List FunctionPort) :
    (expandList p u b ports).Within (expandList p u' b ports) := by
  unfold expandList
  induction ports with
  | nil => exact within_self _
  | cons port rest ih =>
    have hport : Within (port.interface.expand p u b) (port.interface.expand p u' b) :=
      (port.interface.expandIn_within hu (List.Subset.refl [])).bind fun _ => within_self _
    rw [List.mapM_cons, List.mapM_cons]
    apply (hport.bind fun _ => within_self _).bind
    intro q
    exact ih.bind fun _ => within_self _

lemma Invocation.ports_within (hu : u.Within u') (i : Invocation) :
    (i.ports p u).Within (i.ports p u') := by
  apply (within_self _).bind
  intro callee
  cases callee with
  | primitive op => exact within_self _
  | function d =>
    apply (d.generics.bind_within hu d.name i.interfaces i.parameters).bind
    intro b
    apply (FunctionPort.expandList_within hu d.inputs).bind
    intro inputs
    apply (FunctionPort.expandList_within hu d.outputs).bind
    intro outputs
    exact within_self _

/-- An expansion that succeeds also succeeds at every greater depth. -/
lemma Program.unfolding_within (p : Program) {depth depth' : Nat} (h : depth ≤ depth') :
    (p.unfolding depth).Within (p.unfolding depth') := by
  induction depth generalizing depth' with
  | zero =>
    constructor
    · intro active active' _ d ss as s hs
      cases hs
    · intro i s hs
      cases hs
  | succ depth ih =>
    cases depth' with
    | zero => omega
    | succ depth' =>
      have hu := ih (Nat.le_of_succ_le_succ h)
      constructor
      · intro active active' hactive d ss as
        exact d.expand_within hu hactive ss as
      · intro i
        exact i.ports_within hu

/-! ### Generic values written in -/

lemma InterfaceExpr.forall₂_expandListIn {es : List InterfaceExpr} {ss : List Shape}
    (h : (expandListIn p u b active es).run = some (.ok ss)) :
    List.Forall₂ (fun e s => (e.expandIn p u b active).run = some (.ok s)) es ss := by
  induction es generalizing ss with
  | nil =>
    rw [expandListIn] at h
    cases h
    exact .nil
  | cons e rest ih =>
    rw [expandListIn] at h
    obtain ⟨s, hs, h⟩ := exists_of_run_bind h
    obtain ⟨ss, hss, h⟩ := exists_of_run_bind h
    cases h
    exact .cons hs (ih hss)

lemma ArgumentExpr.forall₂_expandList {as : List ArgumentExpr} {values : List Argument}
    (h : (expandList p u b as).run = some (.ok values)) :
    List.Forall₂ (fun a value => (a.expand p u b).run = some (.ok value)) as values := by
  induction as generalizing values with
  | nil =>
    rw [expandList] at h
    cases h
    exact .nil
  | cons a rest ih =>
    rw [expandList] at h
    obtain ⟨value, hvalue, h⟩ := exists_of_run_bind h
    obtain ⟨values, hvalues, h⟩ := exists_of_run_bind h
    cases h
    exact .cons hvalue (ih hvalues)

/-- What holds of the entries for a key still holds after an entry has been put before them. -/
lemma getD_lookup_cons {α β : Type} {R : α → β → Prop} {xs : List (String × α)}
    {ys : List (String × β)} {key : String} {otherwise : α}
    (h : ∀ y, ys.lookup key = some y → R ((xs.lookup key).getD otherwise) y) {x : α} {y : β}
    (hxy : R x y) (name : String) {z : β} (hz : ((name, y) :: ys).lookup key = some z) :
    R ((((name, x) :: xs).lookup key).getD otherwise) z := by
  rw [List.lookup_cons] at hz ⊢
  cases hname : key == name with
  | true =>
    rw [hname] at hz
    cases hz
    exact hxy
  | false =>
    rw [hname] at hz
    exact h z hz

namespace Substitution.Realizes

lemma bindInterface (h : σ.Realizes p u b active c) {e : InterfaceExpr} {s : Shape}
    (he : e.StandsFor p u b active s) (name : String) :
    (σ.bindInterface name e).Realizes p u b active (c.bindInterface name s) := by
  refine ⟨?_, h.integers, h.functions⟩
  intro key t ht
  have hkey := h.interfaces key
  rw [InterfaceExpr.substitute] at hkey ⊢
  exact getD_lookup_cons hkey he name ht

lemma bindInteger (h : σ.Realizes p u b active c) {a : ArgumentExpr} {value : Int64}
    (ha : (a.expand p u b).run = some (.ok (.integer value))) (name : String) :
    (σ.bindArgument name a).Realizes p u b active (c.bindInteger name value) := by
  cases a with
  | static e =>
    rw [ArgumentExpr.expand] at ha
    obtain ⟨n, hn, ha⟩ := exists_of_run_bind ha
    cases ha
    have he := eq_ok_of_run_liftM hn
    refine ⟨h.interfaces, ?_, h.functions⟩
    intro key t ht
    exact getD_lookup_cons (R := fun (e : StaticExpr) n => e.eval b = .ok n) (h.integers key) he
      name ht
  | instantiation x =>
    rw [ArgumentExpr.expand] at ha
    obtain ⟨i, -, ha⟩ := exists_of_run_bind ha
    cases ha
  | reference f =>
    rw [ArgumentExpr.expand] at ha
    split at ha <;> cases ha

lemma bindFunction (h : σ.Realizes p u b active c) {a : ArgumentExpr} {i : Invocation}
    (ha : (a.expand p u b).run = some (.ok (.function i))) (name : String) :
    (σ.bindArgument name a).Realizes p u b active (c.bindFunction name i) := by
  have hbound : ∀ key {j : Invocation}, ((name, i) :: c.functions).lookup key = some j →
      (((((name, a) :: σ.functions).lookup key).getD (.reference key)).expand p u b).run =
        some (.ok (.function j)) := by
    intro key j hj
    have hkey := h.functions key
    rw [ArgumentExpr.substitute] at hkey
    exact getD_lookup_cons (R := fun (a : ArgumentExpr) i => (a.expand p u b).run =
      some (.ok (.function i))) hkey ha name hj
  cases a with
  | static e =>
    rw [ArgumentExpr.expand] at ha
    obtain ⟨n, -, ha⟩ := exists_of_run_bind ha
    cases ha
  | instantiation x => exact ⟨h.interfaces, h.integers, fun key j hj => hbound key hj⟩
  | reference f => exact ⟨h.interfaces, h.integers, fun key j hj => hbound key hj⟩

lemma bindInterfaces (h : σ.Realizes p u b active c) {es : List InterfaceExpr} {ss : List Shape}
    (hes : List.Forall₂ (InterfaceExpr.StandsFor p u b active) es ss) (names : List String) :
    ((names.zip es).foldl (fun σ x => σ.bindInterface x.1 x.2) σ).Realizes p u b active
      ((names.zip ss).foldl (fun b (name, s) => b.bindInterface name s) c) := by
  induction hes generalizing names σ c with
  | nil => simpa using h
  | cons he _ ih =>
    cases names with
    | nil => exact h
    | cons name names => exact ih (h.bindInterface he name) names

lemma bindParameters (h : σ.Realizes p u b active c) {as : List ArgumentExpr}
    {values : List Argument}
    (has : List.Forall₂ (fun a value => (a.expand p u b).run = some (.ok value)) as values)
    {owner : String} {qs : List Parameter} {r : Bindings}
    (hbind : Generics.bindParameters owner c qs values = .ok r) :
    ((qs.zip as).foldl (fun σ x => σ.bindArgument x.1.name x.2) σ).Realizes p u b active r := by
  induction has generalizing qs σ c with
  | nil => cases qs <;> cases hbind <;> exact h
  | @cons a value _ _ ha _ ih =>
    cases qs with
    | nil =>
      cases hbind
      exact h
    | cons q qs =>
      obtain ⟨name, type⟩ := q
      cases value with
      | integer n =>
        cases type with
        | integer => exact ih (h.bindInteger ha name) hbind
        | function inputs outputs => cases hbind
      | function i =>
        cases type with
        | integer => cases hbind
        | function inputs outputs => exact ih (h.bindFunction ha name) hbind

end Substitution.Realizes

/-- The expressions that a definition is given stand for the values that its parameters are bound
to. -/
lemma Generics.realizes_substitution (hu : u.Within u) {g : Generics} {owner : String}
    {interfaces : List InterfaceExpr} {ss : List Shape}
    (hss : (InterfaceExpr.expandListIn p u b active interfaces).run = some (.ok ss))
    {parameters : List ArgumentExpr} {as : List Argument}
    (has : (ArgumentExpr.expandList p u b parameters).run = some (.ok as))
    (hc : g.bindValues owner ss as = .ok c) :
    (g.substitution interfaces parameters).Realizes p u b active c := by
  have hshapes : List.Forall₂ (InterfaceExpr.StandsFor p u b active) interfaces ss := by
    refine (InterfaceExpr.forall₂_expandListIn hss).imp ?_
    intro e s hs active' hactive'
    exact e.expandIn_within hu hactive' s hs
  have hempty : Substitution.empty.Realizes p u b active .empty := by
    constructor <;> intro name value h <;> cases h
  exact (hempty.bindInterfaces hshapes g.interfaces).bindParameters
    (ArgumentExpr.forall₂_expandList has) (bindValues_eq_ok_iff.mp hc).2

end

/-- An alias with generic values expands like its body with these values written in. -/
lemma InterfaceExpr.expandIn_alias {p : Program} {name : String} {d : InterfaceDefinition}
    {body : InterfaceExpr} (hd : p.interface? name = some d) (hbody : d.body = .alias body)
    (interfaces : List InterfaceExpr) (parameters : List ArgumentExpr) (b : Bindings)
    (depth : Nat) (active : List String) :
    ((defined name interfaces parameters).expandIn p (p.unfolding depth) b active).Within
      ((body.substitute (d.generics.substitution interfaces parameters)).expandIn p
        (p.unfolding depth) b active) := by
  intro s hs
  rw [expandIn, hd] at hs
  dsimp only at hs
  by_cases hopened : active.contains name
  · rw [if_pos hopened] at hs
    cases hs
  · rw [if_neg hopened] at hs
    obtain ⟨shapes, hshapes, hs⟩ := exists_of_run_bind hs
    obtain ⟨arguments, harguments, hs⟩ := exists_of_run_bind hs
    cases depth with
    | zero => cases hs
    | succ depth =>
      -- the body is opened at the smaller depth, the generic values at the greater one
      obtain ⟨c, hc, hs⟩ := exists_of_run_bind hs
      rw [hbody] at hs
      have hσ := Generics.realizes_substitution (p.unfolding_within (Nat.le_refl (depth + 1)))
        hshapes harguments (Generics.bindValues_of_bind hc)
      exact expandIn_substitute (p.unfolding_within (Nat.le_succ depth)) hσ
        (List.subset_cons_self d.name active) body s hs

/-- An alias stands for its body: where the alias with generic values expands, its body with the
expressions for these values in place of the parameters expands to the same shape. -/
theorem Program.alias_expands_as_body (p : Program) {name : String} {d : InterfaceDefinition}
    {body : InterfaceExpr} (hd : p.interface? name = some d) (hbody : d.body = .alias body)
    (interfaces : List InterfaceExpr) (parameters : List ArgumentExpr) (b : Bindings)
    (depth : Nat) (s : Shape)
    (hs : ((InterfaceExpr.defined name interfaces parameters).expand p (p.unfolding depth) b).run =
      some (.ok s)) :
    ((body.substitute (d.generics.substitution interfaces parameters)).expand p
      (p.unfolding depth) b).run = some (.ok s) :=
  (InterfaceExpr.expandIn_alias hd hbody interfaces parameters b depth []).bind
    (fun _ => within_self _) s hs

/-- Vectors of vectors that are one longer, by way of a second alias. -/
def laneAliases : Program where
  interfaces :=
    [⟨"padded", ⟨["item"], [⟨"size", .integer⟩]⟩,
        .alias (.vector (.generic "item") (.binary .add (.parameter "size") (.int 1)))⟩,
      ⟨"lanes", ⟨["item"], [⟨"count", .integer⟩]⟩,
        .alias (.vector (.defined "padded" [.generic "item"] [.static (.parameter "count")])
          (.parameter "count"))⟩]
  functions := []

/-- An alias among its own generic values: its body then mentions it again. -/
theorem Program.alias_expands_as_body_nested :
    let inner := InterfaceExpr.defined "lanes" [.generic "item"] [.static (.parameter "size")]
    let b : Bindings := ⟨[("item", .vector .wire 4)], [("size", 3)], []⟩
    let s := Shape.vector (.vector (.vector (.vector (.vector .wire 4) 4) 3) 3) 2
    ((InterfaceExpr.defined "lanes" [inner] [.static (.int 2)]).expand laneAliases
      (laneAliases.unfolding 2) b).run = some (.ok s) ∧
    ((InterfaceExpr.vector (.defined "padded" [inner] [.static (.int 2)]) (.int 2)).expand
      laneAliases (laneAliases.unfolding 2) b).run = some (.ok s) := by
  intro inner b s
  have h : ((InterfaceExpr.defined "lanes" [inner] [.static (.int 2)]).expand laneAliases
      (laneAliases.unfolding 2) b).run = some (.ok s) := by rfl
  have hbody := laneAliases.alias_expands_as_body rfl rfl _ _ b 2 s h
  exact ⟨h, hbody⟩
end NetlistCompiler
