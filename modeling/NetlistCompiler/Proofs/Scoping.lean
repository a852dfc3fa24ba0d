import NetlistCompiler.Proofs.ResolvedPrograms

/-!
# Scoping

Every name in a resolved program is known where it is used: generic names are parameters of the
definition around them, called names are functions or primitives, and a chain refers to inputs,
outputs and nodes of the blocks around it. Resolution accepts a program only if this holds.
-/

namespace NetlistCompiler

/-- The name is one of a function or a primitive. -/
def Program.Calls (p : Program) (name : String) : Prop :=
  ∃ callee, p.callee name = .ok callee

lemma Program.exists_function_of_mem {p : Program} {name : String} {d : FunctionDefinition}
    (hd : d ∈ p.functions) (hname : d.name = name) :
    ∃ d', p.callee name = .ok (.function d') := by
  have hsome : (p.function? name).isSome = true :=
    List.find?_isSome.mpr ⟨d, hd, by simp [hname]⟩
  obtain ⟨d', hd'⟩ := Option.isSome_iff_exists.mp hsome
  exact ⟨d', by rw [callee, hd']⟩

lemma Program.calls_of_primitive {p : Program} {name : String}
    (h : (PrimitiveOp.ofName? name).isSome = true) : p.Calls name := by
  obtain ⟨op, hop⟩ := Option.isSome_iff_exists.mp h
  cases hd : p.function? name with
  | some d => exact ⟨.function d, by rw [callee, hd]⟩
  | none => exact ⟨.primitive op, by rw [callee, hd, hop]⟩

lemma Program.mem_of_callee {p : Program} {name : String} {d : FunctionDefinition}
    (h : p.callee name = .ok (.function d)) : d ∈ p.functions := by
  unfold callee at h
  split at h
  · next d' hd' =>
    cases h
    exact List.mem_of_find?_eq_some hd'
  · split at h
    · cases h
    · cases h

section

variable (p : Program) (g : Generics)

def StaticExpr.Scoped : StaticExpr → Prop
  | .int _ => True
  | .bool _ => True
  | .parameter name => ⟨name, .integer⟩ ∈ g.parameters
  | .binary _ lhs rhs => lhs.Scoped ∧ rhs.Scoped

/-- The name is a parameter that stands for a function. -/
def Generics.HasFunction (name : String) : Prop :=
  ∃ inputs outputs, ⟨name, .function inputs outputs⟩ ∈ g.parameters

mutual

def InterfaceExpr.Scoped : InterfaceExpr → Prop
  | .wire => True
  | .vector element size => element.Scoped ∧ size.Scoped g
  | .generic name => name ∈ g.interfaces
  | .defined name interfaces parameters =>
    (p.interface? name).isSome = true ∧ InterfaceExpr.AllScoped interfaces ∧
      ArgumentExpr.AllScoped parameters

def InterfaceExpr.AllScoped : List InterfaceExpr → Prop
  | [] => True
  | e :: rest => e.Scoped ∧ InterfaceExpr.AllScoped rest

def ArgumentExpr.Scoped : ArgumentExpr → Prop
  | .static value => value.Scoped g
  | .instantiation value => value.Scoped
  | .reference name => g.HasFunction name

def ArgumentExpr.AllScoped : List ArgumentExpr → Prop
  | [] => True
  | a :: rest => a.Scoped ∧ ArgumentExpr.AllScoped rest

def Instantiation.Scoped : Instantiation → Prop
  | ⟨function, interfaces, parameters⟩ =>
    p.Calls function ∧ InterfaceExpr.AllScoped interfaces ∧ ArgumentExpr.AllScoped parameters

end

def NodeBody.Scoped : NodeBody → Prop
  | .function instantiation => instantiation.Scoped p g
  | .genericFunction name => g.HasFunction name
  | .interface e => e.Scoped p g

def Accessor.Scoped : Accessor → Prop
  | .member _ => True
  | .index place => place.Scoped g
  | .slice first last => first.Scoped g ∧ last.Scoped g

mutual

/-- The node refers to visible names only. -/
def CircuitNode.Scoped (visible : List String) : CircuitNode → Prop
  | .reference name accessors => name ∈ visible ∧ ∀ a ∈ accessors, a.Scoped g
  | .declared name body => name ∈ visible ∧ body.Scoped p g
  | .anonymous body => body.Scoped p g
  | .nested chain => CircuitNode.ChainScoped visible chain

def CircuitNode.ChainScoped (visible : List String) : List (List CircuitNode) → Prop
  | [] => True
  | group :: rest => CircuitNode.GroupScoped visible group ∧ CircuitNode.ChainScoped visible rest

def CircuitNode.GroupScoped (visible : List String) : List CircuitNode → Prop
  | [] => True
  | n :: rest => n.Scoped visible ∧ CircuitNode.GroupScoped visible rest

end

end

mutual

/-- The names that a node of a chain declares. -/
def CircuitNode.names : CircuitNode → List String
  | .declared name _ => [name]
  | .nested chain => CircuitNode.chainNames chain
  | .reference _ _ => []
  | .anonymous _ => []

def CircuitNode.chainNames : List (List CircuitNode) → List String
  | [] => []
  | group :: rest => CircuitNode.groupNames group ++ CircuitNode.chainNames rest

def CircuitNode.groupNames : List CircuitNode → List String
  | [] => []
  | n :: rest => n.names ++ CircuitNode.groupNames rest

end

/-- The names that a block declares outside of its conditionals. -/
def Statement.blockNames : List Statement → List String
  | [] => []
  | .connection chain :: rest => CircuitNode.chainNames chain ++ Statement.blockNames rest
  | .conditional _ _ _ :: rest => Statement.blockNames rest

section

variable (p : Program)

mutual

def Statement.Scoped (g : Generics) (visible : List String) : Statement → Prop
  | .connection chain => CircuitNode.ChainScoped p g visible chain
  | .conditional predicate thenBody elseBody =>
    predicate.Scoped g ∧
      Statement.BlockScoped g (Statement.blockNames thenBody ++ visible) thenBody ∧
      Statement.BlockScoped g (Statement.blockNames elseBody ++ visible) elseBody

def Statement.BlockScoped (g : Generics) (visible : List String) : List Statement → Prop
  | [] => True
  | s :: rest => s.Scoped g visible ∧ Statement.BlockScoped g visible rest

end

def Parameter.Scoped (g : Generics) (q : Parameter) : Prop :=
  match q.type with
  | .integer => True
  | .function inputs outputs =>
    InterfaceExpr.AllScoped p g inputs ∧ InterfaceExpr.AllScoped p g outputs

def Generics.Scoped (g : Generics) : Prop :=
  ∀ q ∈ g.parameters, q.Scoped p g

def InterfaceDefinition.Scoped (d : InterfaceDefinition) : Prop :=
  d.generics.Scoped p ∧
    match d.body with
    | .alias e => e.Scoped p d.generics
    | .record members => InterfaceExpr.AllScoped p d.generics (members.map Prod.snd)

/-- The names that the body of a function can use. -/
def FunctionDefinition.visible (d : FunctionDefinition) : List String :=
  Statement.blockNames d.statements ++ (d.inputs ++ d.outputs).map FunctionPort.name

structure FunctionDefinition.Scoped (d : FunctionDefinition) : Prop where
  generics : d.generics.Scoped p
  inputs : ∀ port ∈ d.inputs, port.interface.Scoped p d.generics
  outputs : ∀ port ∈ d.outputs, port.interface.Scoped p d.generics
  statements : Statement.BlockScoped p d.generics d.visible d.statements

structure Program.Scoped : Prop where
  interface : ∀ name d, p.interface? name = some d → d.Scoped p
  function : ∀ name d, p.callee name = .ok (.function d) → d.Scoped p

end

/-! ### Scopes of resolution -/

/-- What has to be true of a name for it to be declared in a certain way. -/
def Declaration.Holds (p : Program) (g : Generics) (visible : List String) (name : String) :
    Declaration → Prop
  | .interface => (p.interface? name).isSome = true
  | .function => p.Calls name
  | .primitive => p.Calls name
  | .genericInterface => name ∈ g.interfaces
  | .integerParameter => ⟨name, .integer⟩ ∈ g.parameters
  | .functionParameter => g.HasFunction name
  | .input => name ∈ visible
  | .output => name ∈ visible
  | .node => name ∈ visible

/-- Names resolve to what they are. -/
def Scope.Sound (p : Program) (g : Generics) (visible : List String) (scope : Scope) : Prop :=
  ∀ name declaration, scope.resolve name = .ok declaration → declaration.Holds p g visible name

lemma Declaration.Holds.mono {p : Program} {g : Generics} {visible visible' : List String}
    {name : String} {declaration : Declaration} (h : declaration.Holds p g visible name)
    (hsubset : visible ⊆ visible') : declaration.Holds p g visible' name := by
  cases declaration
  case input => exact hsubset h
  case output => exact hsubset h
  case node => exact hsubset h
  all_goals exact h

lemma Scope.resolve_cons (frame : Frame) (outer : Scope) (name : String) :
    resolve (frame :: outer) name =
      match frame.symbols.lookup name with
      | some declaration => .ok declaration
      | none => outer.resolve name := by
  unfold resolve find?
  rw [List.findSome?_cons]
  cases frame.symbols.lookup name <;> rfl

lemma Scope.Sound.cons {p : Program} {g : Generics} {visible visible' : List String}
    {outer : Scope} {frame : Frame} (h : outer.Sound p g visible) (hsubset : visible ⊆ visible')
    (hframe : ∀ f ∈ frame.symbols, f.2.Holds p g visible' f.1) :
    Scope.Sound p g visible' (frame :: outer) := by
  intro name declaration hresolve
  rw [resolve_cons] at hresolve
  split at hresolve
  · next found hfound =>
    cases hresolve
    exact hframe _ (mem_of_lookup_eq_some hfound)
  · exact (h name declaration hresolve).mono hsubset

lemma Scope.eq_cons_of_enter {outer scope : Scope} {kind : FrameKind}
    {symbols : List (String × Declaration)} (h : outer.enter kind symbols = .ok scope) :
    scope = ⟨kind, symbols⟩ :: outer := by
  unfold enter at h
  dsimp only at h
  split at h
  · cases h
  · cases h
    rfl

namespace Resolution

section

variable {p : Program} {g : Generics} {visible : List String} {scope : Scope}

lemma staticExpr_scoped (h : scope.Sound p g visible) :
    ∀ (e : Surface.Expr) {r : StaticExpr}, staticExpr scope e = .ok r → r.Scoped g
  | .literal value, r, hr => by
    rw [staticExpr] at hr
    cases hr
    trivial
  | .truth value, r, hr => by
    rw [staticExpr] at hr
    cases hr
    trivial
  | .parenthesized inner, r, hr => by
    rw [staticExpr] at hr
    exact staticExpr_scoped h inner hr
  | .binary op lhs rhs, r, hr => by
    rw [staticExpr] at hr
    obtain ⟨l, hl, hrest⟩ := exists_of_bind_eq_ok hr
    obtain ⟨r', hr', hend⟩ := exists_of_bind_eq_ok hrest
    cases hend
    exact ⟨staticExpr_scoped h lhs hl, staticExpr_scoped h rhs hr'⟩
  | .atom name arguments, r, hr => by
    rw [staticExpr] at hr
    obtain ⟨declaration, hdeclaration, hrest⟩ := exists_of_bind_eq_ok hr
    split at hrest
    · split at hrest
      · cases hrest
        exact h name _ hdeclaration
      · cases hrest
    · cases hrest
  | .wire, r, hr => by
    rw [staticExpr] at hr
    cases hr
  | .access _ _, r, hr => by
    rw [staticExpr] at hr
    cases hr

/-- What is true of a generic value whose names are known. -/
def GenericValue.Scoped (p : Program) (g : Generics) : GenericValue → Prop
  | .interface value => value.Scoped p g
  | .parameter value => value.Scoped p g

lemma split_scoped {values : List GenericValue} (h : ∀ v ∈ values, v.Scoped p g) :
    InterfaceExpr.AllScoped p g (split values).1 ∧ ArgumentExpr.AllScoped p g (split values).2 := by
  induction values with
  | nil => exact ⟨trivial, trivial⟩
  | cons v values ih =>
    rw [List.forall_mem_cons] at h
    obtain ⟨hinterfaces, hparameters⟩ := ih h.2
    cases v with
    | interface e => exact ⟨⟨h.1, hinterfaces⟩, hparameters⟩
    | parameter a => exact ⟨hinterfaces, h.1, hparameters⟩

mutual

lemma interface_scoped (h : scope.Sound p g visible) :
    ∀ (e : Surface.Expr) {r : InterfaceExpr}, interface scope e = .ok r → r.Scoped p g
  | .wire, r, hr => by
    rw [interface] at hr
    cases hr
    trivial
  | .atom name arguments, r, hr => by
    rw [interface] at hr
    obtain ⟨declaration, hdeclaration, hrest⟩ := exists_of_bind_eq_ok hr
    split at hrest
    · split at hrest
      · cases hrest
        exact h name _ hdeclaration
      · cases hrest
    · obtain ⟨values, hvalues, hend⟩ := exists_of_bind_eq_ok hrest
      cases hend
      exact ⟨h name _ hdeclaration, split_scoped (genericValues_scoped h arguments hvalues)⟩
    · cases hrest
  | .access accessed (.item index), r, hr => by
    rw [interface] at hr
    obtain ⟨element, helement, hrest⟩ := exists_of_bind_eq_ok hr
    obtain ⟨size, hsize, hend⟩ := exists_of_bind_eq_ok hrest
    cases hend
    exact ⟨interface_scoped h accessed helement, staticExpr_scoped h index hsize⟩
  | .access _ (.slice _ _), r, hr => by
    rw [interface] at hr
    · cases hr
    · simp
  | .access _ (.member _), r, hr => by
    rw [interface] at hr
    · cases hr
    · simp
  | .parenthesized inner, r, hr => by
    rw [interface] at hr
    exact interface_scoped h inner hr
  | .truth _, r, hr => by
    rw [interface] at hr
    cases hr
  | .literal _, r, hr => by
    rw [interface] at hr
    cases hr
  | .binary _ _ _, r, hr => by
    rw [interface] at hr
    cases hr

lemma genericValue_scoped (h : scope.Sound p g visible) :
    ∀ (e : Surface.Expr) {r : GenericValue}, genericValue scope e = .ok r → r.Scoped p g
  | .literal value, r, hr => by
    rw [genericValue] at hr
    cases hr
    trivial
  | .truth value, r, hr => by
    rw [genericValue] at hr
    cases hr
    trivial
  | .binary op lhs rhs, r, hr => by
    rw [genericValue] at hr
    obtain ⟨e, he, hend⟩ := exists_of_bind_eq_ok hr
    cases hend
    exact staticExpr_scoped h (.binary op lhs rhs) he
  | .parenthesized inner, r, hr => by
    rw [genericValue] at hr
    exact genericValue_scoped h inner hr
  | .wire, r, hr => by
    rw [genericValue] at hr
    cases hr
    trivial
  | .access accessed (.item index), r, hr => by
    rw [genericValue] at hr
    obtain ⟨element, helement, hrest⟩ := exists_of_bind_eq_ok hr
    obtain ⟨size, hsize, hend⟩ := exists_of_bind_eq_ok hrest
    cases hend
    exact ⟨interface_scoped h accessed helement, staticExpr_scoped h index hsize⟩
  | .access _ (.slice _ _), r, hr => by
    rw [genericValue] at hr
    · cases hr
    · simp
  | .access _ (.member _), r, hr => by
    rw [genericValue] at hr
    · cases hr
    · simp
  | .atom name arguments, r, hr => by
    rw [genericValue] at hr
    obtain ⟨declaration, hdeclaration, hrest⟩ := exists_of_bind_eq_ok hr
    have hholds := h name declaration hdeclaration
    split at hrest
    · obtain ⟨values, hvalues, hend⟩ := exists_of_bind_eq_ok hrest
      cases hend
      exact ⟨hholds, split_scoped (genericValues_scoped h arguments hvalues)⟩
    · obtain ⟨values, hvalues, hend⟩ := exists_of_bind_eq_ok hrest
      cases hend
      exact ⟨hholds, split_scoped (genericValues_scoped h arguments hvalues)⟩
    · split at hrest
      · cases hrest
        exact hholds
      · cases hrest
    · split at hrest
      · cases hrest
        exact hholds
      · cases hrest
    · split at hrest
      · cases hrest
        exact hholds
      · cases hrest
    · obtain ⟨values, hvalues, hend⟩ := exists_of_bind_eq_ok hrest
      cases hend
      exact ⟨hholds, split_scoped (genericValues_scoped h arguments hvalues)⟩
    · cases hrest

lemma genericValues_scoped (h : scope.Sound p g visible) :
    ∀ (es : List Surface.Expr) {rs : List GenericValue}, genericValues scope es = .ok rs →
      ∀ v ∈ rs, v.Scoped p g
  | [], rs, hrs => by
    rw [genericValues] at hrs
    cases hrs
    simp
  | e :: rest, rs, hrs => by
    rw [genericValues] at hrs
    obtain ⟨v, hv, hrest⟩ := exists_of_bind_eq_ok hrs
    obtain ⟨vs, hvs, hend⟩ := exists_of_bind_eq_ok hrest
    cases hend
    exact List.forall_mem_cons.mpr
      ⟨genericValue_scoped h e hv, genericValues_scoped h rest hvs⟩

end

lemma instantiation_scoped (h : scope.Sound p g visible) {name : String} (hname : p.Calls name)
    {arguments : List Surface.Expr} {r : Instantiation}
    (hr : instantiation scope name arguments = .ok r) : r.Scoped p g := by
  obtain ⟨values, hvalues, hend⟩ := exists_of_bind_eq_ok hr
  cases hend
  exact ⟨hname, split_scoped (genericValues_scoped h arguments hvalues)⟩

lemma accessor_scoped (h : scope.Sound p g visible) {a : Surface.Accessor} {r : Accessor}
    (hr : accessor scope a = .ok r) : r.Scoped g := by
  cases a with
  | member name =>
    cases hr
    trivial
  | item index =>
    obtain ⟨e, he, hend⟩ := exists_of_bind_eq_ok hr
    cases hend
    exact staticExpr_scoped h index he
  | slice first last =>
    obtain ⟨e, he, hrest⟩ := exists_of_bind_eq_ok hr
    obtain ⟨e', he', hend⟩ := exists_of_bind_eq_ok hrest
    cases hend
    exact ⟨staticExpr_scoped h first he, staticExpr_scoped h last he'⟩

lemma lone_scoped (h : scope.Sound p g visible) :
    ∀ (e : Surface.Expr) {r : CircuitNode}, lone scope e = .ok r →
      r.Scoped p g visible ∧ r.names = []
  | .atom name arguments, r, hr => by
    rw [lone] at hr
    obtain ⟨declaration, hdeclaration, hrest⟩ := exists_of_bind_eq_ok hr
    have hholds := h name declaration hdeclaration
    cases declaration
    case interface | genericInterface =>
      obtain ⟨e, he, hend⟩ := exists_of_bind_eq_ok hrest
      cases hend
      exact ⟨interface_scoped h (.atom name arguments) he, rfl⟩
    case function | primitive =>
      obtain ⟨i, hi, hend⟩ := exists_of_bind_eq_ok hrest
      cases hend
      exact ⟨instantiation_scoped h hholds hi, rfl⟩
    case integerParameter => cases hrest
    all_goals
      dsimp only at hrest
      split at hrest
      · cases hrest
        first
          | exact ⟨hholds, rfl⟩
          | exact ⟨⟨hholds, by simp⟩, rfl⟩
      · cases hrest
  | .access accessed step, r, hr => by
    rw [lone] at hr
    obtain ⟨n, hn, hrest⟩ := exists_of_bind_eq_ok hr
    obtain ⟨hscoped, -⟩ := lone_scoped h accessed hn
    split at hrest
    · obtain ⟨a, ha, hend⟩ := exists_of_bind_eq_ok hrest
      cases hend
      refine ⟨⟨hscoped.1, ?_⟩, rfl⟩
      intro a' ha'
      rcases List.mem_append.mp ha' with ha' | ha'
      · exact hscoped.2 a' ha'
      · obtain rfl := List.mem_singleton.mp ha'
        exact accessor_scoped h ha
    · split at hrest
      · obtain ⟨size, hsize, hend⟩ := exists_of_bind_eq_ok hrest
        cases hend
        exact ⟨⟨hscoped, staticExpr_scoped h _ hsize⟩, rfl⟩
      · cases hrest
    · cases hrest
  | .wire, r, hr => by
    rw [lone] at hr
    cases hr
    exact ⟨trivial, rfl⟩
  | .parenthesized inner, r, hr => by
    rw [lone] at hr
    exact lone_scoped h inner hr
  | .truth _, r, hr => by
    rw [lone] at hr
    cases hr
  | .literal _, r, hr => by
    rw [lone] at hr
    cases hr
  | .binary _ _ _, r, hr => by
    rw [lone] at hr
    cases hr

mutual

/-- A resolved node declares the names of the node it comes from. -/
lemma names_node (h : scope.Sound p g visible) :
    ∀ (n : Surface.Node) {r : CircuitNode}, node scope n = .ok r → r.names = declaredNames n
  | .lone e, r, hr => by
    rw [node] at hr
    rw [declaredNames]
    exact (lone_scoped h e hr).2
  | .declared name type, r, hr => by
    rw [node] at hr
    obtain ⟨n, hn, hrest⟩ := exists_of_bind_eq_ok hr
    split at hrest
    · cases hrest
      rfl
    · cases hrest
  | .parentheses groups, r, hr => by
    rw [node] at hr
    obtain ⟨ns, hns, hend⟩ := exists_of_bind_eq_ok hr
    cases hend
    rw [CircuitNode.names, declaredNames]
    exact names_chain h groups hns

lemma names_chain (h : scope.Sound p g visible) :
    ∀ (groups : List (List Surface.Node)) {r : Chain}, chain scope groups = .ok r →
      CircuitNode.chainNames r = chainNames groups
  | [], r, hr => by
    rw [chain] at hr
    cases hr
    rfl
  | group :: rest, r, hr => by
    rw [chain] at hr
    obtain ⟨ns, hns, hrest⟩ := exists_of_bind_eq_ok hr
    obtain ⟨nss, hnss, hend⟩ := exists_of_bind_eq_ok hrest
    cases hend
    rw [CircuitNode.chainNames, chainNames, names_group h group hns, names_chain h rest hnss]

lemma names_group (h : scope.Sound p g visible) :
    ∀ (ns : List Surface.Node) {r : List CircuitNode}, nodes scope ns = .ok r →
      CircuitNode.groupNames r = groupNames ns
  | [], r, hr => by
    rw [nodes] at hr
    cases hr
    rfl
  | n :: rest, r, hr => by
    rw [nodes] at hr
    obtain ⟨n', hn', hrest⟩ := exists_of_bind_eq_ok hr
    obtain ⟨ns', hns', hend⟩ := exists_of_bind_eq_ok hrest
    cases hend
    rw [CircuitNode.groupNames, groupNames, names_node h n hn', names_group h rest hns']

end

mutual

lemma node_scoped (h : scope.Sound p g visible) :
    ∀ (n : Surface.Node) {r : CircuitNode}, node scope n = .ok r → declaredNames n ⊆ visible →
      r.Scoped p g visible
  | .lone e, r, hr, _ => by
    rw [node] at hr
    exact (lone_scoped h e hr).1
  | .declared name type, r, hr, hvisible => by
    rw [node] at hr
    obtain ⟨n, hn, hrest⟩ := exists_of_bind_eq_ok hr
    obtain ⟨hscoped, -⟩ := lone_scoped h type hn
    split at hrest
    · cases hrest
      exact ⟨hvisible (by simp [declaredNames]), hscoped⟩
    · cases hrest
  | .parentheses groups, r, hr, hvisible => by
    rw [node] at hr
    obtain ⟨ns, hns, hend⟩ := exists_of_bind_eq_ok hr
    cases hend
    rw [declaredNames] at hvisible
    exact chain_scoped h groups hns hvisible

lemma chain_scoped (h : scope.Sound p g visible) :
    ∀ (groups : List (List Surface.Node)) {r : Chain}, chain scope groups = .ok r →
      chainNames groups ⊆ visible → CircuitNode.ChainScoped p g visible r
  | [], r, hr, _ => by
    rw [chain] at hr
    cases hr
    trivial
  | group :: rest, r, hr, hvisible => by
    rw [chain] at hr
    obtain ⟨ns, hns, hrest⟩ := exists_of_bind_eq_ok hr
    obtain ⟨nss, hnss, hend⟩ := exists_of_bind_eq_ok hrest
    cases hend
    rw [chainNames, List.append_subset] at hvisible
    exact ⟨nodes_scoped h group hns hvisible.1, chain_scoped h rest hnss hvisible.2⟩

lemma nodes_scoped (h : scope.Sound p g visible) :
    ∀ (ns : List Surface.Node) {r : List CircuitNode}, nodes scope ns = .ok r →
      groupNames ns ⊆ visible → CircuitNode.GroupScoped p g visible r
  | [], r, hr, _ => by
    rw [nodes] at hr
    cases hr
    trivial
  | n :: rest, r, hr, hvisible => by
    rw [nodes] at hr
    obtain ⟨n', hn', hrest⟩ := exists_of_bind_eq_ok hr
    obtain ⟨ns', hns', hend⟩ := exists_of_bind_eq_ok hrest
    cases hend
    rw [groupNames, List.append_subset] at hvisible
    exact ⟨node_scoped h n hn' hvisible.1, nodes_scoped h rest hns' hvisible.2⟩

end

lemma names_statements (h : scope.Sound p g visible) (ss : List Surface.Statement)
    {r : List Statement} (hr : statements scope ss = .ok r) :
    Statement.blockNames r = blockNames ss := by
  induction ss generalizing r with
  | nil =>
    rw [statements] at hr
    cases hr
    rfl
  | cons s rest ih =>
    rw [statements] at hr
    obtain ⟨s', hs', hrest⟩ := exists_of_bind_eq_ok hr
    obtain ⟨rest', hrest', hend⟩ := exists_of_bind_eq_ok hrest
    cases hend
    cases s with
    | connection groups =>
      rw [statement] at hs'
      obtain ⟨ns, hns, hend⟩ := exists_of_bind_eq_ok hs'
      cases hend
      rw [Statement.blockNames, blockNames, names_chain h groups hns, ih hrest']
    | conditional predicate thenBody elseBody =>
      rw [statement] at hs'
      obtain ⟨_, _, hs'⟩ := exists_of_bind_eq_ok hs'
      obtain ⟨_, _, hs'⟩ := exists_of_bind_eq_ok hs'
      obtain ⟨_, _, hs'⟩ := exists_of_bind_eq_ok hs'
      obtain ⟨_, _, hs'⟩ := exists_of_bind_eq_ok hs'
      obtain ⟨_, _, hs'⟩ := exists_of_bind_eq_ok hs'
      cases hs'
      rw [Statement.blockNames, blockNames, ih hrest']

/-- Inside a conditional block the nodes of the block are visible as well. -/
lemma sound_conditional (h : scope.Sound p g visible) {body : List Surface.Statement}
    {inner : Scope} (hinner : scope.enter .conditional (blockSymbols body) = .ok inner) :
    inner.Sound p g (blockNames body ++ visible) := by
  rw [Scope.eq_cons_of_enter hinner]
  apply h.cons (List.subset_append_right ..)
  intro f hf
  obtain ⟨name, hname, rfl⟩ := List.mem_map.mp hf
  exact List.mem_append_left visible hname

mutual

lemma statement_scoped {visible : List String} {scope : Scope} (h : scope.Sound p g visible) :
    ∀ (s : Surface.Statement) {r : Statement}, statement scope s = .ok r →
      blockNames [s] ⊆ visible → r.Scoped p g visible
  | .connection groups, r, hr, hvisible => by
    rw [statement] at hr
    obtain ⟨ns, hns, hend⟩ := exists_of_bind_eq_ok hr
    cases hend
    exact chain_scoped h groups hns (by simpa [blockNames] using hvisible)
  | .conditional predicate thenBody elseBody, r, hr, _ => by
    rw [statement] at hr
    obtain ⟨e, he, hr⟩ := exists_of_bind_eq_ok hr
    obtain ⟨inner, hinner, hr⟩ := exists_of_bind_eq_ok hr
    obtain ⟨thenBody', hthen, hr⟩ := exists_of_bind_eq_ok hr
    obtain ⟨inner', hinner', hr⟩ := exists_of_bind_eq_ok hr
    obtain ⟨elseBody', helse, hr⟩ := exists_of_bind_eq_ok hr
    cases hr
    have hsound := sound_conditional h hinner
    have hsound' := sound_conditional h hinner'
    refine ⟨staticExpr_scoped h predicate he, ?_, ?_⟩
    · rw [names_statements hsound thenBody hthen]
      exact statements_scoped hsound thenBody hthen (List.subset_append_left ..)
    · rw [names_statements hsound' elseBody helse]
      exact statements_scoped hsound' elseBody helse (List.subset_append_left ..)

lemma statements_scoped {visible : List String} {scope : Scope} (h : scope.Sound p g visible) :
    ∀ (ss : List Surface.Statement) {r : List Statement}, statements scope ss = .ok r →
      blockNames ss ⊆ visible → Statement.BlockScoped p g visible r
  | [], r, hr, _ => by
    rw [statements] at hr
    cases hr
    trivial
  | s :: rest, r, hr, hvisible => by
    rw [statements] at hr
    obtain ⟨s', hs', hrest⟩ := exists_of_bind_eq_ok hr
    obtain ⟨rest', hrest', hend⟩ := exists_of_bind_eq_ok hrest
    cases hend
    have hnames : blockNames (s :: rest) = blockNames [s] ++ blockNames rest := by
      cases s <;> simp [blockNames]
    rw [hnames, List.append_subset] at hvisible
    exact ⟨statement_scoped h s hs' hvisible.1, statements_scoped h rest hrest' hvisible.2⟩

end

lemma allScoped_of_mapM (h : scope.Sound p g visible) {es : List Surface.Expr}
    {rs : List InterfaceExpr} (hrs : es.mapM (interface scope) = .ok rs) :
    InterfaceExpr.AllScoped p g rs := by
  have hall := forall₂_of_mapM_eq_ok hrs
  clear hrs
  induction hall with
  | nil => trivial
  | cons hr _ ih => exact ⟨interface_scoped h _ hr, ih⟩

/-! ### Definitions -/

/-- The generic parameters of a definition are what their declarations say. -/
lemma holds_of_generics {ps : List Surface.Parameter} {g' : Generics}
    (hg' : generics scope ps = .ok g') (hinterfaces : g'.interfaces ⊆ g.interfaces)
    (hparameters : g'.parameters ⊆ g.parameters) :
    ∀ f ∈ parameterSymbols ps, f.2.Holds p g visible f.1 := by
  induction ps generalizing g' with
  | nil => simp [parameterSymbols]
  | cons q ps ih =>
    obtain ⟨name, type⟩ := q
    unfold parameterSymbols
    rw [List.map_cons, List.forall_mem_cons]
    cases type with
    | interface =>
      obtain ⟨g₁, hg₁, hend⟩ := exists_of_bind_eq_ok hg'
      cases hend
      rw [List.cons_subset] at hinterfaces
      exact ⟨hinterfaces.1, ih hg₁ hinterfaces.2 hparameters⟩
    | integer =>
      obtain ⟨g₁, hg₁, hend⟩ := exists_of_bind_eq_ok hg'
      cases hend
      rw [List.cons_subset] at hparameters
      exact ⟨hparameters.1, ih hg₁ hinterfaces hparameters.2⟩
    | function inputs outputs =>
      obtain ⟨inputs', -, hrest⟩ := exists_of_bind_eq_ok hg'
      obtain ⟨outputs', -, hrest⟩ := exists_of_bind_eq_ok hrest
      obtain ⟨g₁, hg₁, hend⟩ := exists_of_bind_eq_ok hrest
      cases hend
      rw [List.cons_subset] at hparameters
      exact ⟨⟨inputs', outputs', hparameters.1⟩, ih hg₁ hinterfaces hparameters.2⟩

lemma generics_scoped (h : scope.Sound p g visible) {ps : List Surface.Parameter} {g' : Generics}
    (hg' : generics scope ps = .ok g') : ∀ q ∈ g'.parameters, q.Scoped p g := by
  induction ps generalizing g' with
  | nil =>
    cases hg'
    simp
  | cons q ps ih =>
    obtain ⟨name, type⟩ := q
    cases type with
    | interface =>
      obtain ⟨g₁, hg₁, hend⟩ := exists_of_bind_eq_ok hg'
      cases hend
      have hrest := ih hg₁
      exact hrest
    | integer =>
      obtain ⟨g₁, hg₁, hend⟩ := exists_of_bind_eq_ok hg'
      cases hend
      exact List.forall_mem_cons.mpr ⟨trivial, ih hg₁⟩
    | function inputs outputs =>
      obtain ⟨inputs', hinputs, hrest⟩ := exists_of_bind_eq_ok hg'
      obtain ⟨outputs', houtputs, hrest⟩ := exists_of_bind_eq_ok hrest
      obtain ⟨g₁, hg₁, hend⟩ := exists_of_bind_eq_ok hrest
      cases hend
      exact List.forall_mem_cons.mpr
        ⟨⟨allScoped_of_mapM h hinputs, allScoped_of_mapM h houtputs⟩, ih hg₁⟩

lemma members_scoped (h : scope.Sound p g visible) {owner : String} {seen : List String}
    {ms : List Surface.Member} {r : List (String × InterfaceExpr)}
    (hr : members scope owner seen ms = .ok r) :
    InterfaceExpr.AllScoped p g (r.map Prod.snd) := by
  induction ms generalizing seen r with
  | nil =>
    cases hr
    trivial
  | cons m ms ih =>
    rw [members] at hr
    split at hr
    · cases hr
    · obtain ⟨e, he, hrest⟩ := exists_of_bind_eq_ok hr
      obtain ⟨r', hr', hend⟩ := exists_of_bind_eq_ok hrest
      cases hend
      exact ⟨interface_scoped h m.type he, ih hr'⟩

lemma interfaceDefinition_scoped {outer : Scope} (houter : ∀ g, outer.Sound p g [])
    {d : Surface.InterfaceDefinition} {r : InterfaceDefinition}
    (hr : interfaceDefinition outer d = .ok r) : r.Scoped p := by
  obtain ⟨scope, hscope, hrest⟩ := exists_of_bind_eq_ok hr
  obtain ⟨g, hg, hrest⟩ := exists_of_bind_eq_ok hrest
  have hsound : scope.Sound p g [] := by
    rw [Scope.eq_cons_of_enter hscope]
    exact (houter g).cons (List.Subset.refl _)
      (holds_of_generics hg (List.Subset.refl _) (List.Subset.refl _))
  dsimp only at hrest
  split at hrest
  · obtain ⟨e, he, hend⟩ := exists_of_bind_eq_ok hrest
    cases hend
    exact ⟨generics_scoped hsound hg, interface_scoped hsound _ he⟩
  · obtain ⟨ms, hms, hend⟩ := exists_of_bind_eq_ok hrest
    cases hend
    exact ⟨generics_scoped hsound hg, members_scoped hsound hms⟩

/-- A resolved port has the name of the port it comes from. -/
lemma ports_scoped (h : scope.Sound p g visible) {ports : List Surface.FunctionPort}
    {r : List FunctionPort} (hr : ports.mapM (functionPort scope) = .ok r) :
    r.map FunctionPort.name = ports.map Surface.FunctionPort.name ∧
      ∀ port ∈ r, port.interface.Scoped p g := by
  have hall := forall₂_of_mapM_eq_ok hr
  clear hr
  induction hall with
  | nil => simp
  | cons hport _ ih =>
    obtain ⟨e, he, hend⟩ := exists_of_bind_eq_ok hport
    cases hend
    rw [List.map_cons, List.map_cons, ih.1, List.forall_mem_cons]
    exact ⟨rfl, interface_scoped h _ he, ih.2⟩

/-- Inside a function its generic parameters, ports and nodes are visible. -/
lemma sound_function {outer : Scope} (houter : ∀ g, outer.Sound p g [])
    {d : Surface.FunctionDefinition} {scope : Scope}
    (hscope : outer.enter (.function d.name) (functionSymbols d) = .ok scope) {g : Generics}
    (hg : generics scope d.parameters = .ok g) : scope.Sound p g
      (blockNames d.statements ++ (d.inputs ++ d.outputs).map Surface.FunctionPort.name) := by
  rw [Scope.eq_cons_of_enter hscope]
  apply (houter g).cons (List.nil_subset _)
  intro f hf
  unfold functionSymbols at hf
  rw [List.mem_append, List.mem_append, List.mem_append] at hf
  rcases hf with ((hf | hf) | hf) | hf
  · exact holds_of_generics hg (List.Subset.refl _) (List.Subset.refl _) f hf
  · obtain ⟨port, hport, rfl⟩ := List.mem_map.mp hf
    exact List.mem_append_right _ (List.mem_map_of_mem (List.mem_append_left _ hport))
  · obtain ⟨port, hport, rfl⟩ := List.mem_map.mp hf
    exact List.mem_append_right _ (List.mem_map_of_mem (List.mem_append_right _ hport))
  · obtain ⟨name, hname, rfl⟩ := List.mem_map.mp hf
    exact List.mem_append_left _ hname

lemma functionDefinition_scoped {outer : Scope} (houter : ∀ g, outer.Sound p g [])
    {d : Surface.FunctionDefinition} {r : FunctionDefinition}
    (hr : functionDefinition outer d = .ok r) : r.Scoped p := by
  obtain ⟨scope, hscope, hrest⟩ := exists_of_bind_eq_ok hr
  obtain ⟨g, hg, hrest⟩ := exists_of_bind_eq_ok hrest
  obtain ⟨inputs, hinputs, hrest⟩ := exists_of_bind_eq_ok hrest
  obtain ⟨outputs, houtputs, hrest⟩ := exists_of_bind_eq_ok hrest
  obtain ⟨ss, hss, hend⟩ := exists_of_bind_eq_ok hrest
  cases hend
  have hsound := sound_function houter hscope hg
  obtain ⟨hinputNames, hinputsScoped⟩ := ports_scoped hsound hinputs
  obtain ⟨houtputNames, houtputsScoped⟩ := ports_scoped hsound houtputs
  refine ⟨generics_scoped hsound hg, hinputsScoped, houtputsScoped, ?_⟩
  have hvisible : FunctionDefinition.visible ⟨d.name, g, inputs, outputs, ss⟩ =
      blockNames d.statements ++ (d.inputs ++ d.outputs).map Surface.FunctionPort.name := by
    rw [FunctionDefinition.visible, names_statements hsound _ hss, List.map_append, hinputNames,
      houtputNames, ← List.map_append]
  rw [hvisible]
  exact statements_scoped hsound _ hss (List.subset_append_left ..)

end

lemma name_of_interfaceDefinition {scope : Scope} {d : Surface.InterfaceDefinition}
    {d' : InterfaceDefinition} (h : interfaceDefinition scope d = .ok d') : d'.name = d.name := by
  obtain ⟨inner, -, hrest⟩ := exists_of_bind_eq_ok h
  obtain ⟨g, -, hrest⟩ := exists_of_bind_eq_ok hrest
  dsimp only at hrest
  split at hrest
  all_goals
    obtain ⟨_, -, hend⟩ := exists_of_bind_eq_ok hrest
    cases hend
    rfl

lemma name_of_functionDefinition {scope : Scope} {d : Surface.FunctionDefinition}
    {d' : FunctionDefinition} (h : functionDefinition scope d = .ok d') : d'.name = d.name := by
  obtain ⟨inner, -, hrest⟩ := exists_of_bind_eq_ok h
  obtain ⟨g, -, hrest⟩ := exists_of_bind_eq_ok hrest
  obtain ⟨_, -, hrest⟩ := exists_of_bind_eq_ok hrest
  obtain ⟨_, -, hrest⟩ := exists_of_bind_eq_ok hrest
  obtain ⟨_, -, hend⟩ := exists_of_bind_eq_ok hrest
  cases hend
  rfl

/-- In the outermost scope a name is one of an interface, a function or a primitive. -/
lemma sound_program {source : Surface.Program} {p : Program} {scope : Scope}
    (hscope : Scope.enter [] .program (programSymbols source) = .ok scope)
    (hinterfaces : List.Forall₂ (fun d d' => interfaceDefinition scope d = .ok d')
      source.interfaces p.interfaces)
    (hfunctions : List.Forall₂ (fun d d' => functionDefinition scope d = .ok d')
      source.functions p.functions) (g : Generics) : scope.Sound p g [] := by
  intro name declaration hresolve
  rw [Scope.eq_cons_of_enter hscope, Scope.resolve_cons] at hresolve
  split at hresolve
  · next found hfound =>
    cases hresolve
    rcases List.mem_append.mp (mem_of_lookup_eq_some hfound) with hmem | hmem
    · obtain ⟨d, hd, heq⟩ := List.mem_map.mp hmem
      obtain ⟨rfl, rfl⟩ := Prod.mk.inj heq
      obtain ⟨d', hd', hresolved⟩ := exists_mem_right_of_forall₂ hinterfaces hd
      exact List.find?_isSome.mpr ⟨d', hd', by simp [name_of_interfaceDefinition hresolved]⟩
    · obtain ⟨d, hd, heq⟩ := List.mem_map.mp hmem
      obtain ⟨rfl, rfl⟩ := Prod.mk.inj heq
      obtain ⟨d', hd', hresolved⟩ := exists_mem_right_of_forall₂ hfunctions hd
      obtain ⟨f, hf⟩ := Program.exists_function_of_mem hd' (name_of_functionDefinition hresolved)
      exact ⟨.function f, hf⟩
  · unfold Scope.resolve at hresolve
    rw [Scope.find?, List.findSome?_nil] at hresolve
    dsimp only at hresolve
    split at hresolve
    · next hprimitive =>
      cases hresolve
      exact Program.calls_of_primitive hprimitive
    · cases hresolve

/-- Every name of a resolved program is known where it is used. -/
theorem scoped_of_resolve {source : Surface.Program} {p : Program} (h : source.resolve = .ok p) :
    p.Scoped := by
  obtain ⟨scope, hscope, hinterfaces, hfunctions⟩ := exists_of_resolve h
  have hsound := sound_program hscope hinterfaces hfunctions
  constructor
  · intro name d hd
    obtain ⟨d', -, hd'⟩ := exists_mem_of_forall₂ hinterfaces (List.mem_of_find?_eq_some hd)
    exact interfaceDefinition_scoped hsound hd'
  · intro name d hd
    have hmem : d ∈ p.functions := Program.mem_of_callee hd
    obtain ⟨d', -, hd'⟩ := exists_mem_of_forall₂ hfunctions hmem
    exact functionDefinition_scoped hsound hd'

end Resolution

end NetlistCompiler
