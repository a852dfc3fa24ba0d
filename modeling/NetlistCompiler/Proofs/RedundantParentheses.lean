import NetlistCompiler.Proofs.Traversals
import NetlistCompiler.Resolution
import NetlistCompiler.Surface.Names

/-!
# Redundant parentheses

Parentheses around expressions mean nothing. Resolution looks through them wherever an expression
can stand, so a program is resolved to the same program, or refused with the same error, if any of
them are left out. Names are mentioned in the same order, so they also get the same symbols.
-/

namespace NetlistCompiler

/-! ### Programs without some parentheses -/

namespace Surface

mutual

/-- The second expression is the first one without some of its parentheses. -/
inductive Expr.Unwraps : Expr → Expr → Prop
  | atom (name : String) {arguments arguments' : List Expr} :
      List.Forall₂ Expr.Unwraps arguments arguments' →
      Expr.Unwraps (.atom name arguments) (.atom name arguments')
  | wire : Expr.Unwraps .wire .wire
  | truth (value : Bool) : Expr.Unwraps (.truth value) (.truth value)
  | literal (value : Int64) : Expr.Unwraps (.literal value) (.literal value)
  | access {accessed accessed' : Expr} {step step' : Accessor} :
      Expr.Unwraps accessed accessed' → Accessor.Unwraps step step' →
      Expr.Unwraps (.access accessed step) (.access accessed' step')
  | kept {inner inner' : Expr} : Expr.Unwraps inner inner' →
      Expr.Unwraps (.parenthesized inner) (.parenthesized inner')
  | erased {inner inner' : Expr} : Expr.Unwraps inner inner' →
      Expr.Unwraps (.parenthesized inner) inner'
  | binary (op : BinaryOp) {lhs lhs' rhs rhs' : Expr} : Expr.Unwraps lhs lhs' →
      Expr.Unwraps rhs rhs' → Expr.Unwraps (.binary op lhs rhs) (.binary op lhs' rhs')

inductive Accessor.Unwraps : Accessor → Accessor → Prop
  | item {index index' : Expr} : Expr.Unwraps index index' →
      Accessor.Unwraps (.item index) (.item index')
  | slice {first first' last last' : Expr} : Expr.Unwraps first first' → Expr.Unwraps last last' →
      Accessor.Unwraps (.slice first last) (.slice first' last')
  | member (name : String) : Accessor.Unwraps (.member name) (.member name)

end

/-- The parentheses around a chain are no parentheses around an expression and stay. -/
inductive Node.Unwraps : Node → Node → Prop
  | lone {e e' : Expr} : e.Unwraps e' → Unwraps (.lone e) (.lone e')
  | declared (name : String) {type type' : Expr} : type.Unwraps type' →
      Unwraps (.declared name type) (.declared name type')
  | parentheses {groups groups' : List (List Node)} :
      List.Forall₂ (List.Forall₂ Unwraps) groups groups' →
      Unwraps (.parentheses groups) (.parentheses groups')

inductive Statement.Unwraps : Statement → Statement → Prop
  | conditional {predicate predicate' : Expr} {thens thens' elses elses' : List Statement} :
      predicate.Unwraps predicate' → List.Forall₂ Unwraps thens thens' →
      List.Forall₂ Unwraps elses elses' →
      Unwraps (.conditional predicate thens elses) (.conditional predicate' thens' elses')
  | connection {groups groups' : Chain} :
      List.Forall₂ (List.Forall₂ Node.Unwraps) groups groups' →
      Unwraps (.connection groups) (.connection groups')

inductive ParameterType.Unwraps : ParameterType → ParameterType → Prop
  | integer : Unwraps .integer .integer
  | interface : Unwraps .interface .interface
  | function {inputs inputs' outputs outputs' : List Expr} :
      List.Forall₂ Expr.Unwraps inputs inputs' → List.Forall₂ Expr.Unwraps outputs outputs' →
      Unwraps (.function inputs outputs) (.function inputs' outputs')

structure Parameter.Unwraps (q q' : Parameter) : Prop where
  name : q.name = q'.name
  type : q.type.Unwraps q'.type

structure Member.Unwraps (m m' : Member) : Prop where
  name : m.name = m'.name
  type : m.type.Unwraps m'.type

inductive InterfaceBody.Unwraps : InterfaceBody → InterfaceBody → Prop
  | aliased {e e' : Expr} : e.Unwraps e' → Unwraps (.alias e) (.alias e')
  | record {members members' : List Member} : List.Forall₂ Member.Unwraps members members' →
      Unwraps (.record members) (.record members')

structure InterfaceDefinition.Unwraps (d d' : InterfaceDefinition) : Prop where
  name : d.name = d'.name
  parameters : List.Forall₂ Parameter.Unwraps d.parameters d'.parameters
  body : d.body.Unwraps d'.body

structure FunctionPort.Unwraps (port port' : FunctionPort) : Prop where
  name : port.name = port'.name
  type : port.type.Unwraps port'.type
  kind : port.kind = port'.kind

structure FunctionDefinition.Unwraps (d d' : FunctionDefinition) : Prop where
  name : d.name = d'.name
  parameters : List.Forall₂ Parameter.Unwraps d.parameters d'.parameters
  inputs : List.Forall₂ FunctionPort.Unwraps d.inputs d'.inputs
  outputs : List.Forall₂ FunctionPort.Unwraps d.outputs d'.outputs
  statements : List.Forall₂ Statement.Unwraps d.statements d'.statements

/-- The second program is the first one without some of the parentheses around its expressions. -/
structure Program.Unwraps (source source' : Program) : Prop where
  interfaces : List.Forall₂ InterfaceDefinition.Unwraps source.interfaces source'.interfaces
  functions : List.Forall₂ FunctionDefinition.Unwraps source.functions source'.functions

end Surface

namespace Resolution

open Surface (Expr)

/-! ### Readings of expressions -/

lemma staticExpr_unwraps (scope : Scope) : ∀ (e : Expr) {e' : Expr}, e.Unwraps e' →
    staticExpr scope e = staticExpr scope e'
  | .wire, _, .wire => rfl
  | .truth _, _, .truth _ => rfl
  | .literal _, _, .literal _ => rfl
  | .parenthesized inner, _, .kept h => by
    rw [staticExpr, staticExpr, staticExpr_unwraps scope inner h]
  | .parenthesized inner, _, .erased h => by
    rw [staticExpr, staticExpr_unwraps scope inner h]
  | .binary op lhs rhs, _, .binary _ hlhs hrhs => by
    rw [staticExpr, staticExpr, staticExpr_unwraps scope lhs hlhs,
      staticExpr_unwraps scope rhs hrhs]
  | .access _ _, _, .access _ _ => by rw [staticExpr, staticExpr]
  | .atom name arguments, _, .atom _ h => by
    simp only [staticExpr, isEmpty_eq_of_forall₂ h]

mutual

lemma interface_unwraps (scope : Scope) : ∀ (e : Expr) {e' : Expr}, e.Unwraps e' →
    interface scope e = interface scope e'
  | .wire, _, .wire => rfl
  | .truth _, _, .truth _ => rfl
  | .literal _, _, .literal _ => rfl
  | .parenthesized inner, _, .kept h => by
    rw [interface, interface, interface_unwraps scope inner h]
  | .parenthesized inner, _, .erased h => by rw [interface, interface_unwraps scope inner h]
  | .binary _ _ _, _, .binary _ _ _ => by rw [interface, interface]
  | .access accessed (.item index), _, .access haccessed (.item hindex) => by
    rw [interface, interface, interface_unwraps scope accessed haccessed,
      staticExpr_unwraps scope index hindex]
  | .access _ (.slice _ _), _, .access _ (.slice _ _) => by simp only [interface]
  | .access _ (.member _), _, .access _ (.member _) => by simp only [interface]
  | .atom name arguments, _, .atom _ h => by
    simp only [interface, genericValues_unwraps scope arguments h, isEmpty_eq_of_forall₂ h]

lemma genericValue_unwraps (scope : Scope) : ∀ (e : Expr) {e' : Expr}, e.Unwraps e' →
    genericValue scope e = genericValue scope e'
  | .wire, _, .wire => rfl
  | .truth _, _, .truth _ => rfl
  | .literal _, _, .literal _ => rfl
  | .parenthesized inner, _, .kept h => by
    rw [genericValue, genericValue, genericValue_unwraps scope inner h]
  | .parenthesized inner, _, .erased h => by
    rw [genericValue, genericValue_unwraps scope inner h]
  | .binary op lhs rhs, _, .binary _ hlhs hrhs => by
    rw [genericValue, genericValue, staticExpr_unwraps scope _ (.binary op hlhs hrhs)]
  | .access accessed (.item index), _, .access haccessed (.item hindex) => by
    rw [genericValue, genericValue, interface_unwraps scope accessed haccessed,
      staticExpr_unwraps scope index hindex]
  | .access _ (.slice _ _), _, .access _ (.slice _ _) => by simp only [genericValue]
  | .access _ (.member _), _, .access _ (.member _) => by simp only [genericValue]
  | .atom name arguments, _, .atom _ h => by
    simp only [genericValue, genericValues_unwraps scope arguments h, isEmpty_eq_of_forall₂ h]

lemma genericValues_unwraps (scope : Scope) : ∀ (es : List Expr) {es' : List Expr},
    List.Forall₂ Expr.Unwraps es es' → genericValues scope es = genericValues scope es'
  | [], _, .nil => rfl
  | e :: rest, _, .cons he hrest => by
    rw [genericValues, genericValues, genericValue_unwraps scope e he,
      genericValues_unwraps scope rest hrest]

end

lemma accessor_unwraps (scope : Scope) {step step' : Surface.Accessor} (h : step.Unwraps step') :
    accessor scope step = accessor scope step' := by
  cases h with
  | item hindex => rw [accessor, accessor, staticExpr_unwraps scope _ hindex]
  | slice hfirst hlast =>
    rw [accessor, accessor, staticExpr_unwraps scope _ hfirst, staticExpr_unwraps scope _ hlast]
  | member name => rfl

lemma lone_unwraps (scope : Scope) : ∀ (e : Expr) {e' : Expr}, e.Unwraps e' →
    lone scope e = lone scope e'
  | .wire, _, .wire => rfl
  | .truth _, _, .truth _ => rfl
  | .literal _, _, .literal _ => rfl
  | .parenthesized inner, _, .kept h => by rw [lone, lone, lone_unwraps scope inner h]
  | .parenthesized inner, _, .erased h => by rw [lone, lone_unwraps scope inner h]
  | .binary _ _ _, _, .binary _ _ _ => by rw [lone, lone]
  | .access accessed step, _, .access haccessed hstep => by
    have hbase := lone_unwraps scope accessed haccessed
    have haccessor := accessor_unwraps scope hstep
    cases hstep with
    | item hindex =>
      simp only [lone, hbase, haccessor, staticExpr_unwraps scope _ hindex]
    | slice _ _ => simp only [lone, hbase, haccessor]
    | member _ => simp only [lone, hbase]
  | .atom name arguments, _, .atom _ h => by
    simp only [lone, instantiation, interface_unwraps scope _ (.atom name h),
      genericValues_unwraps scope arguments h, isEmpty_eq_of_forall₂ h]

/-! ### Statements -/

mutual

lemma node_unwraps (scope : Scope) : ∀ (n : Surface.Node) {n' : Surface.Node}, n.Unwraps n' →
    node scope n = node scope n'
  | .lone e, _, .lone h => by rw [node, node, lone_unwraps scope e h]
  | .declared name type, _, .declared _ h => by rw [node, node, lone_unwraps scope type h]
  | .parentheses groups, _, .parentheses h => by rw [node, node, chain_unwraps scope groups h]

lemma chain_unwraps (scope : Scope) : ∀ (groups : List (List Surface.Node))
    {groups' : List (List Surface.Node)},
    List.Forall₂ (List.Forall₂ Surface.Node.Unwraps) groups groups' →
    chain scope groups = chain scope groups'
  | [], _, .nil => rfl
  | group :: rest, _, .cons hgroup hrest => by
    rw [chain, chain, nodes_unwraps scope group hgroup, chain_unwraps scope rest hrest]

lemma nodes_unwraps (scope : Scope) : ∀ (ns : List Surface.Node) {ns' : List Surface.Node},
    List.Forall₂ Surface.Node.Unwraps ns ns' → nodes scope ns = nodes scope ns'
  | [], _, .nil => rfl
  | n :: rest, _, .cons hn hrest => by
    rw [nodes, nodes, node_unwraps scope n hn, nodes_unwraps scope rest hrest]

end

mutual

lemma declaredNames_unwraps : ∀ (n : Surface.Node) {n' : Surface.Node}, n.Unwraps n' →
    declaredNames n = declaredNames n'
  | .lone _, _, .lone _ => by rw [declaredNames, declaredNames]
  | .declared _ _, _, .declared _ _ => by rw [declaredNames, declaredNames]
  | .parentheses groups, _, .parentheses h => by
    rw [declaredNames, declaredNames, chainNames_unwraps groups h]

lemma chainNames_unwraps : ∀ (groups : List (List Surface.Node))
    {groups' : List (List Surface.Node)},
    List.Forall₂ (List.Forall₂ Surface.Node.Unwraps) groups groups' →
    chainNames groups = chainNames groups'
  | [], _, .nil => rfl
  | group :: rest, _, .cons hgroup hrest => by
    rw [chainNames, chainNames, groupNames_unwraps group hgroup, chainNames_unwraps rest hrest]

lemma groupNames_unwraps : ∀ (ns : List Surface.Node) {ns' : List Surface.Node},
    List.Forall₂ Surface.Node.Unwraps ns ns' → groupNames ns = groupNames ns'
  | [], _, .nil => rfl
  | n :: rest, _, .cons hn hrest => by
    rw [groupNames, groupNames, declaredNames_unwraps n hn, groupNames_unwraps rest hrest]

end

lemma blockNames_unwraps {block block' : List Surface.Statement}
    (h : List.Forall₂ Surface.Statement.Unwraps block block') :
    blockNames block = blockNames block' := by
  induction h with
  | nil => rfl
  | cons hs _ ih =>
    cases hs with
    | conditional _ _ _ => rw [blockNames, blockNames, ih]
    | connection hchain => rw [blockNames, blockNames, chainNames_unwraps _ hchain, ih]

lemma blockSymbols_unwraps {block block' : List Surface.Statement}
    (h : List.Forall₂ Surface.Statement.Unwraps block block') :
    blockSymbols block = blockSymbols block' := by
  rw [blockSymbols, blockSymbols, blockNames_unwraps h]

mutual

lemma statement_unwraps (scope : Scope) : ∀ (s : Surface.Statement) {s' : Surface.Statement},
    s.Unwraps s' → statement scope s = statement scope s'
  | .connection groups, _, .connection h => by
    rw [statement, statement, chain_unwraps scope groups h]
  | .conditional predicate thens elses, _, .conditional hpredicate hthens helses => by
    have hthenBody (inner : Scope) := statements_unwraps inner thens hthens
    have helseBody (inner : Scope) := statements_unwraps inner elses helses
    simp only [statement, staticExpr_unwraps scope _ hpredicate, blockSymbols_unwraps hthens,
      blockSymbols_unwraps helses, hthenBody, helseBody]

lemma statements_unwraps (scope : Scope) : ∀ (block : List Surface.Statement)
    {block' : List Surface.Statement}, List.Forall₂ Surface.Statement.Unwraps block block' →
    statements scope block = statements scope block'
  | [], _, .nil => rfl
  | s :: rest, _, .cons hs hrest => by
    rw [statements, statements, statement_unwraps scope s hs, statements_unwraps scope rest hrest]

end

/-! ### Definitions -/

lemma parameterSymbols_unwraps {qs qs' : List Surface.Parameter}
    (h : List.Forall₂ Surface.Parameter.Unwraps qs qs') :
    parameterSymbols qs = parameterSymbols qs' := by
  refine map_eq_of_forall₂ h fun q q' hq => ?_
  obtain ⟨name, type⟩ := q
  obtain ⟨name', type'⟩ := q'
  obtain ⟨rfl, htype⟩ := hq
  cases htype <;> rfl

lemma generics_unwraps (scope : Scope) {qs qs' : List Surface.Parameter}
    (h : List.Forall₂ Surface.Parameter.Unwraps qs qs') :
    generics scope qs = generics scope qs' := by
  have hinterface : ∀ e e' : Expr, e.Unwraps e' → interface scope e = interface scope e' :=
    fun e _ he => interface_unwraps scope e he
  induction h with
  | nil => rfl
  | @cons q q' _ _ hq _ ih =>
    obtain ⟨name, type⟩ := q
    obtain ⟨name', type'⟩ := q'
    obtain ⟨rfl, htype⟩ := hq
    cases htype with
    | integer => rw [generics, generics, ih]
    | interface => rw [generics, generics, ih]
    | function hinputs houtputs =>
      rw [generics, generics, ih]
      simp only [mapM_eq_of_forall₂ hinputs hinterface, mapM_eq_of_forall₂ houtputs hinterface]

lemma members_unwraps (scope : Scope) (owner : String) (seen : List String)
    {ms ms' : List Surface.Member} (h : List.Forall₂ Surface.Member.Unwraps ms ms') :
    members scope owner seen ms = members scope owner seen ms' := by
  induction h generalizing seen with
  | nil => rfl
  | cons hm _ ih =>
    rw [members, members, hm.name, interface_unwraps scope _ hm.type, ih]

lemma interfaceDefinition_unwraps (outer : Scope) {d d' : Surface.InterfaceDefinition}
    (h : d.Unwraps d') : interfaceDefinition outer d = interfaceDefinition outer d' := by
  obtain ⟨name, parameters, body⟩ := d
  obtain ⟨name', parameters', body'⟩ := d'
  obtain ⟨rfl, hparameters, hbody⟩ := h
  dsimp only at hparameters hbody
  cases hbody with
  | aliased he =>
    simp only [interfaceDefinition, parameterSymbols_unwraps hparameters,
      generics_unwraps _ hparameters, interface_unwraps _ _ he]
  | record hms =>
    simp only [interfaceDefinition, parameterSymbols_unwraps hparameters,
      generics_unwraps _ hparameters, members_unwraps _ _ _ hms]

lemma functionPort_unwraps (scope : Scope) {port port' : Surface.FunctionPort}
    (h : port.Unwraps port') : functionPort scope port = functionPort scope port' := by
  rw [functionPort, functionPort, h.name, h.kind, interface_unwraps scope _ h.type]

lemma functionSymbols_unwraps {d d' : Surface.FunctionDefinition} (h : d.Unwraps d') :
    functionSymbols d = functionSymbols d' := by
  have hport (declaration : Declaration) : ∀ port port' : Surface.FunctionPort,
      port.Unwraps port' → (port.name, declaration) = (port'.name, declaration) :=
    fun _ _ hport => by rw [hport.name]
  rw [functionSymbols, functionSymbols, parameterSymbols_unwraps h.parameters,
    map_eq_of_forall₂ h.inputs (hport .input), map_eq_of_forall₂ h.outputs (hport .output),
    blockSymbols_unwraps h.statements]

lemma functionDefinition_unwraps (outer : Scope) {d d' : Surface.FunctionDefinition}
    (h : d.Unwraps d') : functionDefinition outer d = functionDefinition outer d' := by
  have hport (scope : Scope) : ∀ port port' : Surface.FunctionPort, port.Unwraps port' →
      functionPort scope port = functionPort scope port' :=
    fun _ _ hport => functionPort_unwraps scope hport
  simp only [functionDefinition, functionSymbols_unwraps h, h.name,
    generics_unwraps _ h.parameters, mapM_eq_of_forall₂ h.inputs (hport _),
    mapM_eq_of_forall₂ h.outputs (hport _), statements_unwraps _ _ h.statements]

lemma programSymbols_unwraps {source source' : Surface.Program} (h : source.Unwraps source') :
    programSymbols source = programSymbols source' := by
  rw [programSymbols, programSymbols, map_eq_of_forall₂ h.interfaces fun _ _ hd => by rw [hd.name],
    map_eq_of_forall₂ h.functions fun _ _ hd => by rw [hd.name]]

lemma resolve_unwraps {source source' : Surface.Program} (h : source.Unwraps source') :
    source.resolve = source'.resolve := by
  have hinterface (scope : Scope) : ∀ d d' : Surface.InterfaceDefinition, d.Unwraps d' →
      interfaceDefinition scope d = interfaceDefinition scope d' :=
    fun _ _ hd => interfaceDefinition_unwraps scope hd
  have hfunction (scope : Scope) : ∀ d d' : Surface.FunctionDefinition, d.Unwraps d' →
      functionDefinition scope d = functionDefinition scope d' :=
    fun _ _ hd => functionDefinition_unwraps scope hd
  simp only [Surface.Program.resolve, programSymbols_unwraps h,
    mapM_eq_of_forall₂ h.interfaces (hinterface _), mapM_eq_of_forall₂ h.functions (hfunction _)]

end Resolution

/-! ### Names -/

namespace Surface

mutual

lemma Expr.names_unwraps : ∀ (e : Expr) {e' : Expr}, e.Unwraps e' → e.names = e'.names
  | .wire, _, .wire => rfl
  | .truth _, _, .truth _ => rfl
  | .literal _, _, .literal _ => rfl
  | .parenthesized inner, _, .kept h => by rw [Expr.names, Expr.names, Expr.names_unwraps inner h]
  | .parenthesized inner, _, .erased h => by rw [Expr.names, Expr.names_unwraps inner h]
  | .binary _ lhs rhs, _, .binary _ hlhs hrhs => by
    rw [Expr.names, Expr.names, Expr.names_unwraps lhs hlhs, Expr.names_unwraps rhs hrhs]
  | .access accessed step, _, .access haccessed hstep => by
    rw [Expr.names, Expr.names, Expr.names_unwraps accessed haccessed,
      Accessor.names_unwraps step hstep]
  | .atom name arguments, _, .atom _ h => by
    rw [Expr.names, Expr.names, Expr.listNames_unwraps arguments h]

lemma Accessor.names_unwraps : ∀ (step : Accessor) {step' : Accessor}, step.Unwraps step' →
    step.names = step'.names
  | .item index, _, .item h => by
    rw [Accessor.names, Accessor.names, Expr.names_unwraps index h]
  | .slice first last, _, .slice hfirst hlast => by
    rw [Accessor.names, Accessor.names, Expr.names_unwraps first hfirst,
      Expr.names_unwraps last hlast]
  | .member _, _, .member _ => rfl

lemma Expr.listNames_unwraps : ∀ (es : List Expr) {es' : List Expr},
    List.Forall₂ Expr.Unwraps es es' → Expr.listNames es = Expr.listNames es'
  | [], _, .nil => rfl
  | e :: rest, _, .cons he hrest => by
    rw [Expr.listNames, Expr.listNames, Expr.names_unwraps e he, Expr.listNames_unwraps rest hrest]

end

mutual

lemma Node.names_unwraps : ∀ (n : Node) {n' : Node}, n.Unwraps n' → n.names = n'.names
  | .lone e, _, .lone h => by rw [names, names, Expr.names_unwraps e h]
  | .declared _ type, _, .declared _ h => by rw [names, names, Expr.names_unwraps type h]
  | .parentheses groups, _, .parentheses h => by
    rw [names, names, chainNames_unwraps groups h]

lemma Node.chainNames_unwraps : ∀ (groups : List (List Node)) {groups' : List (List Node)},
    List.Forall₂ (List.Forall₂ Node.Unwraps) groups groups' →
    Node.chainNames groups = Node.chainNames groups'
  | [], _, .nil => rfl
  | group :: rest, _, .cons hgroup hrest => by
    rw [chainNames, chainNames, groupNames_unwraps group hgroup, chainNames_unwraps rest hrest]

lemma Node.groupNames_unwraps : ∀ (ns : List Node) {ns' : List Node},
    List.Forall₂ Node.Unwraps ns ns' → Node.groupNames ns = Node.groupNames ns'
  | [], _, .nil => rfl
  | n :: rest, _, .cons hn hrest => by
    rw [groupNames, groupNames, names_unwraps n hn, groupNames_unwraps rest hrest]

end

mutual

lemma Statement.names_unwraps : ∀ (s : Statement) {s' : Statement}, s.Unwraps s' →
    s.names = s'.names
  | .connection groups, _, .connection h => by
    rw [names, names, Node.chainNames_unwraps groups h]
  | .conditional predicate thens elses, _, .conditional hpredicate hthens helses => by
    rw [names, names, Expr.names_unwraps predicate hpredicate, Resolution.blockNames_unwraps hthens,
      listNames_unwraps thens hthens, Resolution.blockNames_unwraps helses,
      listNames_unwraps elses helses]

lemma Statement.listNames_unwraps : ∀ (block : List Statement) {block' : List Statement},
    List.Forall₂ Statement.Unwraps block block' →
    Statement.listNames block = Statement.listNames block'
  | [], _, .nil => rfl
  | s :: rest, _, .cons hs hrest => by
    rw [listNames, listNames, names_unwraps s hs, listNames_unwraps rest hrest]

end

lemma Parameter.names_unwraps {q q' : Parameter} (h : q.Unwraps q') : q.names = q'.names := by
  obtain ⟨name, type⟩ := q
  obtain ⟨name', type'⟩ := q'
  obtain ⟨rfl, htype⟩ := h
  cases htype with
  | integer => rfl
  | interface => rfl
  | function hinputs houtputs =>
    simp only [names, Expr.listNames_unwraps _ hinputs, Expr.listNames_unwraps _ houtputs]

lemma InterfaceDefinition.names_unwraps {d d' : InterfaceDefinition} (h : d.Unwraps d') :
    d.names = d'.names := by
  obtain ⟨name, parameters, body⟩ := d
  obtain ⟨name', parameters', body'⟩ := d'
  obtain ⟨rfl, hparameters, hbody⟩ := h
  have hnames := map_eq_of_forall₂ hparameters fun _ _ hq => hq.name
  have hmentioned := flatMap_eq_of_forall₂ hparameters fun _ _ hq => Parameter.names_unwraps hq
  cases hbody with
  | aliased he => simp only [names, hnames, hmentioned, Expr.names_unwraps _ he]
  | record hms =>
    have hmembers := flatMap_eq_of_forall₂ hms fun m m' (hm : m.Unwraps m') =>
      congrArg₂ List.cons hm.name (Expr.names_unwraps _ hm.type)
    simp only [names, hnames, hmentioned, hmembers]

lemma FunctionPort.names_unwraps {port port' : FunctionPort} (h : port.Unwraps port') :
    port.names = port'.names := by
  rw [names, names, h.name, Expr.names_unwraps _ h.type]

lemma FunctionDefinition.names_unwraps {d d' : FunctionDefinition} (h : d.Unwraps d') :
    d.names = d'.names := by
  have hport : ∀ port port' : FunctionPort, port.Unwraps port' → port.names = port'.names :=
    fun _ _ hport => FunctionPort.names_unwraps hport
  rw [names, names, h.name, map_eq_of_forall₂ h.parameters fun _ _ hq => hq.name,
    map_eq_of_forall₂ h.inputs fun _ _ hport => hport.name,
    map_eq_of_forall₂ h.outputs fun _ _ hport => hport.name,
    Resolution.blockNames_unwraps h.statements,
    flatMap_eq_of_forall₂ h.parameters fun _ _ hq => Parameter.names_unwraps hq,
    flatMap_eq_of_forall₂ h.inputs hport, flatMap_eq_of_forall₂ h.outputs hport,
    Statement.listNames_unwraps _ h.statements]

lemma Program.names_unwraps {source source' : Program} (h : source.Unwraps source') :
    source.names = source'.names := by
  rw [names, names, map_eq_of_forall₂ h.interfaces fun _ _ hd => hd.name,
    map_eq_of_forall₂ h.functions fun _ _ hd => hd.name,
    flatMap_eq_of_forall₂ h.interfaces fun _ _ hd => InterfaceDefinition.names_unwraps hd,
    flatMap_eq_of_forall₂ h.functions fun _ _ hd => FunctionDefinition.names_unwraps hd]

/-- A program without some, or all, of the parentheses around its expressions is resolved to the
same program or refused with the same error, and mentions the same names in the same order. -/
theorem Program.same_without_parentheses {source source' : Program} (h : source.Unwraps source') :
    source.resolve = source'.resolve ∧ source.names = source'.names :=
  ⟨Resolution.resolve_unwraps h, names_unwraps h⟩

/-- A program with `wrap` around expressions in all sorts of places: the element and the size of a
type, a generic value, a signature, a predicate, the base and the index of an access, and the type
of a node. -/
def wrapping (wrap : Expr → Expr) : Program :=
  ⟨[⟨"Word", [⟨"item", .interface⟩, ⟨"size", .integer⟩],
      .alias (.vector (wrap (.name "item"))
        (wrap (.binary .add (wrap (.name "size")) (.literal 1))))⟩],
    [⟨"apply", [⟨"f", .function [wrap .wire] [.wire]⟩],
      [⟨"a", wrap (.atom "Word" [wrap .wire, wrap (.literal 1)]), .signal⟩],
      [⟨"b", .wire, .signal⟩],
      [.conditional (wrap (.truth true))
        [.connect [.lone (wrap (.item (wrap (.name "a")) (wrap (.literal 0)))),
          .declared "x" (wrap (.name "f")), .lone (.name "b")]] []]⟩]⟩

lemma unwraps_wrapping : (wrapping .parenthesized).Unwraps (wrapping id) := by
  repeat' constructor

/-- The program with all of the parentheses is accepted and stands for the one with none. -/
theorem Program.same_without_parentheses_wrapping :
    (wrapping .parenthesized).Unwraps (wrapping id) ∧
      (wrapping .parenthesized).resolve.isOk = true ∧
      (wrapping .parenthesized).resolve = (wrapping id).resolve ∧
      (wrapping .parenthesized).names = (wrapping id).names :=
  ⟨unwraps_wrapping, rfl, Program.same_without_parentheses unwraps_wrapping⟩

end Surface

end NetlistCompiler
