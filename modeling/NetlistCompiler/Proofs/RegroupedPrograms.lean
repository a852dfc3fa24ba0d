import NetlistCompiler.Proofs.RegroupedChains
import NetlistCompiler.Proofs.ReorderedPrograms

/-!
# Regrouped programs

Chains in parentheses are associative. A program in which a run of stages is put in parentheses is
resolved to such a program again, since the run declares the same names. It can be built if and only
if the other one can, with the same modules, nodes and connections; only the order of connections in
a module may change.
-/

namespace NetlistCompiler

/-! ### Designs -/

/-- The functions differ in parentheses around one run of stages at most. -/
structure FunctionDefinition.Regrouped (d d' : FunctionDefinition) : Prop where
  head : d.SameHead d'
  statements : Relation.ReflGen ChainForm.resolved.RegroupsBlock d.statements d'.statements

structure Program.Regrouped (p p' : Program) : Prop where
  interfaces : p'.interfaces = p.interfaces
  functions : List.Forall₂ FunctionDefinition.Regrouped p.functions p'.functions

namespace Program.Regrouped

variable {p p' : Program}

lemma sameHeads (h : p.Regrouped p') : p.SameHeads p' :=
  sameHeads_of_forall₂ h.interfaces (h.functions.imp fun _ _ hd => hd.head)

lemma sameHeads' (h : p.Regrouped p') : p'.SameHeads p :=
  sameHeads_of_forall₂ h.interfaces.symm (List.Forall₂.flip (h.functions.imp fun _ _ hd =>
    ⟨hd.head.name.symm, hd.head.generics.symm, hd.head.inputs.symm, hd.head.outputs.symm⟩))

/-- A name calls nothing, the same primitive, or functions that differ in parentheses. -/
lemma callee_cases (h : p.Regrouped p') (name : String) :
    (∃ e, p.callee name = .error e ∧ p'.callee name = .error e) ∨
      (∃ op, p.callee name = .ok (.primitive op) ∧ p'.callee name = .ok (.primitive op)) ∨
      ∃ d d', p.callee name = .ok (.function d) ∧ p'.callee name = .ok (.function d') ∧
        d.Regrouped d' := by
  have hrel := rel_function? (fun _ _ hd => hd.head) h.functions name
  unfold Program.callee
  generalize p.function? name = x at hrel
  generalize p'.function? name = y at hrel
  cases hrel with
  | none =>
    dsimp only
    split
    · exact .inr (.inl ⟨_, rfl, rfl⟩)
    · exact .inl ⟨_, rfl, rfl⟩
  | some hd => exact .inr (.inr ⟨_, _, rfl, rfl, hd⟩)

end Program.Regrouped

open Elaborate

/-- With nothing owed, modules differ in the order of connections. -/
lemma Construct.Tracks.run {α : Type} {x y : Construct α} (h : x.Tracks y) (b : Body) :
    Elaborate.Tracks (fun z z' => z.2.module.Reconnected z'.2.module) (x.run b) (y.run b) := by
  have hmodule : ∀ {b b' : Body}, b.Ahead [] b' → b.module.Reconnected b'.module := by
    intro b b' hb
    have hmodule := hb.module
    rwa [Module.extend_nil] at hmodule
  constructor
  · rintro s r s' ⟨a, b₁⟩ hs hrun
    obtain ⟨t₁, r₁, hrun', hb₁, hs₁⟩ := h.forth b.ahead_self hs hrun (by simp [Module.Apart])
    exact ⟨(a, t₁), r₁, hrun', hmodule hb₁, hs₁⟩
  · rintro s r r' ⟨a, t₁⟩ hs hrun
    obtain ⟨b₁, s₁, hrun', hb₁, hs₁⟩ := h.back b.ahead_self hs hrun
    exact ⟨(a, b₁), s₁, hrun', hmodule hb₁, hs₁⟩

section

variable {p p' : Program}

lemma Invocation.tracks_construct (h : p.Regrouped p') (depth : Nat)
    {build build' : Invocation → Elaborate Nat} (hbuild : ∀ i, Tracks Eq (build i) (build' i))
    (i : Invocation) :
    Tracks Module.Reconnected (i.construct p depth build) (i.construct p' depth build') := by
  rcases h.callee_cases i.function with ⟨e, he, he'⟩ | ⟨op, hop, hop'⟩ | ⟨d, d', hd, hd', hdd'⟩
  · unfold construct
    rw [he, he']
    exact tracks_throw e e
  · rw [construct_of_primitive hop, construct_of_primitive hop']
    refine (tracks_liftM _).bind ?_
    rintro primitive _ rfl
    refine (tracks_mention _ _).bind fun _ _ _ => ?_
    split
    · split
      · exact tracks_pure (Module.reconnected_self _)
      · exact tracks_throw _ _
    · exact tracks_throw _ _
  · have hu := Program.unfolding_congr h.sameHeads h.sameHeads' depth
    rw [construct_of_function hd, construct_of_function hd', hu, hdd'.head.generics, hdd'.head.name,
      Generics.bind_congr h.sameHeads]
    refine (tracks_ofExpand _).bind ?_
    rintro b _ rfl
    rw [FunctionDefinition.signature_congr h.sameHeads hdd'.head]
    refine (tracks_ofExpand _).bind ?_
    rintro signature _ rfl
    refine (tracks_mention _ _).bind fun _ _ _ => ?_
    have hc : BodyContext.Alike
        ⟨p, p.unfolding depth, p.expansionNames depth, b, i.describe, build⟩
        ⟨p', p.unfolding depth, p'.expansionNames depth, b, i.describe, build'⟩ :=
      ⟨h.sameHeads, h.sameHeads', rfl, rfl, rfl, hbuild⟩
    exact ((Construct.tracks_function hc _ _ hdd'.statements).run _).bind fun _ _ hmodule =>
      tracks_pure hmodule

/-- Modules get the same numbers. -/
lemma Invocation.tracks_build (h : p.Regrouped p') (depth : Nat) (i : Invocation) :
    Tracks Eq (build p depth i) (build p' depth i) := by
  induction depth generalizing i with
  | zero => exact tracks_noResult
  | succ depth ih =>
    rw [build, build]
    refine tracks_get.bind fun s r hs => ?_
    rw [hs.cached? i, hs.stack]
    split
    · exact tracks_pure rfl
    · split
      · exact tracks_throw _ _
      · refine (tracks_whileBuilding i (tracks_construct h depth ih i)).bind fun m m' hm => ?_
        refine tracks_get.bind fun s r hs => (tracks_set (hs.finish i hm)).bind fun _ _ _ => ?_
        exact tracks_pure hs.size.symm

lemma FunctionDefinition.tracks_buildEntry (h : p.Regrouped p') (depth : Nat)
    {d d' : FunctionDefinition} (hname : d'.name = d.name) :
    Tracks Eq (d.buildEntry p depth) (d'.buildEntry p' depth) := by
  rw [buildEntry, buildEntry, hname]
  refine (Invocation.tracks_build h depth _).bind ?_
  rintro id _ rfl
  exact tracks_modify fun hs => hs.addEntry id

lemma Program.Regrouped.tracks_buildAll (h : p.Regrouped p') (depth : Nat) :
    Tracks Eq (p.buildAll depth) (p'.buildAll depth) := by
  unfold buildAll
  have hfunctions := h.functions
  generalize p.functions = ds at hfunctions
  generalize p'.functions = ds' at hfunctions
  induction hfunctions with
  | nil => exact tracks_pure rfl
  | cons hd _ ih =>
    rw [List.filter_cons, List.filter_cons, hd.head.generics]
    split
    · exact (FunctionDefinition.tracks_buildEntry h depth hd.head.name).bind fun _ _ _ => ih
    · exact ih

end

/-! ### Resolution -/

namespace Surface

/-- The functions differ in parentheses around one run of stages at most. -/
structure FunctionDefinition.Regrouped (d d' : FunctionDefinition) : Prop where
  name : d'.name = d.name
  parameters : d'.parameters = d.parameters
  inputs : d'.inputs = d.inputs
  outputs : d'.outputs = d.outputs
  statements : Relation.ReflGen ChainForm.surface.RegroupsBlock d.statements d'.statements

/-- In every function at most one run of stages, at any depth of parentheses and conditionals, has
been put in parentheses. -/
structure Program.Regrouped (source source' : Program) : Prop where
  interfaces : source'.interfaces = source.interfaces
  functions : List.Forall₂ FunctionDefinition.Regrouped source.functions source'.functions

end Surface

namespace Resolution

/-- Both attempts fail with the same error, or they succeed with results that are related. -/
inductive SameOutcome {ε α β : Type} (R : α → β → Prop) : Except ε α → Except ε β → Prop
  | ok {a : α} {b : β} (h : R a b) : SameOutcome R (.ok a) (.ok b)
  | error (e : ε) : SameOutcome R (.error e) (.error e)

namespace SameOutcome

variable {ε α β γ δ : Type} {R : α → β → Prop} {S : γ → δ → Prop}

lemma bind {x : Except ε α} {y : Except ε β} (h : SameOutcome R x y) {f : α → Except ε γ}
    {g : β → Except ε δ} (hfg : ∀ a b, R a b → SameOutcome S (f a) (g b)) :
    SameOutcome S (x >>= f) (y >>= g) := by
  cases h with
  | ok h => exact hfg _ _ h
  | error e => exact .error e

/-- Both attempts begin in the same way. -/
lemma bind_self {x : Except ε α} {f : α → Except ε γ} {g : α → Except ε δ}
    (hfg : ∀ a, x = .ok a → SameOutcome S (f a) (g a)) : SameOutcome S (x >>= f) (x >>= g) := by
  cases x with
  | ok a => exact hfg a rfl
  | error e => exact .error e

lemma imp {S : α → β → Prop} {x : Except ε α} {y : Except ε β} (h : SameOutcome R x y)
    (hRS : ∀ a b, R a b → S a b) : SameOutcome S x y := by
  cases h with
  | ok h => exact .ok (hRS _ _ h)
  | error e => exact .error e

lemma refl {R : α → α → Prop} (hR : ∀ a, R a a) (x : Except ε α) : SameOutcome R x x := by
  cases x with
  | ok a => exact .ok (hR a)
  | error e => exact .error e

lemma mapM {f : α → Except ε γ} {g : β → Except ε δ}
    (hfg : ∀ a b, R a b → SameOutcome S (f a) (g b)) {as : List α} {bs : List β}
    (h : List.Forall₂ R as bs) : SameOutcome (List.Forall₂ S) (as.mapM f) (bs.mapM g) := by
  induction h with
  | nil => exact .ok .nil
  | cons hab _ ih =>
    rw [List.mapM_cons, List.mapM_cons]
    exact (hfg _ _ hab).bind fun _ _ hcd => ih.bind fun _ _ hrest => .ok (.cons hcd hrest)

end SameOutcome

lemma chain_append (scope : Scope) (xs ys : List (List Surface.Node)) :
    chain scope (xs ++ ys) = do return (← chain scope xs) ++ (← chain scope ys) := by
  induction xs with
  | nil => simp only [List.nil_append, chain, ok_bind, bind_pure]
  | cons group xs ih => simp [chain, ih]

lemma nodes_append (scope : Scope) (ms ns : List Surface.Node) :
    nodes scope (ms ++ ns) = do return (← nodes scope ms) ++ (← nodes scope ns) := by
  induction ms with
  | nil => simp only [List.nil_append, nodes, ok_bind, bind_pure]
  | cons n ms ih => simp [nodes, ih]

lemma statements_append (scope : Scope) (xs ys : List Surface.Statement) :
    statements scope (xs ++ ys) = do return (← statements scope xs) ++ (← statements scope ys) := by
  rw [statements_eq_mapM, statements_eq_mapM, statements_eq_mapM, List.mapM_append]

lemma ne_nil_of_chain {scope : Scope} {groups : List (List Surface.Node)} (hgroups : groups ≠ [])
    {r : Chain} (h : chain scope groups = .ok r) : r ≠ [] := by
  obtain ⟨group, rest, rfl⟩ := List.exists_cons_of_ne_nil hgroups
  rw [chain] at h
  obtain ⟨ns, -, h⟩ := exists_of_bind_eq_ok h
  obtain ⟨others, -, h⟩ := exists_of_bind_eq_ok h
  cases h
  exact List.cons_ne_nil _ _

lemma sameOutcome_chain (scope : Scope) {groups groups' : List (List Surface.Node)}
    (h : ChainForm.surface.Regroups groups groups') :
    SameOutcome ChainForm.resolved.Regroups (chain scope groups) (chain scope groups') := by
  induction h with
  | here before after hrun =>
    simp only [chain_append, chain, nodes, node, ChainForm.surface, bind_assoc, pure_bind, ok_bind]
    exact .bind_self fun xs _ => .bind_self fun ys hys => .bind_self fun zs _ =>
      .ok (.here xs zs (ne_nil_of_chain hrun hys))
  | inside before left right after _ ih =>
    simp only [chain_append, chain, nodes_append, nodes, node, ChainForm.surface, bind_assoc,
      pure_bind, ok_bind]
    exact .bind_self fun xs _ => .bind_self fun ms _ => ih.bind fun ys ys' hys =>
      .bind_self fun ns _ => .bind_self fun zs _ => .ok (.inside xs ms ns zs hys)

lemma groupNames_eq (ns : List Surface.Node) : groupNames ns = ns.flatMap declaredNames := by
  induction ns with
  | nil => rw [groupNames, List.flatMap_nil]
  | cons n ns ih => rw [groupNames, List.flatMap_cons, ih]

lemma chainNames_eq (groups : List (List Surface.Node)) :
    chainNames groups = groups.flatMap (List.flatMap declaredNames) := by
  induction groups with
  | nil => rw [chainNames, List.flatMap_nil]
  | cons ns groups ih => rw [chainNames, List.flatMap_cons, groupNames_eq, ih]

lemma blockSymbols_regrouped {block block' : List Surface.Statement}
    (h : ChainForm.surface.RegroupsBlock block block') : blockSymbols block' = blockSymbols block := by
  rw [blockSymbols, blockSymbols, blockNames_eq_flatMap, blockNames_eq_flatMap,
    h.flatMap_eq ?_ chainNames_eq fun _ _ _ => rfl]
  intro chain
  change declaredNames (.parentheses chain) = _
  rw [declaredNames, chainNames_eq]

/-- A statement among others. -/
lemma sameOutcome_among (scope : Scope) {P : List Statement → List Statement → Prop}
    (before after : List Surface.Statement) {s s' : Surface.Statement}
    (h : SameOutcome (fun r r' => ∀ xs ys, P (xs ++ [r] ++ ys) (xs ++ [r'] ++ ys))
      (statement scope s) (statement scope s')) :
    SameOutcome P (statements scope (before ++ [s] ++ after))
      (statements scope (before ++ [s'] ++ after)) := by
  simp only [statements_append, statements, bind_assoc, pure_bind, ok_bind]
  exact .bind_self fun xs _ => h.bind fun _ _ hr => .bind_self fun ys _ => .ok (hr xs ys)

lemma sameOutcome_statements (scope : Scope) {block block' : List Surface.Statement}
    (h : ChainForm.surface.RegroupsBlock block block') :
    SameOutcome ChainForm.resolved.RegroupsBlock (statements scope block)
      (statements scope block') := by
  induction h generalizing scope with
  | connection before after hchain =>
    refine sameOutcome_among scope before after ?_
    change SameOutcome _ (statement scope (.connection _)) (statement scope (.connection _))
    rw [statement, statement]
    exact (sameOutcome_chain scope hchain).bind fun _ _ hr => .ok fun xs ys => .connection xs ys hr
  | thenBody before predicate elses after hthens ih =>
    refine sameOutcome_among scope before after ?_
    change SameOutcome _ (statement scope (.conditional _ _ _)) (statement scope (.conditional _ _ _))
    rw [statement, statement, blockSymbols_regrouped hthens]
    exact .bind_self fun e _ => .bind_self fun inner _ => (ih inner).bind fun _ _ hr =>
      .bind_self fun _ _ => .bind_self fun es _ => .ok fun xs ys => .thenBody xs e es ys hr
  | elseBody before predicate thens after helses ih =>
    refine sameOutcome_among scope before after ?_
    change SameOutcome _ (statement scope (.conditional _ _ _)) (statement scope (.conditional _ _ _))
    rw [statement, statement, blockSymbols_regrouped helses]
    exact .bind_self fun e _ => .bind_self fun _ _ => .bind_self fun ts _ =>
      .bind_self fun inner _ => (ih inner).bind fun _ _ hr => .ok fun xs ys => .elseBody xs e ts ys hr

section

variable {block block' : List Surface.Statement}
  (h : Relation.ReflGen ChainForm.surface.RegroupsBlock block block')

include h

lemma blockSymbols_congr : blockSymbols block' = blockSymbols block := by
  cases h with
  | refl => rfl
  | single h => exact blockSymbols_regrouped h

lemma sameOutcome_body (scope : Scope) :
    SameOutcome (Relation.ReflGen ChainForm.resolved.RegroupsBlock) (statements scope block)
      (statements scope block') := by
  cases h with
  | refl => exact .refl (fun _ => .refl) _
  | single h => exact (sameOutcome_statements scope h).imp fun _ _ hr => .single hr

end

/-- A function with parentheses around a run of stages is resolved to such a function. -/
lemma sameOutcome_functionDefinition (outer : Scope) {d d' : Surface.FunctionDefinition}
    (h : d.Regrouped d') :
    SameOutcome FunctionDefinition.Regrouped (functionDefinition outer d)
      (functionDefinition outer d') := by
  have hsymbols : functionSymbols d' = functionSymbols d := by
    rw [functionSymbols, functionSymbols, h.parameters, h.inputs, h.outputs,
      blockSymbols_congr h.statements]
  rw [functionDefinition, functionDefinition, hsymbols, h.name, h.parameters, h.inputs, h.outputs]
  exact .bind_self fun scope _ => .bind_self fun generics _ => .bind_self fun inputs _ =>
    .bind_self fun outputs _ => (sameOutcome_body h.statements scope).bind fun _ _ hr =>
      .ok ⟨⟨rfl, rfl, rfl, rfl⟩, hr⟩

/-- A regrouped program is resolved to a regrouped program. -/
lemma sameOutcome_resolve {source source' : Surface.Program} (h : source.Regrouped source') :
    SameOutcome Program.Regrouped source.resolve source'.resolve := by
  have hsymbols := programSymbols_congr h.interfaces (h.functions.imp fun _ _ hd => hd.name)
  rw [Surface.Program.resolve, Surface.Program.resolve, hsymbols, h.interfaces]
  refine .bind_self fun scope _ => .bind_self fun interfaces _ => ?_
  exact (SameOutcome.mapM (fun _ _ hd => sameOutcome_functionDefinition scope hd) h.functions).bind
    fun _ _ hfunctions => .ok ⟨rfl, hfunctions⟩

end Resolution

/-! ### Associativity -/

namespace Surface.Program

/-- The program can be resolved, and built without following definitions deeper than `depth`, with
this design as the result. -/
def CompilesWithin (source : Surface.Program) (depth : Nat) (d : Design) : Prop :=
  ∃ p s, source.resolve = .ok p ∧ (p.buildAll depth).run .empty = some (.ok (), s) ∧ s.design = d

variable {source source' : Surface.Program}

/-- What the compiler does, which stops at a fixed depth. -/
lemma compilesWithin_depthLimit_iff {d : Design} : source.CompilesWithin depthLimit d ↔
    ∃ p s, source.resolve = .ok p ∧ p.elaborate = some (.ok s) ∧ s.design = d := by
  have helaborate (p : NetlistCompiler.Program) (s : Session) :
      p.elaborate = some (.ok s) ↔ (p.buildAll depthLimit).run .empty = some (.ok (), s) := by
    unfold NetlistCompiler.Program.elaborate
    rcases (p.buildAll depthLimit).run .empty with _ | ⟨_ | _, r⟩ <;> simp
  simp only [CompilesWithin, helaborate]

lemma CompilesWithin.unique {depth : Nat} {d e : Design} (hd : source.CompilesWithin depth d)
    (he : source.CompilesWithin depth e) : d = e := by
  obtain ⟨p, s, hp, hs, rfl⟩ := hd
  obtain ⟨q, r, hq, hr, rfl⟩ := he
  rw [hp] at hq
  cases hq
  rw [hs] at hr
  cases hr
  rfl

lemma Regrouped.exists_compilesWithin (h : source.Regrouped source') {depth : Nat} {d : Design}
    (hd : source.CompilesWithin depth d) :
    ∃ d', source'.CompilesWithin depth d' ∧ d.Reconnected d' := by
  obtain ⟨p, s, hp, hrun, rfl⟩ := hd
  have houtcome := Resolution.sameOutcome_resolve h
  rw [hp] at houtcome
  generalize hp' : source'.resolve = y at houtcome
  cases houtcome with
  | ok hregrouped =>
    obtain ⟨_, r, hrun', -, hs⟩ :=
      (hregrouped.tracks_buildAll depth).forth (Session.alike_self .empty) hrun
    exact ⟨r.design, ⟨_, r, hp', hrun', rfl⟩, hs.design⟩

lemma Regrouped.exists_compilesWithin' (h : source.Regrouped source') {depth : Nat} {d' : Design}
    (hd' : source'.CompilesWithin depth d') : ∃ d, source.CompilesWithin depth d := by
  obtain ⟨p', r, hp', hrun', rfl⟩ := hd'
  have houtcome := Resolution.sameOutcome_resolve h
  rw [hp'] at houtcome
  generalize hp : source.resolve = x at houtcome
  cases houtcome with
  | ok hregrouped =>
    obtain ⟨_, s, hrun, -, -⟩ :=
      (hregrouped.tracks_buildAll depth).back (Session.alike_self .empty) hrun'
    exact ⟨s.design, _, s, hp, hrun, rfl⟩

/-- Parentheses around a run of stages do not matter. The program with the parentheses compiles if
and only if the one without them does, to the same modules with the same numbers, ports, nodes and
connections, where only the order of connections may differ. -/
theorem compilesWithin_regrouped (h : source.Regrouped source') (depth : Nat) :
    ((∃ d, source.CompilesWithin depth d) ↔ ∃ d', source'.CompilesWithin depth d') ∧
      ∀ d d', source.CompilesWithin depth d → source'.CompilesWithin depth d' →
        d.Reconnected d' := by
  refine ⟨⟨?_, ?_⟩, ?_⟩
  · rintro ⟨d, hd⟩
    obtain ⟨d', hd', -⟩ := h.exists_compilesWithin hd
    exact ⟨d', hd'⟩
  · rintro ⟨d', hd'⟩
    exact h.exists_compilesWithin' hd'
  · intro d d' hd hd'
    obtain ⟨e, he, hreconnected⟩ := h.exists_compilesWithin hd
    rwa [hd'.unique he]

/-- A function whose only chain stands in a branch of a conditional and leads through a chain in
parentheses. -/
def threeNegations (inner : Chain) : Surface.Program :=
  ⟨[], [⟨"thrice", [], [⟨"a", .wire, .signal⟩], [⟨"b", .wire, .signal⟩],
    [.conditional (.truth true)
      [.connect [.lone (.name "a"), .parentheses inner, .lone (.name "b")]] []]⟩]⟩

def negation : List Node :=
  [.lone (.name "not")]

lemma regrouped_threeNegations :
    (threeNegations [negation, negation, negation]).Regrouped
      (threeNegations [negation, [.parentheses [negation, negation]]]) := by
  have hinner : ChainForm.surface.Regroups [negation, negation, negation]
      [negation, [.parentheses [negation, negation]]] :=
    .here [negation] [] (List.cons_ne_nil negation [negation])
  have hchain := ChainForm.Regroups.inside [[.lone (.name "a")]] [] [] [[.lone (.name "b")]] hinner
  have hblock := ChainForm.RegroupsBlock.connection [] [] hchain
  have hbody := ChainForm.RegroupsBlock.thenBody [] (Expr.truth true) [] [] hblock
  exact ⟨rfl, .cons ⟨rfl, rfl, rfl, rfl, .single hbody⟩ .nil⟩

/-- The nodes that the connections of each module lead from and to. -/
def linkedNodes (d : Design) : List (List (Nat × Nat)) :=
  d.modules.toList.map fun m => m.connections.toList.map fun c => (c.driver.node, c.driven.node)

lemma exists_compilesWithin_of_run {p : NetlistCompiler.Program} {depth : Nat}
    {x : List (List (Nat × Nat))} (hp : source.resolve = .ok p)
    (hrun : ((p.buildAll depth).run .empty).map (fun r => (r.1.toOption, linkedNodes r.2.design)) =
      some (some (), x)) : ∃ d, source.CompilesWithin depth d ∧ linkedNodes d = x := by
  obtain ⟨⟨r, s⟩, hr, heq⟩ := Option.map_eq_some_iff.mp hrun
  obtain ⟨hok, hx⟩ := Prod.mk.inj heq
  cases r with
  | error e => cases hok
  | ok a => exact ⟨s.design, ⟨p, s, hp, hr, rfl⟩, hx⟩

/-- The last two negations are connected first if they are in parentheses. -/
theorem compilesWithin_regrouped_threeNegations :
    (threeNegations [negation, negation, negation]).Regrouped
        (threeNegations [negation, [.parentheses [negation, negation]]]) ∧
      ∃ d d', (threeNegations [negation, negation, negation]).CompilesWithin 4 d ∧
        (threeNegations [negation, [.parentheses [negation, negation]]]).CompilesWithin 4 d' ∧
        linkedNodes d = [[(2, 3), (3, 4), (0, 2), (4, 1)]] ∧
        linkedNodes d' = [[(3, 4), (2, 3), (0, 2), (4, 1)]] ∧ d.Reconnected d' := by
  refine ⟨regrouped_threeNegations, ?_⟩
  let p := (threeNegations [negation, negation, negation]).resolve.toOption.getD ⟨[], []⟩
  let p' := (threeNegations [negation, [.parentheses [negation, negation]]]).resolve.toOption.getD
    ⟨[], []⟩
  have hp : (threeNegations [negation, negation, negation]).resolve = .ok p := rfl
  have hp' : (threeNegations [negation, [.parentheses [negation, negation]]]).resolve = .ok p' := rfl
  have hlinks : ∃ d, (threeNegations [negation, negation, negation]).CompilesWithin 4 d ∧
      linkedNodes d = [[(2, 3), (3, 4), (0, 2), (4, 1)]] :=
    exists_compilesWithin_of_run hp (by decide +kernel)
  have hlinks' :
      ∃ d, (threeNegations [negation, [.parentheses [negation, negation]]]).CompilesWithin 4 d ∧
        linkedNodes d = [[(3, 4), (2, 3), (0, 2), (4, 1)]] :=
    exists_compilesWithin_of_run hp' (by decide +kernel)
  obtain ⟨d, hd, hlinks⟩ := hlinks
  obtain ⟨d', hd', hlinks'⟩ := hlinks'
  exact ⟨d, d', hd, hd', hlinks, hlinks',
    (compilesWithin_regrouped regrouped_threeNegations 4).2 d d' hd hd'⟩

end Surface.Program

end NetlistCompiler
