import NetlistCompiler.Proofs.EarlyConnections

/-!
# Regrouped chains

A run of stages of a chain can be put in parentheses. The joints of the run are then connected
before the nodes of the stages after it are made, and the joints around it after them, so that only
the order of connections changes. This holds at any depth of parentheses and conditionals, and so
for the bodies of functions.
-/

namespace NetlistCompiler

namespace Construct

open Ends

variable {c c' : BodyContext}

/-- Nothing is asked of a construction, except that ends are on ports. -/
lemma rules_trivial (c : BodyContext) :
    Rules c (fun _ => True) (fun _ _ => True) True (fun _ _ => True) fun _ => True where
  fails _ _ _ := trivial
  mention _ _ _ _ := trivial
  stable _ _ _ _ _ := trivial
  instantiation _ _ _ := trivial
  interface _ _ _ := trivial
  pass _ _ _ _ _ _ _ _ _ := ⟨trivial, trivial⟩
  primitive _ _ _ _ _ _ _ _ _ _ _ _ _ := ⟨trivial, trivial⟩
  build _ s _ _ i _ _ _ _ _ := (Elaborate.leads_true (c.build i) s).imp fun _ _ _ =>
    ⟨trivial, fun _ => ⟨trivial, trivial⟩⟩
  connect source sink := runs_connect_of_extend c (fun _ _ _ => trivial) (fun _ _ _ _ => trivial)
    source sink

lemma onPorts_of_ran_stages {groups : Chain} {b b' : Body} {s s' : Session} {xs : List Ends}
    (h : (stages c groups).Ran b s xs b' s') : ∀ ends ∈ xs, ends.OnPorts b'.module :=
  ((Rules.runs_stages (rules_trivial c) groups (fun _ _ _ _ => trivial) b s trivial
    fun _ _ _ => trivial).of_ran h).2.2.1

lemma grows_of_begins {m m' : Module} (h : m.Begins m') : m.Grows m' :=
  fun _ _ hn => getElem?_of_isPrefix h.nodes hn

/-- There are as many ends as stages. -/
lemma ne_nil_of_ran_stages {groups : Chain} (hgroups : groups ≠ []) {b b' : Body} {s s' : Session}
    {xs : List Ends} (h : (stages c groups).Ran b s xs b' s') : xs ≠ [] := by
  obtain ⟨group, rest, rfl⟩ := List.exists_cons_of_ne_nil hgroups
  rw [stages] at h
  obtain ⟨ends, b₁, s₁, -, h⟩ := exists_of_ran_bind h
  obtain ⟨others, b₂, s₂, -, h⟩ := exists_of_ran_bind h
  obtain ⟨rfl, -, -⟩ := ran_pure_iff.mp h
  exact List.cons_ne_nil _ _

/-- The connections of a chain with a run in parentheses are those of the run and those around it. -/
lemma chainLinks_perm_of_ran {run : Chain} (hrun : run ≠ []) {b b₁ b₂ : Body} {s s₁ : Session}
    {xs : List Ends} (hxs : (stages c run).Ran b s xs b₁ s₁) (hbegins : b₁.module.Begins b₂.module)
    (before ys : List Ends) :
    (chainLinks b₂.module (before ++ xs ++ ys)).Perm
      (chainLinks b₁.module xs ++ chainLinks b₂.module (before ++ [outer xs] ++ ys)) := by
  have hlinks := chainLinks_of_grows (onPorts_of_ran_stages hxs) (grows_of_begins hbegins)
  have hperm := chainLinks_regrouped b₂.module before (ne_nil_of_ran_stages hrun hxs) ys
  rwa [hlinks] at hperm

/-- Joins stages that are there already, a run of stages and the stages after it. -/
def joinRun (c : BodyContext) (before : List Ends) (run after : Chain) : Construct Ends := do
  let xs ← stages c run
  let ys ← stages c after
  joinStages c (before ++ xs ++ ys)

/-- The same with the run in parentheses, which is joined before the stages after it are made. -/
def joinNested (c : BodyContext) (before : List Ends) (run after : Chain) : Construct Ends := do
  let xs ← stages c run
  let ends ← joinStages c xs
  let ys ← stages c after
  joinStages c (before ++ [ends] ++ ys)

section

variable {before : List Ends} {run after : Chain} {K : List Connection} {b t : Body}
  {s r : Session} {ends : Ends}

/-- What the run connects early is not driven by anything that is made before it is due. -/
lemma exists_ran_joinNested (hc : c.Alike c') (hrun : run ≠ []) (hb : b.Ahead K t) (hs : s.Alike r)
    {b₃ : Body} {s₃ : Session} (h : (joinRun c before run after).Ran b s ends b₃ s₃)
    (hapart : Module.Apart b₃.module.connections.toList K) :
    ∃ t₄ r₄, (joinNested c' before run after).Ran t r ends t₄ r₄ ∧ b₃.Ahead K t₄ ∧ s₃.Alike r₄ := by
  have hfirst := tracks_stages hc run
  have hsecond := tracks_stages hc after
  obtain ⟨xs, b₁, s₁, hxs, h⟩ := exists_of_ran_bind h
  obtain ⟨ys, b₂, s₂, hys, h⟩ := exists_of_ran_bind h
  obtain ⟨hfits, hadd, rfl, rfl, rfl⟩ := ran_joinStages_iff.mp h
  have hne := ne_nil_of_ran_stages hrun hxs
  have hbegins := hsecond.begins hys
  have hsubset := hbegins.connections.subset
  have hperm := chainLinks_perm_of_ran hrun hxs hbegins before ys
  obtain ⟨haddRun, haddOuter, hcollide⟩ :=
    Module.addable_append.mp (Module.addable_of_perm hperm hadd)
  rw [Module.toList_extend, Module.apart_append_left] at hapart
  have hapart' : Module.Apart (chainLinks b₁.module xs) K ∧
      Module.Apart (chainLinks b₂.module (before ++ [outer xs] ++ ys)) K :=
    Module.apart_append_left.mp (hapart.2.subset hperm.symm.subset (List.Subset.refl _))
  obtain ⟨hfitsRun, hfitsOuter⟩ := (forall_fits_regrouped before hne ys).mp hfits
  have haddRun₁ :=
    addable_of_begins (onPorts_of_ran_stages hxs) (grows_of_begins hbegins) hsubset haddRun
  -- the run is connected when its stages are there
  obtain ⟨t₁, r₁, hxs', hb₁, hs₁⟩ :=
    hfirst.forth hb hs hxs (hapart.1.subset hsubset (List.Subset.refl _))
  have hlinks₁ := chainLinks_congr hb₁.nodes xs
  have hjoin : (joinStages c' xs).Ran t₁ r₁ (outer xs)
      { t₁ with module := t₁.module.extend [] (chainLinks b₁.module xs) } r₁ := by
    refine ran_joinStages_iff.mpr ⟨hfitsRun, ?_, by rw [hlinks₁], rfl, rfl⟩
    rw [hlinks₁]
    exact hb₁.addable_iff.mpr ⟨haddRun₁, hapart'.1⟩
  -- what the first construction owes now does not collide with what it does next
  have hb₂ := hb₁.advance (Module.addable_iff.mp haddRun₁).2.2
  obtain ⟨t₃, r₃, hys', hb₃, hs₃⟩ := hsecond.forth hb₂ hs₁ hys
    (Module.apart_append_right.mpr ⟨hapart.1, (Module.addable_iff.mp haddRun).2.2⟩)
  have hlinks₃ := chainLinks_congr hb₃.nodes (before ++ [outer xs] ++ ys)
  have haddLast : t₃.module.Addable [] (chainLinks t₃.module (before ++ [outer xs] ++ ys)) := by
    rw [hlinks₃]
    exact hb₃.addable_iff.mpr
      ⟨haddOuter, Module.apart_append_right.mpr ⟨hapart'.2, hcollide.symm⟩⟩
  refine ⟨_, r₃, ran_bind_iff.mpr ⟨xs, t₁, r₁, hxs', ran_bind_iff.mpr ⟨outer xs, _, r₁, hjoin,
    ran_bind_iff.mpr ⟨ys, t₃, r₃, hys', ran_joinStages_iff.mpr
      ⟨hfitsOuter, haddLast, rfl, rfl, (outer_regrouped before hne ys).symm⟩⟩⟩⟩, ?_, hs₃⟩
  rw [hlinks₃]
  exact hb₃.settle (Module.addable_iff.mp haddOuter).2.2 hperm hapart.2

/-- What has been connected early can be connected when it is due. -/
lemma exists_ran_joinRun (hc : c.Alike c') (hrun : run ≠ []) (hb : b.Ahead K t) (hs : s.Alike r)
    {t₄ : Body} {r₄ : Session} (h : (joinNested c' before run after).Ran t r ends t₄ r₄) :
    ∃ b₃ s₃, (joinRun c before run after).Ran b s ends b₃ s₃ ∧ b₃.Ahead K t₄ ∧ s₃.Alike r₄ := by
  have hsecond := tracks_stages hc after
  obtain ⟨xs, t₁, r₁, hxs', h⟩ := exists_of_ran_bind h
  obtain ⟨ends', t₂, r₂, hjoin, h⟩ := exists_of_ran_bind h
  obtain ⟨ys, t₃, r₃, hys', hlast⟩ := exists_of_ran_bind h
  obtain ⟨hfitsRun, haddRun, rfl, rfl, rfl⟩ := ran_joinStages_iff.mp hjoin
  obtain ⟨hfitsOuter, haddOuter, rfl, rfl, rfl⟩ := ran_joinStages_iff.mp hlast
  obtain ⟨b₁, s₁, hxs, hb₁, hs₁⟩ := (tracks_stages hc run).back hb hs hxs'
  rw [chainLinks_congr hb₁.nodes xs] at haddRun hys'
  obtain ⟨haddRun, hapartRun⟩ := hb₁.addable_iff.mp haddRun
  obtain ⟨b₂, s₂, hys, hb₃, hs₃⟩ :=
    hsecond.back (hb₁.advance (Module.addable_iff.mp haddRun).2.2) hs₁ hys'
  rw [chainLinks_congr hb₃.nodes _] at haddOuter ⊢
  obtain ⟨haddOuter, hapartOuter⟩ := hb₃.addable_iff.mp haddOuter
  rw [Module.apart_append_right] at hapartOuter
  have hne := ne_nil_of_ran_stages hrun hxs
  have hbegins := hsecond.begins hys
  have hperm := chainLinks_perm_of_ran hrun hxs hbegins before ys
  have haddRun₂ : b₂.module.Addable [] (chainLinks b₁.module xs) := by
    rw [Module.addable_iff] at haddRun ⊢
    exact ⟨fun e he => (haddRun.1 e he).grows (grows_of_begins hbegins), haddRun.2.1,
      (Module.apart_append_right.mp hb₃.apart).2⟩
  have hadd := Module.addable_of_perm hperm.symm
    (Module.addable_append.mpr ⟨haddRun₂, haddOuter, hapartOuter.2.symm⟩)
  have hfits := (forall_fits_regrouped before hne ys).mpr ⟨hfitsRun, hfitsOuter⟩
  refine ⟨_, s₂, ran_bind_iff.mpr ⟨xs, b₁, s₁, hxs, ran_bind_iff.mpr ⟨ys, b₂, s₂, hys,
    ran_joinStages_iff.mpr ⟨hfits, hadd, rfl, rfl, outer_regrouped before hne ys⟩⟩⟩, ?_, hs₃⟩
  refine hb₃.settle (Module.addable_iff.mp haddOuter).2.2 hperm ?_
  exact (Module.apart_append_left.mpr ⟨hapartRun, hapartOuter.1⟩).subset hperm.subset
    (List.Subset.refl _)

end

/-- Parentheses around a run of stages connect the run before the stages after it are made. -/
lemma tracks_regrouped (hc : c.Alike c') (before : List Ends) {run : Chain} (hrun : run ≠ [])
    (after : Chain) : Tracks (joinRun c before run after) (joinNested c' before run after) := by
  have hjoin (ends : List Ends) : Tracks (joinStages c ends) (joinStages c' ends) :=
    tracks_joinStages ends
  refine ⟨?_, fun hb hs h hapart => exists_ran_joinNested hc hrun hb hs h hapart,
    fun hb hs h => exists_ran_joinRun hc hrun hb hs h⟩
  exact ((tracks_stages hc run).bind fun xs => (tracks_stages hc after).bind fun ys =>
    hjoin (before ++ xs ++ ys)).begins

end Construct

/-! ### Parentheses in a program -/

/-- How chains are put into nodes and statements, before and after names are resolved. -/
structure ChainForm (ν σ π : Type) where
  nested : List (List ν) → ν
  connection : List (List ν) → σ
  conditional : π → List σ → List σ → σ

namespace ChainForm

def surface : ChainForm Surface.Node Surface.Statement Surface.Expr :=
  ⟨.parentheses, .connection, .conditional⟩

def resolved : ChainForm CircuitNode Statement StaticExpr :=
  ⟨.nested, .connection, .conditional⟩

variable {ν σ π : Type}

/-- In a chain, or in a chain in parentheses in it at any depth, a run of stages has been replaced by
a stage that holds nothing but the run in parentheses. -/
inductive Regroups (L : ChainForm ν σ π) : List (List ν) → List (List ν) → Prop
  | here (before : List (List ν)) {run : List (List ν)} (after : List (List ν)) : run ≠ [] →
    Regroups L (before ++ run ++ after) (before ++ [[L.nested run]] ++ after)
  | inside (before : List (List ν)) (left : List ν) {chain chain' : List (List ν)} (right : List ν)
    (after : List (List ν)) : Regroups L chain chain' →
    Regroups L (before ++ [left ++ [L.nested chain] ++ right] ++ after)
      (before ++ [left ++ [L.nested chain'] ++ right] ++ after)

/-- The same for one chain of a block or of a branch in it, at any depth. -/
inductive RegroupsBlock (L : ChainForm ν σ π) : List σ → List σ → Prop
  | connection (before : List σ) {chain chain' : List (List ν)} (after : List σ) :
    L.Regroups chain chain' →
    RegroupsBlock L (before ++ [L.connection chain] ++ after)
      (before ++ [L.connection chain'] ++ after)
  | thenBody (before : List σ) (predicate : π) {thens thens' : List σ} (elses after : List σ) :
    RegroupsBlock L thens thens' →
    RegroupsBlock L (before ++ [L.conditional predicate thens elses] ++ after)
      (before ++ [L.conditional predicate thens' elses] ++ after)
  | elseBody (before : List σ) (predicate : π) (thens : List σ) {elses elses' : List σ}
    (after : List σ) : RegroupsBlock L elses elses' →
    RegroupsBlock L (before ++ [L.conditional predicate thens elses] ++ after)
      (before ++ [L.conditional predicate thens elses'] ++ after)

/-- What the nodes of a chain have to offer does not depend on parentheses. -/
lemma Regroups.flatMap_eq {L : ChainForm ν σ π} {τ : Type} {f : ν → List τ}
    (hf : ∀ chain, f (L.nested chain) = chain.flatMap (List.flatMap f))
    {chain chain' : List (List ν)} (h : L.Regroups chain chain') :
    chain'.flatMap (List.flatMap f) = chain.flatMap (List.flatMap f) := by
  induction h with
  | here before after _ => simp [hf]
  | inside before left right after _ ih => simp [hf, ih]

lemma RegroupsBlock.flatMap_eq {L : ChainForm ν σ π} {τ : Type} {f : ν → List τ} {g : σ → List τ}
    (hf : ∀ chain, f (L.nested chain) = chain.flatMap (List.flatMap f))
    (hconnection : ∀ chain, g (L.connection chain) = chain.flatMap (List.flatMap f))
    (hconditional : ∀ predicate thens elses, g (L.conditional predicate thens elses) = [])
    {block block' : List σ} (h : L.RegroupsBlock block block') :
    block'.flatMap g = block.flatMap g := by
  induction h with
  | connection before after hchain => simp [hconnection, hchain.flatMap_eq hf]
  | thenBody before predicate elses after _ _ => simp [hconditional]
  | elseBody before predicate thens after _ _ => simp [hconditional]

end ChainForm

/-! ### Bodies -/

lemma CircuitNode.groupDeclarations_eq (ns : List CircuitNode) :
    groupDeclarations ns = ns.flatMap declarations := by
  induction ns with
  | nil => rw [groupDeclarations, List.flatMap_nil]
  | cons n ns ih => rw [groupDeclarations, List.flatMap_cons, ih]

lemma CircuitNode.chainDeclarations_eq (groups : Chain) :
    chainDeclarations groups = groups.flatMap (List.flatMap declarations) := by
  induction groups with
  | nil => rw [chainDeclarations, List.flatMap_nil]
  | cons ns groups ih => rw [chainDeclarations, List.flatMap_cons, groupDeclarations_eq, ih]

namespace Statement

/-- The nodes that a statement declares in the block around it. -/
def declarations : Statement → List (String × NodeBody)
  | .connection chain => CircuitNode.chainDeclarations chain
  | .conditional _ _ _ => []

lemma blockDeclarations_eq (block : List Statement) :
    blockDeclarations block = block.flatMap declarations := by
  induction block with
  | nil => rfl
  | cons s rest ih => cases s <;> simp [blockDeclarations, declarations, ih]

/-- The same nodes are declared in the same order. -/
lemma blockDeclarations_regrouped {block block' : List Statement}
    (h : ChainForm.resolved.RegroupsBlock block block') :
    blockDeclarations block' = blockDeclarations block := by
  rw [blockDeclarations_eq, blockDeclarations_eq]
  refine h.flatMap_eq ?_ CircuitNode.chainDeclarations_eq fun _ _ _ => rfl
  intro chain
  change (CircuitNode.nested chain).declarations = _
  rw [CircuitNode.declarations, CircuitNode.chainDeclarations_eq]

end Statement

namespace Ends

lemma append_none (ends : Ends) : ends.append .none = ends := by
  simp [append, Ends.none]

lemma none_append (ends : Ends) : Ends.none.append ends = ends := by
  simp [append, Ends.none]

lemma append_append (x y z : Ends) : (x.append y).append z = x.append (y.append z) := by
  simp [append]

end Ends

namespace Construct

open Ends (append_none none_append append_append)

variable {c c' : BodyContext}

lemma stages_append (xs ys : Chain) :
    stages c (xs ++ ys) = do return (← stages c xs) ++ (← stages c ys) := by
  induction xs with
  | nil => simp [stages]
  | cons group xs ih => simp [stages, ih]

lemma nodes_append (ms ns : List CircuitNode) :
    nodes c (ms ++ ns) = do return (← nodes c ms).append (← nodes c ns) := by
  induction ms with
  | nil => simp only [List.nil_append, nodes, pure_bind, none_append, bind_pure]
  | cons m ms ih =>
    simp only [List.cons_append, nodes, ih, bind_assoc, pure_bind, append_append]

lemma node_nested (groups : Chain) : node c (.nested groups) = chain c groups := by
  rw [node, chain]

/-- A chain around a chain in parentheses. -/
lemma chain_around (before : Chain) (left : List CircuitNode) (inner : Chain)
    (right : List CircuitNode) (after : Chain) :
    chain c (before ++ [left ++ [.nested inner] ++ right] ++ after) = (do
      let xs ← stages c before
      let x ← nodes c left
      let y ← chain c inner
      let z ← nodes c right
      let ys ← stages c after
      joinStages c (xs ++ [x.append (y.append z)] ++ ys)) := by
  rw [chain]
  simp only [stages_append, stages, nodes_append, nodes, node_nested, bind_assoc, pure_bind,
    append_none, append_append]

lemma tracks_chain (hc : c.Alike c') {groups groups' : Chain}
    (h : ChainForm.resolved.Regroups groups groups') :
    Tracks (chain c groups) (chain c' groups') := by
  induction h with
  | here before after hrun =>
    simp only [chain, stages_append, stages, nodes, node, ChainForm.resolved, bind_assoc, pure_bind,
      append_none]
    exact (tracks_stages hc before).bind fun xs => tracks_regrouped hc xs hrun after
  | inside before left right after _ ih =>
    rw [ChainForm.resolved, chain_around, chain_around]
    exact (tracks_stages hc before).bind fun _ => (tracks_nodes hc left).bind fun _ =>
      ih.bind fun _ => (tracks_nodes hc right).bind fun _ =>
        (tracks_stages hc after).bind fun _ => tracks_joinStages _

lemma statements_append (xs ys : List Statement) :
    statements c (xs ++ ys) = (do statements c xs; statements c ys) := by
  induction xs with
  | nil => rw [List.nil_append, statements, pure_bind]
  | cons s xs ih => rw [List.cons_append, statements, statements, ih, bind_assoc]

/-- A statement among others. -/
lemma tracks_statementAmong (hc : c.Alike c') (before after : List Statement) {s s' : Statement}
    (h : Tracks (statement c s) (statement c' s')) :
    Tracks (statements c (before ++ [s] ++ after)) (statements c' (before ++ [s'] ++ after)) := by
  simp only [statements_append, statements, bind_assoc, pure_bind]
  exact (tracks_statements hc before).bind fun _ => h.bind fun _ => tracks_statements hc after

/-- The nodes of the block are declared in the same order. -/
lemma tracks_regroupedBlock (hc : c.Alike c') {block block' : List Statement}
    (h : ChainForm.resolved.RegroupsBlock block block')
    (hstatements : Tracks (statements c block) (statements c' block')) :
    Tracks (inBlock do declareBlock c block; statements c block)
      (inBlock do declareBlock c' block'; statements c' block') := by
  have hdeclare : declareBlock c' block' = declareBlock c' block := by
    rw [declareBlock_eq, declareBlock_eq, Statement.blockDeclarations_regrouped h]
  rw [hdeclare]
  exact tracks_inBlock ((tracks_declareBlock hc block).bind fun _ => hstatements)

lemma tracks_regroupedStatements (hc : c.Alike c') {block block' : List Statement}
    (h : ChainForm.resolved.RegroupsBlock block block') :
    Tracks (statements c block) (statements c' block') := by
  induction h with
  | connection before after hchain =>
    refine tracks_statementAmong hc before after ?_
    change Tracks (statement c (.connection _)) (statement c' (.connection _))
    rw [statement, statement]
    exact (tracks_chain hc hchain).bind fun _ => tracks_pure _
  | thenBody before predicate elses after hthens ih =>
    refine tracks_statementAmong hc before after ?_
    change Tracks (statement c (.conditional _ _ _)) (statement c' (.conditional _ _ _))
    rw [statement, statement, hc.bindings]
    refine (tracks_liftExcept _).bind fun value => ?_
    split
    · exact tracks_regroupedBlock hc hthens ih
    · exact tracks_block hc elses
  | elseBody before predicate thens after helses ih =>
    refine tracks_statementAmong hc before after ?_
    change Tracks (statement c (.conditional _ _ _)) (statement c' (.conditional _ _ _))
    rw [statement, statement, hc.bindings]
    refine (tracks_liftExcept _).bind fun value => ?_
    split
    · exact tracks_block hc thens
    · exact tracks_regroupedBlock hc helses ih

/-- A body with at most one run of stages put in parentheses. -/
lemma tracks_function (hc : c.Alike c') (inputs outputs : List Port) {block block' : List Statement}
    (h : Relation.ReflGen ChainForm.resolved.RegroupsBlock block block') :
    Tracks (function c inputs outputs block) (function c' inputs outputs block') := by
  have hports (kind : Port → Node) (ports : List Port) :
      Tracks (ports.forM fun p => do bindName p.name (← addNode (kind p)))
        (ports.forM fun p => do bindName p.name (← addNode (kind p))) :=
    tracks_forM (fun p => (tracks_addNode _).bind (tracks_bindName p.name)) ports
  refine (hports _ inputs).bind fun _ => (hports _ outputs).bind fun _ => ?_
  cases h with
  | refl => exact tracks_block hc block
  | single h => exact tracks_regroupedBlock hc h (tracks_regroupedStatements hc h)

end Construct

end NetlistCompiler
