import NetlistCompiler.Proofs.ElaborationErrors
import NetlistCompiler.Proofs.MirroredBodies
import NetlistCompiler.Proofs.ReorderedPrograms

/-!
# The names of nodes

A module that has been built has a node for every port, for every name that a block of its function
declares and for every node without a name, and blocks of branches that are not taken add nothing.
No name is declared twice in one block, and the ports count as part of the outermost one. But two
blocks may declare the same name, and a declared name may be one that is given to a node without a
name.
-/

namespace NetlistCompiler

/-! ### The blocks of a function -/

mutual

/-- The names that the blocks inside of a statement declare, block by block; of a conditional, only
the branch that it takes. -/
def Statement.innerNames (b : Bindings) : Statement → List (List String)
  | .connection _ => []
  | .conditional predicate thenBody elseBody =>
    match predicate.eval b with
    | .error _ => []
    | .ok value =>
      if value ≠ 0 then Statement.blockNames thenBody :: Statement.allInnerNames b thenBody
      else Statement.blockNames elseBody :: Statement.allInnerNames b elseBody

def Statement.allInnerNames (b : Bindings) : List Statement → List (List String)
  | [] => []
  | s :: rest => s.innerNames b ++ Statement.allInnerNames b rest

end

def CircuitNode.isAnonymous : CircuitNode → Bool
  | .anonymous _ => true
  | _ => false

/-- The name that is given to a node without one. -/
def Module.anonymousName (number : Nat) : String :=
  s!"anonymous_{number}"

def Module.nodeNames (m : Module) : List String :=
  m.nodes.toList.map Node.name

namespace Construct

open Replay

variable {α β : Type} {c : BodyContext} {b b' : Body} {s s' : Session}

/-! ### What a step adds -/

/-- The names of a module after nodes with the given names and some without a name are added, in any
order. -/
structure Gains (declared : List String) (count : Nat) (b b' : Body) : Prop where
  names : b'.module.nodeNames.Perm (b.module.nodeNames ++
    (declared ++ (List.range' b.anonymous count).map Module.anonymousName))
  anonymous : b'.anonymous = b.anonymous + count

lemma gains_of_eq (hnodes : b'.module.nodes = b.module.nodes)
    (hanonymous : b'.anonymous = b.anonymous) : Gains [] 0 b b' :=
  ⟨by simp [Module.nodeNames, hnodes], hanonymous⟩

lemma Gains.trans {declared declared' : List String} {count count' : Nat} {b₁ : Body}
    (h : Gains declared count b b₁) (h' : Gains declared' count' b₁ b') :
    Gains (declared ++ declared') (count + count') b b' := by
  refine ⟨?_, by rw [h'.anonymous, h.anonymous, Nat.add_assoc]⟩
  have hnames := h'.names.trans (h.names.append_right _)
  rw [h.anonymous] at hnames
  refine hnames.trans (List.perm_iff_count.mpr fun name => ?_)
  rw [← List.range'_append_1, List.map_append]
  simp only [List.count_append]
  omega

/-- Every successful run of the step adds nodes with these names, and so many without a name. -/
def Adds (declared : List String) (count : Nat) (x : Construct α) : Prop :=
  ∀ b s a b' s', x.Ran b s a b' s' → Gains declared count b b'

lemma Adds.bind {declared declared' : List String} {count count' : Nat} {x : Construct α}
    {f : α → Construct β} (hx : Adds declared count x) (hf : ∀ a, Adds declared' count' (f a)) :
    Adds (declared ++ declared') (count + count') (x >>= f) := by
  intro b s d b' s' hran
  obtain ⟨a, b₁, s₁, hran₁, hran₂⟩ := exists_of_ran_bind hran
  exact (hx b s a b₁ s₁ hran₁).trans (hf a b₁ s₁ d b' s' hran₂)

lemma adds_of_connecting {x : Construct α} (h : Connecting x) : Adds [] 0 x := by
  intro b s a b' s' hran
  obtain ⟨-, cs, rfl⟩ := h b s a b' s' hran
  exact gains_of_eq (by simp [Module.extend]) rfl

lemma adds_of_adding {name : String} {x : Construct Nat} (h : Adding name x) :
    Adds [name] 0 x := by
  intro b s a b' s' hran
  obtain ⟨-, n, rfl, rfl⟩ := h b s a b' s' hran
  exact ⟨by simp [Module.nodeNames, Module.addNode], rfl⟩

lemma adds_bindName (name : String) (id : Nat) : Adds [] 0 (bindName name id) := by
  rw [bindName_eq]
  rintro b s _ _ _ ⟨⟩
  exact gains_of_eq rfl rfl

lemma adds_declareNamed {ι : Type} {name : ι → String} {f : ι → Construct Nat} (x : ι)
    (h : Adding (name x) (f x)) : Adds [name x] 0 (declareNamed name f x) :=
  (adds_of_adding h).bind fun id => adds_bindName (name x) id

lemma adds_forM {ι : Type} {f : ι → Construct PUnit} (declared : ι → List String)
    (count : ι → Nat) {xs : List ι} (h : ∀ x ∈ xs, Adds (declared x) (count x) (f x)) :
    Adds (xs.flatMap declared) (xs.map count).sum (xs.forM f) := by
  induction xs with
  | nil => exact adds_of_connecting (connecting_pure _)
  | cons x xs ih =>
    rw [List.forall_mem_cons] at h
    exact h.1.bind fun _ => ih h.2

lemma adds_declare {ι : Type} (name : ι → String) {f : ι → Construct Nat} {xs : List ι}
    (h : ∀ x ∈ xs, Adding (name x) (f x)) :
    Adds (xs.map name) 0 (xs.forM (declareNamed name f)) := by
  have hall := adds_forM (fun x => [name x]) (fun _ => 0) fun x hx =>
    adds_declareNamed x (h x hx)
  rw [List.map_eq_flatMap]
  simpa using hall

lemma adds_inBlock {declared : List String} {count : Nat} {steps : Construct Unit}
    (h : Adds declared count steps) : Adds declared count (inBlock steps) := by
  intro b s a b' s' hran
  obtain ⟨b₁, hsteps, rfl⟩ := ran_inBlock hran
  obtain ⟨hnames, hanonymous⟩ := h _ s () b₁ s' hsteps
  exact ⟨hnames, hanonymous⟩

/-! ### Chains and statements -/

lemma adds_anonymous (body : NodeBody) : Adds [] 1 (node c (.anonymous body)) := by
  rw [node]
  intro b s ends b' s' hran
  obtain ⟨name, b₁, s₁, hname, hrest⟩ := exists_of_ran_bind hran
  cases hname
  obtain ⟨id, b₂, s₂, hcreate, hends⟩ := exists_of_ran_bind hrest
  obtain ⟨-, n, hn, rfl⟩ := adding_create _ body _ _ id b₂ s₂ hcreate
  obtain ⟨-, cs, rfl⟩ := connecting_endsOf id _ _ ends b' s' hends
  refine ⟨?_, rfl⟩
  simp [Module.nodeNames, Module.addNode, Module.extend, Module.anonymousName, hn]

mutual

lemma adds_node (c : BodyContext) : ∀ n : CircuitNode,
    Adds [] (n.leaves.countP CircuitNode.isAnonymous) (node c n)
  | .reference name accessors => by
    rw [node]
    exact adds_of_connecting (connecting_reference name accessors)
  | .declared name body => adds_of_connecting (connecting_declared name body)
  | .anonymous body => adds_anonymous body
  | .nested chain => by
    rw [node, CircuitNode.leaves]
    exact (adds_stages c chain).bind fun xs => adds_of_connecting (connecting_joinStages xs)

lemma adds_stages (c : BodyContext) : ∀ groups : List (List CircuitNode),
    Adds [] ((CircuitNode.chainLeaves groups).countP CircuitNode.isAnonymous) (stages c groups)
  | [] => by
    rw [stages]
    exact adds_of_connecting (connecting_pure _)
  | group :: rest => by
    rw [stages, CircuitNode.chainLeaves, List.countP_append]
    exact (adds_nodes c group).bind fun ends =>
      (adds_stages c rest).bind fun xs => adds_of_connecting (connecting_pure _)

lemma adds_nodes (c : BodyContext) : ∀ ns : List CircuitNode,
    Adds [] ((CircuitNode.groupLeaves ns).countP CircuitNode.isAnonymous) (nodes c ns)
  | [] => by
    rw [nodes]
    exact adds_of_connecting (connecting_pure _)
  | n :: rest => by
    rw [nodes, CircuitNode.groupLeaves, List.countP_append]
    exact (adds_node c n).bind fun ends =>
      (adds_nodes c rest).bind fun xs => adds_of_connecting (connecting_pure _)

end

lemma adds_declareBlock (c : BodyContext) (block : List Statement) :
    Adds (Statement.blockNames block) 0 (declareBlock c block) := by
  rw [declareBlock_eq, ← Statement.map_fst_blockDeclarations]
  exact adds_declare Prod.fst fun d _ => adding_create d.1 d.2

/-- A block that is built adds what it declares before what its statements add. -/
lemma adds_block {block : List Statement} {declared : List String} {count : Nat}
    (h : Adds declared count (statements c block)) :
    Adds (Statement.blockNames block ++ declared) count
      (inBlock do declareBlock c block; statements c block) := by
  rw [← Nat.zero_add count]
  exact adds_inBlock ((adds_declareBlock c block).bind fun _ => h)

mutual

lemma adds_statement (c : BodyContext) : ∀ t : Statement,
    Adds (t.innerNames c.bindings).flatten
      ((t.leaves c.bindings).countP CircuitNode.isAnonymous) (statement c t)
  | .connection chain => by
    rw [statement, Statement.innerNames, Statement.leaves]
    exact ((adds_stages c chain).bind fun xs => adds_of_connecting (connecting_joinStages xs)).bind
      fun _ => adds_of_connecting (connecting_pure _)
  | .conditional predicate thenBody elseBody => by
    rw [statement, Statement.innerNames, Statement.leaves]
    intro b s a b' s' hran
    obtain ⟨value, b₁, s₁, heval, hrest⟩ := exists_of_ran_bind hran
    obtain ⟨hvalue, rfl, rfl⟩ := ran_liftExcept heval
    rw [hvalue]
    dsimp only
    split at hrest
    · next htaken =>
      rw [if_pos htaken, if_pos htaken]
      exact adds_block (adds_statements c thenBody) b s a b' s' hrest
    · next htaken =>
      rw [if_neg htaken, if_neg htaken]
      exact adds_block (adds_statements c elseBody) b s a b' s' hrest

lemma adds_statements (c : BodyContext) : ∀ block : List Statement,
    Adds (Statement.allInnerNames c.bindings block).flatten
      ((Statement.blockLeaves c.bindings block).countP CircuitNode.isAnonymous) (statements c block)
  | [] => by
    rw [statements]
    exact adds_of_connecting (connecting_pure _)
  | t :: rest => by
    rw [statements, Statement.allInnerNames, Statement.blockLeaves, List.flatten_append,
      List.countP_append]
    exact (adds_statement c t).bind fun _ => adds_statements c rest

end

end Construct

/-! ### Built modules -/

section

open Elaborate

variable {p : Program} {P : Module → Prop}

end

mutual

lemma Statement.nodup_innerNames {b : Bindings} : ∀ s : Statement, s.Unambiguous →
    ∀ names ∈ s.innerNames b, names.Nodup
  | .connection chain, _ => by simp [innerNames]
  | .conditional predicate thenBody elseBody, h => by
    rw [Unambiguous] at h
    rw [innerNames]
    split
    · simp
    · split
      · exact List.forall_mem_cons.mpr ⟨h.1.1, nodup_allInnerNames thenBody h.1.2⟩
      · exact List.forall_mem_cons.mpr ⟨h.2.1, nodup_allInnerNames elseBody h.2.2⟩

lemma Statement.nodup_allInnerNames {b : Bindings} : ∀ block : List Statement,
    AllUnambiguous block → ∀ names ∈ allInnerNames b block, names.Nodup
  | [], _ => by simp [allInnerNames]
  | s :: rest, h => by
    rw [AllUnambiguous] at h
    rw [allInnerNames]
    exact List.forall_mem_append.mpr ⟨nodup_innerNames s h.1, nodup_allInnerNames rest h.2⟩

end

/-- Names followed by numbered ones. -/
lemma nodup_append_map_range {f : Nat → String} (hf : Function.Injective f) {names : List String}
    {count : Nat} : (names ++ (List.range count).map f).Nodup ↔
      names.Nodup ∧ ∀ k < count, f k ∉ names := by
  rw [List.nodup_append']
  constructor
  · rintro ⟨hnames, -, hdisjoint⟩
    exact ⟨hnames, fun k hk hmem => hdisjoint hmem (List.mem_map_of_mem (List.mem_range.mpr hk))⟩
  · rintro ⟨hnames, hnumbered⟩
    refine ⟨hnames, List.nodup_range.map hf, ?_⟩
    intro name hname hmem
    obtain ⟨k, hk, rfl⟩ := List.mem_map.mp hmem
    exact hnumbered k (List.mem_range.mp hk) hname

end NetlistCompiler
