import NetlistCompiler.Proofs.ReplayedBodies
import NetlistCompiler.Proofs.Scoping

/-!
# Replayed blocks

The declarations of a block come before its statements, and no name is declared twice. So the
declarations of a block can be replayed in any order, and so can its statements: the names of a
block refer to corresponding nodes in the end.
-/

namespace NetlistCompiler

open Construct

mutual

/-- The nodes that a node of a chain declares. -/
def CircuitNode.declarations : CircuitNode → List (String × NodeBody)
  | .declared name body => [(name, body)]
  | .nested chain => CircuitNode.chainDeclarations chain
  | .reference _ _ => []
  | .anonymous _ => []

def CircuitNode.chainDeclarations : List (List CircuitNode) → List (String × NodeBody)
  | [] => []
  | group :: rest => CircuitNode.groupDeclarations group ++ CircuitNode.chainDeclarations rest

def CircuitNode.groupDeclarations : List CircuitNode → List (String × NodeBody)
  | [] => []
  | n :: rest => n.declarations ++ CircuitNode.groupDeclarations rest

end

/-- The nodes that a block declares outside of its conditionals. -/
def Statement.blockDeclarations : List Statement → List (String × NodeBody)
  | [] => []
  | .connection chain :: rest =>
    CircuitNode.chainDeclarations chain ++ Statement.blockDeclarations rest
  | .conditional _ _ _ :: rest => Statement.blockDeclarations rest

mutual

lemma CircuitNode.map_fst_declarations : ∀ n : CircuitNode,
    n.declarations.map Prod.fst = n.names
  | .declared name body => by rw [CircuitNode.declarations, CircuitNode.names]; rfl
  | .nested chain => by
    rw [CircuitNode.declarations, CircuitNode.names, CircuitNode.map_fst_chainDeclarations chain]
  | .reference _ _ => by rw [CircuitNode.declarations, CircuitNode.names]; rfl
  | .anonymous _ => by rw [CircuitNode.declarations, CircuitNode.names]; rfl

lemma CircuitNode.map_fst_chainDeclarations : ∀ groups : List (List CircuitNode),
    (CircuitNode.chainDeclarations groups).map Prod.fst = CircuitNode.chainNames groups
  | [] => by rw [CircuitNode.chainDeclarations, CircuitNode.chainNames]; rfl
  | group :: rest => by
    rw [CircuitNode.chainDeclarations, CircuitNode.chainNames, List.map_append,
      CircuitNode.map_fst_groupDeclarations group, CircuitNode.map_fst_chainDeclarations rest]

lemma CircuitNode.map_fst_groupDeclarations : ∀ ns : List CircuitNode,
    (CircuitNode.groupDeclarations ns).map Prod.fst = CircuitNode.groupNames ns
  | [] => by rw [CircuitNode.groupDeclarations, CircuitNode.groupNames]; rfl
  | n :: rest => by
    rw [CircuitNode.groupDeclarations, CircuitNode.groupNames, List.map_append,
      CircuitNode.map_fst_declarations n, CircuitNode.map_fst_groupDeclarations rest]

end

lemma Statement.map_fst_blockDeclarations (block : List Statement) :
    (blockDeclarations block).map Prod.fst = blockNames block := by
  induction block with
  | nil => rfl
  | cons s rest ih =>
    cases s with
    | connection chain =>
      rw [blockDeclarations, blockNames, List.map_append, CircuitNode.map_fst_chainDeclarations, ih]
    | conditional predicate thenBody elseBody => exact ih

namespace Construct

/-- Adds a node and gives it its name. -/
def declareNamed {ι : Type} (name : ι → String) (f : ι → Construct Nat) (x : ι) : Construct Unit := do
  bindName (name x) (← f x)

variable (c : BodyContext)

mutual

lemma declare_eq : ∀ n : CircuitNode,
    declare c n = n.declarations.forM (declareNamed Prod.fst fun d => create c d.1 d.2)
  | .declared name body => by
    rw [declare, CircuitNode.declarations]
    exact (bind_pure _).symm
  | .nested chain => by rw [declare, CircuitNode.declarations, declareChain_eq chain]
  | .reference _ _ => by rw [declare, CircuitNode.declarations]; rfl
  | .anonymous _ => by rw [declare, CircuitNode.declarations]; rfl

lemma declareChain_eq : ∀ groups : List (List CircuitNode),
    declareChain c groups =
      (CircuitNode.chainDeclarations groups).forM (declareNamed Prod.fst fun d => create c d.1 d.2)
  | [] => by rw [declareChain, CircuitNode.chainDeclarations]; rfl
  | group :: rest => by
    rw [declareChain, CircuitNode.chainDeclarations, declareGroup_eq group, declareChain_eq rest]
    exact List.forM_append.symm

lemma declareGroup_eq : ∀ ns : List CircuitNode,
    declareGroup c ns =
      (CircuitNode.groupDeclarations ns).forM (declareNamed Prod.fst fun d => create c d.1 d.2)
  | [] => by rw [declareGroup, CircuitNode.groupDeclarations]; rfl
  | n :: rest => by
    rw [declareGroup, CircuitNode.groupDeclarations, declare_eq n, declareGroup_eq rest]
    exact List.forM_append.symm

end

lemma declareBlock_eq (block : List Statement) :
    declareBlock c block =
      (Statement.blockDeclarations block).forM (declareNamed Prod.fst fun d => create c d.1 d.2) := by
  induction block with
  | nil => rfl
  | cons s rest ih =>
    cases s with
    | connection chain =>
      rw [declareBlock, Statement.blockDeclarations, declareChain_eq, ih]
      exact List.forM_append.symm
    | conditional predicate thenBody elseBody => exact ih

end Construct

/-! ### Declarations -/

namespace Replay

variable {V : Replay} {c c' : BodyContext}

/-- A step of the first construction that gives names in the innermost block to new nodes. -/
structure Enlarges (p : Program) (b : Body) (s : Session) (b' : Body) (s' : Session) : Prop where
  sound : s'.Sound p
  grows : s.Grows s'
  begins : b.module.Begins b'.module
  scopes : ∀ scope outer, b.scopes = scope :: outer →
    ∃ added, b'.scopes = (added ++ scope) :: outer

lemma Enlarges.trans {p : Program} {b₁ b₂ b₃ : Body} {s₁ s₂ s₃ : Session}
    (h : Enlarges p b₁ s₁ b₂ s₂) (h' : Enlarges p b₂ s₂ b₃ s₃) : Enlarges p b₁ s₁ b₃ s₃ := by
  refine ⟨h'.sound, h.grows.trans h'.grows, h.begins.trans h'.begins, ?_⟩
  intro scope outer hscopes
  obtain ⟨added, hadded⟩ := h.scopes scope outer hscopes
  obtain ⟨added', hadded'⟩ := h'.scopes _ _ hadded
  exact ⟨added' ++ added, by rw [hadded', List.append_assoc]⟩

/-- The second step redoes the declarations of the first one, after which the names refer to
corresponding nodes again. -/
structure Declares (V : Replay) (x y : Construct Unit) : Prop where
  enlarges : ∀ b s a b' s', x.Ran b s a b' s' → s.Sound V.first → Enlarges V.first b s b' s'
  redoes : ∀ b s a b' s', x.Ran b s a b' s' → s.Sound V.first → V.Within b' s' →
    ∀ ρ X t r scope outer scope' outer', Placed V.module t.module ρ X → V.Ready r →
    (∀ k ∈ Set.Ico b.module.nodes.size b'.module.nodes.size, ρ k = none) →
    Disjoint X (Set.Ico b.module.connections.size b'.module.connections.size) →
    b.scopes = scope :: outer → t.scopes = scope' :: outer' → Visible ρ b t.scopes →
    y.Leads t r V.tooDeep (fun _ t' r' => V.Ready r' ∧
      (∃ added, t'.scopes = (added ++ scope') :: outer') ∧
      ∃ ρ', ρ.Adds ρ' (Set.Ico b.module.nodes.size b'.module.nodes.size) ∧
        Placed V.module t'.module ρ'
          (X ∪ Set.Ico b.module.connections.size b'.module.connections.size) ∧
        Visible ρ' b' t'.scopes) fun _ _ => V.fails

lemma Within.of_enlarges {b b' : Body} {s s' : Session} (h : V.Within b' s')
    (henlarges : Enlarges V.first b s b' s') : V.Within b s :=
  ⟨henlarges.begins.trans h.begins, fun k m hm => h.modules k m (henlarges.grows.modules k m hm)⟩

lemma Declares.bind {x y : Construct Unit} {f g : Unit → Construct Unit} (hxy : V.Declares x y)
    (hfg : V.Declares (f ()) (g ())) : V.Declares (x >>= f) (y >>= g) := by
  constructor
  · intro b s a b' s' hran hs
    obtain ⟨_, b₁, s₁, hran₁, hran₂⟩ := exists_of_ran_bind hran
    have henlarges := hxy.enlarges b s _ b₁ s₁ hran₁ hs
    exact henlarges.trans (hfg.enlarges b₁ s₁ a b' s' hran₂ henlarges.sound)
  · intro b s a b' s' hran hs hwithin ρ X t r scope outer scope' outer' hplaced hready hnone
      hdisjoint hscopes hscopes' hvisible
    obtain ⟨_, b₁, s₁, hran₁, hran₂⟩ := exists_of_ran_bind hran
    have henlarges₁ := hxy.enlarges b s _ b₁ s₁ hran₁ hs
    have henlarges₂ := hfg.enlarges b₁ s₁ a b' s' hran₂ henlarges₁.sound
    have hnodes := Set.Ico_union_Ico_eq_Ico (size_le_of_isPrefix henlarges₁.begins.nodes)
      (size_le_of_isPrefix henlarges₂.begins.nodes)
    have hconnections := Set.Ico_union_Ico_eq_Ico (size_le_of_isPrefix henlarges₁.begins.connections)
      (size_le_of_isPrefix henlarges₂.begins.connections)
    rw [← hnodes] at hnone ⊢
    rw [← hconnections, Set.disjoint_union_right] at hdisjoint
    rw [← hconnections]
    obtain ⟨added, hadded⟩ := henlarges₁.scopes scope outer hscopes
    refine Leads.bind (hxy.redoes b s _ b₁ s₁ hran₁ hs (hwithin.of_enlarges henlarges₂) ρ X t r scope
      outer scope' outer' hplaced hready (fun k hk => hnone k (.inl hk)) hdisjoint.1 hscopes hscopes'
      hvisible) ?_
    rintro _ t₁ r₁ ⟨hready₁, ⟨added₁, hadded₁⟩, ρ₁, hadds₁, hplaced₁, hvisible₁⟩
    have hnone₁ := hadds₁.eq_none Set.Ico_disjoint_Ico_same fun k hk => hnone k (.inr hk)
    refine (hfg.redoes b₁ s₁ a b' s' hran₂ henlarges₁.sound hwithin ρ₁ _ t₁ r₁ _ _ _ _ hplaced₁ hready₁
      hnone₁ (Set.disjoint_union_left.mpr ⟨hdisjoint.2, Set.Ico_disjoint_Ico_same⟩) hadded hadded₁
      hvisible₁).imp ?_
    rintro _ t₂ r₂ ⟨hready₂, ⟨added₂, hadded₂⟩, ρ₂, hadds₂, hplaced₂, hvisible₂⟩
    refine ⟨hready₂, ⟨added₂ ++ added₁, by rw [hadded₂, List.append_assoc]⟩, ρ₂,
      hadds₁.trans hadds₂, ?_, hvisible₂⟩
    rw [← Set.union_assoc]
    exact hplaced₂

section

variable {ι γ : Type} {name : ι → String} {name' : γ → String} {f : ι → Construct Nat}
  {g : γ → Construct Nat}

lemma ran_bindName {key : String} {id : Nat} {b b' : Body} {s s' : Session} {a : Unit}
    {scope : List (String × Nat)} {outer : Scopes} (hscopes : b.scopes = scope :: outer)
    (h : (bindName key id).Ran b s a b' s') :
    s = s' ∧ b' = { b with scopes := ((key, id) :: scope) :: outer } := by
  unfold bindName at h
  cases h
  dsimp only
  rw [hscopes]
  exact ⟨rfl, rfl⟩

lemma enlarges_declareNamed {p : Program} {x : ι} (hf : Advancing p (f x)) {b b' : Body}
    {s s' : Session} {a : Unit} (hran : (declareNamed name f x).Ran b s a b' s')
    (hs : s.Sound p) : Enlarges p b s b' s' := by
  obtain ⟨id, b₁, s₁, hran₁, hran₂⟩ := exists_of_ran_bind hran
  obtain ⟨hsound, hgrows, hbegins, hscopes₁⟩ := hf b s id b₁ s₁ hran₁ hs
  have hsame : s₁ = s' ∧ b'.module = b₁.module := by
    unfold bindName at hran₂
    cases hran₂
    refine ⟨rfl, ?_⟩
    dsimp only
    split <;> rfl
  obtain ⟨rfl, hmodule⟩ := hsame
  refine ⟨hsound, hgrows, hmodule ▸ hbegins, ?_⟩
  intro scope outer hscopes
  obtain ⟨-, rfl⟩ := ran_bindName (hscopes₁.trans hscopes) hran₂
  exact ⟨[(name x, id)], rfl⟩

lemma enlarges_forM {p : Program} {xs : List ι} (hf : ∀ x ∈ xs, Advancing p (f x)) {b b' : Body}
    {s s' : Session} {a : PUnit} (hran : Construct.Ran (xs.forM (declareNamed name f)) b s a b' s')
    (hs : s.Sound p) : Enlarges p b s b' s' := by
  induction xs generalizing b s with
  | nil =>
    cases hran
    exact ⟨hs, Session.grows_self _, Module.begins_self _, fun scope outer h => ⟨[], h⟩⟩
  | cons x xs ih =>
    rw [List.forall_mem_cons] at hf
    obtain ⟨_, b₁, s₁, hran₁, hran₂⟩ := exists_of_ran_bind hran
    have henlarges := enlarges_declareNamed hf.1 hran₁ hs
    exact henlarges.trans (ih hf.2 hran₂ henlarges.sound)

/-- What successive declarations of the first construction did, job by job. -/
lemma exists_declaring_jobs {xs : List ι} {zs : List γ}
    (hfg : List.Forall₂ (fun x z => name x = name' z ∧
      V.Follows (fun _ _ _ => True) (f x) (g z) Stands) xs zs) {b b' : Body} {s s' : Session}
    {a : PUnit} (hran : Construct.Ran (xs.forM (declareNamed name f)) b s a b' s')
    (hs : s.Sound V.first) (hwithin : V.Within b' s') {scope : List (String × Nat)} {outer : Scopes}
    (hscopes : b.scopes = scope :: outer) :
    ∃ js : List (Job γ), js.map Job.item = zs ∧
      b'.scopes = ((js.map fun j => (name' j.item, j.id)).reverse ++ scope) :: outer ∧
      (∀ j ∈ js, V.Redoes (fun _ _ => True) j.nodes j.connections (g j.item)
        fun ρ a' => Stands ρ b' j.id a') ∧ js.Pairwise Job.Apart ∧
      Job.allNodes js = Set.Ico b.module.nodes.size b'.module.nodes.size ∧
      Job.allConnections js = Set.Ico b.module.connections.size b'.module.connections.size := by
  induction hfg generalizing b s scope with
  | nil =>
    cases hran
    exact ⟨[], rfl, hscopes, by simp, .nil, by simp [Job.allNodes],
      by simp [Job.allConnections]⟩
  | @cons x z xs zs hx hxs ih =>
    obtain ⟨_, b₂, s₂, hran₁, hran₂⟩ := exists_of_ran_bind hran
    obtain ⟨id, b₁, s₁, hran₀, hbind⟩ := exists_of_ran_bind hran₁
    obtain ⟨hsound, hgrows, hbegins, hscopes₁⟩ := hx.2.advances b s id b₁ s₁ hran₀ hs
    obtain ⟨rfl, rfl⟩ := ran_bindName (hscopes₁.trans hscopes) hbind
    have henlarges : Enlarges V.first { b₁ with scopes := ((name x, id) :: scope) :: outer } s₁ b'
        s' := by
      refine enlarges_forM ?_ hran₂ hsound
      intro x' hx'
      obtain ⟨z', -, hfollows⟩ := exists_mem_right_of_forall₂ hxs hx'
      exact hfollows.2.advances
    have hwithin₁ : V.Within b₁ s₁ := by
      have h := hwithin.of_enlarges henlarges
      exact ⟨h.begins, h.modules⟩
    obtain ⟨js, hitems, hscopes', hjs, happart, hnodes, hconnections⟩ := ih hran₂ hsound rfl
    have hbegins' : b₁.module.Begins b'.module := henlarges.begins
    refine ⟨⟨Set.Ico b.module.nodes.size b₁.module.nodes.size,
      Set.Ico b.module.connections.size b₁.module.connections.size, id, z⟩ :: js, ?_, ?_, ?_, ?_, ?_,
      ?_⟩
    · rw [List.map_cons, hitems]
    · rw [hscopes', List.map_cons, List.reverse_cons, List.append_assoc, hx.1]
      rfl
    · rw [List.forall_mem_cons]
      refine ⟨?_, hjs⟩
      exact (hx.2.redoes b s id b₁ s₁ hran₀ hs hwithin₁).post fun ρ a' h =>
        h.mono ρ.extends_self hbegins'
    · refine List.pairwise_cons.mpr ⟨?_, happart⟩
      intro j hj
      exact Job.apart_of_subset hj hnodes hconnections
    · rw [Job.allNodes_cons, hnodes]
      exact Set.Ico_union_Ico_eq_Ico (size_le_of_isPrefix hbegins.nodes)
        (size_le_of_isPrefix hbegins'.nodes)
    · rw [Job.allConnections_cons, hconnections]
      exact Set.Ico_union_Ico_eq_Ico (size_le_of_isPrefix hbegins.connections)
        (size_le_of_isPrefix hbegins'.connections)

/-- Declarations of the second construction, in the order of the jobs. -/
lemma leads_declaring_jobs {b : Body} {js : List (Job γ)}
    (hjs : ∀ j ∈ js, V.Redoes (fun _ _ => True) j.nodes j.connections (g j.item)
      fun ρ a' => Stands ρ b j.id a') (happart : js.Pairwise Job.Apart) {ρ : Placement}
    {X : Set Nat} {t : Body} {r : Session} {scope : List (String × Nat)} {outer : Scopes}
    (hplaced : Placed V.module t.module ρ X) (hready : V.Ready r)
    (hnone : ∀ k ∈ Job.allNodes js, ρ k = none) (hdisjoint : Disjoint X (Job.allConnections js))
    (hscopes : t.scopes = scope :: outer) :
    Construct.Leads ((js.map Job.item).forM (declareNamed name' g)) t r V.tooDeep
      (fun _ t' r' => V.Ready r' ∧ ∃ ρ' ids, ρ.Adds ρ' (Job.allNodes js) ∧
        Placed V.module t'.module ρ' (X ∪ Job.allConnections js) ∧
        t'.scopes = (((js.map fun j => name' j.item).zip ids).reverse ++ scope) :: outer ∧
        List.Forall₂ (fun j a' => Stands ρ' b j.id a') js ids) fun _ _ => V.fails := by
  induction js generalizing ρ X t r scope with
  | nil =>
    refine leads_pure ⟨hready, ρ, [], ?_, ?_, hscopes, .nil⟩
    · simpa [Job.allNodes] using ρ.adds_empty
    · simpa [Job.allConnections] using hplaced
  | cons j js ih =>
    rw [List.forall_mem_cons] at hjs
    rw [List.pairwise_cons] at happart
    obtain ⟨hnodes, hconnections⟩ := Job.disjoint_all happart.1
    rw [Job.allNodes_cons] at hnone ⊢
    rw [Job.allConnections_cons, Set.disjoint_union_right] at hdisjoint
    rw [Job.allConnections_cons]
    refine Leads.bind (Q := fun _ t₁ r₁ => V.Ready r₁ ∧ ∃ ρ₁ a', ρ.Adds ρ₁ j.nodes ∧
      Placed V.module t₁.module ρ₁ (X ∪ j.connections) ∧
      t₁.scopes = ((name' j.item, a') :: scope) :: outer ∧ Stands ρ₁ b j.id a') ?_ ?_
    · refine Leads.bind (hjs.1 ρ X t r hplaced hready (fun k hk => hnone k (.inl hk)) hdisjoint.1
        trivial) ?_
      rintro a' t₁ r₁ ⟨hscopes₁, hready₁, ρ₁, hadds₁, hplaced₁, hstands⟩
      exact leads_bindName (hscopes₁.trans hscopes)
        ⟨hready₁, ρ₁, a', hadds₁, hplaced₁, rfl, hstands⟩
    · rintro _ t₁ r₁ ⟨hready₁, ρ₁, a', hadds₁, hplaced₁, hscopes₁, hstands⟩
      refine (ih hjs.2 happart.2 hplaced₁ hready₁
        (hadds₁.eq_none hnodes fun k hk => hnone k (.inr hk))
        (Set.disjoint_union_left.mpr ⟨hdisjoint.2, hconnections⟩) hscopes₁).imp ?_
      rintro _ t₂ r₂ ⟨hready₂, ρ₂, ids, hadds₂, hplaced₂, hscopes₂, hids⟩
      refine ⟨hready₂, ρ₂, a' :: ids, hadds₁.trans hadds₂, ?_, ?_, .cons ?_ hids⟩
      · rw [← Set.union_assoc]
        exact hplaced₂
      · rw [hscopes₂, List.map_cons, List.zip_cons_cons, List.reverse_cons, List.append_assoc]
        rfl
      · exact hstands.mono hadds₂.keeps b.module.begins_self

/-- The names that two lists of declarations add refer to corresponding nodes. -/
lemma rel_lookup_jobs {S : Nat → Nat → Prop} {js js' : List (Job γ)} (hperm : js'.Perm js)
    (hnodup : (js.map fun j => name' j.item).Nodup) {ids : List Nat}
    (hids : List.Forall₂ (fun j a' => S j.id a') js' ids) (key : String) :
    Option.Rel S ((js.map fun j => (name' j.item, j.id)).reverse.lookup key)
      (((js'.map fun j => name' j.item).zip ids).reverse.lookup key) := by
  have hnames : (js'.map fun j => name' j.item).Nodup := (hperm.map _).nodup_iff.mpr hnodup
  have hleft : ((js'.map fun j => (name' j.item, j.id)).map Prod.fst).Nodup := by
    rwa [List.map_map]
  have hright : (((js'.map fun j => name' j.item).zip ids).map Prod.fst).Nodup := by
    rwa [List.map_fst_zip (by simp [hids.length_eq])]
  rw [lookup_perm ((List.reverse_perm _).trans (hperm.map _).symm) hleft,
    lookup_perm (List.reverse_perm _) hright]
  clear hperm hnodup hnames hleft hright
  induction hids with
  | nil => exact .none
  | cons hstands _ ih =>
    rw [List.map_cons, List.map_cons, List.zip_cons_cons, List.lookup_cons, List.lookup_cons]
    cases key == _ with
    | true => exact .some hstands
    | false => exact ih

lemma optionRel_or {α β : Type} {R : α → β → Prop} {x x' : Option α} {y y' : Option β}
    (h : Option.Rel R x y) (h' : Option.Rel R x' y') : Option.Rel R (x.or x') (y.or y') := by
  cases h with
  | some hab => exact .some hab
  | none => exact h'

lemma findSome?_lookup_append (added scope : List (String × Nat)) (outer : Scopes) (key : String) :
    (((added ++ scope) :: outer).findSome? fun scope => scope.lookup key) =
      (added.lookup key).or ((scope :: outer).findSome? fun scope => scope.lookup key) := by
  rw [List.findSome?_cons, List.findSome?_cons, List.lookup_append]
  cases added.lookup key with
  | some id => rfl
  | none => rfl

/-- Declarations of distinct names can be redone in any order. -/
theorem declares_forM {xs : List ι} {ys : List γ}
    (hfg : PermRel (fun x z => name x = name' z ∧
      V.Follows (fun _ _ _ => True) (f x) (g z) Stands) xs ys) (hnames : (xs.map name).Nodup) :
    V.Declares (xs.forM (declareNamed name f)) (ys.forM (declareNamed name' g)) := by
  obtain ⟨zs, hxs, hperm⟩ := hfg
  constructor
  · intro b s a b' s' hran hs
    refine enlarges_forM ?_ hran hs
    intro x hx
    obtain ⟨z, -, hfollows⟩ := exists_mem_right_of_forall₂ hxs hx
    exact hfollows.2.advances
  · intro b s a b' s' hran hs hwithin ρ X t r scope outer scope' outer' hplaced hready hnone
      hdisjoint hscopes hscopes' hvisible
    have hbegins : b.module.Begins b'.module := by
      refine (enlarges_forM ?_ hran hs).begins
      intro x hx
      obtain ⟨z, -, hfollows⟩ := exists_mem_right_of_forall₂ hxs hx
      exact hfollows.2.advances
    obtain ⟨js, rfl, hscopes₁, hjs, happart, hnodes, hconnections⟩ :=
      exists_declaring_jobs hxs hran hs hwithin hscopes
    obtain ⟨js', rfl, hjs'⟩ := Job.exists_perm hperm
    obtain ⟨hnodes', hconnections'⟩ := Job.all_perm hjs'
    have hnodup : (js.map fun j => name' j.item).Nodup := by
      have hsame : xs.map name = (js.map Job.item).map name' := by
        rw [← List.forall₂_eq_eq_eq, List.forall₂_map_left_iff, List.forall₂_map_right_iff]
        exact hxs.imp fun _ _ h => h.1
      rw [hsame, List.map_map] at hnames
      exact hnames
    rw [← hnodes, ← hnodes'] at hnone ⊢
    rw [← hconnections, ← hconnections'] at hdisjoint ⊢
    refine (leads_declaring_jobs (fun j hj => hjs j (hjs'.subset hj))
      (happart.perm hjs'.symm fun h => h.symm) hplaced hready hnone hdisjoint hscopes').imp ?_
    rintro _ t' r' ⟨hready', ρ', ids, hadds, hplaced', hscopes₂, hids⟩
    refine ⟨hready', ⟨_, hscopes₂⟩, ρ', hadds, hplaced', ?_⟩
    intro key
    rw [hscopes₁, hscopes₂, findSome?_lookup_append, findSome?_lookup_append, ← hscopes, ← hscopes']
    refine optionRel_or (rel_lookup_jobs hjs' hnodup hids key) ?_
    exact optionRel_mono (fun _ _ h => h.mono hadds.keeps hbegins) (hvisible key)

end

/-! ### Blocks -/

lemma ran_inBlock {steps : Construct Unit} {b b' : Body} {s s' : Session} {a : Unit}
    (h : (inBlock steps).Ran b s a b' s') : ∃ b₁,
      steps.Ran { b with scopes := [] :: b.scopes } s () b₁ s' ∧
        b' = { b₁ with scopes := b₁.scopes.tail } := by
  obtain ⟨_, _, _, hpush, hrest⟩ := exists_of_ran_bind h
  cases hpush
  obtain ⟨_, b₁, s₁, hsteps, hpop⟩ := exists_of_ran_bind hrest
  cases hpop
  exact ⟨b₁, hsteps, rfl⟩

lemma follows_inBlock {x y u v : Construct Unit} (hxy : V.Declares x y)
    (huv : V.Follows Visible u v fun _ _ _ _ => True) :
    V.Follows Visible (inBlock do x; u) (inBlock do y; v) fun _ _ _ _ => True := by
  -- what the declarations and the steps of the first construction do to a block
  have hleft : ∀ b s a b' s', Construct.Ran (inBlock do x; u) b s a b' s' → s.Sound V.first →
      ∃ b₁ s₁ b₂ added, x.Ran { b with scopes := [] :: b.scopes } s () b₁ s₁ ∧
        u.Ran b₁ s₁ () b₂ s' ∧ Enlarges V.first { b with scopes := [] :: b.scopes } s b₁ s₁ ∧
        Advances V.first b₁ s₁ b₂ s' ∧ b₁.scopes = added :: b.scopes ∧
        b' = { b₂ with scopes := b₂.scopes.tail } := by
    intro b s a b' s' hran hs
    obtain ⟨b₂, hsteps, rfl⟩ := ran_inBlock hran
    obtain ⟨_, b₁, s₁, hran₁, hran₂⟩ := exists_of_ran_bind hsteps
    have henlarges := hxy.enlarges _ s _ b₁ s₁ hran₁ hs
    have hadvances := huv.advances b₁ s₁ _ b₂ s' hran₂ henlarges.sound
    obtain ⟨added, hadded⟩ := henlarges.scopes [] b.scopes rfl
    exact ⟨b₁, s₁, b₂, _, hran₁, hran₂, henlarges, hadvances, hadded, rfl⟩
  constructor
  · intro b s a b' s' hran hs
    obtain ⟨b₁, s₁, b₂, added, -, -, henlarges, hadvances, hadded, rfl⟩ := hleft b s a b' s' hran hs
    refine ⟨hadvances.sound, ?_, ?_, ?_⟩
    · exact henlarges.grows.trans hadvances.grows
    · exact henlarges.begins.trans hadvances.begins
    · dsimp only
      rw [hadvances.scopes, hadded]
      rfl
  · intro b s a b' s' hran hs hwithin ρ X t r hplaced hready hnone hdisjoint hvisible
    obtain ⟨b₁, s₁, b₂, added, hran₁, hran₂, henlarges, hadvances, hadded, rfl⟩ :=
      hleft b s a b' s' hran hs
    have hwithin₂ : V.Within b₂ s' := ⟨hwithin.begins, hwithin.modules⟩
    have hnodes := Set.Ico_union_Ico_eq_Ico (size_le_of_isPrefix henlarges.begins.nodes)
      (size_le_of_isPrefix hadvances.begins.nodes)
    have hconnections := Set.Ico_union_Ico_eq_Ico (size_le_of_isPrefix henlarges.begins.connections)
      (size_le_of_isPrefix hadvances.begins.connections)
    dsimp only at hnone hdisjoint hnodes hconnections ⊢
    rw [← hnodes] at hnone ⊢
    rw [← hconnections, Set.disjoint_union_right] at hdisjoint
    rw [← hconnections]
    refine Leads.bind (Q := fun _ t₀ r₀ => t₀ = { t with scopes := [] :: t.scopes } ∧ r = r₀)
      (leads_modify ⟨rfl, rfl⟩) ?_
    rintro _ _ _ ⟨rfl, rfl⟩
    refine Leads.bind (Q := fun _ t₂ r₂ => t₂.scopes.tail = t.scopes ∧ V.Ready r₂ ∧
      ∃ ρ₂, ρ.Adds ρ₂ (Set.Ico b.module.nodes.size b₁.module.nodes.size ∪
          Set.Ico b₁.module.nodes.size b₂.module.nodes.size) ∧
        Placed V.module t₂.module ρ₂
          (X ∪ (Set.Ico b.module.connections.size b₁.module.connections.size ∪
            Set.Ico b₁.module.connections.size b₂.module.connections.size))) ?_ ?_
    · refine Leads.bind (hxy.redoes _ s () b₁ s₁ hran₁ hs (hwithin₂.earlier hadvances) ρ X _ r [] _ [] _
        hplaced hready (fun k hk => hnone k (.inl hk)) hdisjoint.1 rfl rfl hvisible) ?_
      rintro _ t₁ r₁ ⟨hready₁, ⟨added₁, hadded₁⟩, ρ₁, hadds₁, hplaced₁, hvisible₁⟩
      refine (huv.redoes b₁ s₁ () b₂ s' hran₂ henlarges.sound hwithin₂ ρ₁ _ t₁ r₁ hplaced₁ hready₁
        (hadds₁.eq_none Set.Ico_disjoint_Ico_same fun k hk => hnone k (.inr hk))
        (Set.disjoint_union_left.mpr ⟨hdisjoint.2, Set.Ico_disjoint_Ico_same⟩) hvisible₁).imp ?_
      rintro _ t₂ r₂ ⟨hscopes₂, hready₂, ρ₂, hadds₂, hplaced₂, -⟩
      refine ⟨?_, hready₂, ρ₂, hadds₁.trans hadds₂, ?_⟩
      · rw [hscopes₂, hadded₁]
        rfl
      · rw [← Set.union_assoc]
        exact hplaced₂
    · rintro _ t₂ r₂ ⟨hscopes₂, hready₂, ρ₂, hadds₂, hplaced₂⟩
      exact leads_modify ⟨hscopes₂, hready₂, ρ₂, hadds₂, hplaced₂, trivial⟩

end Replay

/-! ### Statements in another order -/

namespace Statement

/-- The statements are the same up to the order of statements in their blocks. -/
inductive Shuffled : Statement → Statement → Prop where
  | connection (chain : Chain) : Shuffled (.connection chain) (.connection chain)
  | conditional (predicate : StaticExpr) {thens thens₁ thens' elses elses₁ elses' : List Statement} :
    List.Forall₂ Shuffled thens thens₁ → thens₁.Perm thens' →
    List.Forall₂ Shuffled elses elses₁ → elses₁.Perm elses' →
    Shuffled (.conditional predicate thens elses) (.conditional predicate thens' elses')

mutual

/-- No name is declared twice in a block of the statement. -/
def Unambiguous : Statement → Prop
  | .connection _ => True
  | .conditional _ thens elses =>
    ((blockNames thens).Nodup ∧ AllUnambiguous thens) ∧
      (blockNames elses).Nodup ∧ AllUnambiguous elses

def AllUnambiguous : List Statement → Prop
  | [] => True
  | s :: rest => s.Unambiguous ∧ AllUnambiguous rest

end

lemma blockDeclarations_of_forall₂ {block block' : List Statement}
    (h : List.Forall₂ Shuffled block block') :
    blockDeclarations block = blockDeclarations block' := by
  induction h with
  | nil => rfl
  | cons hs _ ih =>
    cases hs with
    | connection chain => rw [blockDeclarations, blockDeclarations, ih]
    | conditional _ _ _ _ _ => exact ih

lemma blockDeclarations_perm {block block' : List Statement} (h : block.Perm block') :
    (blockDeclarations block).Perm (blockDeclarations block') := by
  induction h with
  | nil => exact .refl _
  | cons s _ ih =>
    cases s with
    | connection chain => exact ih.append_left _
    | conditional _ _ _ => exact ih
  | swap s s' l =>
    cases s with
    | connection chain =>
      cases s' with
      | connection chain' =>
        simp only [blockDeclarations, ← List.append_assoc]
        exact List.perm_append_comm.append_right _
      | conditional _ _ _ => exact .refl _
    | conditional _ _ _ => cases s' <;> exact .refl _
  | trans _ _ ih ih' => exact ih.trans ih'

end Statement

namespace Replay

variable {V : Replay} {c c' : BodyContext}

lemma statements_eq (c : BodyContext) (block : List Statement) :
    statements c block = block.forM (statement c) := by
  induction block with
  | nil => rw [statements]; rfl
  | cons s rest ih =>
    rw [statements, ih]
    rfl

/-- A block whose statements are replayed one by one, in any order. -/
lemma follows_block (hV : V.Valid) (hc : Contexts V c c') {block block₁ block' : List Statement}
    (hdeclarations : (Statement.blockDeclarations block).Perm (Statement.blockDeclarations block'))
    (hnames : (Statement.blockNames block).Nodup)
    (hstatements : List.Forall₂ (fun s s' =>
      V.Follows Visible (statement c s) (statement c' s') fun _ _ _ _ => True) block block₁)
    (hperm : block₁.Perm block') :
    V.Follows Visible (inBlock do declareBlock c block; statements c block)
      (inBlock do declareBlock c' block'; statements c' block') fun _ _ _ _ => True := by
  apply follows_inBlock
  · rw [declareBlock_eq, declareBlock_eq]
    rw [← Statement.map_fst_blockDeclarations] at hnames
    refine declares_forM ⟨_, ?_, hdeclarations⟩ hnames
    rw [List.forall₂_same]
    exact fun d _ => ⟨rfl, follows_create hV hc (.inl rfl) d.2⟩
  · rw [statements_eq, statements_eq]
    exact follows_forM lasting_visible ⟨block₁, hstatements, hperm⟩

mutual

lemma follows_statement (hV : V.Valid) (hc : Contexts V c c') : ∀ s {s' : Statement}, s.Shuffled s' →
    s.Unambiguous → V.Follows Visible (statement c s) (statement c' s') fun _ _ _ _ => True
  | .connection chain, _, .connection _, _ => by
    rw [statement, statement]
    refine Follows.bind (R := fun ρ b x x' => x.PlacedAs b ρ x') ?_ lasting_visible fun _ _ =>
      follows_pure fun _ _ _ _ => trivial
    refine (follows_stages hV hc chain).bind lasting_visible fun xs xs' => ?_
    exact (follows_joinStages hV xs xs').pre fun _ _ _ h => h.2
  | .conditional predicate thens elses, _, .conditional _ hthens hthens' helses helses', h => by
    rw [Statement.Unambiguous] at h
    rw [statement, statement, ← StaticExpr.eval_congr hc.bindings]
    apply follows_bind_same
    intro value
    split
    · refine follows_block hV hc ?_ h.1.1 (follows_all hV hc thens hthens h.1.2) hthens'
      rw [Statement.blockDeclarations_of_forall₂ hthens]
      exact Statement.blockDeclarations_perm hthens'
    · refine follows_block hV hc ?_ h.2.1 (follows_all hV hc elses helses h.2.2) helses'
      rw [Statement.blockDeclarations_of_forall₂ helses]
      exact Statement.blockDeclarations_perm helses'

lemma follows_all (hV : V.Valid) (hc : Contexts V c c') : ∀ block {block₁ : List Statement},
    List.Forall₂ Statement.Shuffled block block₁ → Statement.AllUnambiguous block →
    List.Forall₂ (fun s s' =>
      V.Follows Visible (statement c s) (statement c' s') fun _ _ _ _ => True) block block₁
  | [], _, .nil, _ => .nil
  | s :: rest, _, .cons hs hrest, h => by
    rw [Statement.AllUnambiguous] at h
    exact .cons (follows_statement hV hc s hs h.1) (follows_all hV hc rest hrest h.2)

end

/-! ### Whole bodies -/

lemma follows_addNode (hV : V.Valid) {n n' : Node} (hresembles : n.Resembles n')
    {P : Placement → Body → Scopes → Prop} : V.Follows P (addNode n) (addNode n') Stands := by
  constructor
  · intro b s a b' s' hran hs
    obtain ⟨-, rfl, rfl⟩ := ran_addNode hran
    exact advances_addNode n hs (Session.grows_self _)
  · intro b s a b' s' hran hs hwithin
    obtain ⟨rfl, rfl, rfl⟩ := ran_addNode hran
    have hnew : (b.module.addNode n).nodes[b.module.nodes.size]? = some n := by
      simp [Module.addNode]
    rw [Ico_addNode, show Set.Ico b.module.connections.size (b.module.addNode n).connections.size = ∅ from
      Set.Ico_self _]
    intro ρ X t r hplaced hready hnone _ _
    refine (leads_place hV hplaced hready (hnone _ (Set.mem_singleton _))
      (getElem?_of_isPrefix hwithin.begins.nodes hnew) hresembles).imp ?_
    rintro a' t' r' ⟨hscopes, hready', ρ', hadds, hplaced', m, hm⟩
    exact ⟨hscopes, hready', ρ', hadds, hplaced', n, m, hnew, hm⟩

lemma declares_ports (hV : V.Valid) {ports ports' : List Port} (h : List.Forall₂ Port.Like ports ports')
    (hnames : (ports.map Port.name).Nodup) {node : Port → Node}
    (hnode : ∀ q q', q.Like q' → (node q).Resembles (node q')) :
    V.Declares (ports.forM fun q => do bindName q.name (← addNode (node q)))
      (ports'.forM fun q => do bindName q.name (← addNode (node q))) := by
  have hfollows : PermRel (fun q q' => Port.name q = Port.name q' ∧ V.Follows (fun _ _ _ => True)
      (addNode (node q)) (addNode (node q')) Stands) ports ports' := by
    refine ⟨ports', h.imp ?_, .refl _⟩
    intro q q' hq
    exact ⟨hq.name, follows_addNode hV (hnode q q' hq)⟩
  exact declares_forM hfollows hnames

/-- The body of a function is replayed as a whole. -/
theorem leads_function (hV : V.Valid) (hc : Contexts V c c')
    {inputs inputs' outputs outputs' : List Port} (hinputs : List.Forall₂ Port.Like inputs inputs')
    (houtputs : List.Forall₂ Port.Like outputs outputs') (hinputNames : (inputs.map Port.name).Nodup)
    (houtputNames : (outputs.map Port.name).Nodup) {block block₁ block' : List Statement}
    (hblock : List.Forall₂ Statement.Shuffled block block₁) (hperm : block₁.Perm block')
    (hnames : (Statement.blockNames block).Nodup) (hunambiguous : Statement.AllUnambiguous block)
    {i : Invocation} (i' : Invocation) {b : Body} {s s' : Session} {a : Unit}
    (hran : (function c inputs outputs block).Ran ⟨.empty i inputs outputs, [[]], 0⟩ s a b s')
    (hs : s.Sound V.first) (hmodule : V.module = b.module)
    (hmodules : ∀ (k : Nat) m, s'.design.modules[k]? = some m → V.modules[k]? = some m) {r : Session}
    (hready : V.Ready r) :
    (function c' inputs' outputs' block').Leads ⟨.empty i' inputs' outputs', [[]], 0⟩ r V.tooDeep
      (fun _ t r' => V.Ready r' ∧ ∃ ρ, (∀ k, (ρ k).isSome = true ↔ k < V.module.nodes.size) ∧
        Placed V.module t.module ρ (Set.Iio V.module.connections.size)) fun _ _ => V.fails := by
  have hnodes : ∀ q q', Port.Like q q' →
      (Node.mk q.name .input [] [q]).Resembles ⟨q'.name, .input, [], [q']⟩ ∧
      (Node.mk q.name .output [q] []).Resembles ⟨q'.name, .output, [q'], []⟩ := by
    intro q q' hq
    exact ⟨Node.resembles_of_ports (.inl hq.name) .input .nil (.cons hq .nil),
      Node.resembles_of_ports (.inl hq.name) .output (.cons hq .nil) .nil⟩
  have hdeclares := Declares.bind (V := V)
    (declares_ports hV hinputs hinputNames fun q q' hq => (hnodes q q' hq).1)
    (f := fun _ => outputs.forM fun q => do bindName q.name (← addNode ⟨q.name, .output, [q], []⟩))
    (g := fun _ => outputs'.forM fun q => do bindName q.name (← addNode ⟨q.name, .output, [q], []⟩))
    (declares_ports hV houtputs houtputNames fun q q' hq => (hnodes q q' hq).2)
  have hfollows : V.Follows Visible (inBlock do declareBlock c block; statements c block)
      (inBlock do declareBlock c' block'; statements c' block') fun _ _ _ _ => True := by
    refine follows_block hV hc ?_ hnames (follows_all hV hc block hblock hunambiguous) hperm
    rw [Statement.blockDeclarations_of_forall₂ hblock]
    exact Statement.blockDeclarations_perm hperm
  unfold function at hran ⊢
  rw [← bind_assoc] at hran ⊢
  obtain ⟨_, b₁, s₁, hran₁, hran₂⟩ := exists_of_ran_bind hran
  have henlarges := hdeclares.enlarges _ s _ b₁ s₁ hran₁ hs
  have hadvances := hfollows.advances b₁ s₁ _ b s' hran₂ henlarges.sound
  have hwithin : V.Within b s' := ⟨hmodule ▸ b.module.begins_self, hmodules⟩
  have hempty : Visible (fun _ => none) ⟨.empty i inputs outputs, [[]], 0⟩ [[]] :=
    fun name => Option.Rel.none
  refine Leads.bind (hdeclares.redoes _ s _ b₁ s₁ hran₁ hs (hwithin.earlier hadvances)
    (fun _ => none) ∅ ⟨.empty i' inputs' outputs', [[]], 0⟩ r [] [] [] [] (placed_empty _ _ _) hready
    (fun _ _ => rfl) (Set.empty_disjoint _) rfl rfl hempty) ?_
  rintro _ t₁ r₁ ⟨hready₁, -, ρ₁, hadds₁, hplaced₁, hvisible₁⟩
  refine (hfollows.redoes b₁ s₁ _ b s' hran₂ henlarges.sound hwithin ρ₁ _ t₁ r₁ hplaced₁ hready₁
    (hadds₁.eq_none Set.Ico_disjoint_Ico_same fun _ _ => rfl)
    (by rw [Set.empty_union]; exact Set.Ico_disjoint_Ico_same) hvisible₁).imp ?_
  rintro _ t₂ r₂ ⟨-, hready₂, ρ₂, hadds₂, hplaced₂, -⟩
  have hall : ∀ k, (ρ₂ k).isSome = true ↔ k < V.module.nodes.size := by
    intro k
    have hsize := size_le_of_isPrefix hadvances.begins.nodes
    rw [(hadds₁.trans hadds₂).domain, hmodule, Set.mem_union, Set.mem_Ico, Set.mem_Ico]
    simp [Module.empty]
    omega
  have hconnections : ∅ ∪ Set.Ico (Module.empty i inputs outputs).connections.size
      b₁.module.connections.size ∪ Set.Ico b₁.module.connections.size b.module.connections.size =
        Set.Iio V.module.connections.size := by
    have hsize := size_le_of_isPrefix hadvances.begins.connections
    ext k
    rw [hmodule]
    simp [Module.empty]
    omega
  refine ⟨hready₂, ρ₂, hall, ?_⟩
  rw [← hconnections]
  exact hplaced₂

end Replay

end NetlistCompiler
