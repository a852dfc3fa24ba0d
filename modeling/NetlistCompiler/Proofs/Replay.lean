import NetlistCompiler.Proofs.Placement
import NetlistCompiler.Proofs.Sessions

/-!
# Replayed constructions

A construction that has succeeded is replayed: the second construction does the same steps for an
alike context, in a session with other modules and numbers, and possibly in another order. `Follows`
relates the two. What a step of the first construction adds, an interval of nodes and one of
connections, the second one adds somewhere else. Since the intervals of different steps are
disjoint, steps that follow each other can be replayed in any order.
-/

namespace NetlistCompiler

lemma getElem?_of_isPrefix {α : Type} {xs ys : Array α} (h : xs.toList <+: ys.toList) {k : Nat} {a : α}
    (ha : xs[k]? = some a) : ys[k]? = some a := by
  obtain ⟨zs, hzs⟩ := h
  rw [← Array.getElem?_toList] at ha ⊢
  rw [← hzs, List.getElem?_append_left (List.getElem?_eq_some_iff.mp ha).1, ha]

lemma size_le_of_isPrefix {α : Type} {xs ys : Array α} (h : xs.toList <+: ys.toList) :
    xs.size ≤ ys.size := by
  simpa using h.length_le

/-- The nodes and connections of the first module are the first ones of the second. -/
structure Module.Begins (m m' : Module) : Prop where
  nodes : m.nodes.toList <+: m'.nodes.toList
  connections : m.connections.toList <+: m'.connections.toList

namespace Module

variable {m m' m'' : Module}

lemma begins_self (m : Module) : m.Begins m :=
  ⟨List.prefix_rfl, List.prefix_rfl⟩

lemma Begins.trans (h : m.Begins m') (h' : m'.Begins m'') : m.Begins m'' :=
  ⟨h.nodes.trans h'.nodes, h.connections.trans h'.connections⟩

lemma begins_addNode (m : Module) (n : Node) : m.Begins (m.addNode n) := by
  refine ⟨?_, List.prefix_rfl⟩
  rw [addNode, Array.toList_push]
  exact List.prefix_append ..

lemma begins_extend (m : Module) (cs : List Connection) : m.Begins (m.extend [] cs) := by
  constructor
  · simp [extend]
  · simp [extend]

end Module

namespace Elaborate

variable {α β : Type} {s s' : Session}

lemma exists_of_run_bind {x : Elaborate α} {f : α → Elaborate β} {b : β}
    (h : (x >>= f).run s = some (.ok b, s')) :
    ∃ a s₁, x.run s = some (.ok a, s₁) ∧ (f a).run s₁ = some (.ok b, s') := by
  rw [run_bind_step] at h
  split at h
  · cases h
  · next a s₁ hx => exact ⟨a, s₁, hx, h⟩
  · cases h

lemma of_run_ofExpand {x : Expand α} {a : α} (h : (ofExpand x).run s = some (.ok a, s')) :
    x.run = some (.ok a) ∧ s = s' := by
  obtain ⟨r, hr, heq⟩ := Option.map_eq_some_iff.mp h
  cases heq
  exact ⟨hr, rfl⟩

lemma leads_run (x : Elaborate α) (s : Session) :
    x.Leads s True (fun a s' => x.run s = some (.ok a, s')) fun _ _ => True := by
  unfold Leads
  split
  · trivial
  · next h => exact h
  · trivial

lemma leads_ofExpand_of_follows {x : Expand α} {y : Expand β} {R : α → β → Prop} {N : Prop}
    {E : BuildError → Session → Prop} (h : Expand.Follows N R x y) {a : α}
    (ha : x.run = some (.ok a)) {Q : β → Session → Prop} (hQ : ∀ d, R a d → Q d s) :
    (ofExpand y).Leads s N Q E := by
  have hy := h a ha
  apply leads_ofExpand
  · intro hnone
    rwa [hnone] at hy
  · intro d hd
    rw [hd] at hy
    exact hQ d hy
  · intro e he
    rw [he] at hy
    exact hy.elim

end Elaborate

namespace Construct

open Elaborate

variable {α β : Type} {b b' : Body} {s s' : Session}

/-- What a successful step of the construction did. -/
def Ran (x : Construct α) (b : Body) (s : Session) (a : α) (b' : Body) (s' : Session) : Prop :=
  (x.run b).run s = some (.ok (a, b'), s')

lemma exists_of_ran_bind {x : Construct α} {f : α → Construct β} {c : β}
    (h : (x >>= f).Ran b s c b' s') :
    ∃ a b₁ s₁, x.Ran b s a b₁ s₁ ∧ (f a).Ran b₁ s₁ c b' s' := by
  unfold Ran at h
  rw [StateT.run_bind] at h
  obtain ⟨⟨a, b₁⟩, s₁, hx, hf⟩ := exists_of_run_bind h
  exact ⟨a, b₁, s₁, hx, hf⟩

lemma Leads.of_ran {x : Construct α} {N : Prop} {Q : α → Body → Session → Prop}
    {E : BuildError → Session → Prop} (h : x.Leads b s N Q E) {a : α} (hran : x.Ran b s a b' s') :
    Q a b' s' :=
  Elaborate.Leads.of_run h hran

/-- What a step leads to comes from a run of it. -/
lemma Leads.and_ran {x : Construct α} {N : Prop} {Q : α → Body → Session → Prop}
    {E : BuildError → Session → Prop} (h : x.Leads b s N Q E) :
    x.Leads b s N (fun a b' s' => Q a b' s' ∧ x.Ran b s a b' s') E :=
  ((Elaborate.Leads.and h (leads_run (x.run b) s)).imp fun _ _ h => h).impError fun _ _ h => h.1

lemma ran_lift {x : Elaborate α} {a : α} (h : (liftM x : Construct α).Ran b s a b' s') :
    b = b' ∧ x.run s = some (.ok a, s') := by
  have hlift : (liftM x : Construct α).run b = x >>= fun a => pure (a, b) := rfl
  unfold Ran at h
  rw [hlift] at h
  obtain ⟨a', s₁, hx, hend⟩ := exists_of_run_bind h
  cases hend
  exact ⟨rfl, hx⟩

lemma ran_liftExcept {x : Except BuildError α} {a : α}
    (h : (liftM x : Construct α).Ran b s a b' s') : x = .ok a ∧ b = b' ∧ s = s' := by
  cases x with
  | error e => cases h
  | ok c =>
    cases h
    exact ⟨rfl, rfl, rfl⟩

lemma ran_ofExpand {x : Expand α} {a : α}
    (h : (liftM (ofExpand x) : Construct α).Ran b s a b' s') :
    x.run = some (.ok a) ∧ b = b' ∧ s = s' := by
  obtain ⟨hb, hrun⟩ := ran_lift h
  obtain ⟨hx, hs⟩ := of_run_ofExpand hrun
  exact ⟨hx, hb, hs⟩

/-- A step of the first construction leads from sound sessions to sound ones, and adds nodes,
connections and modules without changing names or what is there. -/
structure Advances (p : Program) (b : Body) (s : Session) (b' : Body) (s' : Session) : Prop where
  sound : s'.Sound p
  grows : s.Grows s'
  begins : b.module.Begins b'.module
  scopes : b'.scopes = b.scopes

/-- Every successful run of the step advances. -/
def Advancing (p : Program) (x : Construct α) : Prop :=
  ∀ b s a b' s', x.Ran b s a b' s' → s.Sound p → Advances p b s b' s'

lemma Advances.trans {p : Program} {b₁ b₂ b₃ : Body} {s₁ s₂ s₃ : Session}
    (h : Advances p b₁ s₁ b₂ s₂) (h' : Advances p b₂ s₂ b₃ s₃) : Advances p b₁ s₁ b₃ s₃ :=
  ⟨h'.sound, h.grows.trans h'.grows, h.begins.trans h'.begins, h'.scopes.trans h.scopes⟩

end Construct

open Construct

/-- The names of the nodes in the blocks of a body. -/
abbrev Scopes := List (List (String × Nat))

/-- The setting of a replay: the module that the first construction ends with, the modules of its
session at the end, the two programs, the sessions in which the second construction may go on, and
what has to be the case for it to have no outcome or to fail. -/
structure Replay where
  module : Module
  modules : Array Module
  first : Program
  second : Program
  Ready : Session → Prop
  tooDeep : Prop
  fails : Prop

namespace Replay

variable {V : Replay} {α β α' β' : Type}

structure Valid (V : Replay) : Prop where
  wired : V.module.WellWired
  fits : ∀ n ∈ V.module.nodes, ∀ side, ∀ q ∈ n.ports side, q.Fits
  heads : V.first.SameHeads V.second
  members : V.first.DistinctMembers
  sound : ∀ r, V.Ready r → r.Sound V.second
  mention : ∀ r mentioned, V.Ready r → V.Ready { r with mentioned }

/-- The state is one that the first construction has gone through. -/
structure Within (V : Replay) (b : Body) (s : Session) : Prop where
  begins : b.module.Begins V.module
  modules : ∀ (k : Nat) m, s.design.modules[k]? = some m → V.modules[k]? = some m

lemma Within.earlier {b b' : Body} {s s' : Session} (h : V.Within b' s')
    (hadvances : Advances V.first b s b' s') : V.Within b s :=
  ⟨hadvances.begins.trans h.begins, fun k m hm => h.modules k m (hadvances.grows.modules k m hm)⟩

/-- The second construction can do a step whenever what the step adds, nodes `A` and connections
`B` of the first module, is not there yet. It adds that and nothing else. -/
def Redoes (V : Replay) (H : Placement → Scopes → Prop) (A B : Set Nat) (y : Construct β)
    (Q : Placement → β → Prop) : Prop :=
  ∀ ρ X t r, Placed V.module t.module ρ X → V.Ready r → (∀ a ∈ A, ρ a = none) → Disjoint X B →
    H ρ t.scopes → y.Leads t r V.tooDeep
      (fun c t' r' => t'.scopes = t.scopes ∧ V.Ready r' ∧ ∃ ρ', ρ.Adds ρ' A ∧
        Placed V.module t'.module ρ' (X ∪ B) ∧ Q ρ' c) fun _ _ => V.fails

/-- The second step redoes whatever the first one did. The assumption and the result may speak of
the placement, of the body of the first construction and of the names in the second one. -/
structure Follows (V : Replay) (P : Placement → Body → Scopes → Prop) (x : Construct α)
    (y : Construct β) (R : Placement → Body → α → β → Prop) : Prop where
  advances : Advancing V.first x
  redoes : ∀ b s a b' s', x.Ran b s a b' s' → s.Sound V.first → V.Within b' s' →
    V.Redoes (fun ρ σ => P ρ b σ) (Set.Ico b.module.nodes.size b'.module.nodes.size)
      (Set.Ico b.module.connections.size b'.module.connections.size) y fun ρ c => R ρ b' a c

/-- The assumption stays true while the first construction goes on and nodes are placed. -/
def Lasting (P : Placement → Body → Scopes → Prop) : Prop :=
  ∀ ρ ρ' b b' σ, ρ.Extends ρ' → b.module.Begins b'.module → b'.scopes = b.scopes → P ρ b σ → P ρ' b' σ

section

variable {H H' : Placement → Scopes → Prop} {A A' B B' : Set Nat}

lemma redoes_pure {Q : Placement → β → Prop} {c : β} (h : ∀ ρ σ, H ρ σ → Q ρ c) :
    V.Redoes H ∅ ∅ (pure c) Q := by
  intro ρ X t r hplaced hready _ _ hH
  refine leads_pure ⟨rfl, hready, ρ, ρ.adds_empty, ?_, h ρ _ hH⟩
  rw [Set.union_empty]
  exact hplaced

/-- A step that adds nothing. -/
lemma redoes_silent {y : Construct β} {Q : Placement → β → Prop}
    (h : ∀ ρ X t r, Placed V.module t.module ρ X → V.Ready r → H ρ t.scopes →
      y.Leads t r V.tooDeep (fun c t' r' => t'.module = t.module ∧ t'.scopes = t.scopes ∧
        V.Ready r' ∧ Q ρ c) fun _ _ => V.fails) : V.Redoes H ∅ ∅ y Q := by
  intro ρ X t r hplaced hready _ _ hH
  refine (h ρ X t r hplaced hready hH).imp ?_
  rintro c t' r' ⟨hmodule, hscopes, hready', hQ⟩
  refine ⟨hscopes, hready', ρ, ρ.adds_empty, ?_, hQ⟩
  rw [hmodule, Set.union_empty]
  exact hplaced

lemma Redoes.pre {y : Construct β} {Q : Placement → β → Prop} (h : V.Redoes H A B y Q)
    (hH : ∀ ρ σ, H' ρ σ → H ρ σ) : V.Redoes H' A B y Q :=
  fun ρ X t r hplaced hready hA hB hH' => h ρ X t r hplaced hready hA hB (hH ρ _ hH')

lemma Redoes.post {y : Construct β} {Q Q' : Placement → β → Prop} (h : V.Redoes H A B y Q)
    (hQ : ∀ ρ c, Q ρ c → Q' ρ c) : V.Redoes H A B y Q' := by
  intro ρ X t r hplaced hready hA hB hH
  refine (h ρ X t r hplaced hready hA hB hH).imp ?_
  rintro c t' r' ⟨hscopes, hready', ρ', hadds, hplaced', hc⟩
  exact ⟨hscopes, hready', ρ', hadds, hplaced', hQ ρ' c hc⟩

lemma Redoes.bind {y : Construct β} {g : β → Construct β'} {Q : Placement → β → Prop}
    {Q' : Placement → β' → Prop} (hy : V.Redoes H A B y Q)
    (hH : ∀ ρ ρ' σ, ρ.Extends ρ' → H ρ σ → H ρ' σ)
    (hg : ∀ c, V.Redoes (fun ρ σ => H ρ σ ∧ Q ρ c) A' B' (g c) Q') (hA : Disjoint A A')
    (hB : Disjoint B B') : V.Redoes H (A ∪ A') (B ∪ B') (y >>= g) Q' := by
  intro ρ X t r hplaced hready hnone hdisjoint hρ
  rw [Set.disjoint_union_right] at hdisjoint
  refine Leads.bind (hy ρ X t r hplaced hready (fun a ha => hnone a (.inl ha)) hdisjoint.1 hρ) ?_
  rintro c t₁ r₁ ⟨hscopes₁, hready₁, ρ₁, hadds₁, hplaced₁, hQ⟩
  have hnone₁ := hadds₁.eq_none hA fun a ha => hnone a (.inr ha)
  have hH₁ : H ρ₁ t₁.scopes := hscopes₁ ▸ hH ρ ρ₁ _ hadds₁.keeps hρ
  refine (hg c ρ₁ (X ∪ B) t₁ r₁ hplaced₁ hready₁ hnone₁
    (Set.disjoint_union_left.mpr ⟨hdisjoint.2, hB⟩) ⟨hH₁, hQ⟩).imp ?_
  rintro d t₂ r₂ ⟨hscopes₂, hready₂, ρ₂, hadds₂, hplaced₂, hQ'⟩
  refine ⟨hscopes₂.trans hscopes₁, hready₂, ρ₂, hadds₁.trans hadds₂, ?_, hQ'⟩
  rw [← Set.union_assoc]
  exact hplaced₂

end

section

variable {P P' : Placement → Body → Scopes → Prop} {R : Placement → Body → α → β → Prop}

lemma Follows.pre {x : Construct α} {y : Construct β} (h : V.Follows P x y R)
    (hP : ∀ ρ b σ, P' ρ b σ → P ρ b σ) : V.Follows P' x y R :=
  ⟨h.advances, fun b s a b' s' hran hs hwithin =>
    (h.redoes b s a b' s' hran hs hwithin).pre fun ρ σ => hP ρ b σ⟩

/-- A fact that is part of the assumption may be used. -/
lemma follows_of_fact {x : Construct α} {y : Construct β} {F : Prop}
    (hadvances : Advancing V.first x) (h : F → V.Follows P x y R) :
    V.Follows (fun ρ b σ => P ρ b σ ∧ F) x y R := by
  refine ⟨hadvances, ?_⟩
  intro b s a b' s' hran hs hwithin ρ X t r hplaced hready hA hB hP
  exact (h hP.2).redoes b s a b' s' hran hs hwithin ρ X t r hplaced hready hA hB hP.1

lemma follows_pure {a : α} {c : β} (h : ∀ ρ b σ, P ρ b σ → R ρ b a c) :
    V.Follows P (pure a) (pure c) R := by
  constructor
  · intro b s a' b' s' hran hs
    cases hran
    exact ⟨hs, s.grows_self, b.module.begins_self, rfl⟩
  · intro b s a' b' s' hran _ _
    cases hran
    rw [Set.Ico_self, Set.Ico_self]
    exact redoes_pure fun ρ σ => h ρ b σ

lemma follows_throw (e : BuildError) (y : Construct β) :
    V.Follows P (throw e : Construct α) y R := by
  constructor
  · intro b s a b' s' hran
    cases hran
  · intro b s a b' s' hran
    cases hran

lemma Follows.bind [hβ : Nonempty β] {x : Construct α} {y : Construct β} {f : α → Construct α'}
    {g : β → Construct β'} {S : Placement → Body → α' → β' → Prop} (hx : V.Follows P x y R)
    (hP : Lasting P)
    (hfg : ∀ a c, V.Follows (fun ρ b σ => P ρ b σ ∧ R ρ b a c) (f a) (g c) S) :
    V.Follows P (x >>= f) (y >>= g) S := by
  have hf : ∀ a, Advancing V.first (f a) := fun a => (hfg a hβ.some).advances
  constructor
  · intro b s a' b' s' hran hs
    obtain ⟨a, b₁, s₁, hran₁, hran₂⟩ := exists_of_ran_bind hran
    have hadvances := hx.advances b s a b₁ s₁ hran₁ hs
    exact hadvances.trans (hf a b₁ s₁ a' b' s' hran₂ hadvances.sound)
  · intro b s a' b' s' hran hs hwithin
    obtain ⟨a, b₁, s₁, hran₁, hran₂⟩ := exists_of_ran_bind hran
    have hadvances₁ := hx.advances b s a b₁ s₁ hran₁ hs
    have hadvances₂ := hf a b₁ s₁ a' b' s' hran₂ hadvances₁.sound
    have hnodes₁ := size_le_of_isPrefix hadvances₁.begins.nodes
    have hnodes₂ := size_le_of_isPrefix hadvances₂.begins.nodes
    have hconnections₁ := size_le_of_isPrefix hadvances₁.begins.connections
    have hconnections₂ := size_le_of_isPrefix hadvances₂.begins.connections
    rw [← Set.Ico_union_Ico_eq_Ico hnodes₁ hnodes₂,
      ← Set.Ico_union_Ico_eq_Ico hconnections₁ hconnections₂]
    refine (hx.redoes b s a b₁ s₁ hran₁ hs (hwithin.earlier hadvances₂)).bind ?_ ?_
      (Set.Ico_disjoint_Ico_same) (Set.Ico_disjoint_Ico_same)
    · intro ρ ρ' σ hρ hH
      exact hP ρ ρ' b b σ hρ b.module.begins_self rfl hH
    · intro c
      refine ((hfg a c).redoes b₁ s₁ a' b' s' hran₂ hadvances₁.sound hwithin).pre ?_
      rintro ρ σ ⟨hH, hR⟩
      exact ⟨hP ρ ρ b b₁ σ ρ.extends_self hadvances₁.begins hadvances₁.scopes hH, hR⟩

/-- The first step has the same plain result on both sides. -/
lemma follows_bind_same {x : Except BuildError α'} {f : α' → Construct α} {g : α' → Construct β}
    (hfg : ∀ a, V.Follows P (f a) (g a) R) :
    V.Follows P ((liftM x : Construct α') >>= f) ((liftM x : Construct α') >>= g) R := by
  cases x with
  | error e => exact follows_throw e _
  | ok a => exact hfg a

/-- What the bodies of the two constructions have in common. -/
structure View (ρ : Placement) (b t : Body) : Prop where
  stands : ∀ a x, ρ a = some x → t.module.nodes[x.1]? = some x.2
  resembles : ∀ a x n, ρ a = some x → b.module.nodes[a]? = some n → n.Resembles x.2

lemma follows_get : V.Follows P get get fun ρ b b₁ t => b₁ = b ∧ View ρ b t := by
  constructor
  · intro b s a b' s' hran hs
    cases hran
    exact ⟨hs, s.grows_self, b.module.begins_self, rfl⟩
  · intro b s a b' s' hran _ hwithin
    cases hran
    rw [Set.Ico_self, Set.Ico_self]
    apply redoes_silent
    intro ρ X t r hplaced hready _
    refine leads_get ⟨rfl, rfl, hready, rfl, fun a x hx => (hplaced.node a x hx).1, ?_⟩
    intro a x n hx hn
    obtain ⟨-, n', hn', hresembles⟩ := hplaced.node a x hx
    rw [getElem?_of_isPrefix hwithin.begins.nodes hn] at hn'
    cases hn'
    exact hresembles

end

/-! ### Steps in another order -/

/-- A part of the first construction with what it added: nodes, connections and, where it declares
a name, the node of that name. -/
structure Job (γ : Type) where
  nodes : Set Nat
  connections : Set Nat
  id : Nat
  item : γ

namespace Job

variable {γ : Type}

def allNodes (js : List (Job γ)) : Set Nat :=
  {a | ∃ j ∈ js, a ∈ j.nodes}

def allConnections (js : List (Job γ)) : Set Nat :=
  {k | ∃ j ∈ js, k ∈ j.connections}

def Apart (j j' : Job γ) : Prop :=
  Disjoint j.nodes j'.nodes ∧ Disjoint j.connections j'.connections

lemma Apart.symm {j j' : Job γ} (h : Apart j j') : Apart j' j :=
  ⟨h.1.symm, h.2.symm⟩

lemma allNodes_cons (j : Job γ) (js : List (Job γ)) :
    allNodes (j :: js) = j.nodes ∪ allNodes js := by
  ext a
  simp [allNodes]

lemma allConnections_cons (j : Job γ) (js : List (Job γ)) :
    allConnections (j :: js) = j.connections ∪ allConnections js := by
  ext k
  simp [allConnections]

lemma disjoint_all {j : Job γ} {js : List (Job γ)} (h : ∀ j' ∈ js, Apart j j') :
    Disjoint j.nodes (allNodes js) ∧ Disjoint j.connections (allConnections js) := by
  constructor
  · rw [Set.disjoint_left]
    rintro a ha ⟨j', hj', ha'⟩
    exact Set.disjoint_left.mp (h j' hj').1 ha ha'
  · rw [Set.disjoint_left]
    rintro k hk ⟨j', hj', hk'⟩
    exact Set.disjoint_left.mp (h j' hj').2 hk hk'

/-- A job before others is apart from them. -/
lemma apart_of_subset {j : Job γ} {js : List (Job γ)} (hj : j ∈ js) {a a₁ a₂ k k₁ k₂ : Nat}
    (hnodes : allNodes js = Set.Ico a₁ a₂) (hconnections : allConnections js = Set.Ico k₁ k₂)
    {id : Nat} {item : γ} : Apart ⟨Set.Ico a a₁, Set.Ico k k₁, id, item⟩ j := by
  have hsubset : j.nodes ⊆ allNodes js := fun l hl => ⟨j, hj, hl⟩
  have hsubset' : j.connections ⊆ allConnections js := fun l hl => ⟨j, hj, hl⟩
  rw [hnodes] at hsubset
  rw [hconnections] at hsubset'
  exact ⟨Set.Ico_disjoint_Ico_same.mono_right hsubset,
    Set.Ico_disjoint_Ico_same.mono_right hsubset'⟩

/-- Jobs can be put into the order of their items. -/
lemma exists_perm {js : List (Job γ)} {ys : List γ} (h : (js.map item).Perm ys) :
    ∃ js' : List (Job γ), js'.map item = ys ∧ js'.Perm js := by
  have hitems : List.Forall₂ (fun (y : γ) (j : Job γ) => j.item = y) (js.map item) js := by
    rw [List.forall₂_map_left_iff, List.forall₂_same]
    exact fun _ _ => rfl
  obtain ⟨js', hjs', hperm⟩ := List.perm_comp_forall₂ h.symm hitems
  have heq : List.Forall₂ Eq (js'.map item) ys := by
    rw [List.forall₂_map_left_iff]
    exact hjs'.flip
  rw [List.forall₂_eq_eq_eq] at heq
  exact ⟨js', heq, hperm⟩

lemma all_perm {js js' : List (Job γ)} (h : js'.Perm js) :
    allNodes js' = allNodes js ∧ allConnections js' = allConnections js := by
  constructor
  · ext a
    simp only [allNodes, Set.mem_ofPred_eq, h.mem_iff]
  · ext k
    simp only [allConnections, Set.mem_ofPred_eq, h.mem_iff]

end Job

section

variable {ι γ : Type} {f : ι → Construct PUnit} {g : γ → Construct PUnit}
  {P : Placement → Body → Scopes → Prop}

lemma redoes_jobs {H : Placement → Scopes → Prop} (hH : ∀ ρ ρ' σ, ρ.Extends ρ' → H ρ σ → H ρ' σ)
    {js : List (Job γ)}
    (hjs : ∀ j ∈ js, V.Redoes H j.nodes j.connections (g j.item) fun _ _ => True)
    (happart : js.Pairwise Job.Apart) :
    V.Redoes H (Job.allNodes js) (Job.allConnections js) ((js.map Job.item).forM g)
      fun _ _ => True := by
  induction js with
  | nil =>
    have hnodes : Job.allNodes ([] : List (Job γ)) = ∅ := by simp [Job.allNodes]
    have hconnections : Job.allConnections ([] : List (Job γ)) = ∅ := by simp [Job.allConnections]
    rw [hnodes, hconnections]
    exact redoes_pure fun _ _ _ => trivial
  | cons j js ih =>
    rw [List.forall_mem_cons] at hjs
    rw [List.pairwise_cons] at happart
    obtain ⟨hnodes, hconnections⟩ := Job.disjoint_all happart.1
    rw [Job.allNodes_cons, Job.allConnections_cons]
    exact hjs.1.bind hH (fun _ => (ih hjs.2 happart.2).pre fun _ _ h => h.1) hnodes hconnections

lemma advancing_forM {p : Program} {xs : List ι} (hf : ∀ x ∈ xs, Advancing p (f x)) :
    Advancing p (xs.forM f) := by
  induction xs with
  | nil =>
    intro b s a b' s' hran hs
    cases hran
    exact ⟨hs, s.grows_self, b.module.begins_self, rfl⟩
  | cons x xs ih =>
    intro b s a b' s' hran hs
    rw [List.forall_mem_cons] at hf
    obtain ⟨_, b₁, s₁, hran₁, hran₂⟩ := exists_of_ran_bind hran
    have hadvances := hf.1 b s _ b₁ s₁ hran₁ hs
    exact hadvances.trans (ih hf.2 b₁ s₁ a b' s' hran₂ hadvances.sound)

/-- What successive steps of the first construction did, job by job. -/
lemma exists_jobs (hP : Lasting P) {xs : List ι} {zs : List γ}
    (hfg : List.Forall₂ (fun x z => V.Follows P (f x) (g z) fun _ _ _ _ => True) xs zs)
    {b b' : Body} {s s' : Session} {a : PUnit} (hran : Construct.Ran (xs.forM f) b s a b' s')
    (hs : s.Sound V.first) (hwithin : V.Within b' s') :
    ∃ js : List (Job γ), js.map Job.item = zs ∧
      (∀ j ∈ js, V.Redoes (fun ρ σ => P ρ b σ) j.nodes j.connections (g j.item) fun _ _ => True) ∧
      js.Pairwise Job.Apart ∧
      Job.allNodes js = Set.Ico b.module.nodes.size b'.module.nodes.size ∧
      Job.allConnections js = Set.Ico b.module.connections.size b'.module.connections.size := by
  induction hfg generalizing b s with
  | nil =>
    cases hran
    exact ⟨[], rfl, by simp, .nil, by simp [Job.allNodes], by simp [Job.allConnections]⟩
  | @cons x z xs zs hx hxs ih =>
    obtain ⟨_, b₁, s₁, hran₁, hran₂⟩ := exists_of_ran_bind hran
    have hadvances₁ := hx.advances b s _ b₁ s₁ hran₁ hs
    have hadvances₂ : Advances V.first b₁ s₁ b' s' := by
      refine advancing_forM ?_ b₁ s₁ a b' s' hran₂ hadvances₁.sound
      intro x' hx'
      obtain ⟨z', -, hfollows⟩ := exists_mem_right_of_forall₂ hxs hx'
      exact hfollows.advances
    obtain ⟨js, hitems, hjs, happart, hnodes, hconnections⟩ := ih hran₂ hadvances₁.sound
    refine ⟨⟨Set.Ico b.module.nodes.size b₁.module.nodes.size,
      Set.Ico b.module.connections.size b₁.module.connections.size, 0, z⟩ :: js, ?_, ?_, ?_, ?_, ?_⟩
    · rw [List.map_cons, hitems]
    · rw [List.forall_mem_cons]
      refine ⟨hx.redoes b s _ b₁ s₁ hran₁ hs (hwithin.earlier hadvances₂), ?_⟩
      intro j hj
      exact (hjs j hj).pre fun ρ σ =>
        hP ρ ρ b b₁ σ ρ.extends_self hadvances₁.begins hadvances₁.scopes
    · refine List.pairwise_cons.mpr ⟨?_, happart⟩
      intro j hj
      exact Job.apart_of_subset hj hnodes hconnections
    · rw [Job.allNodes_cons, hnodes]
      exact Set.Ico_union_Ico_eq_Ico (size_le_of_isPrefix hadvances₁.begins.nodes)
        (size_le_of_isPrefix hadvances₂.begins.nodes)
    · rw [Job.allConnections_cons, hconnections]
      exact Set.Ico_union_Ico_eq_Ico (size_le_of_isPrefix hadvances₁.begins.connections)
        (size_le_of_isPrefix hadvances₂.begins.connections)

/-- Steps that follow those of the first construction one by one can be done in any order. -/
theorem follows_forM (hP : Lasting P) {xs : List ι} {ys : List γ}
    (hfg : PermRel (fun x z => V.Follows P (f x) (g z) fun _ _ _ _ => True) xs ys) :
    V.Follows P (xs.forM f) (ys.forM g) fun _ _ _ _ => True := by
  obtain ⟨zs, hxs, hperm⟩ := hfg
  constructor
  · apply advancing_forM
    intro x hx
    obtain ⟨z, -, hfollows⟩ := exists_mem_right_of_forall₂ hxs hx
    exact hfollows.advances
  · intro b s a b' s' hran hs hwithin
    obtain ⟨js, rfl, hjs, happart, hnodes, hconnections⟩ := exists_jobs hP hxs hran hs hwithin
    obtain ⟨js', rfl, hjs'⟩ := Job.exists_perm hperm
    obtain ⟨hnodes', hconnections'⟩ := Job.all_perm hjs'
    rw [← hnodes, ← hconnections, ← hnodes', ← hconnections']
    refine redoes_jobs ?_ (fun j hj => hjs j (hjs'.subset hj))
      (happart.perm hjs'.symm fun h => h.symm)
    intro ρ ρ' σ hρ h
    exact hP ρ ρ' b b σ hρ b.module.begins_self rfl h

end

end Replay

end NetlistCompiler
