import NetlistCompiler.Proofs.ReplayedDesigns

/-!
# Mirrored bodies

A construction that is replayed in the same order is mirrored: after every step the nodes of the two
modules have the same numbers and the same names, and the names in scope refer to the same numbers.
Only the connections that one step makes may come in another order, since a record may list its
fields in another order.
-/

namespace NetlistCompiler

open Construct

namespace Replay

variable {V : Replay} {α β α' β' : Type} {c c' : BodyContext} {b b' t : Body} {s s' r : Session}

/-! ### Bodies in step -/

/-- All names are those of nodes with numbers below `k`. -/
def Below (σ : Scopes) (k : Nat) : Prop :=
  ∀ scope ∈ σ, ∀ entry ∈ scope, entry.2 < k

/-- The two constructions have come equally far: nodes have the same numbers and names, names in
scope refer to the same nodes, and the connections made so far are the same. -/
structure InStep (V : Replay) (b t : Body) : Prop where
  placed : Placed V.module t.module (.inPlace t.module) (Set.Iio b.module.connections.size)
  names : t.module.nodes.toList.map Node.name = b.module.nodes.toList.map Node.name
  scopes : t.scopes = b.scopes
  known : Below b.scopes b.module.nodes.size
  anonymous : t.anonymous = b.anonymous

lemma InStep.size (h : V.InStep b t) : t.module.nodes.size = b.module.nodes.size := by
  simpa using congrArg List.length h.names

lemma InStep.stands (h : V.InStep b t) {k : Nat} (hk : k < b.module.nodes.size) :
    Stands (.inPlace t.module) b k k := by
  have hk' : k < t.module.nodes.size := h.size ▸ hk
  refine ⟨b.module.nodes[k], t.module.nodes[k], Array.getElem?_eq_getElem hk, ?_⟩
  exact Placement.inPlace_eq_some.mpr ⟨rfl, Array.getElem?_eq_getElem hk'⟩

/-- A node that stands in its place has the same number in both modules. -/
lemma Stands.of_inPlace {m : Module} {a a' : Nat} (h : Stands (.inPlace m) b a a') :
    a' = a ∧ a < b.module.nodes.size := by
  obtain ⟨n, n', hn, hplace⟩ := h
  exact ⟨(Placement.inPlace_eq_some.mp hplace).1, (Array.getElem?_eq_some_iff.mp hn).1⟩

lemma InStep.setScopes (h : V.InStep b t) {σ : Scopes} (hσ : Below σ b.module.nodes.size) :
    V.InStep { b with scopes := σ } { t with scopes := σ } :=
  ⟨h.placed, h.names, rfl, hσ, h.anonymous⟩

lemma InStep.visible (h : V.InStep b t) : Visible (.inPlace t.module) b t.scopes := by
  intro name
  rw [h.scopes]
  cases hfound : b.scopes.findSome? fun scope => scope.lookup name with
  | none => exact .none
  | some id =>
    obtain ⟨scope, hscope, hlookup⟩ := List.exists_of_findSome?_eq_some hfound
    exact .some (h.stands (h.known scope hscope _ (mem_of_lookup_eq_some hlookup)))

/-! ### Steps in step -/

/-- A step of the first construction leads from sound sessions to sound ones and adds to what is
there; it may also change the names in scope. -/
structure GoesOn (p : Program) (b : Body) (s : Session) (b' : Body) (s' : Session) : Prop where
  sound : s'.Sound p
  grows : s.Grows s'
  begins : b.module.Begins b'.module

lemma GoesOn.trans {p : Program} {b₁ b₂ b₃ : Body} {s₁ s₂ s₃ : Session}
    (h : GoesOn p b₁ s₁ b₂ s₂) (h' : GoesOn p b₂ s₂ b₃ s₃) : GoesOn p b₁ s₁ b₃ s₃ :=
  ⟨h'.sound, h.grows.trans h'.grows, h.begins.trans h'.begins⟩

lemma Within.of_goesOn (h : V.Within b' s') (hgoesOn : GoesOn V.first b s b' s') : V.Within b s :=
  ⟨hgoesOn.begins.trans h.begins, fun k m hm => h.modules k m (hgoesOn.grows.modules k m hm)⟩

/-- Every successful run of the step goes on in this way. -/
def Going (p : Program) (x : Construct α) : Prop :=
  ∀ b s a b' s', x.Ran b s a b' s' → s.Sound p → GoesOn p b s b' s'

lemma going_of_advancing {p : Program} {x : Construct α} (h : Advancing p x) : Going p x := by
  intro b s a b' s' hran hs
  obtain ⟨hsound, hgrows, hbegins, -⟩ := h b s a b' s' hran hs
  exact ⟨hsound, hgrows, hbegins⟩

/-- The second step keeps in step with the first one. The assumption and the result may speak of the
placement of nodes and of the body of the first construction. -/
structure Mirrors (V : Replay) (P : Placement → Body → Prop) (x : Construct α) (y : Construct β)
    (R : Placement → Body → α → β → Prop) : Prop where
  goesOn : Going V.first x
  mirrors : ∀ b s a b' s', x.Ran b s a b' s' → s.Sound V.first → V.Within b' s' →
    ∀ t r, V.InStep b t → V.Ready r → P (.inPlace t.module) b →
      y.Leads t r V.tooDeep (fun d t' r' => V.Ready r' ∧ V.InStep b' t' ∧
        Placement.Extends (.inPlace t.module) (.inPlace t'.module) ∧
          R (.inPlace t'.module) b' a d) fun _ _ => V.fails

/-- The assumption stays true while the first construction goes on and nodes are placed. -/
def Persists (P : Placement → Body → Prop) : Prop :=
  ∀ ρ ρ' b b', ρ.Extends ρ' → b.module.Begins b'.module → P ρ b → P ρ' b'

lemma persists_true : Persists fun _ _ => True :=
  fun _ _ _ _ _ _ h => h

section

variable {P P' : Placement → Body → Prop} {x : Construct α} {y : Construct β}
  {R : Placement → Body → α → β → Prop}

lemma Mirrors.pre (h : V.Mirrors P x y R) (hP : ∀ ρ b, P' ρ b → P ρ b) : V.Mirrors P' x y R :=
  ⟨h.goesOn, fun b s a b' s' hran hs hwithin t r hstep hready hP' =>
    h.mirrors b s a b' s' hran hs hwithin t r hstep hready (hP _ _ hP')⟩

/-- What follows from the assumption may be used. -/
lemma mirrors_of_fact {F : Prop} (hF : ∀ m b, P (.inPlace m) b → F) (hx : Going V.first x)
    (h : F → V.Mirrors P x y R) : V.Mirrors P x y R :=
  ⟨hx, fun b s a b' s' hran hs hwithin t r hstep hready hP =>
    (h (hF _ _ hP)).mirrors b s a b' s' hran hs hwithin t r hstep hready hP⟩

lemma mirrors_pure {a : α} {d : β} (h : ∀ ρ b, P ρ b → R ρ b a d) :
    V.Mirrors P (pure a) (pure d) R := by
  constructor
  · rintro b s _ _ _ ⟨⟩ hs
    exact ⟨hs, s.grows_self, b.module.begins_self⟩
  · rintro b s _ _ _ ⟨⟩ _ _ t r hstep hready hP
    exact leads_pure ⟨hready, hstep, Placement.extends_self _, h _ b hP⟩

lemma mirrors_throw (e : BuildError) : V.Mirrors P (throw e : Construct α) y R := by
  constructor
  · rintro b s a b' s' ⟨⟩
  · rintro b s a b' s' ⟨⟩

lemma Mirrors.bind [hβ : Nonempty β] {f : α → Construct α'} {g : β → Construct β'}
    {S : Placement → Body → α' → β' → Prop} (hx : V.Mirrors P x y R) (hP : Persists P)
    (hfg : ∀ a d, V.Mirrors (fun ρ b => P ρ b ∧ R ρ b a d) (f a) (g d) S) :
    V.Mirrors P (x >>= f) (y >>= g) S := by
  constructor
  · intro b s a' b' s' hran hs
    obtain ⟨a, b₁, s₁, hran₁, hran₂⟩ := exists_of_ran_bind hran
    have hgoesOn := hx.goesOn b s a b₁ s₁ hran₁ hs
    exact hgoesOn.trans ((hfg a hβ.some).goesOn b₁ s₁ a' b' s' hran₂ hgoesOn.sound)
  · intro b s a' b' s' hran hs hwithin t r hstep hready hPt
    obtain ⟨a, b₁, s₁, hran₁, hran₂⟩ := exists_of_ran_bind hran
    have hgoesOn₁ := hx.goesOn b s a b₁ s₁ hran₁ hs
    have hgoesOn₂ := (hfg a hβ.some).goesOn b₁ s₁ a' b' s' hran₂ hgoesOn₁.sound
    refine Leads.bind (hx.mirrors b s a b₁ s₁ hran₁ hs (hwithin.of_goesOn hgoesOn₂) t r hstep hready
      hPt) ?_
    rintro d t₁ r₁ ⟨hready₁, hstep₁, hextends₁, hR⟩
    refine ((hfg a d).mirrors b₁ s₁ a' b' s' hran₂ hgoesOn₁.sound hwithin t₁ r₁ hstep₁ hready₁
      ⟨hP _ _ b b₁ hextends₁ hgoesOn₁.begins hPt, hR⟩).imp ?_
    rintro d' t₂ r₂ ⟨hready₂, hstep₂, hextends₂, hS⟩
    exact ⟨hready₂, hstep₂, hextends₁.trans hextends₂, hS⟩

/-- The first step has the same plain result on both sides. -/
lemma mirrors_bind_same {z : Except BuildError α'} {f : α' → Construct α} {g : α' → Construct β}
    (hfg : ∀ a, V.Mirrors P (f a) (g a) R) :
    V.Mirrors P ((liftM z : Construct α') >>= f) ((liftM z : Construct α') >>= g) R := by
  cases z with
  | error e => exact mirrors_throw e
  | ok a => exact hfg a

lemma mirrors_forM {ι γ : Type} {f : ι → Construct PUnit} {g : γ → Construct PUnit} {xs : List ι}
    {zs : List γ} (h : List.Forall₂ (fun x z =>
      V.Mirrors (fun _ _ => True) (f x) (g z) fun _ _ _ _ => True) xs zs) :
    V.Mirrors (fun _ _ => True) (xs.forM f) (zs.forM g) fun _ _ _ _ => True := by
  induction h with
  | nil => exact mirrors_pure fun _ _ _ => trivial
  | cons hx _ ih => exact hx.bind persists_true fun _ _ => ih.pre fun _ _ _ => trivial

/-! ### Single steps -/

/-- A step that only makes connections. -/
lemma mirrors_of_connecting {H : Placement → Body → Scopes → Prop} (h : V.Follows H x y R)
    (hH : ∀ b t, V.InStep b t → P (.inPlace t.module) b → H (.inPlace t.module) b t.scopes)
    (hx : Connecting x) (hy : Connecting y) : V.Mirrors P x y R := by
  refine ⟨going_of_advancing h.advances, ?_⟩
  intro b s a b' s' hran hs hwithin t r hstep hready hP
  have hredoes := h.redoes b s a b' s' hran hs hwithin
  obtain ⟨rfl, cs, rfl⟩ := hx b s a b' s' hran
  have hnodes : (b.module.extend [] cs).nodes = b.module.nodes := by simp [Module.extend]
  have hsize : b.module.connections.size ≤ (b.module.extend [] cs).connections.size :=
    size_le_of_isPrefix (b.module.begins_extend cs).connections
  dsimp only at hredoes
  rw [hnodes, Set.Ico_self] at hredoes
  refine (hredoes _ (Set.Iio b.module.connections.size) t r hstep.placed hready ?_ ?_
    (hH b t hstep hP)).and_ran.imp ?_
  · intro k hk
    exact hk.elim
  · rw [Set.disjoint_left]
    intro k hk hk'
    exact absurd hk (not_lt.mpr hk'.1)
  rintro d t' r' ⟨⟨-, hready', ρ, hadds, hplaced, hR⟩, hran'⟩
  obtain ⟨rfl, cs', rfl⟩ := hy t r d t' r' hran'
  have hnodes' : (t.module.extend [] cs').nodes = t.module.nodes := by simp [Module.extend]
  -- neither side has a new node, so that nodes stay in their places
  have hplace : Placement.inPlace (t.module.extend [] cs') = .inPlace t.module := by
    unfold Placement.inPlace
    rw [hnodes']
  obtain rfl := hadds.eq_of_empty
  rw [Set.Iio_union_Ico_eq_Iio hsize] at hplaced
  dsimp only at hplaced ⊢
  rw [hplace]
  refine ⟨hready', ⟨?_, ?_, hstep.scopes, ?_, hstep.anonymous⟩, Placement.extends_self _, hR⟩
  · dsimp only
    rw [hplace]
    exact hplaced
  · dsimp only
    rw [hnodes, hnodes']
    exact hstep.names
  · dsimp only
    rw [hnodes]
    exact hstep.known

end

/-- The step adds one node, which has the given name, and returns its number. -/
def Adding (name : String) (x : Construct Nat) : Prop :=
  ∀ b s a b' s', x.Ran b s a b' s' → a = b.module.nodes.size ∧
    ∃ n, n.name = name ∧ b' = { b with module := b.module.addNode n }

lemma adding_addNode (n : Node) : Adding n.name (addNode n) := by
  intro b s a b' s' hran
  obtain ⟨rfl, rfl, rfl⟩ := ran_addNode hran
  exact ⟨rfl, n, rfl, rfl⟩

lemma Instanced.name_eq {name : String} {i : Invocation} {n : Node}
    (h : Instanced c name i s s' n) : n.name = name := by
  cases h <;> rfl

lemma Created.name_eq {name : String} {body : NodeBody} {n : Node}
    (h : Created c name s s' body n) : n.name = name := by
  cases h with
  | invoked _ hinstanced => exact hinstanced.name_eq
  | pass _ _ => rfl

lemma adding_create (name : String) (body : NodeBody) : Adding name (create c name body) := by
  intro b s a b' s' hran
  obtain ⟨rfl, n, rfl, hcreated⟩ := ran_create hran
  exact ⟨rfl, n, hcreated.name_eq, rfl⟩

/-- If a new node is placed at the end, then all nodes are in their places again. -/
lemma eq_inPlace_addNode {m t : Module} {ρ : Placement} {X : Set Nat} {n n' : Node}
    (hadds : (Placement.inPlace t).Adds ρ {t.nodes.size}) (hplaced : Placed m (t.addNode n) ρ X)
    (hlast : ρ t.nodes.size = some (t.nodes.size, n')) : ρ = .inPlace (t.addNode n) := by
  have hnodes : ∀ k x, ρ k = some x → x.1 = k → ρ k = Placement.inPlace (t.addNode n) k := by
    intro k x hx hxk
    have hget := (hplaced.node k x hx).1
    rw [hx, Placement.inPlace_eq_some.mpr ⟨hxk, hxk ▸ hget⟩]
  funext k
  by_cases hk : k < t.nodes.size
  · have hold : Placement.inPlace t k = some (k, t.nodes[k]) := by simp [Placement.inPlace, hk]
    exact hnodes k _ (hadds.keeps k _ hold) rfl
  · by_cases hend : k = t.nodes.size
    · subst hend
      exact hnodes _ _ hlast rfl
    · have hnone : ¬ (ρ k).isSome = true := by
        rw [hadds.domain]
        simp [Placement.inPlace, hk, hend]
      have hout : (t.addNode n).nodes.size ≤ k := by
        simp only [Module.addNode, Array.size_push]
        omega
      rw [Option.not_isSome_iff_eq_none.mp hnone]
      simp [Placement.inPlace, hout]

/-- A step that adds one node. -/
lemma mirrors_of_adding {P : Placement → Body → Prop} {x y : Construct Nat}
    (h : V.Follows (fun _ _ _ => True) x y Stands) {name : String} (hx : Adding name x)
    (hy : Adding name y) : V.Mirrors P x y Stands := by
  refine ⟨going_of_advancing h.advances, ?_⟩
  intro b s a b' s' hran hs hwithin t r hstep hready _
  have hredoes := h.redoes b s a b' s' hran hs hwithin
  obtain ⟨rfl, n, hn, rfl⟩ := hx b s a b' s' hran
  dsimp only at hredoes
  rw [Ico_addNode, show Set.Ico b.module.connections.size (b.module.addNode n).connections.size = ∅
    from Set.Ico_self _, ← hstep.size] at hredoes
  refine (hredoes _ (Set.Iio b.module.connections.size) t r hstep.placed hready ?_
    (Set.disjoint_empty _) trivial).and_ran.imp ?_
  · rintro k rfl
    simp [Placement.inPlace]
  rintro d t' r' ⟨⟨-, hready', ρ, hadds, hplaced, hR⟩, hran'⟩
  -- the new nodes come last on both sides, and there are equally many before them
  obtain ⟨rfl, n', hn', rfl⟩ := hy t r d t' r' hran'
  obtain ⟨-, n₁, -, hlast⟩ := hR
  obtain rfl := eq_inPlace_addNode hadds hplaced hlast
  rw [Set.union_empty] at hplaced
  have hstep' : V.InStep { b with module := b.module.addNode n }
      { t with module := t.module.addNode n' } := by
    refine ⟨hplaced, ?_, hstep.scopes, ?_, hstep.anonymous⟩
    · simp only [Module.addNode, Array.toList_push, List.map_append, List.map_cons, hstep.names, hn,
        hn']
    · intro scope hscope entry hentry
      have hlt := hstep.known scope hscope entry hentry
      simp only [Module.addNode, Array.size_push]
      omega
  refine ⟨hready', hstep', hadds.keeps, ?_⟩
  have hstands := hstep'.stands (k := b.module.nodes.size) (by simp [Module.addNode])
  rwa [hstep.size]

lemma mirrors_create (hV : V.Valid) (hc : Contexts V c c') (name : String) (body : NodeBody)
    {P : Placement → Body → Prop} : V.Mirrors P (create c name body) (create c' name body) Stands :=
  mirrors_of_adding (follows_create hV hc (.inl rfl) body) (adding_create name body)
    (adding_create name body)

lemma mirrors_addNode (hV : V.Valid) {n n' : Node} (hresembles : n.Resembles n')
    (hname : n.name = n'.name) {P : Placement → Body → Prop} :
    V.Mirrors P (addNode n) (addNode n') Stands :=
  mirrors_of_adding (follows_addNode hV hresembles) (adding_addNode n) (hname ▸ adding_addNode n')

lemma mirrors_anonymousName (hV : V.Valid) {P : Placement → Body → Prop} :
    V.Mirrors P anonymousName anonymousName fun _ _ name name' => name = name' := by
  refine ⟨going_of_advancing (follows_anonymousName (P := fun _ _ _ => True) hV).advances, ?_⟩
  rintro b s _ _ _ ⟨⟩ _ _ t r hstep hready _
  refine ⟨hV.mention r _ hready, ⟨hstep.placed, hstep.names, hstep.scopes, hstep.known, ?_⟩,
    Placement.extends_self _, ?_⟩
  · exact congrArg (· + 1) hstep.anonymous
  · exact congrArg (fun k : Nat => s!"anonymous_{k}") hstep.anonymous.symm

/-! ### Names in scope -/

/-- The same change of the names in scope. -/
lemma mirrors_setScopes {P : Placement → Body → Prop} {f : Scopes → Scopes}
    (hf : ∀ m b, P (.inPlace m) b → Below b.scopes b.module.nodes.size →
      Below (f b.scopes) b.module.nodes.size) :
    V.Mirrors P (modify fun b => { b with scopes := f b.scopes })
      (modify fun b => { b with scopes := f b.scopes }) fun _ _ _ _ => True := by
  constructor
  · rintro b s _ _ _ ⟨⟩ hs
    exact ⟨hs, s.grows_self, b.module.begins_self⟩
  · rintro b s _ _ _ ⟨⟩ _ _ t r hstep hready hP
    refine leads_modify ⟨hready, ?_, Placement.extends_self _, trivial⟩
    rw [hstep.scopes]
    exact hstep.setScopes (hf t.module b hP hstep.known)

/-- The names in scope with one more in the innermost block. -/
def withName (name : String) (id : Nat) : Scopes → Scopes
  | [] => []
  | scope :: outer => ((name, id) :: scope) :: outer

lemma bindName_eq (name : String) (id : Nat) :
    bindName name id = modify fun b => { b with scopes := withName name id b.scopes } := by
  unfold bindName
  congr 1
  funext b
  rcases b with ⟨m, _ | _, k⟩ <;> rfl

lemma Below.withName {σ : Scopes} {k id : Nat} (h : Below σ k) (hid : id < k) (name : String) :
    Below (withName name id σ) k := by
  cases σ with
  | nil => exact h
  | cons scope outer =>
    unfold Below at h
    rw [List.forall_mem_cons] at h
    exact List.forall_mem_cons.mpr ⟨List.forall_mem_cons.mpr ⟨hid, h.1⟩, h.2⟩

lemma mirrors_bindName {P : Placement → Body → Prop} {id id' : Nat}
    (hP : ∀ ρ b, P ρ b → Stands ρ b id id') (name : String) :
    V.Mirrors P (bindName name id) (bindName name id') fun _ _ _ _ => True := by
  have hsame : V.Mirrors P (bindName name id) (bindName name id) fun _ _ _ _ => True := by
    rw [bindName_eq]
    refine mirrors_setScopes fun m b h hbelow => ?_
    exact hbelow.withName (Stands.of_inPlace (hP _ b h)).2 name
  refine mirrors_of_fact (F := id' = id) (fun m b h => (Stands.of_inPlace (hP _ b h)).1)
    hsame.goesOn ?_
  rintro rfl
  exact hsame

lemma mirrors_inBlock {x y : Construct Unit}
    (h : V.Mirrors (fun _ _ => True) x y fun _ _ _ _ => True) :
    V.Mirrors (fun _ _ => True) (inBlock x) (inBlock y) fun _ _ _ _ => True := by
  refine (mirrors_setScopes (f := fun σ => [] :: σ) ?_).bind persists_true fun _ _ => ?_
  · intro m b _ hbelow
    exact List.forall_mem_cons.mpr ⟨nofun, hbelow⟩
  · refine (h.pre fun _ _ _ => trivial).bind (fun _ _ _ _ _ _ h => h) fun _ _ => ?_
    refine mirrors_setScopes (f := List.tail) fun m b _ hbelow scope hscope => ?_
    exact hbelow scope (List.mem_of_mem_tail hscope)

/-! ### Chains -/

lemma persists_endsPlacedAs (x x' : Ends) : Persists fun ρ b => x.PlacedAs b ρ x' :=
  fun _ _ _ _ hρ hb h => h.mono hρ hb

lemma Persists.and {P P' : Placement → Body → Prop} (h : Persists P) (h' : Persists P') :
    Persists fun ρ b => P ρ b ∧ P' ρ b :=
  fun ρ ρ' b b' hρ hb hP => ⟨h ρ ρ' b b' hρ hb hP.1, h' ρ ρ' b b' hρ hb hP.2⟩

lemma connecting_endsOf (a : Nat) :
    Connecting (do return Body.endsOf (← get).module a : Construct Ends) :=
  connecting_get.bind fun _ => connecting_pure _

lemma connecting_declared (name : String) (body : NodeBody) :
    Connecting (node c (.declared name body)) := by
  rw [node]
  exact (connecting_lookup name).bind connecting_endsOf

lemma mirrors_endsOf {P : Placement → Body → Prop} {a a' : Nat}
    (hP : ∀ ρ b, P ρ b → Stands ρ b a a') :
    V.Mirrors P (do return Body.endsOf (← get).module a) (do return Body.endsOf (← get).module a')
      fun ρ b x x' => x.PlacedAs b ρ x' :=
  mirrors_of_connecting (follows_endsOf (lasting_stands a a') fun _ _ _ h => h)
    (fun b _ _ h => hP _ b h) (connecting_endsOf a) (connecting_endsOf a')

lemma mirrors_joinStages (hV : V.Valid) {P : Placement → Body → Prop} {xs xs' : List Ends}
    (hP : ∀ ρ b, P ρ b → List.Forall₂ (Ends.PlacedAs b ρ) xs xs') :
    V.Mirrors P (joinStages c xs) (joinStages c' xs') fun ρ b x x' => x.PlacedAs b ρ x' :=
  mirrors_of_connecting (follows_joinStages hV xs xs') (fun b _ _ h => hP _ b h)
    (connecting_joinStages xs) (connecting_joinStages xs')

mutual

lemma mirrors_node (hV : V.Valid) (hc : Contexts V c c') : ∀ n : CircuitNode,
    V.Mirrors (fun _ _ => True) (node c n) (node c' n) fun ρ b x x' => x.PlacedAs b ρ x'
  | .reference name accessors => by
    rw [node, node]
    exact mirrors_of_connecting (follows_reference hc.bindings name accessors)
      (fun _ _ hstep _ => hstep.visible) (connecting_reference name accessors)
      (connecting_reference name accessors)
  | .declared name body =>
    mirrors_of_connecting (follows_node hV hc (.declared name body))
      (fun _ _ hstep _ => hstep.visible) (connecting_declared name body)
      (connecting_declared name body)
  | .anonymous body => by
    rw [node, node]
    refine (mirrors_anonymousName hV).bind persists_true fun name name' => ?_
    refine mirrors_of_fact (F := name = name') (fun _ _ h => h.2) ?_ ?_
    · exact going_of_advancing (advancing_bind (advancing_create hc name body) fun a =>
        (connecting_endsOf a).advancing _)
    · rintro rfl
      refine (mirrors_create hV hc name body).bind (fun _ _ _ _ _ _ h => h) fun a a' => ?_
      exact mirrors_endsOf fun _ _ h => h.2
  | .nested chain => by
    rw [node, node]
    refine (mirrors_stages hV hc chain).bind persists_true fun xs xs' => ?_
    exact mirrors_joinStages hV fun _ _ h => h.2

lemma mirrors_stages (hV : V.Valid) (hc : Contexts V c c') : ∀ groups : List (List CircuitNode),
    V.Mirrors (fun _ _ => True) (stages c groups) (stages c' groups)
      fun ρ b xs xs' => List.Forall₂ (Ends.PlacedAs b ρ) xs xs'
  | [] => by
    rw [stages, stages]
    exact mirrors_pure fun _ _ _ => .nil
  | group :: rest => by
    rw [stages, stages]
    refine (mirrors_nodes hV hc group).bind persists_true fun x x' => ?_
    refine ((mirrors_stages hV hc rest).pre fun _ _ _ => trivial).bind
      (persists_true.and (persists_endsPlacedAs x x')) fun xs xs' => mirrors_pure ?_
    rintro ρ b ⟨⟨-, hx⟩, hxs⟩
    exact .cons hx hxs

lemma mirrors_nodes (hV : V.Valid) (hc : Contexts V c c') : ∀ ns : List CircuitNode,
    V.Mirrors (fun _ _ => True) (nodes c ns) (nodes c' ns) fun ρ b x x' => x.PlacedAs b ρ x'
  | [] => by
    rw [nodes, nodes]
    exact mirrors_pure fun _ _ _ => ⟨.nil, .nil⟩
  | n :: rest => by
    rw [nodes, nodes]
    refine (mirrors_node hV hc n).bind persists_true fun x x' => ?_
    refine ((mirrors_nodes hV hc rest).pre fun _ _ _ => trivial).bind
      (persists_true.and (persists_endsPlacedAs x x')) fun y y' => mirrors_pure ?_
    rintro ρ b ⟨⟨-, hx⟩, hy⟩
    exact ⟨List.rel_append hx.sinks hy.sinks, List.rel_append hx.sources hy.sources⟩

end

/-! ### Blocks -/

lemma mirrors_declareBlock (hV : V.Valid) (hc : Contexts V c c') (block : List Statement) :
    V.Mirrors (fun _ _ => True) (declareBlock c block) (declareBlock c' block)
      fun _ _ _ _ => True := by
  rw [declareBlock_eq, declareBlock_eq]
  refine mirrors_forM (List.forall₂_same.mpr fun d _ => ?_)
  refine (mirrors_create hV hc d.1 d.2).bind persists_true fun a a' => ?_
  exact mirrors_bindName (fun _ _ h => h.2) d.1

mutual

lemma mirrors_statement (hV : V.Valid) (hc : Contexts V c c') : ∀ s : Statement,
    V.Mirrors (fun _ _ => True) (statement c s) (statement c' s) fun _ _ _ _ => True
  | .connection chain => by
    rw [statement, statement]
    refine Mirrors.bind (R := fun ρ b x x' => x.PlacedAs b ρ x') ?_ persists_true fun _ _ =>
      mirrors_pure fun _ _ _ => trivial
    refine (mirrors_stages hV hc chain).bind persists_true fun xs xs' => ?_
    exact mirrors_joinStages hV fun _ _ h => h.2
  | .conditional predicate thens elses => by
    rw [statement, statement, ← StaticExpr.eval_congr hc.bindings]
    apply mirrors_bind_same
    intro value
    split
    · exact mirrors_block hV hc thens
    · exact mirrors_block hV hc elses

lemma mirrors_statements (hV : V.Valid) (hc : Contexts V c c') : ∀ block : List Statement,
    V.Mirrors (fun _ _ => True) (statements c block) (statements c' block) fun _ _ _ _ => True
  | [] => by
    rw [statements, statements]
    exact mirrors_pure fun _ _ _ => trivial
  | s :: rest => by
    rw [statements, statements]
    exact (mirrors_statement hV hc s).bind persists_true fun _ _ =>
      (mirrors_statements hV hc rest).pre fun _ _ _ => trivial

lemma mirrors_block (hV : V.Valid) (hc : Contexts V c c') (block : List Statement) :
    V.Mirrors (fun _ _ => True) (inBlock do declareBlock c block; statements c block)
      (inBlock do declareBlock c' block; statements c' block) fun _ _ _ _ => True :=
  mirrors_inBlock ((mirrors_declareBlock hV hc block).bind persists_true fun _ _ =>
    (mirrors_statements hV hc block).pre fun _ _ _ => trivial)

end

/-! ### Whole bodies -/

lemma mirrors_ports (hV : V.Valid) {ports ports' : List Port}
    (h : List.Forall₂ Port.Like ports ports') {node : Port → Node}
    (hname : ∀ q, (node q).name = q.name)
    (hnode : ∀ q q', q.Like q' → (node q).Resembles (node q')) :
    V.Mirrors (fun _ _ => True) (ports.forM fun q => do bindName q.name (← addNode (node q)))
      (ports'.forM fun q => do bindName q.name (← addNode (node q))) fun _ _ _ _ => True := by
  refine mirrors_forM (h.imp fun q q' hq => ?_)
  have hsame : (node q).name = (node q').name := by rw [hname, hname, hq.name]
  refine (mirrors_addNode hV (hnode q q' hq) hsame).bind persists_true fun a a' => ?_
  rw [hq.name]
  exact mirrors_bindName (fun _ _ h => h.2) q'.name

lemma mirrors_function (hV : V.Valid) (hc : Contexts V c c')
    {inputs inputs' outputs outputs' : List Port} (hinputs : List.Forall₂ Port.Like inputs inputs')
    (houtputs : List.Forall₂ Port.Like outputs outputs') (block : List Statement) :
    V.Mirrors (fun _ _ => True) (function c inputs outputs block)
      (function c' inputs' outputs' block) fun _ _ _ _ => True := by
  refine Mirrors.bind (mirrors_ports hV hinputs (fun _ => rfl) fun q q' hq =>
    Node.resembles_of_ports (.inl hq.name) .input .nil (.cons hq .nil)) persists_true fun _ _ => ?_
  refine Mirrors.bind ((mirrors_ports hV houtputs (fun _ => rfl) fun q q' hq =>
    Node.resembles_of_ports (.inl hq.name) .output (.cons hq .nil) .nil).pre fun _ _ _ => trivial)
    (fun _ _ _ _ _ _ h => h) fun _ _ => ?_
  exact (mirrors_block hV hc block).pre fun _ _ _ => trivial

lemma inStep_empty (V : Replay) (i i' : Invocation) (inputs inputs' outputs outputs' : List Port) :
    V.InStep ⟨.empty i inputs outputs, [[]], 0⟩ ⟨.empty i' inputs' outputs', [[]], 0⟩ := by
  refine ⟨?_, rfl, rfl, ?_, rfl⟩
  · have hplace : Placement.inPlace (.empty i' inputs' outputs') = fun _ => none := by
      funext k
      simp [Placement.inPlace, Module.empty]
    rw [hplace, show Set.Iio (Module.empty i inputs outputs).connections.size = ∅ by
      simp [Module.empty]]
    exact placed_empty i' inputs' outputs'
  · simp [Below]

end Replay

/-- Nodes in their places resemble each other, and names at the same numbers are the same. -/
lemma Placed.forall₂_nodes {m m' : Module} {X : Set Nat} (h : Placed m m' (.inPlace m') X)
    (hnames : m'.nodes.toList.map Node.name = m.nodes.toList.map Node.name) :
    List.Forall₂ (fun n n' => n.name = n'.name ∧ n.Resembles n') m.nodes.toList
      m'.nodes.toList := by
  have hsize : m'.nodes.size = m.nodes.size := by simpa using congrArg List.length hnames
  rw [List.forall₂_iff_get]
  refine ⟨by simp [hsize], ?_⟩
  intro k hk hk'
  rw [Array.length_toList] at hk hk'
  have hname : (m'.nodes.toList.map Node.name)[k]? = (m.nodes.toList.map Node.name)[k]? := by
    rw [hnames]
  obtain ⟨-, n, hn, hresembles⟩ := h.node k (k, m'.nodes[k])
    (Placement.inPlace_eq_some.mpr ⟨rfl, Array.getElem?_eq_getElem hk'⟩)
  rw [Array.getElem?_eq_getElem hk] at hn
  cases hn
  refine ⟨?_, hresembles⟩
  simpa [hk, hk', eq_comm] using hname

/-- The construction of a module is mirrored for an alike invocation of the same program. -/
theorem leads_construct_mirrored {V : Replay} (hV : V.Valid) (hprogram : V.second = V.first)
    {i i' : Invocation} (hi : i.Like i') {depth depth' : Nat} (hdepth : depth' < depth → V.tooDeep)
    (hbuild : V.Rebuilds (Invocation.build V.first depth) (Invocation.build V.second depth'))
    {s s' : Session} (hs : s.Sound V.first)
    (hrun : (i.construct V.first depth (Invocation.build V.first depth)).run s =
      some (.ok V.module, s'))
    (hmodules : ∀ (k : Nat) m, s'.design.modules[k]? = some m → V.modules[k]? = some m) {r : Session}
    (hready : V.Ready r) :
    (i'.construct V.second depth' (Invocation.build V.second depth')).Leads r V.tooDeep
      (fun m' r' => V.Ready r' ∧ V.module.Twin m') fun _ _ => V.fails := by
  obtain ⟨f, hcallee⟩ := Invocation.exists_callee_of_construct hrun
  cases f with
  | primitive op => exact leads_construct_primitive hV hi hcallee hrun hready
  | function d =>
    refine (leads_construct_of_body hV hi hcallee (hprogram ▸ hcallee) ⟨rfl, rfl, rfl, rfl⟩ hdepth
      hbuild hrun hready (Q := fun m' => m'.nodes.toList.map Node.name =
        V.module.nodes.toList.map Node.name ∧
          Placed V.module m' (.inPlace m') (Set.Iio V.module.connections.size)) ?_).imp ?_
    · intro b b' σ σ' mentioned t r' hcontexts hσ _ hran hmodule hready'
      have hwithin : V.Within t s' := ⟨hmodule ▸ t.module.begins_self, hmodules⟩
      refine ((Replay.mirrors_function hV hcontexts hσ.inputs hσ.outputs d.statements).mirrors _ _ _
        _ _ hran (hs.congr rfl rfl hs.waiting) hwithin _ r' (V.inStep_empty ..) hready' trivial).imp ?_
      rintro _ t' r'' ⟨hready'', hstep, -⟩
      rw [hmodule]
      exact ⟨hready'', hstep.names, hmodule ▸ hstep.placed⟩
    · rintro m' r' ⟨hready', ⟨hnames, hplaced⟩, hinvocation, hinputs, houtputs⟩
      exact ⟨hready', hinvocation, hinputs, houtputs, hplaced.forall₂_nodes hnames, hplaced⟩

end NetlistCompiler
