import NetlistCompiler.Proofs.PrimitiveModules
import NetlistCompiler.Proofs.ReplayedBlocks

/-!
# Replayed designs

A design that has been built is built again from a program with the same definitions up to the
order of statements. Every module of the first design has been constructed in a session that then
held the modules before it. So the construction can be replayed module by module, in whatever order
the second session asks for them, and the modules that it ends with match those of the first design.
-/

namespace NetlistCompiler

open Elaborate

/-- Every module has been constructed, with less than `depth` to go, in a sound session that had
the modules before it in the end. -/
def Design.Recorded (p : Program) (depth : Nat) (d : Design) : Prop :=
  ∀ (k : Nat) m, d.modules[k]? = some m → ∃ e s₀ s₁, e < depth ∧ s₀.Sound p ∧
    (m.invocation.construct p e (Invocation.build p e)).run s₀ = some (.ok m, s₁) ∧
    s₁.design.modules.size = k ∧
    ∀ (l : Nat) m', s₁.design.modules[l]? = some m' → d.modules[l]? = some m'

lemma Design.Recorded.addModule {p : Program} {depth : Nat} {d : Design} (h : d.Recorded p depth)
    {m : Module} (hm : ∃ e s₀ s₁, e < depth ∧ s₀.Sound p ∧
      (m.invocation.construct p e (Invocation.build p e)).run s₀ = some (.ok m, s₁) ∧
      s₁.design.modules = d.modules) : (d.addModule m).Recorded p depth := by
  have hold : ∀ (l : Nat) m', d.modules[l]? = some m' → (d.addModule m).modules[l]? = some m' :=
    fun l m' hm' => Design.getElem?_addModule.mpr (.inl hm')
  intro k m' hm'
  rcases Design.getElem?_addModule.mp hm' with hm' | ⟨rfl, rfl⟩
  · obtain ⟨e, s₀, s₁, he, hs₀, hrun, hsize, hmodules⟩ := h k m' hm'
    exact ⟨e, s₀, s₁, he, hs₀, hrun, hsize, fun l m₁ hm₁ => hold l m₁ (hmodules l m₁ hm₁)⟩
  · obtain ⟨e, s₀, s₁, he, hs₀, hrun, hmodules⟩ := hm
    refine ⟨e, s₀, s₁, he, hs₀, hrun, by rw [hmodules], ?_⟩
    intro l m₁ hm₁
    rw [hmodules] at hm₁
    exact hold l m₁ hm₁

lemma Design.Recorded.mono {p : Program} {depth depth' : Nat} {d : Design} (h : d.Recorded p depth)
    (hdepth : depth ≤ depth') : d.Recorded p depth' := by
  intro k m hm
  obtain ⟨e, s₀, s₁, he, hrest⟩ := h k m hm
  exact ⟨e, s₀, s₁, by omega, hrest⟩

/-- Building modules records how they were built, also if it fails in the end, and makes none of
them an entry. -/
lemma leads_build_recorded {p : Program} (hp : p.DistinctMembers) {bound depth : Nat}
    (hdepth : depth ≤ bound) {i : Invocation} (hi : i.Distinct) {s : Session} (hs : s.Sound p)
    (hrecorded : s.design.Recorded p bound) :
    (i.build p depth).Leads s True
      (fun _ s' => s'.design.Recorded p bound ∧ s'.design.entries = s.design.entries)
      fun _ s' => s'.design.Recorded p bound ∧ s'.design.entries = s.design.entries := by
  induction depth generalizing i s with
  | zero => exact trivial
  | succ depth ih =>
    have hsoundly := buildsSoundly_build hp depth
    rw [Invocation.build]
    refine Leads.bind (Q := fun s₁ s' => s = s₁ ∧ s = s') (leads_get ⟨rfl, rfl⟩) ?_
    rintro _ _ ⟨rfl, rfl⟩
    split
    · exact leads_pure ⟨hrecorded, rfl⟩
    · next hcached =>
      rw [hs.cached, Design.find?_eq_none_iff] at hcached
      split
      · exact Leads.bind (Q := fun _ _ => False) (leads_throw ⟨hrecorded, rfl⟩)
          fun _ _ hfalse => hfalse.elim
      · have hstart : Session.Sound p { s with stack := i :: s.stack } :=
          hs.congr rfl rfl (List.forall_mem_cons.mpr ⟨⟨hi, hcached⟩, hs.waiting⟩)
        have hconstruct : (i.construct p depth (Invocation.build p depth)).Leads
            { s with stack := i :: s.stack } True
            (fun _ s' => s'.Sound p ∧ s'.design.Recorded p bound ∧
              s'.design.entries = s.design.entries)
            fun _ s' => s'.design.Recorded p bound ∧ s'.design.entries = s.design.entries := by
          apply Invocation.leads_construct (J := fun _ s' => s'.Sound p ∧
            s'.design.Recorded p bound ∧ s'.design.entries = s.design.entries)
            (F := fun s' => s'.design.Recorded p bound ∧ s'.design.entries = s.design.entries)
          · exact fun _ => ⟨hrecorded, rfl⟩
          · intro op primitive m mentioned _ _ _ _
            exact ⟨hstart.congr rfl rfl hstart.waiting, hrecorded, rfl⟩
          · intro d b σ mentioned hd hbind hσ
            refine ⟨?_, hstart.congr rfl rfl hstart.waiting, hrecorded, rfl⟩
            constructor
            · exact fun _ _ h => h.2
            · exact fun _ _ _ h => ⟨h.1.congr rfl rfl h.1.waiting, h.2⟩
            · exact fun _ _ _ _ h => h
            · exact fun _ _ _ _ h => h
            · exact fun _ _ _ _ _ h => h
            · exact fun _ _ _ _ _ h => h
            · intro m s' name j g hj hg h
              have hdistinct := distinct_of_instantiates hp hi hbind hj
              have hboth := (hsoundly j s' hdistinct h.1).and (ih (by omega) hdistinct h.1 h.2.1)
              refine (hboth.imp ?_).impError ?_
              · rintro id s₁ ⟨⟨⟨hsound₁, -⟩, -⟩, hrecorded₁, hentries₁⟩
                have hkept := And.intro hrecorded₁ (hentries₁.trans h.2.2)
                exact ⟨hkept, fun _ => ⟨hsound₁, hkept⟩⟩
              · rintro e s₁ ⟨-, hrecorded₁, hentries₁⟩
                exact ⟨hrecorded₁, hentries₁.trans h.2.2⟩
            · exact fun _ _ _ _ _ _ _ h => h
        have hall := ((leads_construct_building hp depth hsoundly hi hstart).and hconstruct).and
          (leads_run (i.construct p depth (Invocation.build p depth)) { s with stack := i :: s.stack })
        refine Leads.bind (Q := fun m s' => ∃ s₁, s' = { s₁ with stack := s₁.stack.tail } ∧
          m.invocation = i ∧ s₁.design.Recorded p bound ∧ s₁.design.entries = s.design.entries ∧
          (i.construct p depth (Invocation.build p depth)).run { s with stack := i :: s.stack } =
            some (.ok m, s₁)) (leads_whileBuilding ?_) ?_
        · refine (hall.imp ?_).impError fun _ _ h => h.1.2
          rintro m s₁ ⟨⟨hbuilding, -, hrecorded₁, hentries₁⟩, hrun⟩
          exact ⟨s₁, rfl, hbuilding.invocation, hrecorded₁, hentries₁, hrun⟩
        · rintro m _ ⟨s₁, rfl, rfl, hrecorded₁, hentries₁, hrun⟩
          refine Leads.bind (Q := fun s₂ s' => { s₁ with stack := s₁.stack.tail } = s₂ ∧
            { s₁ with stack := s₁.stack.tail } = s') (leads_get ⟨rfl, rfl⟩) ?_
          rintro _ _ ⟨rfl, rfl⟩
          exact ⟨hrecorded₁.addModule ⟨depth, _, s₁, by omega, hstart, hrun, rfl⟩, hentries₁⟩

/-! ### Programs in another order -/

structure FunctionDefinition.Shuffled (d d' : FunctionDefinition) : Prop where
  head : d.SameHead d'
  statements : PermRel Statement.Shuffled d.statements d'.statements

/-- The programs are the same up to the order of statements in the blocks of their functions. -/
structure Program.Shuffled (p p' : Program) : Prop where
  interfaces : p'.interfaces = p.interfaces
  functions : List.Forall₂ FunctionDefinition.Shuffled p.functions p'.functions

lemma rel_find? {α β : Type} {R : α → β → Prop} {f : α → Bool} {g : β → Bool}
    (hfg : ∀ a b, R a b → f a = g b) {as : List α} {bs : List β} (h : List.Forall₂ R as bs) :
    Option.Rel R (as.find? f) (bs.find? g) := by
  induction h with
  | nil => exact .none
  | cons hab _ ih =>
    rw [List.find?_cons, List.find?_cons, hfg _ _ hab]
    split
    · exact .some hab
    · exact ih

namespace Program

variable {p p' : Program}

lemma rel_function? {R : FunctionDefinition → FunctionDefinition → Prop}
    (hR : ∀ d d', R d d' → d.SameHead d') (h : List.Forall₂ R p.functions p'.functions)
    (name : String) : Option.Rel R (p.function? name) (p'.function? name) := by
  refine rel_find? ?_ h
  intro d d' hd
  rw [(hR d d' hd).name]

lemma sameHeads_of_forall₂ (hinterfaces : p'.interfaces = p.interfaces)
    (h : List.Forall₂ FunctionDefinition.SameHead p.functions p'.functions) : p.SameHeads p' := by
  constructor
  · intro name
    rw [interface?, interface?, hinterfaces]
  · intro name f hf
    have hrel := rel_function? (fun _ _ hd => hd) h name
    unfold Program.callee at hf ⊢
    generalize p.function? name = x at hrel hf
    generalize p'.function? name = y at hrel
    cases hrel with
    | none =>
      refine ⟨f, hf, ?_⟩
      dsimp only at hf
      split at hf
      · cases hf
        exact .primitive _
      · cases hf
    | some hhead =>
      cases hf
      exact ⟨_, rfl, .function hhead⟩

end Program

namespace Program.Shuffled

variable {p p' : Program}

lemma function? (h : p.Shuffled p') (name : String) :
    Option.Rel FunctionDefinition.Shuffled (p.function? name) (p'.function? name) :=
  rel_function? (fun _ _ hd => hd.head) h.functions name

lemma callee (h : p.Shuffled p') {name : String} {d : FunctionDefinition}
    (hd : p.callee name = .ok (.function d)) :
    ∃ d', p'.callee name = .ok (.function d') ∧ d.Shuffled d' := by
  have hrel := h.function? name
  unfold Program.callee at hd ⊢
  generalize p.function? name = x at hrel hd
  generalize p'.function? name = y at hrel
  cases hrel with
  | none =>
    dsimp only at hd
    split at hd <;> cases hd
  | some hshuffled =>
    cases hd
    exact ⟨_, rfl, hshuffled⟩

lemma sameHeads (h : p.Shuffled p') : p.SameHeads p' :=
  sameHeads_of_forall₂ h.interfaces (h.functions.imp fun _ _ hd => hd.head)

end Program.Shuffled

/-- No name is declared twice in a block of the function. -/
structure FunctionDefinition.Unambiguous (d : FunctionDefinition) : Prop where
  inputs : (d.inputs.map FunctionPort.name).Nodup
  outputs : (d.outputs.map FunctionPort.name).Nodup
  names : (Statement.blockNames d.statements).Nodup
  statements : Statement.AllUnambiguous d.statements

/-- No name is declared twice in the program. -/
structure Program.Unambiguous (p : Program) : Prop where
  functions : (p.functions.map FunctionDefinition.name).Nodup
  members : p.DistinctMembers
  bodies : ∀ d ∈ p.functions, d.Unambiguous

/-! ### The construction of a module again -/

/-- Where the body of a function is built for an invocation. -/
def Invocation.bodyContext (p : Program) (depth : Nat) (i : Invocation) (b : Bindings) : BodyContext :=
  ⟨p, p.unfolding depth, p.expansionNames depth, b, i.describe, Invocation.build p depth⟩

/-- What the construction of a module of a function did. -/
lemma Invocation.exists_of_construct {p : Program} {depth : Nat}
    {i : Invocation} {d : FunctionDefinition} (hcallee : p.callee i.function = .ok (.function d))
    {s s' : Session} {m : Module}
    (h : (i.construct p depth (Invocation.build p depth)).run s = some (.ok m, s')) :
    ∃ b σ mentioned t,
      (d.generics.bind p (p.unfolding depth) d.name i.interfaces i.parameters).run = some (.ok b) ∧
      (d.signature p (p.unfolding depth) b).run = some (.ok σ) ∧
      (Construct.function (i.bodyContext p depth b) σ.inputs σ.outputs d.statements).Ran
        ⟨.empty i σ.inputs σ.outputs, [[]], 0⟩ { s with mentioned } () t s' ∧ m = t.module := by
  rw [construct_of_function hcallee] at h
  obtain ⟨b, s₁, hran, hrest⟩ := exists_of_run_bind h
  obtain ⟨hbind, rfl⟩ := of_run_ofExpand hran
  obtain ⟨σ, s₂, hran, hrest⟩ := exists_of_run_bind hrest
  obtain ⟨hsignature, rfl⟩ := of_run_ofExpand hran
  obtain ⟨_, s₃, hmention, hrest⟩ := exists_of_run_bind hrest
  cases hmention
  obtain ⟨⟨_, t⟩, s₄, hran, hend⟩ := exists_of_run_bind hrest
  cases hend
  exact ⟨b, σ, _, t, hbind, hsignature, hran, rfl⟩

lemma Invocation.construct_of_primitive {p : Program} {depth : Nat}
    {build : Invocation → Elaborate Nat} {i : Invocation} {op : PrimitiveOp}
    (h : p.callee i.function = .ok (.primitive op)) :
    i.construct p depth build = (do
      let q ← liftM (Primitive.ofCall op i)
      Elaborate.mention (q.portNames ++ [q.op.name])
      if q.signature.fits then
        match Module.ofPrimitive i q with
        | .ok m => return m
        | .error e => throw (.internal e.message)
      else
        throw .portTooWide) := by
  unfold construct
  rw [h]
  rfl

/-- What the construction of a module of a primitive did. -/
lemma Invocation.exists_of_construct_primitive {p : Program} {depth : Nat}
    {build : Invocation → Elaborate Nat} {i : Invocation} {op : PrimitiveOp}
    (hcallee : p.callee i.function = .ok (.primitive op)) {s s' : Session} {m : Module}
    (h : (i.construct p depth build).run s = some (.ok m, s')) :
    ∃ q, Primitive.ofCall op i = .ok q ∧ q.signature.fits = true ∧
      m.Wraps i q q.signature.inputs q.signature.outputs := by
  rw [construct_of_primitive hcallee] at h
  obtain ⟨q, s₁, hcall, hrest⟩ := exists_of_run_bind h
  obtain ⟨_, s₂, hmention, hrest⟩ := exists_of_run_bind hrest
  obtain ⟨m₁, hm₁, hwraps⟩ := Module.exists_ofPrimitive i q
  split at hrest
  · next hfits =>
    rw [hm₁] at hrest
    cases hrest
    refine ⟨q, ?_, hfits, hwraps⟩
    cases hq : Primitive.ofCall op i with
    | error e =>
      rw [hq] at hcall
      cases hcall
    | ok q' =>
      rw [hq] at hcall
      cases hcall
      rfl
  · cases hrest

/-- A module that has been constructed is that of a function or a primitive. -/
lemma Invocation.exists_callee_of_construct {p : Program} {depth : Nat}
    {build : Invocation → Elaborate Nat} {i : Invocation} {s s' : Session} {m : Module}
    (h : (i.construct p depth build).run s = some (.ok m, s')) :
    ∃ f, p.callee i.function = .ok f := by
  cases hcallee : p.callee i.function with
  | ok f => exact ⟨f, rfl⟩
  | error e =>
    unfold construct at h
    rw [hcallee] at h
    cases h

/-- The modules are the same up to the numbers of nodes and connections and the order of fields. -/
structure Module.Matches (m m' : Module) : Prop where
  invocation : m.invocation.Like m'.invocation
  inputs : List.Forall₂ Port.Like m.inputs m'.inputs
  outputs : List.Forall₂ Port.Like m.outputs m'.outputs
  placed : ∃ ρ, (∀ k, (ρ k).isSome = true ↔ k < m.nodes.size) ∧
    Placed m m' ρ (Set.Iio m.connections.size)

lemma closed_head (c : BodyContext) (i : Invocation) (inputs outputs : List Port) :
    Construct.Closed c
      (fun m _ => m.invocation = i ∧ m.inputs = inputs ∧ m.outputs = outputs) fun _ => True where
  fails _ _ _ := trivial
  mention _ _ _ h := h
  input _ _ _ _ h := h
  output _ _ _ _ h := h
  pass _ _ _ _ _ h := h
  primitive _ _ _ _ _ h := h
  build _ s _ j _ _ _ h := (leads_true (c.build j) s).imp fun _ _ _ => ⟨trivial, fun _ => h⟩
  connect m s d w m' _ hconnect h := by
    obtain ⟨rfl, -⟩ := Module.of_connect_eq_ok hconnect
    exact h

/-- A construction leaves the invocation and the ports of its module as they are. -/
lemma leads_function_head (c : BodyContext) (i : Invocation) (inputs outputs : List Port)
    (block : List Statement) (s : Session) :
    (Construct.function c inputs outputs block).Leads ⟨.empty i inputs outputs, [[]], 0⟩ s True
      (fun _ b _ => b.module.invocation = i ∧ b.module.inputs = inputs ∧ b.module.outputs = outputs)
      fun _ _ => True :=
  Construct.keeps_function (closed_head c i inputs outputs) inputs outputs block _ s ⟨rfl, rfl, rfl⟩

lemma Unfolding.Follows.mono {N N' : Prop} {p : Program} {u u' : Unfolding} (h : u.Follows N p u')
    (hN : N → N') : u.Follows N' p u' := by
  constructor
  · intro active name d ss ts as bs hd hst hab
    exact (h.interface active name d ss ts as bs hd hst hab).mono hN
  · intro i j hij
    exact (h.ports i j hij).mono hN

lemma Module.Twin.matches {m m' : Module} (h : m.Twin m') : m.Matches m' := by
  have hsize : m'.nodes.size = m.nodes.size := by simpa using h.nodes.length_eq.symm
  refine ⟨h.invocation, h.inputs, h.outputs, .inPlace m', ?_, h.placed⟩
  intro k
  simp [Placement.inPlace, hsize]

/-- The module of a primitive is constructed again for an alike invocation. -/
lemma leads_construct_primitive {V : Replay} (hV : V.Valid) {i i' : Invocation} (hi : i.Like i')
    {op : PrimitiveOp} (hcallee : V.first.callee i.function = .ok (.primitive op))
    {depth depth' : Nat} {build build' : Invocation → Elaborate Nat} {s s' : Session}
    (hrun : (i.construct V.first depth build).run s = some (.ok V.module, s')) {r : Session}
    (hready : V.Ready r) :
    (i'.construct V.second depth' build').Leads r V.tooDeep
      (fun m' r' => V.Ready r' ∧ V.module.Twin m') fun _ _ => V.fails := by
  obtain ⟨hfunction, -, -⟩ := hi.values
  obtain ⟨f', hcallee', hhead⟩ := hV.heads.callee _ _ hcallee
  cases hhead
  obtain ⟨q, hcall, hfits, hwraps⟩ := Invocation.exists_of_construct_primitive hcallee hrun
  obtain ⟨q', hcall', hlike⟩ := Primitive.ofCall_like hi hcall
  obtain ⟨m', hm', hwraps'⟩ := Module.exists_ofPrimitive i' q'
  have hresembles : (Construct.primitiveNode "" q).Resembles (Construct.primitiveNode "" q') :=
    Node.resembles_of_ports (.inl rfl) (.primitive hlike) hlike.signature.inputs
      hlike.signature.outputs
  have hfits' : q'.signature.fits = true :=
    Node.fits_iff.mpr (hresembles.fits (Node.fits_iff.mp hfits))
  rw [Invocation.construct_of_primitive (hfunction ▸ hcallee'), hcall']
  refine Leads.bind (Q := fun p r' => p = q' ∧ r = r')
    (leads_liftM (fun p hp => ⟨(Except.ok.inj hp).symm, rfl⟩) nofun) ?_
  rintro _ _ ⟨rfl, rfl⟩
  refine Leads.bind (Q := fun _ r' => V.Ready r')
    (leads_mention fun mentioned => hV.mention r mentioned hready) ?_
  intro _ r₁ hready₁
  rw [if_pos hfits', hm']
  exact leads_pure ⟨hready₁, hwraps.twin hi hlike hfits hwraps'⟩

/-- The module of a function is constructed again for an alike invocation, if its body is built
again. -/
lemma leads_construct_of_body {V : Replay} (hV : V.Valid) {i i' : Invocation} (hi : i.Like i')
    {d d' : FunctionDefinition} (hcallee : V.first.callee i.function = .ok (.function d))
    (hcallee' : V.second.callee i.function = .ok (.function d')) (hhead : d.SameHead d')
    {depth depth' : Nat} (hdepth : depth' < depth → V.tooDeep)
    (hbuild : V.Rebuilds (Invocation.build V.first depth) (Invocation.build V.second depth'))
    {s s' : Session}
    (hrun : (i.construct V.first depth (Invocation.build V.first depth)).run s =
      some (.ok V.module, s')) {r : Session} (hready : V.Ready r) {Q : Module → Prop}
    (hbody : ∀ b b' σ σ' mentioned t r', Replay.Contexts V (i.bodyContext V.first depth b)
        (i'.bodyContext V.second depth' b') → σ.Like σ' →
      (d.signature V.first (V.first.unfolding depth) b).run = some (.ok σ) →
      (Construct.function (i.bodyContext V.first depth b) σ.inputs σ.outputs d.statements).Ran
        ⟨.empty i σ.inputs σ.outputs, [[]], 0⟩ { s with mentioned } () t s' →
      V.module = t.module → V.Ready r' →
      (Construct.function (i'.bodyContext V.second depth' b') σ'.inputs σ'.outputs
        d'.statements).Leads ⟨.empty i' σ'.inputs σ'.outputs, [[]], 0⟩ r' V.tooDeep
          (fun _ t' r'' => V.Ready r'' ∧ Q t'.module) fun _ _ => V.fails) :
    (i'.construct V.second depth' (Invocation.build V.second depth')).Leads r V.tooDeep
      (fun m' r' => V.Ready r' ∧ Q m' ∧ V.module.invocation.Like m'.invocation ∧
        List.Forall₂ Port.Like V.module.inputs m'.inputs ∧
          List.Forall₂ Port.Like V.module.outputs m'.outputs) fun _ _ => V.fails := by
  obtain ⟨hfunction, hinterfaces, hparameters⟩ := hi.values
  obtain ⟨b, σ, mentioned, t, hbind, hsignature, hran, hmodule⟩ :=
    Invocation.exists_of_construct hcallee hrun
  have hu := (V.first.unfolding_follows hV.heads hV.members depth depth').mono hdepth
  rw [Invocation.construct_of_function (hfunction ▸ hcallee'), hhead.generics, hhead.name]
  refine Leads.bind (Q := fun b' r' => b.Like b' ∧ r = r') (leads_ofExpand_of_follows
    (Generics.bind_follows hV.heads hu d.generics d.name hinterfaces hparameters) hbind
    fun b' hb => ⟨hb, rfl⟩) ?_
  rintro b' _ ⟨hb, rfl⟩
  refine Leads.bind (Q := fun σ' r' => σ.Like σ' ∧ r = r') (leads_ofExpand_of_follows
    (FunctionDefinition.signature_follows hV.heads hu hb hhead) hsignature
    fun σ' hσ => ⟨hσ, rfl⟩) ?_
  rintro σ' _ ⟨hσ, rfl⟩
  refine Leads.bind (Q := fun _ r' => V.Ready r')
    (leads_mention fun mentioned => hV.mention r mentioned hready) ?_
  intro _ r₁ hready₁
  have hcontexts : Replay.Contexts V (i.bodyContext V.first depth b)
      (i'.bodyContext V.second depth' b') :=
    ⟨rfl, rfl, hu, hb, buildsSoundly_build hV.members depth,
      fun j hj => distinct_of_instantiates hV.members hi.left hbind hj, hbuild⟩
  have hagain := hbody b b' σ σ' mentioned t r₁ hcontexts hσ hsignature hran hmodule hready₁
  refine Leads.bind ((Leads.and hagain (leads_function_head ..)).impError fun _ _ h => h.1) ?_
  rintro ⟨_, t'⟩ r₂ ⟨⟨hready₂, hQ⟩, hinvocation', hinputs', houtputs'⟩
  obtain ⟨hinvocation, hinputs, houtputs⟩ := (leads_function_head ..).of_ran hran
  refine leads_pure ⟨hready₂, hQ, ?_, ?_, ?_⟩
  · rw [hmodule, hinvocation, hinvocation']
    exact hi
  · rw [hmodule, hinputs, hinputs']
    exact hσ.inputs
  · rw [hmodule, houtputs, houtputs']
    exact hσ.outputs

/-- The construction of a module is replayed for an alike invocation. -/
lemma leads_construct_replayed {V : Replay} (hV : V.Valid) (hp : V.first.Shuffled V.second)
    (hbodies : ∀ d ∈ V.first.functions, d.Unambiguous) {i i' : Invocation} (hi : i.Like i')
    {depth depth' : Nat} (hdepth : depth' < depth → V.tooDeep)
    (hbuild : V.Rebuilds (Invocation.build V.first depth) (Invocation.build V.second depth'))
    {s s' : Session} (hs : s.Sound V.first)
    (hrun : (i.construct V.first depth (Invocation.build V.first depth)).run s =
      some (.ok V.module, s'))
    (hmodules : ∀ (k : Nat) m, s'.design.modules[k]? = some m → V.modules[k]? = some m) {r : Session}
    (hready : V.Ready r) :
    (i'.construct V.second depth' (Invocation.build V.second depth')).Leads r V.tooDeep
      (fun m' r' => V.Ready r' ∧ V.module.Matches m') fun _ _ => V.fails := by
  obtain ⟨f, hcallee⟩ := Invocation.exists_callee_of_construct hrun
  cases f with
  | primitive op =>
    exact (leads_construct_primitive hV hi hcallee hrun hready).imp
      fun _ _ h => ⟨h.1, h.2.matches⟩
  | function d =>
    obtain ⟨d', hcallee', hshuffled⟩ := hp.callee hcallee
    obtain ⟨block, hblock, hperm⟩ := hshuffled.statements
    have hd := hbodies d (Program.mem_of_callee hcallee)
    refine (leads_construct_of_body hV hi hcallee hcallee' hshuffled.head hdepth hbuild hrun hready
      (Q := fun m' => ∃ ρ, (∀ k, (ρ k).isSome = true ↔ k < V.module.nodes.size) ∧
        Placed V.module m' ρ (Set.Iio V.module.connections.size)) ?_).imp ?_
    · intro b b' σ σ' mentioned t r' hcontexts hσ hsignature hran hmodule hready'
      obtain ⟨hinputNames, houtputNames⟩ := FunctionDefinition.names_signature hsignature
      exact Replay.leads_function hV hcontexts hσ.inputs hσ.outputs (hinputNames ▸ hd.inputs)
        (houtputNames ▸ hd.outputs) hblock hperm hd.names hd.statements i' hran
        (hs.congr rfl rfl hs.waiting) hmodule hmodules hready'
    · rintro m' r' ⟨hready', hplaced, hinvocation, hinputs, houtputs⟩
      exact ⟨hready', hinvocation, hinputs, houtputs, hplaced⟩

/-! ### All modules again -/

/-- The session has only modules of some kind, and it is not waiting for one of the first modules
of a design. -/
structure Design.Ready (d : Design) (p : Program) (C : Module → Prop) (bound : Nat) (r : Session) :
    Prop where
  sound : r.Sound p
  covered : ∀ m' ∈ r.design.modules, C m'
  waiting : ∀ j ∈ r.stack, ∀ k < bound, ∀ m, d.modules[k]? = some m → m.invocation.agrees j = false

/-- What holds of a session between the calls of `build` for the entries. -/
structure Session.Elaborated (p : Program) (depth : Nat) (s : Session) : Prop where
  sound : s.Sound p
  built : s.AllBuilt
  recorded : s.design.Recorded p depth
  idle : s.stack = []

lemma Design.Ready.waiting_push {p p' : Program} {C : Module → Prop} {s r : Session}
    (hs : s.Sound p) {k bound : Nat} (hk : k ≤ bound) (h : s.design.Ready p' C bound r) {m : Module}
    (hm : s.design.modules[k]? = some m) {j : Invocation} (hj : m.invocation.Like j) :
    ∀ j' ∈ j :: r.stack, ∀ l < k, ∀ m', s.design.modules[l]? = some m' →
      m'.invocation.agrees j' = false := by
  rw [List.forall_mem_cons]
  constructor
  · intro l hl m' hm'
    by_contra hcontra
    rw [Bool.not_eq_false, ← Invocation.like_iff_agrees
      (hs.distinct m' (Array.mem_of_getElem? hm')) hj.right] at hcontra
    have heq := hs.unique l k m' m hm' hm (hcontra.trans hj.symm).agrees
    omega
  · intro j' hj' l hl
    exact h.waiting j' hj' l (by omega)

/-- A module of the design can be built again for an alike invocation, if the second session may
have the modules that match those of the design. It comes after the modules that it instantiates,
so the induction is on its number. -/
theorem leads_build_replayed {p p' : Program} (h : p.Shuffled p') (hp : p.Unambiguous)
    (hp' : p'.DistinctMembers) {depth : Nat} {s : Session} (hs : s.Elaborated p depth)
    {C : Module → Prop} (hC : ∀ m ∈ s.design.modules, ∀ m', m.Matches m' → C m')
    {k bound : Nat} (hk : k < bound) {m : Module}
    (hm : s.design.modules[k]? = some m) {j : Invocation} (hj : m.invocation.Like j) {r : Session}
    (hready : s.design.Ready p' C bound r) (depth' : Nat) :
    (Invocation.build p' depth' j).Leads r (depth' < depth + k + 1)
      (fun id r' => s.design.Ready p' C bound r' ∧
        ∃ m', r'.design.modules[id]? = some m' ∧ m'.invocation.agrees j = true)
      fun _ _ => False := by
  induction k using Nat.strong_induction_on generalizing bound m j r depth' with
  | _ k ih =>
  suffices hcovered : (Invocation.build p' depth' j).Leads r (depth' < depth + k + 1)
      (fun _ r' => ∀ m' ∈ r'.design.modules, C m') fun _ _ => False by
    have hsoundly := buildsSoundly_build hp' depth' j r hj.right hready.sound
    refine ((hcovered.and hsoundly).imp ?_).impError fun _ _ h => h.1
    rintro id r' ⟨hcovered', ⟨hsound', hgrows⟩, hmodule⟩
    exact ⟨⟨hsound', hcovered', hgrows.stack ▸ hready.waiting⟩, hmodule⟩
  cases depth' with
  | zero => exact Nat.succ_pos _
  | succ depth' =>
    rw [Invocation.build]
    refine Leads.bind (Q := fun r₁ r' => r = r₁ ∧ r = r') (leads_get ⟨rfl, rfl⟩) ?_
    rintro _ _ ⟨rfl, rfl⟩
    split
    · exact leads_pure hready.covered
    · next hcached =>
      split
      · next hstack =>
        obtain ⟨j', hj', hagrees⟩ := List.any_eq_true.mp hstack
        have hlike := (Invocation.like_iff_agrees (hready.sound.waiting j' hj').1 hj.right).mpr hagrees
        have hfalse := hready.waiting j' hj' k hk m hm
        rw [(hj.trans hlike.symm).agrees] at hfalse
        cases hfalse
      · obtain ⟨e, s₀, s₁, he, hs₀, hrun, hsize, hmodules⟩ := hs.recorded k m hm
        have hmem := Array.mem_of_getElem? hm
        let V : Replay := ⟨m, s₁.design.modules, p, p', s.design.Ready p' C k, depth' < depth + k, False⟩
        have hV : V.Valid := by
          refine ⟨(hs.built m hmem).wired, ?_, h.sameHeads, hp.members, fun _ h => h.sound, ?_⟩
          · intro n hn
            exact Node.fits_iff.mp ((hs.built m hmem).fits n hn)
          · intro r' mentioned h'
            exact ⟨h'.sound.congr rfl rfl h'.sound.waiting, h'.covered, h'.waiting⟩
        have hstart : V.Ready { r with stack := j :: r.stack } := by
          rw [hready.sound.cached, Design.find?_eq_none_iff] at hcached
          refine ⟨hready.sound.congr rfl rfl
            (List.forall_mem_cons.mpr ⟨⟨hj.right, hcached⟩, hready.sound.waiting⟩), hready.covered, ?_⟩
          exact hready.waiting_push hs.sound hk.le hm hj
        refine Leads.bind (Q := fun m' r' => (∀ m' ∈ r'.design.modules, C m') ∧ m.Matches m')
          (leads_whileBuilding ?_) ?_
        · refine ((leads_construct_replayed hV h hp.bodies hj ?_ ?_ hs₀ hrun
            (fun _ _ hget => hget) hstart).imp ?_).impNone ?_
          · intro hlt
            change depth' < depth + k
            omega
          · intro i i' s₂ s₃ id hlike hs₂ hrun₂ hmodules₂ r₂ hready₂
            obtain ⟨-, m₂, hm₂, hagrees⟩ :=
              (buildsSoundly_build hp.members e i s₂ hlike.left hs₂).of_run hrun₂
            have hget := hmodules₂ id m₂ hm₂
            have hid : id < k := hsize ▸ (Array.getElem?_eq_some_iff.mp hget).1
            have hm₂' := hmodules id m₂ hget
            have hlike₂ := (Invocation.like_iff_agrees
              (hs.sound.distinct m₂ (Array.mem_of_getElem? hm₂')) hlike.left).mpr hagrees
            refine (ih id hid hid hm₂' (hlike₂.trans hlike) hready₂ depth').impNone ?_
            intro hlt
            change depth' < depth + k
            omega
          · rintro m' r' ⟨hready', hmatches⟩
            exact ⟨hready'.covered, hmatches⟩
          · intro hlt
            change depth' < depth + k at hlt
            omega
        · rintro m' r' ⟨hcovered, hmatches⟩
          refine Leads.bind (Q := fun r₁ r₂ => r' = r₁ ∧ r' = r₂) (leads_get ⟨rfl, rfl⟩) ?_
          rintro _ _ ⟨rfl, rfl⟩ m'' hm''
          rcases Design.mem_addModule.mp hm'' with hm'' | rfl
          · exact hcovered m'' hm''
          · exact hC m hmem _ hmatches

/-! ### Whole designs -/

/-- The number is that of the module of a function without generic values. -/
def Design.IsFor (d : Design) (name : String) (id : Nat) : Prop :=
  ∃ m, d.modules[id]? = some m ∧ m.invocation.Like (.plain name)

lemma Design.modules_addEntry (d : Design) (id : Nat) : (d.addEntry id).modules = d.modules := by
  unfold addEntry
  split <;> rfl

lemma Session.elaborated_empty (p : Program) (depth : Nat) : Session.empty.Elaborated p depth := by
  refine ⟨sound_empty p, ?_, ?_, rfl⟩
  · simp [AllBuilt, empty, Design.empty]
  · simp [Design.Recorded, empty, Design.empty]

lemma Session.Elaborated.addEntry {p : Program} {depth : Nat} {s : Session}
    (h : s.Elaborated p depth) (id : Nat) :
    Elaborated p depth { s with design := s.design.addEntry id } := by
  have hmodules := s.design.modules_addEntry id
  refine ⟨h.sound.congr hmodules rfl h.sound.waiting, ?_, ?_, h.idle⟩
  · intro m hm
    rw [hmodules] at hm
    exact h.built m hm
  · unfold Design.Recorded
    rw [hmodules]
    exact h.recorded

lemma leads_buildEntry_elaborated {p : Program} (hp : p.DistinctMembers) {depth : Nat}
    {d : FunctionDefinition} {s : Session} (hs : s.Elaborated p depth)
    (hnew : ∀ id ∈ s.design.entries, ∃ m, s.design.modules[id]? = some m ∧
      m.invocation.function ≠ d.name) :
    (d.buildEntry p depth).Leads s True
      (fun _ s' => s'.Elaborated p depth ∧ s.Grows s' ∧
        ∃ id, s'.design.IsFor d.name id ∧ s'.design.entries = s.design.entries ++ [id])
      fun _ _ => True := by
  have hplain := Invocation.distinct_plain d.name
  have hall := ((buildsSoundly_build hp depth _ s hplain hs.sound).and
    (leads_build_built p depth (.plain d.name) hs.built)).and
    (leads_build_recorded hp le_rfl hplain hs.sound hs.recorded)
  refine Leads.bind ((hall.imp fun _ _ h => h).impError fun _ _ _ => trivial) ?_
  rintro id s' ⟨⟨⟨⟨hsound, hgrows⟩, m, hm, hagrees⟩, hbuilt⟩, hrecorded, hentries⟩
  have hlike := (Invocation.like_iff_agrees (hsound.distinct m (Array.mem_of_getElem? hm))
    hplain).mpr hagrees
  have hs' : s'.Elaborated p depth := ⟨hsound, hbuilt, hrecorded, hgrows.stack.trans hs.idle⟩
  have hmodules := s'.design.modules_addEntry id
  -- the module has the name of the function, and those of the entries before have other names
  have hfresh : id ∉ s'.design.entries := by
    intro hold
    rw [hentries] at hold
    obtain ⟨m', hm', hne⟩ := hnew id hold
    have heq := hgrows.modules id m' hm'
    rw [hm] at heq
    cases heq
    exact hne hlike.values.1
  refine ⟨hs'.addEntry id, ⟨hgrows.stack, ?_⟩, id, ⟨m, ?_, hlike⟩, ?_⟩
  · intro k m' hm'
    rw [hmodules]
    exact hgrows.modules k m' hm'
  · rw [hmodules]
    exact hm
  · rw [← hentries]
    simp [Design.addEntry, hfresh]

lemma Design.IsFor.grows {s s' : Session} (hgrows : s.Grows s') {name : String} {id : Nat}
    (h : s.design.IsFor name id) : s'.design.IsFor name id := by
  obtain ⟨m, hm, hlike⟩ := h
  exact ⟨m, hgrows.modules id m hm, hlike⟩

/-- Building functions of different names one after the other, each of which becomes an entry. -/
lemma leads_buildEntries_elaborated {p : Program} (hp : p.DistinctMembers) {depth : Nat}
    {ds : List FunctionDefinition} (hnames : (ds.map FunctionDefinition.name).Nodup) {s : Session}
    (hs : s.Elaborated p depth) (hnew : ∀ id ∈ s.design.entries, ∃ m, s.design.modules[id]? = some m ∧
      m.invocation.function ∉ ds.map FunctionDefinition.name) :
    (ds.forM (FunctionDefinition.buildEntry p depth)).Leads s True
      (fun _ s' => s'.Elaborated p depth ∧ s.Grows s' ∧
        ∃ ids, List.Forall₂ (fun d id => s'.design.IsFor d.name id) ds ids ∧
          s'.design.entries = s.design.entries ++ ids) fun _ _ => True := by
  induction ds generalizing s with
  | nil => exact leads_pure ⟨hs, s.grows_self, [], .nil, by simp⟩
  | cons d ds ih =>
    rw [List.map_cons, List.nodup_cons] at hnames
    have hfirst : ∀ id ∈ s.design.entries, ∃ m, s.design.modules[id]? = some m ∧
        m.invocation.function ≠ d.name := by
      intro id hid
      obtain ⟨m, hm, hnot⟩ := hnew id hid
      exact ⟨m, hm, fun heq => hnot (heq ▸ List.mem_cons_self ..)⟩
    refine Leads.bind (leads_buildEntry_elaborated hp hs hfirst) ?_
    rintro _ s₁ ⟨hs₁, hgrows₁, id, hid, hentries₁⟩
    have hrest : ∀ id ∈ s₁.design.entries, ∃ m, s₁.design.modules[id]? = some m ∧
        m.invocation.function ∉ ds.map FunctionDefinition.name := by
      intro id' hid'
      rw [hentries₁, List.mem_append, List.mem_singleton] at hid'
      rcases hid' with hid' | rfl
      · obtain ⟨m, hm, hnot⟩ := hnew id' hid'
        exact ⟨m, hgrows₁.modules id' m hm, fun hmem => hnot (List.mem_cons_of_mem _ hmem)⟩
      · obtain ⟨m, hm, hlike⟩ := hid
        refine ⟨m, hm, ?_⟩
        rw [hlike.values.1]
        exact hnames.1
    refine (ih hnames.2 hs₁ hrest).imp ?_
    rintro _ s₂ ⟨hs₂, hgrows₂, ids, hids, hentries₂⟩
    refine ⟨hs₂, hgrows₁.trans hgrows₂, id :: ids, .cons (hid.grows hgrows₂) hids, ?_⟩
    rw [hentries₂, hentries₁, List.append_assoc]
    rfl

/-- The names of the functions that are built on their own. -/
def Program.entryNames (p : Program) : List String :=
  (p.functions.filter fun d => d.generics.isEmpty).map FunctionDefinition.name

lemma Program.Shuffled.entryNames {p p' : Program} (h : p.Shuffled p') :
    p'.entryNames = p.entryNames := by
  have hfunctions := h.functions
  unfold Program.entryNames
  generalize p.functions = ds at hfunctions
  generalize p'.functions = ds' at hfunctions
  induction hfunctions with
  | nil => rfl
  | cons hd _ ih =>
    rw [List.filter_cons, List.filter_cons, hd.head.generics]
    split
    · rw [List.map_cons, List.map_cons, hd.head.name, ih]
    · exact ih

/-- What a program that can be built is built to. -/
theorem leads_buildAll_elaborated {p : Program} (hp : p.Unambiguous) (depth : Nat) :
    (p.buildAll depth).Leads .empty True
      (fun _ s => s.Elaborated p depth ∧
        List.Forall₂ s.design.IsFor p.entryNames s.design.entries) fun _ _ => True := by
  refine (leads_buildEntries_elaborated hp.members
    (hp.functions.sublist (List.filter_sublist.map _)) (Session.elaborated_empty p depth) ?_).imp ?_
  · intro id hid
    cases hid
  · rintro _ s ⟨hs, -, ids, hids, hentries⟩
    rw [hentries]
    exact ⟨hs, List.forall₂_map_left_iff.mpr hids⟩

/-- The module matches one of the design. -/
def Design.Covers (d : Design) (m' : Module) : Prop :=
  ∃ m ∈ d.modules, m.Matches m'

lemma leads_buildEntries_replayed {p p' : Program} (h : p.Shuffled p') (hp : p.Unambiguous)
    (hp' : p'.DistinctMembers) {depth : Nat} {s : Session} (hs : s.Elaborated p depth) (depth' : Nat)
    {ds : List FunctionDefinition} (hds : ∀ d ∈ ds, ∃ id, s.design.IsFor d.name id) {r : Session}
    (hr : s.design.Ready p' s.design.Covers s.design.modules.size r) :
    (ds.forM (FunctionDefinition.buildEntry p' depth')).Leads r
      (depth' < depth + s.design.modules.size)
      (fun _ r' => s.design.Ready p' s.design.Covers s.design.modules.size r') fun _ _ => False := by
  induction ds generalizing r with
  | nil => exact leads_pure hr
  | cons d ds ih =>
    rw [List.forall_mem_cons] at hds
    obtain ⟨⟨id, m, hm, hlike⟩, hrest⟩ := hds
    have hid : id < s.design.modules.size := (Array.getElem?_eq_some_iff.mp hm).1
    refine Leads.bind (Q := fun _ r' => s.design.Ready p' s.design.Covers s.design.modules.size r') ?_
      fun _ r' hr' => ih hrest hr'
    refine Leads.bind ((leads_build_replayed h hp hp' hs (fun m hm m' hmatches => ⟨m, hm, hmatches⟩)
      hid hm hlike hr depth').impNone fun hlt => by omega) ?_
    rintro id' r' ⟨hr', -⟩
    have hmodules := r'.design.modules_addEntry id'
    refine ⟨hr'.sound.congr hmodules rfl hr'.sound.waiting, ?_, hr'.waiting⟩
    rw [hmodules]
    exact hr'.covered

/-- The program in another order is built to modules that match those of the design, and it is
built indeed if the depth suffices. -/
theorem leads_buildAll_replayed {p p' : Program} (h : p.Shuffled p') (hp : p.Unambiguous)
    (hp' : p'.DistinctMembers) {depth : Nat} {s : Session} (hs : s.Elaborated p depth)
    (hentries : List.Forall₂ s.design.IsFor p.entryNames s.design.entries) (depth' : Nat) :
    (p'.buildAll depth').Leads .empty (depth' < depth + s.design.modules.size)
      (fun _ r => ∀ m' ∈ r.design.modules, s.design.Covers m') fun _ _ => False := by
  have hempty : s.design.Ready p' s.design.Covers s.design.modules.size .empty :=
    ⟨Session.sound_empty p', by simp [Session.empty, Design.empty], by simp [Session.empty]⟩
  refine (leads_buildEntries_replayed h hp hp' hs depth' ?_ hempty).imp fun _ _ hr => hr.covered
  intro d hd
  have hname : d.name ∈ p.entryNames := by
    rw [← h.entryNames]
    exact List.mem_map_of_mem hd
  obtain ⟨id, -, hid⟩ := exists_mem_right_of_forall₂ hentries hname
  exact ⟨id, hid⟩

end NetlistCompiler
