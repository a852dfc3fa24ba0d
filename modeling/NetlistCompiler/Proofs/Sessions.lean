import NetlistCompiler.Proofs.ElaborationSteps
import NetlistCompiler.Proofs.ResolvedPrograms

/-!
# Build sessions

Between calls of `build` a session is sound: its cache says what a search of the design says, no
invocation has two modules, and the instances in a module are instances of earlier modules. Modules
that are there stay as they are, whether later calls succeed or fail. While a module is being built
the same holds of the session, and no module has been finished for an invocation on the stack.
-/

namespace NetlistCompiler

/-- The instances in a module are instances of modules numbered below `bound`, with the ports of
those modules. -/
def Design.InstancesBelow (d : Design) (bound : Nat) (m : Module) : Prop :=
  ∀ n ∈ m.nodes, ∀ id i, n.kind = .instance id i → id < bound ∧ ∃ m', d.modules[id]? = some m' ∧
    m'.invocation.agrees i = true ∧ n.inputs = m'.inputs ∧ n.outputs = m'.outputs

/-- The ports of the module are those of its invocation. -/
def Module.PortsExpanded (p : Program) (m : Module) : Prop :=
  ∃ depth σ, (m.invocation.ports p (p.unfolding depth)).run = some (.ok σ) ∧
    m.inputs = σ.inputs ∧ m.outputs = σ.outputs

lemma Invocation.ports_of_primitive {p : Program} {u : Unfolding} {i : Invocation}
    {op : PrimitiveOp} {primitive : Primitive}
    (hcallee : p.callee i.function = .ok (.primitive op))
    (hcall : Primitive.ofCall op i = .ok primitive) :
    (i.ports p u).run = some (.ok primitive.signature) := by
  unfold Invocation.ports
  rw [hcallee]
  change (liftM (Primitive.ofCall op i) >>= fun q : Primitive => pure q.signature :
    Expand Signature).run = _
  rw [hcall]
  rfl

lemma Invocation.ports_of_function {p : Program} {u : Unfolding} {i : Invocation}
    {d : FunctionDefinition} {b : Bindings} {σ : Signature}
    (hcallee : p.callee i.function = .ok (.function d))
    (hbind : (d.generics.bind p u d.name i.interfaces i.parameters).run = some (.ok b))
    (hsignature : (d.signature p u b).run = some (.ok σ)) :
    (i.ports p u).run = some (.ok σ) := by
  unfold Invocation.ports
  rw [hcallee]
  change (d.generics.bind p u d.name i.interfaces i.parameters >>= d.signature p u).run = _
  rw [Expand.run_bind_expand, hbind]
  exact hsignature

namespace Session

structure Sound (p : Program) (s : Session) : Prop where
  cached : ∀ i, s.cached? i = s.design.find? i
  distinct : ∀ m ∈ s.design.modules, m.invocation.Distinct
  unique : ∀ (k l : Nat) m n, s.design.modules[k]? = some m → s.design.modules[l]? = some n →
    m.invocation.agrees n.invocation = true → k = l
  instances : ∀ (k : Nat) m, s.design.modules[k]? = some m → s.design.InstancesBelow k m
  ports : ∀ m ∈ s.design.modules, m.PortsExpanded p
  waiting : ∀ i ∈ s.stack, i.Distinct ∧ ∀ m ∈ s.design.modules, m.invocation.agrees i = false

/-- The second session has the modules of the first, and possibly more. -/
structure Grows (s s' : Session) : Prop where
  stack : s'.stack = s.stack
  modules : ∀ (k : Nat) m, s.design.modules[k]? = some m → s'.design.modules[k]? = some m

variable {p : Program} {s s' s'' : Session}

lemma grows_self (s : Session) : s.Grows s :=
  ⟨rfl, fun _ _ h => h⟩

lemma Grows.trans (h : s.Grows s') (h' : s'.Grows s'') : s.Grows s'' :=
  ⟨h'.stack.trans h.stack, fun k m hm => h'.modules k m (h.modules k m hm)⟩

lemma Grows.size_le (h : s.Grows s') : s.design.modules.size ≤ s'.design.modules.size := by
  by_contra hlt
  have hget := h.modules s'.design.modules.size s.design.modules[s'.design.modules.size] (by simp)
  simp at hget

lemma sound_empty (p : Program) : Session.empty.Sound p := by
  constructor <;> simp [empty, Design.empty, cached?, Design.find?]

end Session

namespace Design

lemma getElem?_addModule {d : Design} {m m' : Module} {k : Nat} :
    (d.addModule m).modules[k]? = some m' ↔
      d.modules[k]? = some m' ∨ k = d.modules.size ∧ m = m' := by
  rw [addModule, Array.getElem?_push]
  split
  · next hk =>
    subst hk
    simp
  · next hk => simp [hk]

lemma mem_addModule {d : Design} {m m' : Module} :
    m' ∈ (d.addModule m).modules ↔ m' ∈ d.modules ∨ m' = m :=
  Array.mem_push

lemma find?_addModule (d : Design) (m : Module) (i : Invocation) :
    (d.addModule m).find? i =
      (d.find? i).or (if m.invocation.agrees i then some d.modules.size else none) := by
  rw [find?, addModule, Array.findIdx?_push]
  rfl

lemma find?_eq_none_iff {d : Design} {i : Invocation} :
    d.find? i = none ↔ ∀ m ∈ d.modules, m.invocation.agrees i = false := by
  simp [find?, Array.findIdx?_eq_none_iff]

lemma agrees_of_find? {d : Design} {i : Invocation} {id : Nat} (h : d.find? i = some id) :
    ∃ m, d.modules[id]? = some m ∧ m.invocation.agrees i = true := by
  obtain ⟨hid, hagrees, -⟩ := Array.findIdx?_eq_some_iff_getElem.mp h
  exact ⟨d.modules[id], by simp [hid], hagrees⟩

lemma InstancesBelow.imp {d d' : Design} {bound bound' : Nat} {m : Module}
    (h : d.InstancesBelow bound m) (hbound : bound ≤ bound')
    (hmodules : ∀ (k : Nat) m, d.modules[k]? = some m → d'.modules[k]? = some m) :
    d'.InstancesBelow bound' m := by
  intro n hn id i hkind
  obtain ⟨hlt, m', hm', hrest⟩ := h n hn id i hkind
  exact ⟨by omega, m', hmodules id m' hm', hrest⟩

end Design

/-! ### The construction of one module -/

namespace Session

/-- What holds while the module of an invocation is under construction, since a session in which it
was started. -/
structure Building (p : Program) (i : Invocation) (start : Session) (m : Module) (s : Session) :
    Prop where
  sound : s.Sound p
  grows : start.Grows s
  invocation : m.invocation = i
  ports : m.PortsExpanded p
  instances : s.design.InstancesBelow s.design.modules.size m

variable {p : Program} {i : Invocation} {start s : Session} {m m' : Module}

lemma Building.congr (h : Building p i start m s) (hinvocation : m'.invocation = m.invocation)
    (hinputs : m'.inputs = m.inputs) (houtputs : m'.outputs = m.outputs)
    (hinstances : s.design.InstancesBelow s.design.modules.size m') :
    Building p i start m' s := by
  obtain ⟨depth, σ, hσ, hports⟩ := h.ports
  refine ⟨h.sound, h.grows, hinvocation.trans h.invocation, ⟨depth, σ, ?_, ?_⟩, hinstances⟩
  · rw [hinvocation]
    exact hσ
  · rw [hinputs, houtputs]
    exact hports

lemma Building.addNode (h : Building p i start m s) {n : Node}
    (hn : ∀ id j, n.kind = .instance id j → id < s.design.modules.size ∧
      ∃ m', s.design.modules[id]? = some m' ∧ m'.invocation.agrees j = true ∧
        n.inputs = m'.inputs ∧ n.outputs = m'.outputs) : Building p i start (m.addNode n) s := by
  refine h.congr rfl rfl rfl ?_
  intro n' hn'
  rcases Array.mem_push.mp hn' with hn' | rfl
  · exact h.instances n' hn'
  · exact hn

lemma Building.connect (h : Building p i start m s) {d w : Wire} (hconnect : m.connect d w = .ok m') :
    Building p i start m' s := by
  obtain ⟨rfl, -⟩ := Module.of_connect_eq_ok hconnect
  refine h.congr rfl rfl rfl ?_
  intro n hn
  exact h.instances n (by simpa [Module.extend] using hn)

lemma Building.exposed {ports : List Port} {f : Module → Port → Nat → Except ConnectError Module}
    (hf : ∀ m port index m', Building p i start m s → f m port index = .ok m' →
      Building p i start m' s) (h : Building p i start m s)
    (hfold : ports.zipIdx.foldlM (fun m (port, index) => f m port index) m = .ok m') :
    Building p i start m' s :=
  foldlM_keeps (P := fun m => Building p i start m s)
    (fun m a _ m' hm hstep => hf m a.1 a.2 m' hm hstep) h hfold

lemma Building.connectPort (h : Building p i start m s) {source sink : Wire} {width : Nat}
    (hconnect : m.connectPort source sink width = .ok m') : Building p i start m' s :=
  foldlM_keeps (P := fun m => Building p i start m s) (fun _ _ _ _ hm hstep => hm.connect hstep)
    h hconnect

lemma building_ofPrimitive {op : PrimitiveOp} {primitive : Primitive} {start : Session}
    (hstart : start.Sound p) (hcallee : p.callee i.function = .ok (.primitive op))
    (hcall : Primitive.ofCall op i = .ok primitive) (hm : Module.ofPrimitive i primitive = .ok m) :
    Building p i start m start := by
  have hports := Invocation.ports_of_primitive (u := p.unfolding 0) hcallee hcall
  have hempty : Building p i start
      (.empty i primitive.signature.inputs primitive.signature.outputs) start :=
    ⟨hstart, grows_self start, rfl, ⟨0, _, hports, rfl, rfl⟩, by simp [Design.InstancesBelow, Module.empty]⟩
  unfold Module.ofPrimitive at hm
  obtain ⟨m₁, hinputs, houtputs⟩ := exists_of_bind_eq_ok hm
  have hm₁ : Building p i start m₁ start := by
    refine Building.exposed (f := Module.exposeInput) ?_ (hempty.addNode ?_) hinputs
    · intro m port index m' h hexpose
      refine Building.connectPort (h.addNode ?_) hexpose
      rintro _ _ ⟨⟩
    · rintro _ _ ⟨⟩
  refine Building.exposed (f := Module.exposeOutput) ?_ hm₁ houtputs
  intro m port index m' h hexpose
  refine Building.connectPort (h.addNode ?_) hexpose
  rintro _ _ ⟨⟩

end Session

open Elaborate

/-- A session goes on soundly: what `build` has to do for the construction of other modules. -/
def BuildsSoundly (p : Program) (build : Invocation → Elaborate Nat) : Prop :=
  ∀ i s, i.Distinct → s.Sound p → (build i).Leads s True
    (fun id s' => (s'.Sound p ∧ s.Grows s') ∧
      ∃ m, s'.design.modules[id]? = some m ∧ m.invocation.agrees i = true)
    fun _ s' => s'.Sound p ∧ s.Grows s'

lemma Session.Sound.congr {p : Program} {s s' : Session} (h : s.Sound p)
    (hmodules : s'.design.modules = s.design.modules) (hcache : s'.cache = s.cache)
    (hstack : ∀ i ∈ s'.stack, i.Distinct ∧ ∀ m ∈ s.design.modules, m.invocation.agrees i = false) :
    s'.Sound p := by
  have hcached : ∀ i, s'.cached? i = s.cached? i := by
    intro i
    rw [cached?, hcache]
    rfl
  constructor
  · intro i
    rw [hcached, Design.find?, hmodules]
    exact h.cached i
  · rw [hmodules]
    exact h.distinct
  · rw [hmodules]
    exact h.unique
  · intro k m hm
    rw [hmodules] at hm
    exact (h.instances k m hm).imp le_rfl fun k m hm => hmodules ▸ hm
  · rw [hmodules]
    exact h.ports
  · rw [hmodules]
    exact hstack

lemma Session.Sound.pop {p : Program} {s : Session} (h : s.Sound p) :
    Session.Sound p { s with stack := s.stack.tail } :=
  h.congr rfl rfl fun i hi => h.waiting i (List.mem_of_mem_tail hi)

lemma closed_building {p : Program} {c : BodyContext} {i : Invocation} {start : Session}
    (hbuild : BuildsSoundly p c.build) (hdistinct : ∀ j, Construct.Instantiates c j → j.Distinct) :
    Construct.Closed c (Session.Building p i start)
      fun s => s.Sound p ∧ start.Grows s where
  fails _ _ h := ⟨h.sound, h.grows⟩
  mention _ s mentioned h :=
    ⟨h.sound.congr rfl rfl h.sound.waiting, ⟨h.grows.stack, h.grows.modules⟩, h.invocation, h.ports,
      h.instances⟩
  input _ _ _ _ h := h.addNode nofun
  output _ _ _ _ h := h.addNode nofun
  pass _ _ _ _ _ h := h.addNode nofun
  primitive _ _ _ _ _ h := h.addNode nofun
  build m s name j _ hj _ h := by
    refine ((hbuild j s (hdistinct j hj) h.sound).imp ?_).impError ?_
    · rintro id s' ⟨⟨hsound, hgrows⟩, m', hm', hagrees⟩
      refine ⟨⟨hsound, h.grows.trans hgrows⟩, fun _ => ?_⟩
      have hsize : s.design.modules.size ≤ s'.design.modules.size := hgrows.size_le
      have hstill : Session.Building p i start m s' :=
        ⟨hsound, h.grows.trans hgrows, h.invocation, h.ports, h.instances.imp hsize hgrows.modules⟩
      apply hstill.addNode
      rintro _ _ ⟨⟩
      refine ⟨(Array.getElem?_eq_some_iff.mp hm').1, m', hm', hagrees, ?_, ?_⟩
      · simp [Construct.instanceNode, hm']
      · simp [Construct.instanceNode, hm']
    · rintro e s' ⟨hsound, hgrows⟩
      exact ⟨hsound, h.grows.trans hgrows⟩
  connect _ _ _ _ _ _ hconnect h := h.connect hconnect

/-! ### Calls of `build` -/

lemma Session.cached?_finish (s : Session) (i j : Invocation) (m : Module) :
    (s.finish i m).cached? j =
      if i.agrees j then some s.design.modules.size else s.cached? j := by
  rw [cached?, finish, List.find?_cons]
  cases i.agrees j <;> rfl

/-- Finishing the module that is innermost on the stack, for an invocation that agrees with none
of the others. -/
lemma Session.Building.finish {p : Program} {i : Invocation} {s s' : Session} {m : Module}
    (h : Building p i { s with stack := i :: s.stack } m s')
    (hother : s.stack.any (fun j => j.agrees i) = false) :
    ({ s' with stack := s'.stack.tail }.finish i m).Sound p ∧
      s.Grows ({ s' with stack := s'.stack.tail }.finish i m) := by
  obtain ⟨hsound, hgrows, rfl, hports, hinstances⟩ := h
  have hstack : s'.stack = m.invocation :: s.stack := hgrows.stack
  obtain ⟨hdistinct, hfresh⟩ := hsound.waiting m.invocation (by simp [hstack])
  -- no finished module shares an invocation with the new one
  have hapart : ∀ m' ∈ s'.design.modules, ∀ j, m.invocation.agrees j = true →
      m'.invocation.agrees j = false := by
    intro m' hm' j hj
    have hlike := (Invocation.like_iff_agrees hdistinct
      (Invocation.distinct_of_agrees hdistinct hj)).mpr hj
    by_contra hcontra
    rw [Bool.not_eq_false, ← Invocation.like_iff_agrees (hsound.distinct m' hm') hlike.right] at hcontra
    simpa [hfresh m' hm'] using (hcontra.trans hlike.symm).agrees
  refine ⟨⟨?_, ?_, ?_, ?_, ?_, ?_⟩, ?_, ?_⟩
  · intro j
    rw [cached?_finish]
    change (if m.invocation.agrees j then some s'.design.modules.size else s'.cached? j) =
      (s'.design.addModule m).find? j
    rw [Design.find?_addModule, hsound.cached]
    split
    · next hj =>
      rw [Design.find?_eq_none_iff.mpr fun m' hm' => hapart m' hm' j hj]
      rfl
    · simp
  · intro m' hm'
    rcases Design.mem_addModule.mp hm' with hm' | rfl
    · exact hsound.distinct m' hm'
    · exact hdistinct
  · intro k l m₁ m₂ hm₁ hm₂ hagrees
    rcases Design.getElem?_addModule.mp hm₁ with hm₁ | ⟨rfl, rfl⟩
    · rcases Design.getElem?_addModule.mp hm₂ with hm₂ | ⟨rfl, rfl⟩
      · exact hsound.unique k l m₁ m₂ hm₁ hm₂ hagrees
      · simp [hfresh m₁ (Array.mem_of_getElem? hm₁)] at hagrees
    · rcases Design.getElem?_addModule.mp hm₂ with hm₂ | ⟨rfl, rfl⟩
      · have hself := (Invocation.like_self (hsound.distinct m₂ (Array.mem_of_getElem? hm₂))).agrees
        simp [hapart m₂ (Array.mem_of_getElem? hm₂) _ hagrees] at hself
      · rfl
  · intro k m' hm'
    have hmodules : ∀ (k : Nat) m', s'.design.modules[k]? = some m' →
        (s'.design.addModule m).modules[k]? = some m' :=
      fun k m' hm' => Design.getElem?_addModule.mpr (.inl hm')
    rcases Design.getElem?_addModule.mp hm' with hm' | ⟨rfl, rfl⟩
    · exact (hsound.instances k m' hm').imp le_rfl hmodules
    · exact hinstances.imp le_rfl hmodules
  · intro m' hm'
    rcases Design.mem_addModule.mp hm' with hm' | rfl
    · exact hsound.ports m' hm'
    · exact hports
  · intro j hj
    have hj' : j ∈ s.stack := by simpa [Session.finish, hstack] using hj
    obtain ⟨hdistinct', hwaiting⟩ := hsound.waiting j (by simp [hstack, hj'])
    refine ⟨hdistinct', ?_⟩
    intro m' hm'
    rcases Design.mem_addModule.mp hm' with hm' | rfl
    · exact hwaiting m' hm'
    · by_contra hcontra
      rw [Bool.not_eq_false, ← Invocation.like_iff_agrees hdistinct hdistinct'] at hcontra
      simpa [hcontra.symm.agrees] using List.any_eq_false.mp hother j hj'
  · simp [Session.finish, hstack]
  · intro k m' hm'
    exact Design.getElem?_addModule.mpr (.inl (hgrows.modules k m' hm'))

/-- The invocations that a body can instantiate have distinct field names, given that the generic
values of the body have. -/
lemma distinct_of_instantiates {p : Program} (hp : p.DistinctMembers) {depth : Nat}
    {i : Invocation} (hi : i.Distinct) {d : FunctionDefinition} {b : Bindings} {label : String}
    {build : Invocation → Elaborate Nat} {j : Invocation}
    (hbind : (d.generics.bind p (p.unfolding depth) d.name i.interfaces i.parameters).run =
      some (.ok b))
    (hj : Construct.Instantiates
      ⟨p, p.unfolding depth, p.expansionNames depth, b, label, build⟩ j) : j.Distinct := by
  have hu := p.unfolding_follows p.sameHeads_self hp depth depth
  obtain ⟨-, hinterfaces, hparameters⟩ := (Invocation.like_self hi).values
  have hb : b.Like b := (Generics.bind_follows p.sameHeads_self hu d.generics d.name hinterfaces
    hparameters).self (lt_irrefl depth) hbind
  rcases hj with ⟨instantiation, hj⟩ | ⟨parameter, hj⟩
  · exact ((instantiation.expand_follows p.sameHeads_self hu hb).self (lt_irrefl depth) hj).left
  · have hlookup := hb.functions parameter
    rw [hj] at hlookup
    cases hlookup with
    | some hlike => exact hlike.left

lemma leads_construct_building {p : Program} (hp : p.DistinctMembers) (depth : Nat)
    {build : Invocation → Elaborate Nat} (hbuild : BuildsSoundly p build) {i : Invocation}
    (hi : i.Distinct) {start : Session} (hstart : start.Sound p) :
    (i.construct p depth build).Leads start True (Session.Building p i start)
      fun _ s' => s'.Sound p ∧ start.Grows s' := by
  have hmentioned : ∀ mentioned, Session.Sound p { start with mentioned } ∧
      start.Grows { start with mentioned } :=
    fun mentioned => ⟨hstart.congr rfl rfl hstart.waiting, rfl, fun _ _ hm => hm⟩
  apply Invocation.leads_construct
  · exact hmentioned
  · intro op primitive m mentioned hcallee hcall _ hm
    obtain ⟨hsound, -, hinvocation, hports, hinstances⟩ :=
      Session.building_ofPrimitive (hmentioned mentioned).1 hcallee hcall hm
    exact ⟨hsound, (hmentioned mentioned).2, hinvocation, hports, hinstances⟩
  · intro d b signature mentioned hcallee hbind hsignature
    refine ⟨closed_building hbuild fun j hj => distinct_of_instantiates hp hi hbind hj, ?_⟩
    have hports := Invocation.ports_of_function hcallee hbind hsignature
    exact ⟨(hmentioned mentioned).1, (hmentioned mentioned).2, rfl, ⟨depth, signature, hports, rfl, rfl⟩,
      by simp [Design.InstancesBelow, Module.empty]⟩

lemma buildsSoundly_build {p : Program} (hp : p.DistinctMembers) (depth : Nat) :
    BuildsSoundly p (Invocation.build p depth) := by
  induction depth with
  | zero => exact fun _ _ _ _ => trivial
  | succ depth ih =>
    intro i s hi hs
    rw [Invocation.build]
    refine Leads.bind (Q := fun s₁ s' => s = s₁ ∧ s = s') (leads_get ⟨rfl, rfl⟩) ?_
    rintro _ _ ⟨rfl, rfl⟩
    split
    · next id hcached =>
      rw [hs.cached] at hcached
      exact leads_pure ⟨⟨hs, s.grows_self⟩, Design.agrees_of_find? hcached⟩
    · next hcached =>
      rw [hs.cached, Design.find?_eq_none_iff] at hcached
      split
      · exact Leads.bind (Q := fun _ _ => False) (leads_throw ⟨hs, s.grows_self⟩)
          fun _ _ hfalse => hfalse.elim
      · next hother =>
        rw [Bool.not_eq_true] at hother
        have hstart : Session.Sound p { s with stack := i :: s.stack } :=
          hs.congr rfl rfl (List.forall_mem_cons.mpr ⟨⟨hi, hcached⟩, hs.waiting⟩)
        refine Leads.bind (Q := fun m s₁ => ∃ s', s₁ = { s' with stack := s'.stack.tail } ∧
          Session.Building p i { s with stack := i :: s.stack } m s') (leads_whileBuilding ?_) ?_
        · refine ((leads_construct_building hp depth ih hi hstart).imp ?_).impError ?_
          · exact fun m s' h => ⟨s', rfl, h⟩
          · rintro e s' ⟨hsound, hgrows⟩
            exact ⟨hsound.pop, by rw [hgrows.stack]; rfl, hgrows.modules⟩
        · rintro m _ ⟨s', rfl, hbuilding⟩
          refine Leads.bind (Q := fun s₁ s₂ => { s' with stack := s'.stack.tail } = s₁ ∧
            { s' with stack := s'.stack.tail } = s₂) (leads_get ⟨rfl, rfl⟩) ?_
          rintro _ _ ⟨rfl, rfl⟩
          have hinvocation := (Invocation.like_self hi).agrees
          rw [← hbuilding.invocation] at hinvocation
          exact ⟨hbuilding.finish hother, m,
            Design.getElem?_addModule.mpr (.inr ⟨rfl, rfl⟩), hbuilding.invocation ▸ hinvocation⟩

/-- The second session is what a call of `build` leaves of the first, whether it succeeds or fails. -/
def Session.Call (p : Program) (s s' : Session) : Prop :=
  ∃ i depth r, i.Distinct ∧ (Invocation.build p depth i).run s = some (r, s')

lemma Session.Call.sound_grows {p : Program} (hp : p.DistinctMembers) {s s' : Session}
    (h : Call p s s') (hs : s.Sound p) : s'.Sound p ∧ s.Grows s' := by
  obtain ⟨i, depth, r, hi, hrun⟩ := h
  have hresult := (buildsSoundly_build hp depth i s hi hs).of_run hrun
  cases r with
  | error e => exact hresult
  | ok id => exact hresult.1

/-- A sequence of calls from a sound session ends in a sound one that has all the modules. -/
lemma Session.Sound.calls {p : Program} (hp : p.DistinctMembers) {s s' : Session}
    (hs : s.Sound p) (h : Relation.ReflTransGen (Call p) s s') : s'.Sound p ∧ s.Grows s' := by
  induction h with
  | refl => exact ⟨hs, s.grows_self⟩
  | tail _ hcall ih =>
    obtain ⟨hsound, hgrows⟩ := hcall.sound_grows hp ih.1
    exact ⟨hsound, ih.2.trans hgrows⟩

/-- The ports agree in name and kind, and in shape up to the order of fields. -/
def Port.Agree (p q : Port) : Prop :=
  p.name = q.name ∧ p.kind = q.kind ∧ p.shape.agrees q.shape = true

/-- The module has the ports of a signature. -/
structure Module.HasPorts (m : Module) (σ : Signature) : Prop where
  inputs : List.Forall₂ Port.Agree m.inputs σ.inputs
  outputs : List.Forall₂ Port.Agree m.outputs σ.outputs

/-- Expanding the ports of an invocation finds the ports of the module at every depth at which it
ends, and it ends at every depth that is great enough. -/
def Module.HasPortsOf (p : Program) (m : Module) (i : Invocation) : Prop :=
  (∃ bound, ∀ depth ≥ bound, (i.ports p (p.unfolding depth)).run ≠ none) ∧
    ∀ depth r, (i.ports p (p.unfolding depth)).run = some r → ∃ σ, r = .ok σ ∧ m.HasPorts σ

lemma Port.Like.agree {p q : Port} (h : p.Like q) : p.Agree q :=
  ⟨h.name, h.kind, h.shape.agrees⟩

lemma Module.PortsExpanded.hasPortsOf {p : Program} (hp : p.DistinctMembers) {m : Module}
    (h : m.PortsExpanded p) {i : Invocation} (hi : m.invocation.Like i) : m.HasPortsOf p i := by
  obtain ⟨bound, σ, hσ, hinputs, houtputs⟩ := h
  have hfollows : ∀ depth, Expand.Follows (depth < bound) Signature.Like
      (m.invocation.ports p (p.unfolding bound)) (i.ports p (p.unfolding depth)) := by
    intro depth
    exact Invocation.ports_follows p.sameHeads_self (p.unfolding_follows p.sameHeads_self hp bound depth) hi
  constructor
  · refine ⟨bound, ?_⟩
    intro depth hdepth
    obtain ⟨τ, hτ, -⟩ := (hfollows depth).exists_ok (by omega) hσ
    rw [hτ]
    simp
  · intro depth r hr
    have hresult := hfollows depth σ hσ
    rw [hr] at hresult
    cases r with
    | error e => exact hresult.elim
    | ok τ =>
      refine ⟨τ, rfl, ?_, ?_⟩
      · rw [hinputs]
        exact hresult.inputs.imp fun _ _ h => h.agree
      · rw [houtputs]
        exact hresult.outputs.imp fun _ _ h => h.agree

/-- In every session that calls of `build` reach, the stack is empty, the cache says what a search
of the design says, invocations have one module each, and instances stand for earlier modules with
the same ports. Later calls leave the modules as they are, and a module that `build` returns has the
ports of the invocation it was built for. -/
theorem Session.sound_of_calls {source : Surface.Program} {p : Program}
    (hp : source.resolve = .ok p) {s : Session}
    (hs : Relation.ReflTransGen (Call p) .empty s) :
    s.stack = [] ∧
    (∀ i, s.cached? i = s.design.find? i) ∧
    (∀ (k l : Nat) m n, s.design.modules[k]? = some m → s.design.modules[l]? = some n →
      (m.invocation == n.invocation) = true → k = l) ∧
    (∀ s', Relation.ReflTransGen (Call p) s s' → ∀ (k : Nat) m, s.design.modules[k]? = some m →
      s'.design.modules[k]? = some m) ∧
    (∀ (k : Nat) m, s.design.modules[k]? = some m → ∀ n ∈ m.nodes, ∀ id i,
      n.kind = .instance id i → id < k ∧ ∃ m', s.design.modules[id]? = some m' ∧
        (m'.invocation == i) = true ∧ n.inputs = m'.inputs ∧ n.outputs = m'.outputs) ∧
    (∀ i depth id s', i.Distinct → (Invocation.build p depth i).run s = some (.ok id, s') →
      ∀ s'', Relation.ReflTransGen (Call p) s' s'' →
        ∃ m, s''.design.modules[id]? = some m ∧ m.HasPortsOf p i) := by
  have hmembers := Resolution.distinctMembers_of_resolve hp
  obtain ⟨hsound, hgrows⟩ := (sound_empty p).calls hmembers hs
  refine ⟨hgrows.stack, hsound.cached, hsound.unique, ?_, hsound.instances, ?_⟩
  · intro s' hs'
    exact (hsound.calls hmembers hs').2.modules
  · intro i depth id s' hi hrun s'' hs''
    obtain ⟨⟨hsound', -⟩, m, hm, hagrees⟩ :=
      (buildsSoundly_build hmembers depth i s hi hsound).of_run hrun
    have hlike := (Invocation.like_iff_agrees (hsound'.distinct m (Array.mem_of_getElem? hm)) hi).mpr hagrees
    exact ⟨m, (hsound'.calls hmembers hs'').2.modules id m hm,
      (hsound'.ports m (Array.mem_of_getElem? hm)).hasPortsOf hmembers hlike⟩

/-- Two functions, one of which instantiates the other. -/
def Surface.Program.nested : Surface.Program :=
  let wire (name : String) : Surface.FunctionPort := ⟨name, .wire, .signal⟩
  ⟨[], [⟨"inner", [], [wire "a"], [wire "b"], [.connect [.lone (.name "a"), .lone (.name "b")]]⟩,
    ⟨"outer", [], [wire "a"], [wire "b"],
      [.connect [.lone (.name "a"), .declared "x" (.name "inner"), .lone (.name "b")]]⟩]⟩

/-- A call that fails and then one that builds two modules reach a session of this kind. -/
theorem Session.sound_of_calls_nested :
    ∃ p s, Surface.Program.nested.resolve = .ok p ∧ Relation.ReflTransGen (Call p) .empty s ∧
      s.design.modules.size = 2 ∧ s.stack = [] ∧ ∀ i, s.cached? i = s.design.find? i := by
  let p := Surface.Program.nested.resolve.toOption.getD ⟨[], []⟩
  have hp : Surface.Program.nested.resolve = .ok p := rfl
  have hfails : ((Invocation.build p 3 (.plain "missing")).run .empty).map
      (fun r => (r.1.toOption, r.2.design.modules.size)) = some (none, 0) := by decide +kernel
  obtain ⟨⟨r₁, s₁⟩, hrun₁, -⟩ := Option.map_eq_some_iff.mp hfails
  have hs₁ : (((Invocation.build p 3 (.plain "missing")).run .empty).map Prod.snd).getD .empty =
      s₁ := by rw [hrun₁]; rfl
  have hbuilds : ((Invocation.build p 3 (.plain "outer")).run
      ((((Invocation.build p 3 (.plain "missing")).run .empty).map Prod.snd).getD .empty)).map
      (fun r => (r.1.toOption, r.2.design.modules.size)) = some (some 1, 2) := by decide +kernel
  rw [hs₁] at hbuilds
  obtain ⟨⟨r₂, s₂⟩, hrun₂, hvalue⟩ := Option.map_eq_some_iff.mp hbuilds
  have hcalls : Relation.ReflTransGen (Call p) .empty s₂ :=
    .tail (.tail .refl ⟨_, 3, r₁, Invocation.distinct_plain _, hrun₁⟩)
      ⟨_, 3, r₂, Invocation.distinct_plain _, hrun₂⟩
  obtain ⟨hstack, hcached, -⟩ := sound_of_calls hp hcalls
  exact ⟨p, s₂, hp, hcalls, (Prod.mk.inj hvalue).2, hstack, hcached⟩

end NetlistCompiler
