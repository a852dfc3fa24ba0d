import NetlistCompiler.Proofs.BodyLogic
import NetlistCompiler.Proofs.ExpansionDepth
import NetlistCompiler.Proofs.ReplayedDesigns

/-!
# The hierarchy of instances

A module is finished after the modules of which it has instances, so no module contains itself. On
the other hand every node of a taken branch that calls a function is an instance of its module. A
function that calls itself through the taken branches of functions without generic parameters is
therefore in no design.
-/

namespace NetlistCompiler

/-! ### Instances of earlier modules -/

/-- The first module has an instance of the second one. -/
def Design.Contains (d : Design) (k l : Nat) : Prop :=
  ∃ m, d.modules[k]? = some m ∧ ∃ n ∈ m.nodes, ∃ i, n.kind = .instance l i

lemma Session.Sound.lt_of_contains {p : Program} {s : Session} (hs : s.Sound p) {k l : Nat}
    (h : Relation.TransGen s.design.Contains k l) : l < k := by
  have hstep : ∀ k l, s.design.Contains k l → l < k := by
    rintro k l ⟨m, hm, n, hn, i, hkind⟩
    exact (hs.instances k m hm n hn l i hkind).1
  induction h with
  | single h => exact hstep _ _ h
  | tail _ h ih => exact (hstep _ _ h).trans ih

/-! ### Calls in taken branches -/

/-- The body of the first function instantiates the second one in the branches that it takes without
generic values. -/
def Program.Invokes (p : Program) (f g : String) : Prop :=
  ∃ d, p.callee f = .ok (.function d) ∧ ∃ n ∈ Statement.blockLeaves .empty d.statements,
    ∃ interfaces parameters, n.body? = some (.function ⟨g, interfaces, parameters⟩)

lemma Instantiation.function_of_expand {p : Program} {u : Unfolding} {b : Bindings}
    {x : Instantiation} {i : Invocation} (h : (x.expand p u b).run = some (.ok i)) :
    i.function = x.function := by
  obtain ⟨function, interfaces, parameters⟩ := x
  rw [expand] at h
  obtain ⟨shapes, -, h⟩ := Expand.exists_of_run_bind h
  obtain ⟨arguments, -, h⟩ := Expand.exists_of_run_bind h
  cases h
  rfl

lemma Generics.eq_nil_of_isEmpty {g : Generics} (hg : g.isEmpty = true) :
    g.interfaces = [] ∧ g.parameters = [] := by
  simpa [isEmpty] using hg

lemma Invocation.function_of_agrees {i j : Invocation} (h : i.agrees j = true) :
    i.function = j.function := by
  obtain ⟨f, interfaces, parameters⟩ := i
  obtain ⟨g, interfaces', parameters'⟩ := j
  rw [agrees, Bool.and_eq_true, Bool.and_eq_true, beq_iff_eq] at h
  exact h.1.1

/-- Without generic parameters there are no generic values. -/
lemma Generics.of_bind_of_isEmpty {g : Generics} (hg : g.isEmpty = true) {p : Program}
    {u : Unfolding} {owner : String} {interfaces : List Shape} {parameters : List Argument}
    {b : Bindings} (h : (g.bind p u owner interfaces parameters).run = some (.ok b)) :
    interfaces = [] ∧ parameters = [] ∧ b = .empty := by
  obtain ⟨hinterfaces, hparameters⟩ := eq_nil_of_isEmpty hg
  obtain ⟨⟨hlength, hlength'⟩, hb⟩ := bindValues_eq_ok_iff.mp (bindValues_of_bind h)
  rw [hinterfaces, List.length_nil, List.length_eq_zero_iff] at hlength
  rw [hparameters, List.length_nil, List.length_eq_zero_iff] at hlength'
  rw [hinterfaces, hparameters] at hb
  cases hb
  exact ⟨hlength, hlength', rfl⟩

/-- If the body of a node calls a function, the module has an instance that calls it. -/
def NodeBody.Instanced (p : Program) (body : NodeBody) (m : Module) : Prop :=
  ∀ x d, body = .function x → p.callee x.function = .ok (.function d) →
    ∃ n ∈ m.nodes, ∃ id i, n.kind = .instance id i ∧ i.function = x.function

lemma NodeBody.stable_instanced (p : Program) (body : NodeBody) :
    Module.Stable (body.Instanced p) := by
  intro m m' hgrows h x d hbody hcallee
  obtain ⟨n, hn, hinstance⟩ := h x d hbody hcallee
  obtain ⟨k, hk⟩ := Array.getElem?_of_mem hn
  exact ⟨n, Array.mem_of_getElem? (hgrows k n hk), hinstance⟩

/-- Every node of a chain that calls a function becomes an instance. -/
lemma Construct.rules_instanced (c : BodyContext) :
    Rules c (fun _ => True) (NodeBody.Instanced c.program) True (fun _ _ => True)
      fun _ => True := by
  constructor
  case fails => exact fun _ _ _ => trivial
  case mention => exact fun _ _ _ _ => trivial
  case stable => exact NodeBody.stable_instanced c.program
  case instantiation => exact fun _ _ _ => trivial
  case interface => exact fun _ _ _ => trivial
  case pass =>
    intro m s name e shape _ _ _ _
    refine ⟨trivial, ?_⟩
    rintro x d ⟨⟩
  case primitive =>
    intro m s name body i op q _ hmakes hcallee _ _ _
    refine ⟨trivial, ?_⟩
    rintro x d rfl hfunction
    rw [← Instantiation.function_of_expand hmakes, hcallee] at hfunction
    cases hfunction
  case build =>
    intro m s name body i d _ hmakes _ _
    refine (Elaborate.leads_true _ s).imp fun id s' _ => ⟨trivial, fun _ => ⟨trivial, ?_⟩⟩
    rintro x d' rfl -
    exact ⟨_, Array.mem_push_self, id, i, rfl, Instantiation.function_of_expand hmakes⟩
  case connect =>
    exact fun source sink => (runs_connect_of_extend c (fun _ _ _ => trivial)
      (fun _ _ _ _ => trivial) source sink)

section

variable {p : Program} {depth : Nat} {s : Session}

/-- What a function without generic parameters calls has a module before its own. -/
lemma Session.Elaborated.exists_lt_of_invokes (hs : s.Elaborated p depth)
    (hplain : ∀ d ∈ p.functions, d.generics.isEmpty = true) {k : Nat} {m : Module}
    (hm : s.design.modules[k]? = some m) {g : String} (h : p.Invokes m.invocation.function g)
    {d' : FunctionDefinition} (hg : p.callee g = .ok (.function d')) :
    ∃ l < k, ∃ m', s.design.modules[l]? = some m' ∧ m'.invocation.function = g := by
  obtain ⟨d, hcallee, n, hn, interfaces, parameters, hbody⟩ := h
  obtain ⟨e, s₀, s₁, -, -, hrun, -, -⟩ := hs.recorded k m hm
  obtain ⟨b, σ, mentioned, t, hbind, -, hran, hmodule⟩ := Invocation.exists_of_construct hcallee hrun
  obtain ⟨-, -, rfl⟩ := Generics.of_bind_of_isEmpty (hplain d (Program.mem_of_callee hcallee)) hbind
  have hfunction := (Construct.rules_instanced (m.invocation.bodyContext p e .empty)).runs_function
    σ.inputs σ.outputs d.statements (fun _ _ _ _ _ _ => trivial) (fun _ _ _ _ _ _ => trivial)
    (fun _ _ _ _ => trivial)
  have hcovered := ((hfunction _ _ trivial trivial).of_ran hran).2.2
  rw [← hmodule] at hcovered
  obtain ⟨n', hn', id, i, hkind, hi⟩ := hcovered n hn _ hbody _ d' rfl hg
  obtain ⟨hlt, m', hm', hagrees, -⟩ := hs.sound.instances k m hm n' hn' id i hkind
  exact ⟨id, hlt, m', hm', (Invocation.function_of_agrees hagrees).trans hi⟩

lemma Session.Elaborated.exists_lt_of_transGen (hs : s.Elaborated p depth)
    (hplain : ∀ d ∈ p.functions, d.generics.isEmpty = true) {f g : String}
    (h : Relation.TransGen p.Invokes f g) {d' : FunctionDefinition}
    (hg : p.callee g = .ok (.function d')) :
    ∀ (k : Nat) m, s.design.modules[k]? = some m → m.invocation.function = f →
      ∃ l < k, ∃ m', s.design.modules[l]? = some m' ∧ m'.invocation.function = g := by
  induction h using Relation.TransGen.head_induction_on with
  | single h =>
    rintro k m hm rfl
    exact hs.exists_lt_of_invokes hplain hm h hg
  | head h hrest ih =>
    rintro k m hm rfl
    obtain ⟨g', ⟨d, hcallee, -⟩, -⟩ := Relation.TransGen.head'_iff.mp hrest
    obtain ⟨l, hl, m', hm', hfunction⟩ := hs.exists_lt_of_invokes hplain hm h hcallee
    obtain ⟨l', hl', hmodule⟩ := ih l m' hm' hfunction
    exact ⟨l', hl'.trans hl, hmodule⟩

/-- A function that calls itself has no module: before its first module there would be another. -/
lemma Session.Elaborated.function_ne (hs : s.Elaborated p depth)
    (hplain : ∀ d ∈ p.functions, d.generics.isEmpty = true) {f : String}
    (h : Relation.TransGen p.Invokes f f) :
    ∀ (k : Nat) m, s.design.modules[k]? = some m → m.invocation.function ≠ f := by
  obtain ⟨_, ⟨d, hcallee, -⟩, -⟩ := Relation.TransGen.head'_iff.mp h
  intro k
  induction k using Nat.strong_induction_on with
  | _ k ih =>
    intro m hm hfunction
    obtain ⟨l, hl, m', hm', hfunction'⟩ := hs.exists_lt_of_transGen hplain h hcallee k m hm hfunction
    exact ih l hl m' hm' hfunction'

/-- A program in which a function calls itself is not built. -/
lemma Program.buildAll_ne_ok (hp : p.Unambiguous)
    (hplain : ∀ d ∈ p.functions, d.generics.isEmpty = true) {f : String}
    (h : Relation.TransGen p.Invokes f f) :
    (p.buildAll depth).run .empty ≠ some (.ok (), s) := by
  intro hrun
  obtain ⟨hs, hentries⟩ := (leads_buildAll_elaborated hp depth).of_run hrun
  obtain ⟨_, ⟨d, hcallee, -⟩, -⟩ := Relation.TransGen.head'_iff.mp h
  have hd := Program.mem_of_callee hcallee
  have hname : f ∈ p.entryNames := by
    rw [← Program.name_of_callee hcallee]
    exact List.mem_map_of_mem (List.mem_filter.mpr ⟨hd, hplain d hd⟩)
  obtain ⟨id, -, m, hm, hlike⟩ := exists_mem_right_of_forall₂ hentries hname
  exact hs.function_ne hplain h id m hm hlike.values.1

end

end NetlistCompiler
