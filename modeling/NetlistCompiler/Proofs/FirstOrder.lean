import NetlistCompiler.Proofs.InstanceHierarchy
import NetlistCompiler.Proofs.ReorderedPrograms

/-!
# First-order programs

In a program of first order no definition has generic parameters, and no interface is passed a
function. Its elaboration ends: the interfaces of a program are opened while fewer and fewer of them
are left, and a function is built inside other ones only if it is none of them. A function that calls
itself is found on the way, and the modules of a finished design do not contain themselves.
-/

namespace NetlistCompiler

/-- No definition has generic parameters, and no interface in the head of a definition passes a
function as a generic value. What chains pass does not matter, since nothing accepts a function. -/
structure Program.FirstOrder (p : Program) : Prop where
  interfaces : ∀ d ∈ p.interfaces, d.generics.isEmpty = true ∧ ∀ e ∈ d.body.members, e.passed = []
  functions : ∀ d ∈ p.functions, d.generics.isEmpty = true ∧
    ∀ port ∈ d.inputs ++ d.outputs, port.interface.passed = []

/-! ### Expansion -/

/-- The expansion of the body of a node has an outcome. -/
def NodeBody.Expands (p : Program) (depth : Nat) : NodeBody → Prop
  | .function x => (x.expand p (p.unfolding depth) .empty).run ≠ none
  | .genericFunction _ => True
  | .interface e => (e.expand p (p.unfolding depth) .empty).run ≠ none

/-- All expansions that the module of a function needs have an outcome. -/
structure FunctionDefinition.Expands (p : Program) (depth : Nat) (d : FunctionDefinition) : Prop where
  signature : (d.signature p (p.unfolding depth) .empty).run ≠ none
  bodies : ∀ n ∈ Statement.blockLeaves .empty d.statements, ∀ body, n.body? = some body →
    body.Expands p depth

lemma Expand.Settles.eventually {α : Type} {x : Nat → Expand α} {Q : α → Prop} (h : Settles x Q) :
    ∀ᶠ depth in Filter.atTop, (x depth).run ≠ none := by
  obtain ⟨r, limit, hrun, -⟩ := h
  rw [Filter.eventually_atTop]
  refine ⟨limit, fun depth hdepth => ?_⟩
  rw [hrun depth hdepth]
  exact Option.some_ne_none r

/-- A rank by which interfaces come before functions. -/
def DefinitionName.kind : DefinitionName → Nat
  | .interface _ => 0
  | .function _ => 1

namespace Program.FirstOrder

variable {p : Program}

lemma ranked (h : p.FirstOrder) : p.Ranked DefinitionName.kind := by
  have hsignatures : ∀ g : Generics, g.isEmpty = true → g.signatures = [] := by
    intro g hg
    simp [Generics.signatures, (Generics.eq_nil_of_isEmpty hg).2]
  constructor
  · intro d _ e _ n _
    exact le_rfl
  · intro d hd e he n hn
    simp [(h.interfaces d hd).2 e he] at hn
  · intro d hd e he
    simp [hsignatures _ (h.interfaces d hd).1] at he
  · intro d hd e he n hn
    rw [FunctionDefinition.head, hsignatures _ (h.functions d hd).1, List.nil_append] at he
    obtain ⟨port, hport, rfl⟩ := List.mem_map.mp he
    rw [InterfaceExpr.definitions, (h.functions d hd).2 port hport, List.append_nil] at hn
    obtain ⟨name, -, rfl⟩ := List.mem_map.mp hn
    exact Nat.one_pos

lemma exists_expands (h : p.FirstOrder) :
    ∃ limit, ∀ depth, limit ≤ depth → ∀ d ∈ p.functions, d.Expands p depth := by
  have hempty : Bindings.empty.Settled p := by
    intro name i hi
    cases hi
  have hbody : ∀ body : NodeBody, ∀ᶠ depth in Filter.atTop, body.Expands p depth := by
    intro body
    cases body with
    | function x =>
      exact (Instantiation.settles_expand hempty x fun n _ => h.ranked.settled n).eventually
    | genericFunction name => exact .of_forall fun _ => trivial
    | interface e =>
      exact (InterfaceExpr.settles_expand hempty fun n (_ : n ∈ e.definitions) =>
        h.ranked.settled n).eventually
  have hfunction : ∀ d : FunctionDefinition, ∀ᶠ depth in Filter.atTop, d.Expands p depth := by
    intro d
    have hsignature := (FunctionDefinition.settles_signature hempty
      fun e (_ : e ∈ d.head) n _ => h.ranked.settled n).eventually
    have hbodies : ∀ᶠ depth in Filter.atTop, ∀ n ∈ {n | n ∈ Statement.blockLeaves .empty d.statements},
        ∀ body, n.body? = some body → body.Expands p depth := by
      rw [Filter.eventually_all_finite (List.finite_toSet _)]
      intro n _
      cases n.body? with
      | none => exact .of_forall fun _ => by rintro _ ⟨⟩
      | some body =>
        refine (hbody body).mono ?_
        rintro depth hdepth _ ⟨⟩
        exact hdepth
    exact (hsignature.and hbodies).mono fun depth hdepth => ⟨hdepth.1, hdepth.2⟩
  have hall : ∀ᶠ depth in Filter.atTop, ∀ d ∈ {d | d ∈ p.functions}, d.Expands p depth := by
    rw [Filter.eventually_all_finite (List.finite_toSet _)]
    exact fun d _ => hfunction d
  exact Filter.eventually_atTop.mp hall

end Program.FirstOrder

/-! ### Functions under construction -/

/-- The functions that are under construction, each inside the next one, are different functions of
the program. -/
structure Program.Nested (p : Program) (stack : List Invocation) : Prop where
  plain : ∀ i ∈ stack, i = .plain i.function
  known : ∀ i ∈ stack, i.function ∈ p.functions.map FunctionDefinition.name
  nodup : (stack.map Invocation.function).Nodup

namespace Program.Nested

variable {p : Program} {stack : List Invocation}

lemma length_le (h : p.Nested stack) : stack.length ≤ p.functions.length := by
  have hsubset : stack.map Invocation.function ⊆ p.functions.map FunctionDefinition.name := by
    intro name hname
    obtain ⟨i, hi, rfl⟩ := List.mem_map.mp hname
    exact h.known i hi
  simpa using (h.nodup.subperm hsubset).length_le

lemma push (h : p.Nested stack) {f : String} {d : FunctionDefinition}
    (hcallee : p.callee f = .ok (.function d))
    (hnew : ¬ (stack.any fun j => j.agrees (.plain f)) = true) : p.Nested (.plain f :: stack) := by
  refine ⟨List.forall_mem_cons.mpr ⟨rfl, h.plain⟩, List.forall_mem_cons.mpr ⟨?_, h.known⟩, ?_⟩
  · exact List.mem_map.mpr ⟨d, Program.mem_of_callee hcallee, Program.name_of_callee hcallee⟩
  · refine List.nodup_cons.mpr ⟨?_, h.nodup⟩
    intro hmem
    obtain ⟨j, hj, hname⟩ := List.mem_map.mp hmem
    apply hnew
    rw [List.any_eq_true]
    refine ⟨j, hj, ?_⟩
    rw [h.plain j hj, hname]
    simp [Invocation.plain, Invocation.agrees, Shape.listAgrees, Invocation.argumentsAgree]

end Program.Nested

section

open Elaborate

variable {p : Program} {stack : List Invocation} {i : Invocation} {d : FunctionDefinition}
  {depth : Nat}

/-- While these invocations are under construction, that of any other module of a function ends, and
leaves them under construction. -/
def Program.BuildsInside (p : Program) (depth : Nat) (stack : List Invocation) : Prop :=
  ∀ (j : Invocation) (f : FunctionDefinition) (s : Session),
    p.callee j.function = .ok (.function f) → s.stack = stack →
    (j.build p depth).Leads s False (fun _ s' => s'.stack = stack) fun _ _ => True

/-- The construction of a body ends if the modules that it needs can be built. -/
lemma Construct.rules_ends (hd : d.Expands p depth) (hbuild : p.BuildsInside depth stack) :
    Rules (i.bodyContext p depth .empty)
      (fun body => ∃ n ∈ Statement.blockLeaves .empty d.statements, n.body? = some body)
      (fun _ _ => True) False (fun _ s => s.stack = stack) fun _ => True := by
  constructor
  case fails => exact fun _ _ _ => trivial
  case mention => exact fun _ _ _ h => h
  case stable => exact fun _ => Module.stable_true
  case instantiation =>
    rintro x ⟨n, hn, hbody⟩ hnone
    exact hd.bodies n hn _ hbody hnone
  case interface =>
    rintro e ⟨n, hn, hbody⟩ hnone
    exact hd.bodies n hn _ hbody hnone
  case pass => exact fun _ _ _ _ _ _ _ h _ => ⟨h, trivial⟩
  case primitive => exact fun _ _ _ _ _ _ _ _ _ _ _ h _ => ⟨h, trivial⟩
  case build =>
    intro m s name body j f _ _ hcallee h
    exact (hbuild j f s hcallee h).imp fun _ _ h' => ⟨trivial, fun _ => ⟨h', trivial⟩⟩
  case connect =>
    exact fun source sink => runs_connect_of_extend _ (fun _ _ _ => trivial) (fun _ _ _ h => h)
      source sink

/-- Without generic parameters, binding has an outcome. -/
lemma Generics.run_bind_ne_none {g : Generics} (hg : g.isEmpty = true) {u : Unfolding}
    {owner : String} {interfaces : List Shape} {parameters : List Argument} :
    (g.bind p u owner interfaces parameters).run ≠ none := by
  unfold bind
  rw [(eq_nil_of_isEmpty hg).2, Expand.run_bind_expand]
  cases g.bindValues owner interfaces parameters with
  | error e => exact Option.some_ne_none _
  | ok b => exact Option.some_ne_none _

/-- The construction of a module ends, given that of the modules that it needs. These are built only
if the invocation has no generic values. -/
lemma leads_construct_ends (hplain : d.generics.isEmpty = true) (hd : d.Expands p depth)
    (hcallee : p.callee i.function = .ok (.function d))
    (hbuild : i = .plain i.function → p.BuildsInside depth stack)
    {s : Session} (hstack : s.stack = stack) :
    (i.construct p depth (Invocation.build p depth)).Leads s False
      (fun _ s' => s'.stack = stack) fun _ _ => True := by
  rw [Invocation.construct_of_function hcallee]
  refine Leads.bind (Q := fun b s' => s = s' ∧
    (d.generics.bind p (p.unfolding depth) d.name i.interfaces i.parameters).run = some (.ok b))
    (leads_ofExpand (fun hnone => Generics.run_bind_ne_none hplain hnone)
      (fun _ h => ⟨rfl, h⟩) fun _ _ => trivial) ?_
  rintro b _ ⟨rfl, hbind⟩
  obtain ⟨hinterfaces, hparameters, rfl⟩ := Generics.of_bind_of_isEmpty hplain hbind
  have hi : i = .plain i.function := by
    obtain ⟨f, interfaces, parameters⟩ := i
    cases hinterfaces
    cases hparameters
    rfl
  refine Leads.bind (Q := fun _ s' => s = s')
    (leads_ofExpand (fun hnone => hd.signature hnone) (fun _ _ => rfl) fun _ _ => trivial) ?_
  rintro σ _ rfl
  refine Leads.bind (Q := fun _ s' => s'.stack = stack) (leads_mention fun _ => hstack) ?_
  intro _ s' hstack'
  have hrules := Construct.rules_ends (i := i) hd (hbuild hi)
  have hbody := hrules.runs_function σ.inputs σ.outputs d.statements (fun _ _ _ _ h _ => h)
    (fun _ _ _ _ h _ => h) (fun n hn body hbody => ⟨n, hn, hbody⟩)
  refine Elaborate.Leads.bind (hbody ⟨.empty i σ.inputs σ.outputs, [[]], 0⟩ s' hstack' trivial) ?_
  exact fun _ _ h => leads_pure h.1

/-- A module is built at a depth that leaves room for all functions not under construction. -/
lemma leads_build_ends (hp : p.FirstOrder) {limit : Nat}
    (hlimit : ∀ depth, limit ≤ depth → ∀ d ∈ p.functions, d.Expands p depth) (room : Nat)
    (hnested : p.Nested stack) (hroom : p.functions.length ≤ stack.length + room)
    (hdepth : limit + room < depth) (hcallee : p.callee i.function = .ok (.function d))
    {s : Session} (hstack : s.stack = stack) :
    (i.build p depth).Leads s False (fun _ s' => s'.stack = stack) fun _ _ => True := by
  induction room using Nat.strong_induction_on generalizing stack depth i d s with
  | _ room ih =>
    obtain ⟨depth, rfl⟩ : ∃ e, depth = e + 1 := ⟨depth - 1, by omega⟩
    rw [Invocation.build]
    refine Leads.bind (Q := fun s₁ s' => s = s₁ ∧ s = s') (leads_get ⟨rfl, rfl⟩) ?_
    rintro _ _ ⟨rfl, rfl⟩
    split
    · exact leads_pure hstack
    · split
      · exact Leads.bind (Q := fun _ _ => False) (leads_throw trivial) fun _ _ hfalse => hfalse.elim
      · next hnew =>
        have hd := Program.mem_of_callee hcallee
        have hbuild : i = .plain i.function → p.BuildsInside depth (i :: stack) := by
          intro hi j f s' hf hstack'
          rw [hstack, hi] at hnew
          have hpushed := hnested.push hcallee hnew
          rw [← hi] at hpushed
          -- another function is under construction, so that there was room for it
          have hlength := hpushed.length_le
          rw [List.length_cons] at hlength
          refine ih (room - 1) (by omega) hpushed ?_ (by omega) hf hstack'
          rw [List.length_cons]
          omega
        refine Leads.bind (Q := fun _ s' => s'.stack = stack) (leads_whileBuilding ?_)
          fun _ _ h => h
        have hpushed : (i :: s.stack) = i :: stack := by rw [hstack]
        refine (leads_construct_ends (hp.functions d hd).1 (hlimit depth (by omega) d hd) hcallee
          hbuild (s := { s with stack := i :: s.stack }) hpushed).imp ?_
        intro _ s' h
        rw [h, List.tail_cons]

lemma Elaborate.Leads.exists_outcome {α : Type} {x : Elaborate α} {s : Session}
    {Q : α → Session → Prop} {E : BuildError → Session → Prop} (h : x.Leads s False Q E) :
    ∃ outcome, x.run s = some outcome := by
  unfold Leads at h
  cases hrun : x.run s with
  | some outcome => exact ⟨outcome, rfl⟩
  | none =>
    rw [hrun] at h
    exact h.elim

/-- From some depth on, the elaboration of a first-order program ends. -/
lemma Program.FirstOrder.exists_ends (hp : p.FirstOrder) :
    ∃ bound, ∀ depth, bound ≤ depth → (p.buildAll depth).Leads .empty False
      (fun _ _ => True) fun _ _ => True := by
  obtain ⟨limit, hlimit⟩ := hp.exists_expands
  refine ⟨limit + p.functions.length + 1, ?_⟩
  intro depth hdepth
  have hnested : p.Nested [] := ⟨by simp, by simp, by simp⟩
  have hentries : ∀ ds : List FunctionDefinition, (∀ d ∈ ds, d ∈ p.functions) → ∀ s : Session,
      s.stack = [] →
      Leads (ds.forM (FunctionDefinition.buildEntry p depth)) s False (fun _ _ => True)
        fun _ _ => True := by
    intro ds hds
    induction ds with
    | nil => exact fun s _ => leads_pure trivial
    | cons d rest ih =>
      intro s hstack
      rw [List.forall_mem_cons] at hds
      obtain ⟨d', hcallee⟩ := Program.exists_function_of_mem hds.1 rfl
      refine Leads.bind (Q := fun _ s' => s'.stack = []) ?_ fun _ s' hs' => ih hds.2 s' hs'
      exact Leads.bind (leads_build_ends hp hlimit p.functions.length hnested (by simp)
        (by omega) hcallee hstack) fun _ _ h => h
  exact hentries _ (fun d hd => (List.mem_filter.mp hd).1) .empty rfl

end

/-- The elaboration of a first-order program ends at every depth from some bound on. If it succeeds,
no module contains itself through instances, and it does not succeed if a function calls itself
through taken branches. -/
theorem Program.firstOrder_ends_without_recursion {source : Surface.Program} {p : Program}
    (hp : source.resolve = .ok p) (hfirst : p.FirstOrder) :
    (∃ bound, ∀ depth, bound ≤ depth →
      ∃ outcome, (p.buildAll depth).run .empty = some outcome) ∧
    (∀ depth s, (p.buildAll depth).run .empty = some (.ok (), s) →
      ∀ k, ¬ Relation.TransGen s.design.Contains k k) ∧
    ∀ f, Relation.TransGen p.Invokes f f →
      ∀ depth s, (p.buildAll depth).run .empty ≠ some (.ok (), s) := by
  have hunambiguous := Resolution.unambiguous_of_resolve hp
  have hplain : ∀ d ∈ p.functions, d.generics.isEmpty = true := fun d hd => (hfirst.functions d hd).1
  refine ⟨?_, ?_, ?_⟩
  · obtain ⟨bound, hbound⟩ := hfirst.exists_ends
    exact ⟨bound, fun depth hdepth => (hbound depth hdepth).exists_outcome⟩
  · intro depth s hrun k hcycle
    have hs := ((leads_buildAll_elaborated hunambiguous depth).of_run hrun).1
    exact lt_irrefl k (hs.sound.lt_of_contains hcycle)
  · intro f hcycle depth s
    exact Program.buildAll_ne_ok hunambiguous hplain hcycle

/-- Two functions, the second of which calls the first one. The first one calls the second one in a
branch. -/
def Surface.Program.pingPong (taken : Bool) : Surface.Program :=
  let wire (name : String) : Surface.FunctionPort := ⟨name, .wire, .signal⟩
  let through (name : String) : Surface.Statement :=
    .connect [.lone (.name "a"), .lone (.name name), .lone (.name "b")]
  let straight : Surface.Statement := .connect [.lone (.name "a"), .lone (.name "b")]
  ⟨[], [⟨"ping", [], [wire "a"], [wire "b"],
      [.conditional (.truth taken) [through "pong"] [straight]]⟩,
    ⟨"pong", [], [wire "a"], [wire "b"], [through "ping"]⟩]⟩

/-- The program whose first function takes the branch. -/
def Program.pingPong : Program :=
  (Surface.Program.pingPong true).resolve.toOption.getD ⟨[], []⟩

theorem Program.firstOrder_ends_without_recursion_pingPong :
    (∃ p s, (Surface.Program.pingPong false).resolve = .ok p ∧ p.FirstOrder ∧
      (p.buildAll 3).run .empty = some (.ok (), s) ∧ s.design.Contains 1 0 ∧
      ∀ k, ¬ Relation.TransGen s.design.Contains k k) ∧
    (Surface.Program.pingPong true).resolve = .ok pingPong ∧ pingPong.FirstOrder ∧
      Relation.TransGen pingPong.Invokes "ping" "ping" ∧
      ∃ bound, ∀ depth, bound ≤ depth →
        ∃ e s, (pingPong.buildAll depth).run .empty = some (.error e, s) := by
  constructor
  · let p := (Surface.Program.pingPong false).resolve.toOption.getD ⟨[], []⟩
    have hp : (Surface.Program.pingPong false).resolve = .ok p := rfl
    have hfirst : p.FirstOrder := by constructor <;> decide +kernel
    obtain ⟨s, hrun, hcheck⟩ : ∃ s, (p.buildAll 3).run .empty = some (.ok (), s) ∧
        (s.design.modules[1]?.any fun m => m.nodes.any fun n => n.kind matches .instance 0 _) =
          true := by
      apply Program.exists_session_of_any
      decide +kernel
    obtain ⟨-, hacyclic, -⟩ := firstOrder_ends_without_recursion hp hfirst
    refine ⟨p, s, hp, hfirst, hrun, ?_, hacyclic 3 s hrun⟩
    obtain ⟨m, hm, hcheck⟩ := (Option.any_eq_true _ _).mp hcheck
    obtain ⟨k, hk, hinstance⟩ := Array.any_eq_true.mp hcheck
    refine ⟨m, hm, _, Array.getElem_mem hk, ?_⟩
    split at hinstance
    · next i hkind => exact ⟨i, hkind⟩
    · cases hinstance
  · have hp : (Surface.Program.pingPong true).resolve = .ok pingPong := rfl
    have hfirst : pingPong.FirstOrder := by constructor <;> decide +kernel
    obtain ⟨⟨bound, hbound⟩, -, hrecursion⟩ := firstOrder_ends_without_recursion hp hfirst
    have hping : pingPong.Invokes "ping" "pong" :=
      ⟨_, rfl, _, List.mem_cons_of_mem _ (List.mem_cons_self ..), [], [], rfl⟩
    have hpong : pingPong.Invokes "pong" "ping" :=
      ⟨_, rfl, _, List.mem_cons_of_mem _ (List.mem_cons_self ..), [], [], rfl⟩
    have hcycle : Relation.TransGen pingPong.Invokes "ping" "ping" := .tail (.single hping) hpong
    refine ⟨hp, hfirst, hcycle, bound, ?_⟩
    intro depth hdepth
    obtain ⟨⟨outcome, s⟩, hrun⟩ := hbound depth hdepth
    cases outcome with
    | ok _ => exact absurd hrun (hrecursion "ping" hcycle depth s)
    | error e => exact ⟨e, s, hrun⟩

end NetlistCompiler
