import NetlistCompiler.Proofs.MirroredBodies
import NetlistCompiler.Proofs.ReorderedPrograms

/-!
# Memoization

A session keeps the modules that it has built, those of calls that failed later on included, and
takes a kept module for every invocation that agrees with the one it was built for. This cannot be
told from building everything anew: a call succeeds in a session that other calls have reached iff
it succeeds in a fresh one, and the modules are the same. A module was constructed by some run, and
two runs for alike invocations mirror each other, whatever the sessions had by then.
-/

namespace NetlistCompiler

/-! ### The same module in two designs -/

/-- The primitives are equal up to the order of fields. -/
inductive Primitive.Agree : Primitive → Primitive → Prop where
  | same (q : Primitive) : Agree q q
  | register {s t : Shape} : (s == t) = true → Agree (.register s) (.register t)
  | selection (op : PrimitiveOp) (count : Nat) {s t : Shape} : (s == t) = true →
    Agree (.selection op s count) (.selection op t count)

/-- The kinds are the same if the number of a module, in its own design, is read as the invocation
that the module was built for. -/
inductive NodeKind.SameIn (d d' : Design) : NodeKind → NodeKind → Prop where
  | input : SameIn d d' .input .input
  | output : SameIn d d' .output .output
  | pass : SameIn d d' .pass .pass
  | instance {id id' : Nat} {i i' : Invocation} {m m' : Module} :
    d.modules[id]? = some m → d'.modules[id']? = some m' →
    (m.invocation == m'.invocation) = true → (i == i') = true →
    SameIn d d' (.instance id i) (.instance id' i')
  | primitive {q q' : Primitive} : q.Agree q' → SameIn d d' (.primitive q) (.primitive q')

structure Node.SameIn (d d' : Design) (n n' : Node) : Prop where
  name : n.name = n'.name
  kind : n.kind.SameIn d d' n'.kind
  inputs : List.Forall₂ Port.Agree n.inputs n'.inputs
  outputs : List.Forall₂ Port.Agree n.outputs n'.outputs

/-- The modules are the same: they have the same ports, the same nodes in the same order, and the
same connections, where a wire is known by its node, its port and its access path. -/
structure Module.SameIn (d d' : Design) (m m' : Module) : Prop where
  invocation : (m.invocation == m'.invocation) = true
  inputs : List.Forall₂ Port.Agree m.inputs m'.inputs
  outputs : List.Forall₂ Port.Agree m.outputs m'.outputs
  nodes : List.Forall₂ (Node.SameIn d d') m.nodes.toList m'.nodes.toList
  connections : PermRel (Connection.Same m m' id) m.connections.toList m'.connections.toList

lemma Primitive.Like.agree {q q' : Primitive} (h : q.Like q') : q.Agree q' := by
  cases h with
  | register hs => exact .register hs.agrees
  | selection op count hs => exact .selection op count hs.agrees
  | _ => exact .same _

lemma Port.Resembles.agree {n n' : Node} (hname : n.name = n'.name) {q q' : Port}
    (h : Port.Resembles n n' q q') : q.Agree q' := by
  refine ⟨?_, h.kind, h.shape.agrees⟩
  rcases h.name with hsame | ⟨-, hq, hq'⟩
  · exact hsame
  · rw [hq, hname, hq']

section

variable {p : Program} {s r : Session} {k l : Nat} {m m' : Module}

/-- Instances that resemble each other stand for modules of alike invocations. -/
lemma Node.Resembles.sameIn (hs : s.Sound p) (hr : r.Sound p) (hm : s.design.modules[k]? = some m)
    (hm' : r.design.modules[l]? = some m') {n n' : Node} (hn : n ∈ m.nodes) (hn' : n' ∈ m'.nodes)
    (hname : n.name = n'.name) (h : n.Resembles n') : n.SameIn s.design r.design n' := by
  refine ⟨hname, ?_, (h.ports .input).imp fun _ _ hq => hq.agree hname,
    (h.ports .output).imp fun _ _ hq => hq.agree hname⟩
  have hkind := h.kind
  generalize hnkind : n.kind = kind at hkind
  generalize hnkind' : n'.kind = kind' at hkind
  cases hkind with
  | input => exact .input
  | output => exact .output
  | pass => exact .pass
  | primitive hq => exact .primitive hq.agree
  | @«instance» id id' i i' hi =>
    obtain ⟨-, m₁, hm₁, hagrees, -⟩ := hs.instances k m hm n hn id i hnkind
    obtain ⟨-, m₂, hm₂, hagrees', -⟩ := hr.instances l m' hm' n' hn' id' i' hnkind'
    have hleft := (Invocation.like_iff_agrees
      (hs.distinct m₁ (Array.mem_of_getElem? hm₁)) hi.left).mpr hagrees
    have hright := (Invocation.like_iff_agrees
      (hr.distinct m₂ (Array.mem_of_getElem? hm₂)) hi.right).mpr hagrees'
    exact .instance hm₁ hm₂ ((hleft.trans hi).trans hright.symm).agrees hi.agrees

lemma Module.Twin.sameIn (hs : s.Sound p) (hr : r.Sound p) (hm : s.design.modules[k]? = some m)
    (hm' : r.design.modules[l]? = some m') (hwired : m.WellWired) (hwired' : m'.WellWired)
    (h : m.Twin m') : m.SameIn s.design r.design m' := by
  refine ⟨h.invocation.agrees, h.inputs.imp fun _ _ hq => hq.agree,
    h.outputs.imp fun _ _ hq => hq.agree, ?_, ?_⟩
  · rw [List.forall₂_iff_get]
    obtain ⟨hlength, hnodes⟩ := List.forall₂_iff_get.mp h.nodes
    refine ⟨hlength, ?_⟩
    intro a ha ha'
    obtain ⟨hname, hresembles⟩ := hnodes a ha ha'
    exact hresembles.sameIn hs hr hm hm' (Array.mem_toList_iff.mp (List.get_mem ..))
      (Array.mem_toList_iff.mp (List.get_mem ..)) hname
  · obtain ⟨cs, hcs, hperm⟩ := h.placed.permRel_connections hwired hwired'
    refine ⟨cs, hcs.imp ?_, hperm⟩
    exact fun c c' hc => ⟨h.placed.same_of_inPlace hc.driver, h.placed.same_of_inPlace hc.driven⟩

end

/-! ### Sessions that calls reach -/

section

variable {p : Program} {s r : Session}

lemma Session.Call.elaborated (hp : p.DistinctMembers) {s' : Session} (h : Call p s s')
    {depth : Nat} (hs : s.Elaborated p depth) : ∃ depth', s'.Elaborated p depth' := by
  obtain ⟨hsound, hgrows⟩ := h.sound_grows hp hs.sound
  obtain ⟨i, d, a, hi, hrun⟩ := h
  have hbuilt := (leads_build_built p d i hs.built).of_run hrun
  have hrecorded := (leads_build_recorded hp (le_max_right depth d) hi hs.sound
    (hs.recorded.mono (le_max_left depth d))).of_run hrun
  refine ⟨max depth d, hsound, ?_, ?_, hgrows.stack.trans hs.idle⟩
  · cases a <;> exact hbuilt
  · cases a <;> exact hrecorded.1

lemma Session.elaborated_of_calls (hp : p.DistinctMembers)
    (h : Relation.ReflTransGen (Call p) .empty s) : ∃ depth, s.Elaborated p depth := by
  induction h with
  | refl => exact ⟨0, elaborated_empty p 0⟩
  | tail _ hcall ih =>
    obtain ⟨depth, hs⟩ := ih
    exact hcall.elaborated hp hs

/-- Modules of alike invocations are the same up to what the sessions had before, since the run that
constructed the one mirrors the run that constructed the other. -/
lemma Session.Elaborated.twin (hp : p.DistinctMembers) {depth depth' : Nat}
    (hs : s.Elaborated p depth) (hr : r.Elaborated p depth') {k l : Nat} {m m' : Module}
    (hm : s.design.modules[k]? = some m) (hm' : r.design.modules[l]? = some m')
    (hlike : m.invocation.Like m'.invocation) : m.Twin m' := by
  obtain ⟨e, s₀, s₁, -, hs₀, hrun, -, -⟩ := hs.recorded k m hm
  obtain ⟨e', r₀, r₁, -, hr₀, hrun', -, -⟩ := hr.recorded l m' hm'
  have hbuilt := hs.built m (Array.mem_of_getElem? hm)
  -- the second run is known to have ended well, so the replay may fail or go too deep
  let V : Replay := ⟨m, s₁.design.modules, p, p, Session.Sound p, True, True⟩
  have hV : V.Valid := by
    refine ⟨hbuilt.wired, fun n hn => Node.fits_iff.mp (hbuilt.fits n hn), p.sameHeads_self, hp,
      fun _ h => h, ?_⟩
    intro r' mentioned h
    exact Session.Sound.congr h rfl rfl h.waiting
  have hbuild : V.Rebuilds (Invocation.build p e) (Invocation.build p e') := by
    intro j j' _ _ _ hj _ _ _ r' hr'
    refine ((buildsSoundly_build hp e' j' r' hj.right hr').imp ?_).impError fun _ _ _ => trivial
    rintro id' r'' ⟨⟨hsound, -⟩, hmodule⟩
    exact ⟨hsound, hmodule⟩
  exact ((leads_construct_mirrored hV rfl hlike (fun _ => trivial) hbuild hs₀ hrun
    (fun _ _ h => h) hr₀).of_run hrun').2

mutual

lemma Statement.shuffled_self : ∀ s : Statement, s.Shuffled s
  | .connection chain => .connection chain
  | .conditional predicate thens elses =>
    .conditional predicate (Statement.all_shuffled_self thens) (.refl _)
      (Statement.all_shuffled_self elses) (.refl _)

lemma Statement.all_shuffled_self : ∀ block : List Statement,
    List.Forall₂ Statement.Shuffled block block
  | [] => .nil
  | s :: rest => .cons (Statement.shuffled_self s) (Statement.all_shuffled_self rest)

end

lemma Program.shuffled_self (p : Program) : p.Shuffled p :=
  ⟨rfl, List.forall₂_same.mpr fun d _ =>
    ⟨⟨rfl, rfl, rfl, rfl⟩, d.statements, Statement.all_shuffled_self _, .refl _⟩⟩

/-- What has a module in one session can be built in every other one. -/
lemma Session.Elaborated.exists_ok (hp : p.Unambiguous) {depth depth' : Nat}
    (hs : s.Elaborated p depth) (hr : r.Elaborated p depth') {k : Nat} {m : Module}
    (hm : s.design.modules[k]? = some m) {i : Invocation} (hi : m.invocation.Like i) {e : Nat}
    {a : Except BuildError Nat} {r' : Session} (hrun : (i.build p e).run r = some (a, r')) :
    ∃ id, a = .ok id := by
  -- nothing is being built in the second session, so nothing can be called a recursion
  have hready : s.design.Ready p (fun _ => True) s.design.modules.size r := by
    refine ⟨hr.sound, fun _ _ => trivial, ?_⟩
    rw [hr.idle]
    nofun
  have hresult := (leads_build_replayed p.shuffled_self hp hp.members hs (fun _ _ _ _ => trivial)
    (Array.getElem?_eq_some_iff.mp hm).1 hm hi hready e).of_run hrun
  cases a with
  | error _ => exact hresult.elim
  | ok id => exact ⟨id, rfl⟩

/-- The module that a successful call returns. -/
lemma exists_module_of_build (hp : p.DistinctMembers) (hs : s.Sound p) {i : Invocation}
    (hi : i.Distinct) {depth id : Nat} {s' : Session}
    (hrun : (i.build p depth).run s = some (.ok id, s')) :
    ∃ m, s'.design.modules[id]? = some m ∧ m.invocation.Like i := by
  obtain ⟨⟨hsound, -⟩, m, hm, hagrees⟩ := (buildsSoundly_build hp depth i s hi hs).of_run hrun
  exact ⟨m, hm, (Invocation.like_iff_agrees
    (hsound.distinct m (Array.mem_of_getElem? hm)) hi).mpr hagrees⟩

end

/-- Memoization is transparent. If a call ends both in a session that calls have reached, whether
they succeeded or failed, and in a fresh session, then it succeeds in both or fails in both, and the
modules that it returns are the same. -/
theorem Session.build_same_as_fresh {source : Surface.Program} {p : Program}
    (hp : source.resolve = .ok p) {s : Session} (hs : Relation.ReflTransGen (Call p) .empty s)
    {i : Invocation} (hi : i.Distinct) {depth depth' : Nat} {r r' : Except BuildError Nat}
    {s₁ s₂ : Session} (hrun : (i.build p depth).run s = some (r, s₁))
    (hfresh : (i.build p depth').run .empty = some (r', s₂)) :
    ((∃ id, r = .ok id) ↔ ∃ id', r' = .ok id') ∧
      ∀ id id', r = .ok id → r' = .ok id' → ∃ m m', s₁.design.modules[id]? = some m ∧
        s₂.design.modules[id']? = some m' ∧ m.SameIn s₁.design s₂.design m' := by
  have hunambiguous := Resolution.unambiguous_of_resolve hp
  have hmembers := hunambiguous.members
  obtain ⟨depth₀, hs₀⟩ := elaborated_of_calls hmembers hs
  obtain ⟨depth₁, hs₁⟩ := elaborated_of_calls hmembers (hs.tail ⟨i, depth, r, hi, hrun⟩)
  obtain ⟨depth₂, hs₂⟩ := elaborated_of_calls hmembers (.single ⟨i, depth', r', hi, hfresh⟩)
  refine ⟨⟨?_, ?_⟩, ?_⟩
  · rintro ⟨id, rfl⟩
    obtain ⟨m, hm, hlike⟩ := exists_module_of_build hmembers hs₀.sound hi hrun
    exact hs₁.exists_ok hunambiguous (elaborated_empty p 0) hm hlike hfresh
  · rintro ⟨id', rfl⟩
    obtain ⟨m', hm', hlike'⟩ := exists_module_of_build hmembers (sound_empty p) hi hfresh
    exact hs₂.exists_ok hunambiguous hs₀ hm' hlike' hrun
  · rintro id id' rfl rfl
    obtain ⟨m, hm, hlike⟩ := exists_module_of_build hmembers hs₀.sound hi hrun
    obtain ⟨m', hm', hlike'⟩ := exists_module_of_build hmembers (sound_empty p) hi hfresh
    have htwin := hs₁.twin hmembers hs₂ hm hm' (hlike.trans hlike'.symm)
    exact ⟨m, m', hm, hm', htwin.sameIn hs₁.sound hs₂.sound hm hm'
      (hs₁.built m (Array.mem_of_getElem? hm)).wired (hs₂.built m' (Array.mem_of_getElem? hm')).wired⟩

/-- A function that joins the fields `x` and `y` of its ports. -/
def Surface.Program.joining : Surface.Program :=
  let port (name : String) : Surface.FunctionPort := ⟨name, .name "T", .signal⟩
  let field (port name : String) : Surface.Node := .lone (.access (.name port) (.member name))
  ⟨[], [⟨"join", [⟨"T", .interface⟩], [port "a"], [port "b"],
    [.connect [field "a" "x", field "b" "x"], .connect [field "a" "y", field "b" "y"]]⟩]⟩

/-- The function for records with the given fields. -/
def Invocation.joinFor (fields : List (String × Shape)) : Invocation :=
  ⟨"join", [.record fields], []⟩

lemma Invocation.distinct_joinFor {fields : List (String × Shape)}
    (h : (Shape.record fields).Distinct) : (joinFor fields).Distinct := by
  simp [joinFor, Distinct, ArgumentsDistinct, h]

/-- The numbers of the wires that are driven in a module. -/
def Design.drivenSlots (d : Design) (id : Nat) : Option (List Slot) :=
  d.modules[id]?.map fun m => m.connections.toList.map fun c => c.driven.slot

lemma exists_run_of_map {x : Elaborate Nat} {s : Session} {id : Nat} {slots : List Slot}
    (h : (x.run s).map (fun r => (r.1.toOption, r.2.design.drivenSlots id)) =
      some (some id, some slots)) :
    ∃ s' m, x.run s = some (.ok id, s') ∧ s'.design.modules[id]? = some m ∧
      (m.connections.toList.map fun c => c.driven.slot) = slots := by
  obtain ⟨⟨r, s'⟩, hrun, heq⟩ := Option.map_eq_some_iff.mp h
  obtain ⟨hid, hslots⟩ := Prod.mk.inj heq
  obtain ⟨m, hm, hm'⟩ := Option.map_eq_some_iff.mp hslots
  cases r with
  | error e => cases hid
  | ok id' =>
    cases hid
    exact ⟨s', m, hrun, hm, hm'⟩

/-- After a call that fails and one for the other order of fields, the module of that call is
returned. It joins the same fields as a module built anew, whose wires have other numbers. -/
theorem Session.build_same_as_fresh_joining :
    let fields := [("x", Shape.wire), ("y", Shape.vector .wire 2)]
    let i := Invocation.joinFor fields.reverse
    ∃ p s s₁ s₂ m m', Surface.Program.joining.resolve = .ok p ∧
      Relation.ReflTransGen (Call p) .empty s ∧ (i.build p 3).run s = some (.ok 0, s₁) ∧
      (i.build p 3).run .empty = some (.ok 0, s₂) ∧
      s₁.design.modules[0]? = some m ∧ s₂.design.modules[0]? = some m' ∧
      (m.connections.toList.map fun c => c.driven.slot) = [.data 0, .data 1, .data 2] ∧
      (m'.connections.toList.map fun c => c.driven.slot) = [.data 2, .data 0, .data 1] ∧
      m.SameIn s₁.design s₂.design m' := by
  intro fields i
  let p := Surface.Program.joining.resolve.toOption.getD ⟨[], []⟩
  have hp : Surface.Program.joining.resolve = .ok p := rfl
  have hfields : (Shape.record fields).Distinct := by
    simp [fields, Shape.Distinct, Shape.FieldsDistinct]
  have hreversed : (Shape.record fields.reverse).Distinct := by
    simp [fields, Shape.Distinct, Shape.FieldsDistinct]
  let after (j : Invocation) (s : Session) : Session :=
    (((j.build p 3).run s).map Prod.snd).getD .empty
  have hmissing : (((Invocation.plain "missing").build p 3).run .empty).isSome = true := by
    decide +kernel
  have hforward : (((Invocation.joinFor fields).build p 3).run
      (after (.plain "missing") .empty)).isSome = true := by decide +kernel
  have hcached : ((i.build p 3).run (after (.joinFor fields) (after (.plain "missing") .empty))).map
      (fun r => (r.1.toOption, r.2.design.drivenSlots 0)) =
      some (some 0, some [.data 0, .data 1, .data 2]) := by decide +kernel
  have hfresh : ((i.build p 3).run .empty).map
      (fun r => (r.1.toOption, r.2.design.drivenSlots 0)) =
      some (some 0, some [.data 2, .data 0, .data 1]) := by decide +kernel
  have hcall : ∀ j s, j.Distinct → ((j.build p 3).run s).isSome = true → Call p s (after j s) := by
    intro j s hj hsome
    obtain ⟨⟨r, s'⟩, hrun⟩ := Option.isSome_iff_exists.mp hsome
    refine ⟨j, 3, r, hj, ?_⟩
    simp only [after, hrun, Option.map_some, Option.getD_some]
  have hcalls := (Relation.ReflTransGen.single
    (hcall _ _ (Invocation.distinct_plain _) hmissing)).tail
    (hcall _ _ (Invocation.distinct_joinFor hfields) hforward)
  obtain ⟨s₁, m, hrun₁, hm, hslots⟩ := exists_run_of_map hcached
  obtain ⟨s₂, m', hrun₂, hm', hslots'⟩ := exists_run_of_map hfresh
  obtain ⟨n, n', hn, hn', hsame⟩ := (build_same_as_fresh hp hcalls
    (Invocation.distinct_joinFor hreversed) hrun₁ hrun₂).2 0 0 rfl rfl
  rw [hm] at hn
  cases hn
  rw [hm'] at hn'
  cases hn'
  exact ⟨p, _, s₁, s₂, m, m', hp, hcalls, hrun₁, hrun₂, hm, hm', hslots, hslots', hsame⟩

end NetlistCompiler
