import NetlistCompiler.Proofs.BodyLogic
import NetlistCompiler.Proofs.ReplayedConnections

/-!
# What a chain connects

Two stages of a chain that follow each other make a joint, and a joint asks for connections that
depend on the nodes of the module alone. The stages of a chain can be connected if all its joints
fit and all connections can be added, in whatever order. To put a run of stages in parentheses
takes the joints inside the run away from the chain around it, and leaves the other joints alone.
-/

namespace NetlistCompiler

/-! ### Connections in any order -/

namespace Module

variable {m : Module}

/-- The driven wires of the two lists are distinct. -/
def Apart (cs es : List Connection) : Prop :=
  ∀ c ∈ cs, ∀ e ∈ es, c.driven ≠ e.driven

lemma Apart.symm {cs es : List Connection} (h : Apart cs es) : Apart es cs :=
  fun e he c hc => (h c hc e he).symm

lemma apart_append_left {cs cs' es : List Connection} :
    Apart (cs ++ cs') es ↔ Apart cs es ∧ Apart cs' es :=
  List.forall_mem_append

lemma apart_append_right {cs es es' : List Connection} :
    Apart cs (es ++ es') ↔ Apart cs es ∧ Apart cs es' := by
  simp only [Apart, List.forall_mem_append, forall_and]

lemma Apart.subset {cs cs' es es' : List Connection} (h : Apart cs es) (hcs : cs' ⊆ cs)
    (hes : es' ⊆ es) : Apart cs' es' :=
  fun c hc e he => h c (hcs hc) e (hes he)

/-- What the wires of a connection have to be. -/
structure Joins (m : Module) (c : Connection) : Prop where
  hasDriver : m.hasWire c.driver = true
  hasDriven : m.hasWire c.driven = true
  produced : c.driver.isProduced = true
  consumed : c.driven.isProduced = false

lemma Joins.congr {m' : Module} {c : Connection} (h : m.Joins c)
    (hdriver : m.nodes[c.driver.node]? = m'.nodes[c.driver.node]?)
    (hdriven : m.nodes[c.driven.node]? = m'.nodes[c.driven.node]?) : m'.Joins c :=
  ⟨hasWire_congr hdriver ▸ h.hasDriver, hasWire_congr hdriven ▸ h.hasDriven, h.produced, h.consumed⟩

lemma Joins.grows {m' : Module} {c : Connection} (h : m.Joins c) (hgrows : m.Grows m') :
    m'.Joins c := by
  have hnode : ∀ w, m.hasWire w = true → m.nodes[w.node]? = m'.nodes[w.node]? := by
    intro w hw
    have hlt := node_lt_of_hasWire hw
    rw [hgrows w.node _ (Array.getElem?_eq_getElem hlt), Array.getElem?_eq_getElem hlt]
  exact h.congr (hnode _ h.hasDriver) (hnode _ h.hasDriven)

lemma addable_iff {cs : List Connection} : m.Addable [] cs ↔
    (∀ c ∈ cs, m.Joins c) ∧ cs.Pairwise (fun a b => a.driven ≠ b.driven) ∧
      Apart m.connections.toList cs := by
  constructor
  · intro h
    refine ⟨?_, h.single, ?_⟩
    · intro c hc
      have hdriver := h.hasDriver c hc
      have hdriven := h.hasDriven c hc
      rw [extend_nil] at hdriver hdriven
      exact ⟨hdriver, hdriven, h.produced c hc, h.consumed c hc⟩
    · intro a ha c hc
      exact h.fresh c hc a (Array.mem_toList_iff.mp ha)
  · rintro ⟨hjoins, hsingle, hapart⟩
    refine ⟨?_, ?_, fun c hc => (hjoins c hc).produced, fun c hc => (hjoins c hc).consumed, hsingle,
      fun c hc a ha => hapart a (Array.mem_toList_iff.mpr ha) c hc⟩
    · intro c hc
      rw [extend_nil]
      exact (hjoins c hc).hasDriver
    · intro c hc
      rw [extend_nil]
      exact (hjoins c hc).hasDriven

lemma toList_extend (m : Module) (cs : List Connection) :
    (m.extend [] cs).connections.toList = m.connections.toList ++ cs := by
  simp [extend]

lemma addable_append {cs es : List Connection} :
    m.Addable [] (cs ++ es) ↔ m.Addable [] cs ∧ m.Addable [] es ∧ Apart cs es := by
  simp only [addable_iff, List.forall_mem_append, List.pairwise_append, apart_append_right]
  unfold Apart
  tauto

/-- Connections can be added to a module with more connections if they do not collide with them. -/
lemma addable_extend {cs es : List Connection} :
    (m.extend [] cs).Addable [] es ↔ m.Addable [] es ∧ Apart cs es := by
  have hjoins : ∀ e, (m.extend [] cs).Joins e ↔ m.Joins e := by
    intro e
    have hnodes : (m.extend [] cs).nodes = m.nodes := by simp [extend]
    exact ⟨fun h => h.congr (by rw [hnodes]) (by rw [hnodes]),
      fun h => h.congr (by rw [hnodes]) (by rw [hnodes])⟩
  simp only [addable_iff, hjoins, toList_extend, apart_append_left]
  tauto

lemma addable_of_perm {cs es : List Connection} (h : cs.Perm es) (hadd : m.Addable [] cs) :
    m.Addable [] es := by
  rw [addable_iff] at hadd ⊢
  refine ⟨fun e he => hadd.1 e (h.mem_iff.mpr he), ?_,
    hadd.2.2.subset (List.Subset.refl _) h.symm.subset⟩
  exact (h.pairwise_iff fun hab => Ne.symm hab).mp hadd.2.1

end Module

/-! ### Steps that only connect -/

namespace Construct

variable {α β : Type} {c : BodyContext} {b b' : Body} {s s' : Session}

lemma ran_bind_iff {x : Construct α} {f : α → Construct β} {d : β} :
    (x >>= f).Ran b s d b' s' ↔ ∃ a b₁ s₁, x.Ran b s a b₁ s₁ ∧ (f a).Ran b₁ s₁ d b' s' := by
  refine ⟨exists_of_ran_bind, ?_⟩
  rintro ⟨a, b₁, s₁, hx, hf⟩
  unfold Ran at hx hf ⊢
  rw [StateT.run_bind, Elaborate.run_bind_step, hx]
  exact hf

lemma ran_pure_iff {a d : α} : (pure a : Construct α).Ran b s d b' s' ↔ d = a ∧ b' = b ∧ s' = s := by
  constructor
  · rintro ⟨⟩
    exact ⟨rfl, rfl, rfl⟩
  · rintro ⟨rfl, rfl, rfl⟩
    rfl

/-- The step makes the given connections, if `F` holds and they can be added. They depend on the
nodes of the module alone. -/
structure Links (F : Prop) (cs : Module → List Connection) (x : Construct Unit) : Prop where
  ran_iff : ∀ b s b' s', x.Ran b s () b' s' ↔ F ∧ b.module.Addable [] (cs b.module) ∧
    b' = { b with module := b.module.extend [] (cs b.module) } ∧ s' = s
  stable : ∀ m es, cs (m.extend [] es) = cs m

section

variable {F G : Prop} {cs es : Module → List Connection} {x y : Construct Unit}

lemma Links.congr (h : Links F cs x) (hF : F ↔ G) (hcs : ∀ m, cs m = es m) : Links G es x := by
  obtain rfl : cs = es := funext hcs
  obtain rfl : F = G := propext hF
  exact h

lemma links_pure : Links True (fun _ => []) (pure ()) := by
  refine ⟨fun b s b' s' => ?_, fun _ _ => rfl⟩
  have hempty : b.module.Addable [] [] := by simp [Module.addable_iff, Module.Apart]
  simp [ran_pure_iff, hempty]

lemma links_throw (e : BuildError) (hcs : ∀ m es, cs (m.extend [] es) = cs m) :
    Links False cs (throw e) := by
  refine ⟨fun b s b' s' => ?_, hcs⟩
  simp only [false_and, iff_false]
  rintro ⟨⟩

lemma Links.bind (hx : Links F cs x) (hy : Links G es y) :
    Links (F ∧ G) (fun m => cs m ++ es m) (x >>= fun _ => y) := by
  refine ⟨fun b s b' s' => ?_, fun m ds => ?_⟩
  · simp only [ran_bind_iff, hx.ran_iff, hy.ran_iff, Module.addable_append]
    constructor
    · rintro ⟨_, _, _, ⟨hF, hcs, rfl, rfl⟩, hG, hes, rfl, rfl⟩
      rw [hy.stable] at hes
      refine ⟨⟨hF, hG⟩, ⟨hcs, Module.addable_extend.mp hes⟩, ?_, rfl⟩
      simp only [hy.stable, Module.extend_extend, List.append_nil]
    · rintro ⟨⟨hF, hG⟩, ⟨hcs, hes⟩, rfl, rfl⟩
      refine ⟨(), _, _, ⟨hF, hcs, rfl, rfl⟩, hG, ?_, ?_, rfl⟩
      · rw [hy.stable]
        exact Module.addable_extend.mpr hes
      · simp only [hy.stable, Module.extend_extend, List.append_nil]
  · rw [hx.stable, hy.stable]

lemma links_wire (d w : Wire) : Links True (fun _ => [⟨d, w⟩]) (wire c d w) := by
  refine ⟨fun b s b' s' => ?_, fun _ _ => rfl⟩
  have hone : b.module.Addable [] [⟨d, w⟩] ↔
      b.module.connect d w = .ok (b.module.extend [] [⟨d, w⟩]) := by
    rw [Module.addable_iff]
    constructor
    · rintro ⟨hjoins, -, hapart⟩
      have hjoin := hjoins _ (List.mem_singleton_self _)
      refine Module.connect_eq_ok hjoin.hasDriver hjoin.hasDriven hjoin.produced hjoin.consumed ?_
      exact fun a ha => hapart a (Array.mem_toList_iff.mpr ha) _ (List.mem_singleton_self _)
    · intro hconnect
      obtain ⟨-, hd, hw, hp, hc, hfree⟩ := Module.of_connect_eq_ok hconnect
      refine ⟨?_, List.pairwise_singleton _ _, ?_⟩
      · rintro _ hmem
        obtain rfl := List.mem_singleton.mp hmem
        exact ⟨hd, hw, hp, hc⟩
      · rintro a ha _ hmem
        obtain rfl := List.mem_singleton.mp hmem
        exact hfree a (Array.mem_toList_iff.mp ha)
  constructor
  · intro hran
    obtain ⟨b₁, _, _, hget, hrest⟩ := exists_of_ran_bind hran
    cases hget
    split at hrest
    · next m hconnect =>
      cases hrest
      obtain ⟨rfl, -⟩ := Module.of_connect_eq_ok hconnect
      exact ⟨trivial, hone.mpr hconnect, rfl, rfl⟩
    · cases hrest
    · cases hrest
  · rintro ⟨-, hadd, rfl, rfl⟩
    unfold wire
    refine ran_bind_iff.mpr ⟨b, b, _, rfl, ?_⟩
    rw [hone.mp hadd]
    rfl

lemma links_forM {ι : Type} {F : ι → Prop} {cs : ι → Module → List Connection}
    {f : ι → Construct Unit} (hf : ∀ i, Links (F i) (cs i) (f i)) (is : List ι) :
    Links (∀ i ∈ is, F i) (fun m => is.flatMap fun i => cs i m) (is.forM f) := by
  induction is with
  | nil => simpa using links_pure
  | cons i is ih => simpa using (hf i).bind ih

/-- A step that looks at the module first. -/
lemma links_get {f : Body → Construct Unit} (hf : ∀ b, Links F (fun _ => cs b.module) (f b))
    (hcs : ∀ m es, cs (m.extend [] es) = cs m) : Links F cs (get >>= f) := by
  refine ⟨fun b s b' s' => ?_, hcs⟩
  rw [← (hf b).ran_iff, ran_bind_iff]
  constructor
  · rintro ⟨_, _, _, ⟨⟩, hran⟩
    exact hran
  · exact fun hran => ⟨b, b, s, rfl, hran⟩

end

end Construct

/-! ### Joints -/

/-- The outputs of a stage and the inputs of the next one. -/
structure Joint where
  sources : List Endpoint
  sinks : List Endpoint

/-- The connections of an output to an input. -/
def Endpoint.links (m : Module) (source sink : Endpoint) : List Connection :=
  ((source.tree.pairLeaves? sink.tree).getD []).map
      (fun x => .data source.place sink.place x.1 x.2) ++
    if source.whole && sink.whole && Construct.isStream m source .output &&
      Construct.isStream m sink .input then
      [.valid source.place sink.place, .ready source.place sink.place]
    else []

/-- Connections depend on the nodes of a module alone. -/
lemma Endpoint.links_congr {m m' : Module} (h : m'.nodes = m.nodes) (source sink : Endpoint) :
    source.links m' sink = source.links m sink := by
  have hstream : ∀ e side, Construct.isStream m' e side = Construct.isStream m e side := by
    intro e side
    simp only [Construct.isStream, Module.portsOf, h]
  rw [Endpoint.links, Endpoint.links, hstream, hstream]

namespace Joint

/-- The outputs can be connected to the inputs one by one. -/
def Fits (j : Joint) : Prop :=
  j.sources.length = j.sinks.length ∧
    ∀ x ∈ j.sources.zip j.sinks, (x.1.tree.pairLeaves? x.2.tree).isSome

def links (m : Module) (j : Joint) : List Connection :=
  (j.sources.zip j.sinks).flatMap fun x => x.1.links m x.2

end Joint

namespace Ends

/-- The joints of the stages of a chain. -/
def joints : List Ends → List Joint
  | first :: second :: rest => ⟨first.sources, second.sinks⟩ :: joints (second :: rest)
  | _ => []

/-- What a chain offers: the inputs of its first and the outputs of its last stage. -/
def outer (stages : List Ends) : Ends :=
  ⟨(stages.headD .none).sinks, (stages.getLastD .none).sources⟩

/-- The connections that a chain asks for. -/
def chainLinks (m : Module) (stages : List Ends) : List Connection :=
  (joints stages).flatMap (Joint.links m)

lemma chainLinks_congr {m m' : Module} (h : m'.nodes = m.nodes) (stages : List Ends) :
    chainLinks m' stages = chainLinks m stages :=
  List.flatMap_congr fun _ _ => List.flatMap_congr fun x _ => Endpoint.links_congr h x.1 x.2

lemma joints_append_cons (xs : List Ends) (y : Ends) (ys : List Ends) :
    joints (xs ++ y :: ys) = joints (xs ++ [y]) ++ joints (y :: ys) := by
  induction xs with
  | nil => rfl
  | cons x xs ih =>
    cases xs with
    | nil => rfl
    | cons x' xs =>
      simp only [List.cons_append, joints] at ih ⊢
      rw [ih]

/-- The last stage is driven, but does not drive. -/
lemma joints_append_singleton (xs : List Ends) {y z : Ends} (h : y.sinks = z.sinks) :
    joints (xs ++ [y]) = joints (xs ++ [z]) := by
  induction xs with
  | nil => rfl
  | cons x xs ih =>
    cases xs with
    | nil => simp only [List.cons_append, List.nil_append, joints, h]
    | cons x' xs =>
      simp only [List.cons_append, joints] at ih ⊢
      rw [ih]

lemma joints_cons_congr {y z : Ends} (h : y.sources = z.sources) (ys : List Ends) :
    joints (y :: ys) = joints (z :: ys) := by
  cases ys with
  | nil => rfl
  | cons y' ys => simp only [joints, h]

/-- Parentheses around a run of stages set its joints apart. -/
lemma joints_regrouped (before : List Ends) {run : List Ends} (hrun : run ≠ []) (after : List Ends) :
    (joints (before ++ run ++ after)).Perm
      (joints run ++ joints (before ++ [outer run] ++ after)) := by
  obtain ⟨first, rest, rfl⟩ := List.exists_cons_of_ne_nil hrun
  obtain ⟨init, last, hlast⟩ : ∃ init last, first :: rest = init ++ [last] :=
    ⟨_, _, (List.dropLast_append_getLast hrun).symm⟩
  have hsinks : first.sinks = (outer (first :: rest)).sinks := rfl
  have hsources : last.sources = (outer (first :: rest)).sources := by
    rw [outer, hlast]
    simp
  have hbefore : joints (before ++ first :: rest ++ after) =
      joints (before ++ [first]) ++ joints (first :: rest ++ after) := by
    rw [List.append_assoc, List.cons_append, joints_append_cons]
  have hafter : joints (first :: rest ++ after) = joints (first :: rest) ++ joints (last :: after) := by
    rw [hlast, List.append_assoc, List.singleton_append, joints_append_cons]
  have hwhole : joints (before ++ [outer (first :: rest)] ++ after) =
      joints (before ++ [first]) ++ joints (last :: after) := by
    rw [List.append_assoc, List.singleton_append, joints_append_cons,
      joints_append_singleton before hsinks.symm, joints_cons_congr hsources.symm]
  rw [hbefore, hafter, hwhole]
  exact List.perm_append_comm_assoc _ _ _

lemma chainLinks_regrouped (m : Module) (before : List Ends) {run : List Ends} (hrun : run ≠ [])
    (after : List Ends) : (chainLinks m (before ++ run ++ after)).Perm
      (chainLinks m run ++ chainLinks m (before ++ [outer run] ++ after)) := by
  unfold chainLinks
  rw [← List.flatMap_append]
  exact (joints_regrouped before hrun after).flatMap_right _

lemma forall_fits_regrouped (before : List Ends) {run : List Ends} (hrun : run ≠ [])
    (after : List Ends) : (∀ j ∈ joints (before ++ run ++ after), j.Fits) ↔
      (∀ j ∈ joints run, j.Fits) ∧ ∀ j ∈ joints (before ++ [outer run] ++ after), j.Fits := by
  rw [← List.forall_mem_append]
  have hperm := joints_regrouped before hrun after
  exact ⟨fun h j hj => h j (hperm.mem_iff.mpr hj), fun h j hj => h j (hperm.mem_iff.mp hj)⟩

/-- A chain with parentheses offers the same as the chain without them. -/
lemma outer_regrouped (before : List Ends) {run : List Ends} (hrun : run ≠ []) (after : List Ends) :
    outer (before ++ [outer run] ++ after) = outer (before ++ run ++ after) := by
  have hhead : ((before ++ [outer run] ++ after).headD .none).sinks =
      ((before ++ run ++ after).headD .none).sinks := by
    cases before with
    | nil =>
      obtain ⟨first, rest, rfl⟩ := List.exists_cons_of_ne_nil hrun
      rfl
    | cons first before => rfl
  have hlast : ((before ++ [outer run] ++ after).getLastD .none).sources =
      ((before ++ run ++ after).getLastD .none).sources := by
    simp only [List.getLastD_eq_getLast?, List.getLast?_append]
    cases after.getLast? with
    | some last => rfl
    | none =>
      simp [outer, List.getLastD_eq_getLast?, List.getLast?_eq_some_getLast hrun]
  exact congrArg₂ Ends.mk hhead hlast

end Ends

/-! ### Connecting stages -/

namespace Construct

open Ends

variable {c : BodyContext}

lemma links_connect (source sink : Endpoint) :
    Links ((source.tree.pairLeaves? sink.tree).isSome = true) (fun m => source.links m sink)
      (connect c source sink) := by
  refine links_get (fun b => ?_) fun m es => Endpoint.links_congr (by simp [Module.extend]) source sink
  dsimp only
  split
  · next hnone =>
    exact (links_throw _ fun _ _ => rfl).congr (by simp [hnone]) fun _ => rfl
  · next pairs hpairs =>
    have hdata := links_forM (fun x : Nat × Nat =>
      links_wire (c := c) ⟨source.node, .output, source.port, .data x.1⟩
        ⟨sink.node, .input, sink.port, .data x.2⟩) pairs
    have hlinks : source.links b.module sink = pairs.flatMap (fun x =>
        [.data source.place sink.place x.1 x.2]) ++
        if source.whole && sink.whole && isStream b.module source .output &&
          isStream b.module sink .input then
          [.valid source.place sink.place, .ready source.place sink.place]
        else [] := by
      rw [Endpoint.links, hpairs, Option.getD_some, List.map_eq_flatMap]
    rw [hlinks]
    split
    · exact (hdata.bind ((links_wire _ _).bind (links_wire _ _))).congr (by simp [hpairs])
        fun _ => rfl
    · exact (hdata.bind links_pure).congr (by simp [hpairs]) fun _ => rfl

lemma links_connectStage (j : Joint) :
    Links j.Fits (fun m => j.links m) (connectStage c j.sources j.sinks) := by
  have hall := links_forM (fun x : Endpoint × Endpoint => links_connect (c := c) x.1 x.2)
    (j.sources.zip j.sinks)
  unfold connectStage
  split
  · next hlength =>
    have hthrow : ∀ e, Links False (fun _ => []) (throw e : Construct Unit) :=
      fun e => links_throw e fun _ _ => rfl
    refine ((hthrow _).bind hall).congr ?_ fun _ => rfl
    simp [Joint.Fits, hlength]
  · next hlength =>
    exact (links_pure.bind hall).congr (by simp [Joint.Fits, not_ne_iff.mp hlength]) fun _ => rfl

lemma links_connectStages (stages : List Ends) :
    Links (∀ j ∈ joints stages, j.Fits) (fun m => chainLinks m stages) (connectStages c stages) := by
  induction stages with
  | nil => exact links_pure.congr (by simp [joints]) fun _ => rfl
  | cons first rest ih =>
    cases rest with
    | nil => exact links_pure.congr (by simp [joints]) fun _ => rfl
    | cons second rest =>
      exact ((links_connectStage ⟨first.sources, second.sinks⟩).bind ih).congr
        (by simp [joints]) fun _ => rfl

/-- When the stages of a chain can be joined, and what that does. -/
lemma ran_joinStages_iff {stages : List Ends} {b b' : Body} {s s' : Session} {ends : Ends} :
    (joinStages c stages).Ran b s ends b' s' ↔ (∀ j ∈ joints stages, j.Fits) ∧
      b.module.Addable [] (chainLinks b.module stages) ∧
      b' = { b with module := b.module.extend [] (chainLinks b.module stages) } ∧ s' = s ∧
      ends = outer stages := by
  unfold joinStages
  simp only [ran_bind_iff, ran_pure_iff, (links_connectStages stages).ran_iff]
  constructor
  · rintro ⟨_, _, _, ⟨hfits, hadd, rfl, rfl⟩, rfl, rfl, rfl⟩
    exact ⟨hfits, hadd, rfl, rfl, rfl⟩
  · rintro ⟨hfits, hadd, rfl, rfl, rfl⟩
    exact ⟨(), _, _, ⟨hfits, hadd, rfl, rfl⟩, rfl, rfl, rfl⟩

end Construct

/-! ### Links of ends on ports -/

section

variable {m m' : Module}

lemma Endpoint.OnPort.exists_node {e : Endpoint} {side : Side} (h : e.OnPort m side) :
    ∃ n, m.nodes[e.node]? = some n := by
  obtain ⟨q, hq, -⟩ := h
  unfold Module.portsOf at hq
  cases hn : m.nodes[e.node]? with
  | none => simp [hn] at hq
  | some n => exact ⟨n, rfl⟩

lemma Endpoint.OnPort.isStream_eq {e : Endpoint} {side : Side} (h : e.OnPort m side)
    (hgrows : m.Grows m') : Construct.isStream m' e side = Construct.isStream m e side := by
  obtain ⟨q, hq, -⟩ := h
  unfold Construct.isStream
  rw [hq, hgrows.port? hq]

namespace Ends

variable {stages : List Ends}

lemma exists_of_mem_joints {j : Joint} (h : j ∈ joints stages) :
    ∃ first ∈ stages, ∃ second ∈ stages, j = ⟨first.sources, second.sinks⟩ := by
  induction stages with
  | nil => simp [joints] at h
  | cons first rest ih =>
    cases rest with
    | nil => simp [joints] at h
    | cons second rest =>
      rw [joints, List.mem_cons] at h
      rcases h with rfl | h
      · exact ⟨first, by simp, second, by simp, rfl⟩
      · obtain ⟨x, hx, y, hy, hj⟩ := ih h
        exact ⟨x, List.mem_cons_of_mem _ hx, y, List.mem_cons_of_mem _ hy, hj⟩

/-- Ends that are connected in a chain of ends on ports are on ports. -/
lemma onPort_of_mem_joints (hstages : ∀ ends ∈ stages, ends.OnPorts m) {j : Joint}
    (hj : j ∈ joints stages) {x : Endpoint × Endpoint} (hx : x ∈ j.sources.zip j.sinks) :
    x.1.OnPort m .output ∧ x.2.OnPort m .input := by
  obtain ⟨first, hfirst, second, hsecond, rfl⟩ := exists_of_mem_joints hj
  obtain ⟨hsource, hsink⟩ := List.of_mem_zip hx
  exact ⟨(hstages first hfirst).sources _ hsource, (hstages second hsecond).sinks _ hsink⟩

/-- A chain asks for the same connections while nodes are added. -/
lemma chainLinks_of_grows (hstages : ∀ ends ∈ stages, ends.OnPorts m) (hgrows : m.Grows m') :
    chainLinks m' stages = chainLinks m stages := by
  refine List.flatMap_congr fun j hj => List.flatMap_congr fun x hx => ?_
  obtain ⟨hsource, hsink⟩ := onPort_of_mem_joints hstages hj hx
  rw [Endpoint.links, Endpoint.links, hsource.isStream_eq hgrows, hsink.isStream_eq hgrows]

/-- What a chain asks for is possible as soon as its ends are there. -/
lemma joins_of_grows (hstages : ∀ ends ∈ stages, ends.OnPorts m) (hgrows : m.Grows m')
    {c : Connection} (hc : c ∈ chainLinks m stages) (hjoins : m'.Joins c) : m.Joins c := by
  obtain ⟨j, hj, hc⟩ := List.mem_flatMap.mp hc
  obtain ⟨x, hx, hc⟩ := List.mem_flatMap.mp hc
  obtain ⟨hsource, hsink⟩ := onPort_of_mem_joints hstages hj hx
  obtain ⟨n, hn⟩ := hsource.exists_node
  obtain ⟨n', hn'⟩ := hsink.exists_node
  have hsame : ∀ k, k = x.1.node ∨ k = x.2.node → m'.nodes[k]? = m.nodes[k]? := by
    rintro k (rfl | rfl)
    · rw [hn, hgrows _ n hn]
    · rw [hn', hgrows _ n' hn']
  have hnodes : (c.driver.node = x.1.node ∨ c.driver.node = x.2.node) ∧
      (c.driven.node = x.1.node ∨ c.driven.node = x.2.node) := by
    rcases List.mem_append.mp hc with hc | hc
    · obtain ⟨pair, -, rfl⟩ := List.mem_map.mp hc
      exact ⟨.inl rfl, .inr rfl⟩
    · split at hc
      · simp only [List.mem_cons, List.not_mem_nil, or_false] at hc
        rcases hc with rfl | rfl
        · exact ⟨.inl rfl, .inr rfl⟩
        · exact ⟨.inr rfl, .inl rfl⟩
      · simp at hc
  exact hjoins.congr (hsame _ hnodes.1) (hsame _ hnodes.2)

/-- What a chain asks for can be added as soon as its ends are there, if it can be added later. -/
lemma addable_of_begins (hstages : ∀ ends ∈ stages, ends.OnPorts m) (hgrows : m.Grows m')
    (hconnections : m.connections.toList ⊆ m'.connections.toList)
    (hadd : m'.Addable [] (chainLinks m stages)) : m.Addable [] (chainLinks m stages) := by
  rw [Module.addable_iff] at hadd ⊢
  exact ⟨fun c hc => joins_of_grows hstages hgrows hc (hadd.1 c hc), hadd.2.1,
    hadd.2.2.subset hconnections (List.Subset.refl _)⟩

end Ends

end

end NetlistCompiler
