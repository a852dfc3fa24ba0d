import NetlistCompiler.Netlist.Index
import NetlistCompiler.Proofs.Wiring

/-!
# Indexed wiring

The index of a module under construction stays in step with its connections through any sequence of
changes, whether they succeed or fail. So looking up the driver of a wire finds its connection, and
the module is the one that the same changes make of it without an index.
-/

namespace NetlistCompiler

/-! ### Places -/

/-- The index knows of each driven wire where its connection is, and of no other wire. -/
def Indexes (places : List (Wire × Nat)) (connections : List Connection) : Prop :=
  ∀ w place, places.lookup w = some place ↔ ∃ d, connections[place]? = some ⟨d, w⟩

lemma indexes_nil : Indexes [] [] := by
  simp [Indexes]

lemma getElem?_concat_eq_some_iff {cs : List Connection} {c a : Connection} {place : Nat} :
    (cs ++ [c])[place]? = some a ↔ cs[place]? = some a ∨ place = cs.length ∧ c = a := by
  rcases lt_trichotomy place cs.length with hlt | rfl | hgt
  · rw [List.getElem?_append_left hlt]
    simp [hlt.ne]
  · simp
  · rw [List.getElem?_eq_none (by simpa using hgt), List.getElem?_eq_none hgt.le]
    simp [hgt.ne']

/-- A connection of a wire without a driver is entered at the end. -/
lemma Indexes.concat {places : List (Wire × Nat)} {cs : List Connection} (h : Indexes places cs)
    {c : Connection} (hfree : ∀ a ∈ cs, a.driven ≠ c.driven) :
    Indexes ((c.driven, cs.length) :: places) (cs ++ [c]) := by
  intro w place
  simp only [List.lookup_cons, getElem?_concat_eq_some_iff]
  by_cases hw : w = c.driven
  · subst hw
    simp only [beq_self_eq_true, Option.some.injEq]
    constructor
    · rintro rfl
      exact ⟨c.driver, .inr ⟨rfl, rfl⟩⟩
    · rintro ⟨d, hd | ⟨rfl, -⟩⟩
      · exact absurd rfl (hfree ⟨d, c.driven⟩ (List.mem_of_getElem? hd))
      · rfl
  · rw [beq_eq_false_iff_ne.mpr hw]
    refine (h w place).trans ⟨?_, ?_⟩
    · rintro ⟨d, hd⟩
      exact ⟨d, .inl hd⟩
    · rintro ⟨d, hd | ⟨-, rfl⟩⟩
      · exact ⟨d, hd⟩
      · exact absurd rfl hw

lemma IndexedModule.length_placesOf (cs : List Connection) : (placesOf cs).length = cs.length := by
  induction cs using List.reverseRecOn with
  | nil => rfl
  | append_singleton cs c ih => simpa [placesOf] using ih

lemma IndexedModule.indexes_placesOf {cs : List Connection}
    (h : cs.Pairwise fun a b => a.driven ≠ b.driven) : Indexes (placesOf cs) cs := by
  induction cs using List.reverseRecOn with
  | nil => exact indexes_nil
  | append_singleton cs c ih =>
    obtain ⟨hcs, -, hfree⟩ := List.pairwise_append.mp h
    have hplaces : placesOf (cs ++ [c]) = (c.driven, cs.length) :: placesOf cs := by
      rw [← length_placesOf cs]
      simp [placesOf]
    rw [hplaces]
    exact (ih hcs).concat fun a ha => hfree a ha c (List.mem_singleton_self c)

namespace IndexedModule

/-! ### Modules in step with their index -/

structure InStep (m : IndexedModule) : Prop where
  wired : m.module.WellWired
  indexes : Indexes m.places m.module.connections.toList

variable {m : IndexedModule}

lemma inStep_ofModule {m : Module} (h : m.WellWired) : (ofModule m).InStep :=
  ⟨h, indexes_placesOf h.single⟩

lemma inStep_empty (invocation : Invocation) (inputs outputs : List Port) :
    (empty invocation inputs outputs).InStep :=
  inStep_ofModule (Module.wellWired_empty invocation inputs outputs)

lemma InStep.driver?_eq_some_iff (h : m.InStep) {d w : Wire} :
    m.driver? w = some d ↔ ⟨d, w⟩ ∈ m.module.connections := by
  have hplace : m.driver? w = some d ↔
      ∃ place, m.places.lookup w = some place ∧
        ∃ c, m.module.connections.toList[place]? = some c ∧ c.driver = d := by
    simp [driver?, Option.bind_eq_some_iff]
  rw [hplace, ← Array.mem_toList_iff, List.mem_iff_getElem?]
  constructor
  · rintro ⟨place, hlookup, c, hc, rfl⟩
    obtain ⟨d, hd⟩ := (h.indexes w place).mp hlookup
    obtain rfl : c = ⟨d, w⟩ := Option.some.inj (hc.symm.trans hd)
    exact ⟨place, hd⟩
  · rintro ⟨place, hd⟩
    exact ⟨place, (h.indexes w place).mpr ⟨d, hd⟩, _, hd, rfl⟩

/-- The index finds the driver that a search through the connections finds. -/
lemma InStep.driver?_eq (h : m.InStep) (w : Wire) : m.driver? w = m.module.driver? w := by
  apply Option.ext
  intro d
  rw [h.driver?_eq_some_iff, h.wired.driver?_eq_some_iff]

/-! ### Edits -/

lemma apply_get_bind {α : Type} (next : IndexedModule → Edit α) :
    (get >>= next).apply m = (next m).apply m := rfl

lemma apply_addNode (n : Node) :
    (Edit.addNode n).apply m =
      (.ok m.module.nodes.size, { m with module := m.module.addNode n }) := rfl

/-- A connection does to the module what it does without an index, and a failure changes nothing. -/
lemma InStep.apply_connect (h : m.InStep) (d w : Wire) :
    (Edit.connect d w).apply m =
      match m.module.connect d w with
      | .error e => (.error e, m)
      | .ok m' => (.ok (), ⟨m', (w, m.module.connections.size) :: m.places⟩) := by
  have hcheck : (!m.module.hasWire d || !m.module.hasWire w || !d.isProduced || w.isProduced) =
      !(m.module.hasWire d && m.module.hasWire w && d.isProduced && !w.isProduced) := by
    simp
  unfold Module.connect
  rw [← h.driver?_eq w, hcheck, Edit.connect, apply_get_bind]
  cases m.module.hasWire d && m.module.hasWire w && d.isProduced && !w.isProduced with
  | false => rfl
  | true => cases m.driver? w <;> rfl

lemma InStep.addNode (h : m.InStep) (n : Node) :
    InStep { m with module := m.module.addNode n } :=
  ⟨h.wired.addNode n, h.indexes⟩

lemma InStep.connect (h : m.InStep) {d w : Wire} {m' : Module}
    (hconnect : m.module.connect d w = .ok m') :
    InStep ⟨m', (w, m.module.connections.size) :: m.places⟩ := by
  refine ⟨h.wired.connect hconnect, ?_⟩
  obtain ⟨rfl, -, -, -, -, hfree⟩ := Module.of_connect_eq_ok hconnect
  have hplaces := h.indexes.concat (c := ⟨d, w⟩) fun a ha => hfree a (Array.mem_toList_iff.mp ha)
  simpa [Module.extend] using hplaces

/-- What a connection needs. -/
structure Connectable (m : IndexedModule) (driver driven : Wire) : Prop where
  hasDriver : m.module.hasWire driver = true
  hasDriven : m.module.hasWire driven = true
  produced : driver.isProduced = true
  consumed : driven.isProduced = false
  free : m.driver? driven = none

lemma InStep.connect_eq_ok_iff (h : m.InStep) {d w : Wire} :
    (∃ m', m.module.connect d w = .ok m') ↔ m.Connectable d w := by
  constructor
  · rintro ⟨m', hconnect⟩
    obtain ⟨-, hd, hw, hp, hc, hfree⟩ := Module.of_connect_eq_ok hconnect
    exact ⟨hd, hw, hp, hc, (h.driver?_eq w).trans (Module.driver?_eq_none_iff.mpr hfree)⟩
  · rintro ⟨hd, hw, hp, hc, hfree⟩
    rw [h.driver?_eq, Module.driver?_eq_none_iff] at hfree
    exact ⟨_, Module.connect_eq_ok hd hw hp hc hfree⟩

lemma InStep.apply_connect_of_connectable (h : m.InStep) {d w : Wire} (hdw : m.Connectable d w) :
    ∃ places, (Edit.connect d w).apply m = (.ok (), ⟨m.module.extend [] [⟨d, w⟩], places⟩) := by
  obtain ⟨m', hconnect⟩ := h.connect_eq_ok_iff.mpr hdw
  obtain ⟨hm', -⟩ := Module.of_connect_eq_ok hconnect
  refine ⟨(w, m.module.connections.size) :: m.places, ?_⟩
  rw [h.apply_connect, hconnect, hm']

lemma InStep.apply_connect_of_not (h : m.InStep) {d w : Wire} (hdw : ¬m.Connectable d w) :
    ∃ e, (Edit.connect d w).apply m = (.error e, m) := by
  rw [h.apply_connect]
  cases hconnect : m.module.connect d w with
  | error e => exact ⟨e, rfl⟩
  | ok m' => exact absurd (h.connect_eq_ok_iff.mp ⟨m', hconnect⟩) hdw

end IndexedModule

/-! ### Histories -/

/-- A change that is asked for. -/
inductive Change where
  | node (node : Node)
  | connection (driver driven : Wire)

namespace Change

/-- The module after a change, made or refused. -/
def apply (m : IndexedModule) : Change → IndexedModule
  | node n => ((Edit.addNode n).apply m).2
  | connection driver driven => ((Edit.connect driver driven).apply m).2

/-- The same change of a module without an index. -/
def applyTo (m : Module) : Change → Module
  | node n => m.addNode n
  | connection driver driven => (m.connect driver driven).toOption.getD m

/-- One change keeps a module in step, and its index makes no difference. -/
lemma apply_inStep {m : IndexedModule} (h : m.InStep) (change : Change) :
    (change.apply m).InStep ∧ (change.apply m).module = change.applyTo m.module := by
  cases change with
  | node n => exact ⟨h.addNode n, rfl⟩
  | connection d w =>
    rw [apply, applyTo, h.apply_connect]
    cases hconnect : m.module.connect d w with
    | error e => exact ⟨h, rfl⟩
    | ok m' => exact ⟨h.connect hconnect, rfl⟩

lemma foldl_inStep {m : IndexedModule} (h : m.InStep) (changes : List Change) :
    (changes.foldl apply m).InStep ∧
      (changes.foldl apply m).module = changes.foldl applyTo m.module := by
  induction changes generalizing m with
  | nil => exact ⟨h, rfl⟩
  | cons change changes ih =>
    obtain ⟨hstep, hmodule⟩ := apply_inStep h change
    obtain ⟨hrest, hrestModule⟩ := ih hstep
    exact ⟨hrest, hrestModule.trans (by rw [hmodule, List.foldl_cons])⟩

end Change

/-- After any changes, made or refused, the index gives for each wire the driver of its connection,
no wire has two drivers, and every connection goes from an existing wire that is produced to one
that is consumed. A further connection is made if it is of this kind and the driven wire is still
free, and otherwise nothing changes. The module is the one that the changes make without an
index. -/
theorem edited_inStep (invocation : Invocation) (inputs outputs : List Port)
    (changes : List Change) :
    let m := changes.foldl Change.apply (.empty invocation inputs outputs)
    (∀ d w, m.driver? w = some d ↔ ⟨d, w⟩ ∈ m.module.connections) ∧
    m.module.WellWired ∧
    (∀ d w, m.Connectable d w → ∃ places,
      (Edit.connect d w).apply m = (.ok (), ⟨m.module.extend [] [⟨d, w⟩], places⟩)) ∧
    (∀ d w, ¬m.Connectable d w → ∃ e, (Edit.connect d w).apply m = (.error e, m)) ∧
    (∀ n, (Edit.addNode n).apply m =
      (.ok m.module.nodes.size, { m with module := m.module.addNode n })) ∧
    m.module = changes.foldl Change.applyTo (.empty invocation inputs outputs) ∧
    ∀ w, m.driver? w = m.module.driver? w := by
  intro m
  obtain ⟨hm, hmodule⟩ : m.InStep ∧ _ :=
    Change.foldl_inStep (IndexedModule.inStep_empty invocation inputs outputs) changes
  exact ⟨fun _ _ => hm.driver?_eq_some_iff, hm.wired,
    fun _ _ => hm.apply_connect_of_connectable, fun _ _ => hm.apply_connect_of_not,
    IndexedModule.apply_addNode, hmodule, hm.driver?_eq⟩

/-- Two wires from an input to an output, of which the second one is connected, after a second
driver and a connection backwards have been tried. -/
def passingChanges (a b : Nat → Wire) : List Change :=
  [.node ⟨"a", .input, [], [.signal "a" (.bus 2)]⟩,
    .node ⟨"b", .output, [.signal "b" (.bus 2)], []⟩,
    .connection (a 1) (b 1), .connection (a 0) (b 1), .connection (b 0) (a 0)]

theorem edited_inStep_passing :
    let a := fun leaf => ⟨0, .output, 0, .data leaf⟩
    let b := fun leaf => ⟨1, .input, 0, .data leaf⟩
    let m := (passingChanges a b).foldl Change.apply (.empty (.plain "top") [] [])
    m.module.WellWired ∧ m.module.connections = #[⟨a 1, b 1⟩] ∧ m.driver? (b 1) = some (a 1) ∧
    (∃ places, (Edit.connect (a 0) (b 0)).apply m =
      (.ok (), ⟨m.module.extend [] [⟨a 0, b 0⟩], places⟩)) ∧
    ∃ e, (Edit.connect (a 0) (b 1)).apply m = (.error e, m) := by
  intro a b m
  obtain ⟨hdriver, hwired, hmade, hrefused, -⟩ :=
    edited_inStep (.plain "top") [] [] (passingChanges a b)
  have hconnections : m.module.connections = #[⟨a 1, b 1⟩] := by decide
  have hdriven : m.driver? (b 1) = some (a 1) := (hdriver _ _).mpr (by rw [hconnections]; simp)
  refine ⟨hwired, hconnections, hdriven, hmade (a 0) (b 0) ?_, hrefused (a 0) (b 1) fun h => ?_⟩
  · exact ⟨by decide, by decide, rfl, rfl, by decide⟩
  · cases hdriven.symm.trans h.free

end NetlistCompiler
