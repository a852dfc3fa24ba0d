import NetlistCompiler.Proofs.CombinationalLoops
import NetlistCompiler.Proofs.ComposedRetimings
import NetlistCompiler.Proofs.Likeness
import NetlistCompiler.Proofs.RoundTrip

/-!
# Retimed modules

Retiming a module succeeds unless it has a combinational loop, its target is out of reach, a bundle
is too wide for a register or the delays of its paths overflow. The result keeps the head of the
module and its nodes other than registers, it has the reported clock period, and it can be retimed
again.
-/

namespace NetlistCompiler

lemma filterMap_filter_range {α : Type} (p : α → Bool) (l : List α) :
    ((List.range l.length).filter fun i => (l[i]?.map p).getD false).filterMap (fun i => l[i]?) =
      l.filter p := by
  induction l using List.reverseRecOn with
  | nil => rfl
  | append_singleton l a ih =>
    -- the places of the longer list are those of the shorter one, and the last
    have hold : ∀ i ∈ List.range l.length, (l ++ [a])[i]? = l[i]? := by
      intro i hi
      exact List.getElem?_append_left (List.mem_range.mp hi)
    have hfilter : ((List.range l.length).filter fun i => ((l ++ [a])[i]?.map p).getD false) =
        (List.range l.length).filter fun i => (l[i]?.map p).getD false :=
      List.filter_congr fun i hi => by rw [hold i hi]
    have hmap : ((List.range l.length).filter fun i => (l[i]?.map p).getD false).filterMap
        (fun i => (l ++ [a])[i]?) = l.filter p := by
      rw [← ih]
      exact List.filterMap_congr fun i hi => hold i (List.mem_filter.mp hi).1
    rw [List.length_append, List.length_singleton, List.range_succ, List.filter_append, hfilter,
      List.filterMap_append, hmap, List.filter_append]
    cases hpa : p a <;> simp [hpa]

namespace Module

variable {m r : Module}

/-! ### Steps of rebuilding -/

/-- A property of a module with so many registers put in already, kept when wires are connected and
when the next register is added. -/
structure KeptByRebuilding (P : Nat → Module → Prop) : Prop where
  reconnect : ∀ {number : Nat} {r r' : Module} {driver driven : Wire}, P number r →
    r.reconnect driver driven = .ok r' → P number r'
  addNode : ∀ {number : Nat} {r : Module} {n : Node}, P number r → n.name = insertedName number →
    P (number + 1) (r.addNode n)

namespace KeptByRebuilding

variable {P : Nat → Module → Prop}

lemma addRegister (hP : KeptByRebuilding P) {number : Nat} {drivers : List Wire}
    {state : Module × List Wire} (hr : P number r)
    (hstep : r.addRegister number drivers = .ok state) : P (number + 1) state.1 := by
  obtain ⟨r', hfold, hstate⟩ := exists_of_bind_eq_ok hstep
  cases hstate
  exact foldlM_keeps (fun _ _ _ _ => hP.reconnect) (hP.addNode hr rfl) hfold

lemma addRegisters (hP : KeptByRebuilding P) {count number : Nat}
    {state state' : Module × List Wire} (hstate : P number state.1)
    (hstep : Module.addRegisters number count state = .ok state') :
    P (number + count) state'.1 := by
  induction count generalizing number state with
  | zero =>
    cases hstep
    exact hstate
  | succ count ih =>
    obtain ⟨state₁, hfirst, hrest⟩ := exists_of_bind_eq_ok hstep
    have hall := ih (hP.addRegister hstate hfirst) hrest
    rwa [Nat.add_right_comm] at hall

lemma addEdge (hP : KeptByRebuilding P) {c : ModuleCircuit} {e : Edge (List Connection)}
    {state state' : Module × Nat} (hstate : P state.2 state.1)
    (hstep : Module.addEdge c state e = .ok state') : P state'.2 state'.1 := by
  obtain ⟨drivers, -, hstep⟩ := exists_of_bind_eq_ok hstep
  obtain ⟨chain, hchain, hstep⟩ := exists_of_bind_eq_ok hstep
  obtain ⟨r', hfold, hstep⟩ := exists_of_bind_eq_ok hstep
  cases hstep
  refine foldlM_keeps (P := P (state.2 + e.weight.toNat)) ?_ (hP.addRegisters hstate hchain) hfold
  intro r₁ _ _ r₂ h₁ hconnect
  obtain ⟨w, -, hconnect⟩ := exists_of_bind_eq_ok hconnect
  exact hP.reconnect h₁ hconnect

/-- What holds of the nodes alone holds of the rebuilt module. -/
lemma rebuild (hP : KeptByRebuilding P) {c : ModuleCircuit}
    (hstart : P 0 { m with
      nodes := c.graph.vertices.filterMap fun v => m.nodes[v.value]?, connections := #[] })
    (h : m.rebuild c = .ok r) : ∃ number, P number r := by
  obtain ⟨⟨r₁, number⟩, hedges, hrest⟩ := exists_of_bind_eq_ok h
  have hall : P number r₁ :=
    foldlM_keeps (P := fun state : Module × Nat => P state.2 state.1)
      (fun _ _ _ _ hstate hstep => hP.addEdge hstate hstep) hstart hedges
  refine ⟨number, foldlM_keeps (P := P number) ?_ hall hrest⟩
  intro r₂ _ _ r₃ h₂ hconnect
  obtain ⟨driver, -, hconnect⟩ := exists_of_bind_eq_ok hconnect
  obtain ⟨driven, -, hconnect⟩ := exists_of_bind_eq_ok hconnect
  exact hP.reconnect h₂ hconnect

end KeptByRebuilding

lemma eq_extend_of_reconnect {driver driven : Wire} (h : m.reconnect driver driven = .ok r) :
    r = m.extend [] [⟨driver, driven⟩] := by
  unfold reconnect at h
  split at h
  · next hconnect =>
    cases h
    exact (of_connect_eq_ok hconnect).1
  · cases h

/-! ### Heads -/

/-- The modules stand for the same invocation and have the same ports. -/
structure SameHead (m r : Module) : Prop where
  invocation : r.invocation = m.invocation
  inputs : r.inputs = m.inputs
  outputs : r.outputs = m.outputs

lemma SameHead.refl (m : Module) : m.SameHead m :=
  ⟨rfl, rfl, rfl⟩

lemma sameHead_of_rebuild {c : ModuleCircuit} (h : m.rebuild c = .ok r) : m.SameHead r := by
  have hkept : KeptByRebuilding fun _ r => m.SameHead r := by
    refine ⟨?_, fun ⟨hinvocation, hinputs, houtputs⟩ _ => ⟨hinvocation, hinputs, houtputs⟩⟩
    intro _ r₁ r₂ _ _ ⟨hinvocation, hinputs, houtputs⟩ hconnect
    rw [eq_extend_of_reconnect hconnect]
    exact ⟨hinvocation, hinputs, houtputs⟩
  obtain ⟨-, hr⟩ := hkept.rebuild (m := m) ⟨rfl, rfl, rfl⟩ h
  exact hr

/-! ### Errors of rebuilding -/

/-- An error that is none of the user. -/
def IsInternal (e : RetimeError) : Prop :=
  ∃ cause, e = .internal cause

lemma isInternal_of_rebase {c : ModuleCircuit} {w : Wire} :
    ∀ e, rebase c w = .error e → IsInternal e := by
  intro e h
  unfold rebase at h
  split at h
  · cases h
  · cases h
    exact ⟨_, rfl⟩

lemma isInternal_of_reconnect {driver driven : Wire} :
    ∀ e, m.reconnect driver driven = .error e → IsInternal e := by
  intro e h
  unfold reconnect at h
  split at h
  · cases h
  · cases h
    exact ⟨_, rfl⟩

lemma isInternal_of_addRegisters {count number : Nat} {state : Module × List Wire} :
    ∀ e, addRegisters number count state = .error e → IsInternal e := by
  induction count generalizing number state with
  | zero => rintro e ⟨⟩
  | succ count ih =>
    refine error_of_bind (error_of_bind ?_ ?_) fun state' => ih
    · exact error_of_foldlM (fun _ _ _ => isInternal_of_reconnect) _
    · rintro m' e ⟨⟩

lemma isInternal_of_addEdge {c : ModuleCircuit} {state : Module × Nat} {e : Edge (List Connection)} :
    ∀ err, addEdge c state e = .error err → IsInternal err := by
  refine error_of_bind (error_of_mapM (fun _ => isInternal_of_rebase) _) fun drivers => ?_
  refine error_of_bind isInternal_of_addRegisters fun chain => error_of_bind ?_ ?_
  · exact error_of_foldlM
      (fun _ _ _ => error_of_bind isInternal_of_rebase fun _ => isInternal_of_reconnect) _
  · rintro m' err ⟨⟩

lemma isInternal_of_rebuild {c : ModuleCircuit} : ∀ e, m.rebuild c = .error e → IsInternal e := by
  refine error_of_bind (error_of_foldlM (fun _ _ _ => isInternal_of_addEdge) _) fun state => ?_
  exact error_of_foldlM (fun _ _ _ => error_of_bind isInternal_of_rebase fun _ =>
    error_of_bind isInternal_of_rebase fun _ => isInternal_of_reconnect) _

/-! ### Modules that can be retimed -/

/-- All wires are in order and registers take no part in handshakes. -/
structure Retimable (m : Module) : Prop where
  wired : m.WellWired
  handshakes : m.HandshakesAvoidRegisters

lemma IsRebuilt.retimable {c : ModuleCircuit} (h : m.IsRebuilt c r) (hm : m.Retimable) :
    r.Retimable := by
  refine ⟨h.wired, ?_⟩
  intro x hx hshake
  have hmem : x ∈ r.connections.toList.filter isHandshake :=
    List.mem_filter.mpr ⟨Array.mem_toList_iff.mpr hx, hshake⟩
  rw [h.handshakes] at hmem
  obtain ⟨y, hy, rfl⟩ := List.mem_map.mp hmem
  obtain ⟨-, hdriver, hdriven⟩ := mem_handshakes hm.wired hm.handshakes hy
  exact ⟨h.nodes.isRegister hdriver, h.nodes.isRegister hdriven⟩

lemma keptNodes_eq_filter (m : Module) :
    m.keptNodes = m.nodes.toList.filter fun n => !n.isRegister := by
  rw [← filterMap_filter_range fun n : Node => !n.isRegister]
  simp [keptNodes, combinationalNodes, nodesWhere]

lemma KeepsNodes.filter_eq (h : m.KeepsNodes r) :
    r.nodes.toList.filter (fun n => !n.isRegister) =
      m.nodes.toList.filter fun n => !n.isRegister := by
  obtain ⟨ns, hnodes, hregisters⟩ := h
  have hnew : ns.filter (fun n => !n.isRegister) = [] := by
    rw [List.filter_eq_nil_iff]
    intro n hn
    simp [(hregisters n hn).isRegister]
  rw [hnodes, List.filter_append, hnew, List.append_nil, keptNodes_eq_filter, List.filter_filter]
  simp

lemma WellWired.circuit?_of_circuit? (h : m.WellWired) {delay : Node → Int} {name : String}
    {c : ModuleCircuit} (hc : m.circuit? delay name = .ok (some c)) (name' : String) :
    m.circuit? delay name' = .ok (some c) := by
  obtain ⟨ts, hts, -⟩ := h.of_circuit? hc
  obtain ⟨g, -, heq⟩ := h.circuit?_eq delay hts
  rw [heq name] at hc
  rw [heq name']
  cases hg : Circuit.ofGraph g with
  | error e =>
    rw [hg] at hc
    cases hc
  | ok c' =>
    rw [hg] at hc
    exact hc

/-- A bundle has no more wires than the module has connections. -/
lemma length_bundle_le {ts : List TracedConnection} (hts : m.tracedConnections? = some ts)
    (k : Nat × Nat × Nat) : (m.bundle ts k).value.length ≤ m.connections.size := by
  have hlength := (tracedConnections?_eq_some_iff.mp hts).length_eq
  calc (m.bundle ts k).value.length
      ≤ ts.length := by
        simp only [bundle, List.length_map]
        exact List.length_filter_le ..
    _ ≤ m.connections.toList.length := by
        rw [← hlength]
        exact List.length_filter_le ..
    _ = m.connections.size := Array.length_toList

lemma Retimable.exists_rebuild (hm : m.Retimable) {delay : Node → Int} {name : String}
    {c c' : ModuleCircuit} (hc : m.circuit? delay name = .ok (some c)) {lags : Array Int}
    (hlegal : c.isLegal lags = true) (hretime : c.retime lags = .ok c')
    (hsize : m.connections.size ≤ Shape.maxWidth) : ∃ r, m.rebuild c' = .ok r := by
  obtain ⟨ts, c₁, hts, hretime', hgraph, -⟩ := hm.wired.exists_retimed hc hlegal
  obtain rfl : c₁ = c' := Except.ok.inj (hretime'.symm.trans hretime)
  have hfits : ∀ e ∈ c₁.graph.edges.toList, 0 < e.weight → e.value.length ≤ Shape.maxWidth := by
    intro e he _
    rw [hgraph.edges] at he
    obtain ⟨k, -, rfl⟩ := List.mem_map.mp he
    exact (length_bundle_le hts k).trans hsize
  obtain ⟨r, hr, -⟩ := hm.wired.rebuild_spec hm.handshakes (hm.wired.rebuildable hts hgraph hfits)
  exact ⟨r, hr⟩

/-- A module rebuilt from a retimed circuit can be retimed again, and its circuit is the retimed
one. -/
lemma Retimable.of_rebuild (hm : m.Retimable) {delay : Node → Int} {name : String}
    {c c' : ModuleCircuit} (hc : m.circuit? delay name = .ok (some c)) {lags : Array Int}
    (hlegal : c.isLegal lags = true) (hretime : c.retime lags = .ok c')
    (hr : m.rebuild c' = .ok r) :
    r.Retimable ∧ m.KeepsNodes r ∧
      ∃ d, (∀ name', r.circuit? delay name' = .ok (some d)) ∧ c.RetimesTo lags d ∧ BundlesFit d := by
  obtain ⟨ts, c₁, hts, hretime', hgraph, -⟩ := hm.wired.exists_retimed hc hlegal
  obtain rfl : c₁ = c' := Except.ok.inj (hretime'.symm.trans hretime)
  have hrebuildable := hm.wired.rebuildable hts hgraph fun e he => length_le_of_rebuild hr he
  obtain ⟨r', hr', hrebuilt⟩ := hm.wired.rebuild_spec hm.handshakes hrebuildable
  obtain rfl : r' = r := Except.ok.inj (hr'.symm.trans hr)
  obtain ⟨d, hd, hvertices, hedges⟩ := hrebuilt.exists_circuit? hrebuildable
    (hm.wired.orderedEdges hts hgraph) hgraph.vertices
  refine ⟨hrebuilt.retimable hm, hrebuilt.nodes, d, hd, ?_, ?_⟩
  · obtain ⟨c₂, hc₂, hreweight, -⟩ := Circuit.retime_spec hlegal
    obtain rfl : c₂ = c₁ := Except.ok.inj (hc₂.symm.trans hretime)
    rw [hreweight] at hvertices hedges
    refine ⟨?_, ?_, fun e => m.rankEdge { e with weight := Circuit.registersUnder lags e }, ?_, ?_⟩
    · simp [WeightedGraph.order, hvertices, WeightedGraph.reweight]
    · intro v
      simp [WeightedGraph.delayAt, hvertices, WeightedGraph.reweight, rankVertex, Function.comp_def]
    · rw [hedges, WeightedGraph.reweight, Array.map_map]
      rfl
    · intro e
      exact ⟨rfl, rfl, rfl⟩
  · intro e he hpos
    rw [hedges] at he
    obtain ⟨e', he', rfl⟩ := Array.mem_map.mp he
    simpa [rankEdge] using length_le_of_rebuild hr (Array.mem_toList_iff.mpr he') hpos

end Module

/-! ### Goals -/

/-- What a goal asks of the clock period. -/
def RetimingGoal.MetBy (goal : RetimingGoal) (initial reached : Int) : Prop :=
  match goal with
  | .minimize => reached ≤ initial
  | .period target => reached ≤ target

namespace Circuit

variable {ν ε : Type}

/-- Legal lags lead to a clock period that meets the goal. It is the least one if this is the goal and
no path delay overflows, and then nothing is moved where the least period is reached already. -/
structure Achieves (c : Circuit ν ε) (goal : RetimingGoal) (initial : Int) (lags : Array Int)
    (t : Int) : Prop where
  size : lags.size = c.graph.order
  legal : c.isLegal lags = true
  period : c.periodUnder .word lags = .ok t
  met : goal.MetBy initial t
  least : goal = .minimize → c.FitsIn .word → ∀ ρ s, c.Meets s ρ → t ≤ s
  still : goal = .minimize → c.FitsIn .word → c.IsLeastPeriod initial → lags = c.noLags

lemma Achieves.meets {c : Circuit ν ε} {goal : RetimingGoal} {initial t : Int} {lags : Array Int}
    (h : c.Achieves goal initial lags t) (hfit : c.FitsIn .word) : c.Meets t lags :=
  ⟨h.size, h.legal, t, hfit.periodUnder_eq lags ▸ h.period, le_rfl⟩

/-- Minimizing fails only if the delay of a path overflows. -/
lemma minimizePeriod_cases (c : Circuit ν ε) {initial : Int}
    (hinitial : c.period .word = .ok initial) :
    (∃ c' lags t, c.minimizePeriod .word = .ok ⟨c', lags, initial, t⟩ ∧ c.retime lags = .ok c' ∧
      c.Achieves .minimize initial lags t) ∨
    ¬c.FitsIn .word ∧ ∃ cause, c.minimizePeriod .word = .error (.internal cause) := by
  by_cases hfit : c.FitsIn .word
  · have hexact : c.period .exact = .ok initial := hfit.period_eq.symm.trans hinitial
    obtain ⟨c', lags, t, hmin, hretime, hmeets, hperiod, hleast, hstill⟩ :=
      hfit.exists_minimized hexact
    refine .inl ⟨c', lags, t, hmin, hretime, hmeets.size, hmeets.legal,
      (hfit.periodUnder_eq lags).trans hperiod, hleast _ _ (meets_noLags hexact),
      fun _ _ => hleast, ?_⟩
    intro _ _ hinitially
    exact hstill ((meets_noLags hexact).mono (hinitially.least lags t hmeets))
  · obtain ⟨initial', hinitial', hempty | ⟨-, hfound | ⟨herror, -⟩⟩⟩ :=
      c.minimizePeriod_outcomes .word
    · refine absurd ?_ hfit
      have h0 := order_eq_zero_of_possiblePeriods hempty.1
      intro u p v hp
      have := hp.isWalk.source_lt
      omega
    · obtain ⟨best, lags, c', t, hlags, hretime, ht, hle, hmin, -⟩ := hfound
      rw [hinitial] at hinitial'
      cases hinitial'
      obtain ⟨result, hresult, hspec⟩ := c.exists_retimeFor .word best
      rw [hlags] at hresult
      cases hresult
      obtain ⟨hsize, hlegal, -⟩ := hspec lags rfl
      obtain ⟨-, hgraph⟩ := graph_of_retime hretime
      refine .inl ⟨c', lags, t, hmin, hretime, hsize, hlegal, ?_, hle, fun _ h => absurd h hfit,
        fun _ h => absurd h hfit⟩
      rw [← ht, periodUnder, period, delays_of_reweight hgraph]
    · exact .inr ⟨hfit, _, herror⟩

end Circuit

/-- Retiming a circuit achieves the goal, or the goal is a target that cannot be met, or the delay of
a path overflows on the way to the least period. -/
lemma ModuleCircuit.retimeTo_cases (c : ModuleCircuit) (goal : RetimingGoal) (name : String)
    {initial : Int} (hinitial : c.period .word = .ok initial) :
    (∃ c' lags t, ModuleCircuit.retimeTo c goal name initial = .ok (c', t) ∧
      c.retime lags = .ok c' ∧ c.Achieves goal initial lags t) ∨
    (∃ target, goal = .period target ∧ ModuleCircuit.retimeTo c goal name initial =
      .error (.targetUnreachable name target initial)) ∨
    goal = .minimize ∧ ¬c.FitsIn .word ∧
      ∃ cause, ModuleCircuit.retimeTo c goal name initial = .error (.internal cause) := by
  cases goal with
  | minimize =>
    unfold ModuleCircuit.retimeTo
    rcases c.minimizePeriod_cases hinitial with
      ⟨c', lags, t, hmin, hretime, hachieves⟩ | ⟨hfit, cause, hmin⟩
    · refine .inl ⟨c', lags, t, ?_, hretime, hachieves⟩
      rw [hmin]
      rfl
    · refine .inr (.inr ⟨rfl, hfit, cause, ?_⟩)
      rw [hmin]
      rfl
  | period target =>
    obtain ⟨result, hresult, hspec⟩ := c.exists_retimeFor .word target
    unfold ModuleCircuit.retimeTo
    cases result with
    | some lags =>
      obtain ⟨hsize, hlegal, t, ht, hle⟩ := hspec lags rfl
      obtain ⟨c', hretime, -⟩ := Circuit.retime_spec hlegal
      refine .inl ⟨c', lags, t, ?_, hretime, hsize, hlegal, ht, hle, by rintro ⟨⟩, by rintro ⟨⟩⟩
      simp only [hresult, ht, hretime, Except.mapError, bind, Except.bind]
      rfl
    | none =>
      refine .inr (.inl ⟨target, rfl, ?_⟩)
      simp only [hresult, Except.mapError, bind, Except.bind]
      rfl

namespace Module

variable {m r : Module} {delay : Node → Int}

/-! ### Clock periods of modules -/

/-- The module has a circuit, with this clock period. -/
def HasPeriod (m : Module) (delay : Node → Int) (t : Int) : Prop :=
  ∃ c, (∀ name, m.circuit? delay name = .ok (some c)) ∧ c.period .word = .ok t

/-- The clock period of the module cannot be made less by retiming, and its registers can be put
back where they are. -/
def HasLeastPeriod (m : Module) (delay : Node → Int) (t : Int) : Prop :=
  ∃ c, (∀ name, m.circuit? delay name = .ok (some c)) ∧ c.IsLeastPeriod t ∧ BundlesFit c

/-- The delay of no path of the module overflows. -/
def DelaysFit (m : Module) (delay : Node → Int) : Prop :=
  ∀ name c, m.circuit? delay name = .ok (some c) → c.FitsIn .word

/-- What retiming a module to a goal gives. -/
structure IsRetimed (m : Module) (id : Nat) (delay : Node → Int) (goal : RetimingGoal) (r : Module)
    (report : RetimingReport) : Prop where
  module : report.module = id
  name : report.name = m.invocation.moduleName
  head : m.SameHead r
  nodes : m.KeepsNodes r
  retimable : r.Retimable
  delays : m.DelaysFit delay → r.DelaysFit delay
  initial : ∃ c lags, (∀ name, m.circuit? delay name = .ok (some c)) ∧
    c.period .word = .ok report.initialPeriod ∧ (c.FitsIn .word → c.Meets report.period lags)
  period : r.HasPeriod delay report.period
  met : goal.MetBy report.initialPeriod report.period
  least : goal = .minimize → m.DelaysFit delay → r.HasLeastPeriod delay report.period

/-- Why a module is not retimed to a goal. -/
inductive Refuses (m : Module) (delay : Node → Int) (goal : RetimingGoal) : RetimeError → Prop where
  | loop (nodes : Nat) :
    Refuses m delay goal (.graph m.invocation.moduleName (.combinationalLoop nodes))
  | unreachable (target period : Int) (hgoal : goal = .period target) :
    Refuses m delay goal (.targetUnreachable m.invocation.moduleName target period)
  | wide (cause : String) (hsize : Shape.maxWidth < m.connections.size) :
    Refuses m delay goal (.internal cause)
  | overflow (cause : String) (hgoal : goal = .minimize) (hdelays : ¬m.DelaysFit delay) :
    Refuses m delay goal (.internal cause)

/-- A module with the least clock period is only retimed to this period. -/
lemma IsRetimed.periods_eq {id : Nat} {report : RetimingReport} {t : Int}
    (h : m.IsRetimed id delay .minimize r report) (hfit : m.DelaysFit delay)
    (hleast : m.HasLeastPeriod delay t) :
    report.initialPeriod = t ∧ report.period = t := by
  obtain ⟨c, lags, hc, hinitial, hmeets⟩ := h.initial
  obtain ⟨c₁, hc₁, hperiod, -⟩ := hleast
  have hsame := (hc "").symm.trans (hc₁ "")
  cases hsame
  have hcfit := hfit "" c (hc "")
  have ht := hperiod.period
  rw [← hcfit.period_eq, hinitial] at ht
  cases ht
  exact ⟨rfl, le_antisymm h.met (hperiod.least lags _ (hmeets hcfit))⟩

/-! ### Retiming of a module -/

section

variable {id : Nat} {goal : RetimingGoal}

/-- The steps of retiming a module that has registers and a circuit. -/
lemma retime?_of_circuit (hreg : m.hasRegisters = true) {c : ModuleCircuit} {initial : Int}
    (hc : m.circuit? delay m.invocation.moduleName = .ok (some c))
    (hinitial : c.period .word = .ok initial) :
    m.retime? id delay goal = do
      let state ← ModuleCircuit.retimeTo c goal m.invocation.moduleName initial
      return some (← m.rebuild state.1, ⟨id, m.invocation.moduleName, initial, state.2⟩) := by
  unfold retime?
  simp only [hreg, hc, hinitial, Except.mapError, bind, Except.bind]
  rfl

/-- A retiming of the circuit, carried over to the module. -/
lemma Retimable.isRetimed (hm : m.Retimable) {c c' : ModuleCircuit} {initial t : Int}
    {lags : Array Int} (hc : m.circuit? delay m.invocation.moduleName = .ok (some c))
    (hinitial : c.period .word = .ok initial) (hretime : c.retime lags = .ok c')
    (h : c.Achieves goal initial lags t) (hr : m.rebuild c' = .ok r) :
    m.IsRetimed id delay goal r ⟨id, m.invocation.moduleName, initial, t⟩ := by
  obtain ⟨hretimable, hnodes, d, hd, hto, hfits⟩ := hm.of_rebuild hc h.legal hretime hr
  have hfit : m.DelaysFit delay → c.FitsIn .word := fun hdelays => hdelays _ c hc
  refine ⟨rfl, rfl, sameHead_of_rebuild hr, hnodes, hretimable, ?_, ?_, ?_, h.met, ?_⟩
  · intro hdelays name d' hd'
    rw [hd name] at hd'
    cases hd'
    exact hto.fitsIn (hfit hdelays)
  · exact ⟨c, lags, hm.wired.circuit?_of_circuit? hc, hinitial, h.meets⟩
  · exact ⟨d, hd, (hto.period_eq h.size .word).trans h.period⟩
  · intro hgoal hdelays
    have hperiod := (hfit hdelays).periodUnder_eq lags ▸ h.period
    exact ⟨d, hd, hto.isLeastPeriod h.size hperiod (h.least hgoal (hfit hdelays)), hfits⟩

/-- A module with registers and a circuit is retimed, its target is out of reach, it has too many
connections or its delays overflow. -/
lemma Retimable.retime?_of_circuit_cases (hm : m.Retimable) (hreg : m.hasRegisters = true)
    {c : ModuleCircuit} (hc : m.circuit? delay m.invocation.moduleName = .ok (some c)) :
    (∃ r report, m.retime? id delay goal = .ok (some (r, report)) ∧
      m.IsRetimed id delay goal r report) ∨
    ∃ e, m.retime? id delay goal = .error e ∧ m.Refuses delay goal e := by
  obtain ⟨initial, hinitial⟩ := c.exists_periodUnder .word c.noLags
  rw [Circuit.periodUnder_noLags] at hinitial
  rw [retime?_of_circuit hreg hc hinitial]
  rcases ModuleCircuit.retimeTo_cases c goal m.invocation.moduleName hinitial with
    ⟨c', lags, t, hto, hretime, hachieves⟩ | ⟨target, hgoal, hto⟩ | ⟨hgoal, hfit, cause, hto⟩
  · rw [hto]
    cases hr : m.rebuild c' with
    | ok r =>
      refine .inl ⟨r, _, ?_, hm.isRetimed hc hinitial hretime hachieves hr⟩
      simp only [bind, Except.bind, hr]
      rfl
    | error e =>
      obtain ⟨cause, rfl⟩ := isInternal_of_rebuild e hr
      refine .inr ⟨.internal cause, ?_, .wide cause ?_⟩
      · simp only [bind, Except.bind, hr]
      · by_contra hle
        obtain ⟨r, hok⟩ := hm.exists_rebuild hc hachieves.legal hretime (by omega)
        rw [hr] at hok
        cases hok
  · rw [hto]
    exact .inr ⟨_, rfl, .unreachable target initial hgoal⟩
  · rw [hto]
    exact .inr ⟨_, rfl, .overflow cause hgoal fun hdelays => hfit (hdelays _ c hc)⟩

/-- Minimizing succeeds if the retimed circuit can be put back into the module. -/
lemma exists_minimized_of_rebuild (hreg : m.hasRegisters = true) {c : ModuleCircuit} {initial : Int}
    (hc : m.circuit? delay m.invocation.moduleName = .ok (some c)) (hfit : c.FitsIn .word)
    (hinitial : c.period .exact = .ok initial)
    (hrebuild : ∀ lags c' t, c.Achieves .minimize initial lags t → c.retime lags = .ok c' →
      ∃ r, m.rebuild c' = .ok r) (id : Nat) :
    ∃ r report, m.retime? id delay .minimize = .ok (some (r, report)) := by
  have hword : c.period .word = .ok initial := hfit.period_eq.trans hinitial
  rw [retime?_of_circuit hreg hc hword]
  rcases ModuleCircuit.retimeTo_cases c .minimize m.invocation.moduleName hword with
    ⟨c', lags, t, hto, hretime, hachieves⟩ | ⟨target, hgoal, -⟩ | ⟨-, hnot, -⟩
  · obtain ⟨r, hr⟩ := hrebuild lags c' t hachieves hretime
    refine ⟨r, ⟨id, m.invocation.moduleName, initial, t⟩, ?_⟩
    simp only [hto, bind, Except.bind, hr]
    rfl
  · cases hgoal
  · exact absurd hfit hnot

/-- The only fault of a circuit whose delays are not negative is a loop. -/
lemma WellWired.circuit?_cases (hwired : m.WellWired) (hts : m.tracedConnections?.isSome = true)
    (delay : Node → Int) (name : String) :
    (∃ c, m.circuit? delay name = .ok (some c)) ∨
    ∃ e, m.circuit? delay name = .error e ∧ ((∀ n ∈ m.nodes, 0 ≤ delay n) →
      ∃ nodes, e = .graph name (.combinationalLoop nodes)) := by
  obtain ⟨ts, hts⟩ := Option.isSome_iff_exists.mp hts
  obtain ⟨g, hgraph, heq⟩ := hwired.circuit?_eq delay hts
  rw [heq name]
  cases hg : Circuit.ofGraph g with
  | ok c => exact .inl ⟨c, rfl⟩
  | error e =>
    refine .inr ⟨_, rfl, ?_⟩
    intro hdelay
    rcases Circuit.ofGraph_cases (hgraph.delay_nonneg hdelay) hgraph.registers_nonneg with
      ⟨⟨c, hc, -⟩, -⟩ | ⟨⟨nodes, hloop⟩, -⟩
    · rw [hg] at hc
      cases hc
    · rw [hg] at hloop
      cases hloop
      exact ⟨nodes, rfl⟩

/-- Whether a module has registers, all of them with a source. -/
def HasSourcedRegisters (m : Module) : Prop :=
  m.hasRegisters = true ∧ m.tracedConnections?.isSome = true

lemma retime?_eq_none (h : ¬m.HasSourcedRegisters) : m.retime? id delay goal = .ok none := by
  unfold retime?
  cases hreg : m.hasRegisters with
  | false => rfl
  | true =>
    have hts : m.tracedConnections? = none := by simpa [HasSourcedRegisters, hreg] using h
    simp only [circuit?_eq_none hts, bind, Except.bind]
    rfl

lemma Retimable.retime?_cases (hm : m.Retimable) (h : m.HasSourcedRegisters) :
    (∃ r report, m.retime? id delay goal = .ok (some (r, report)) ∧
      m.IsRetimed id delay goal r report) ∨
    ∃ e, m.retime? id delay goal = .error e ∧
      ((∀ n ∈ m.nodes, 0 ≤ delay n) → m.Refuses delay goal e) := by
  rcases hm.wired.circuit?_cases h.2 delay m.invocation.moduleName with ⟨c, hc⟩ | ⟨e, he, hloop⟩
  · rcases hm.retime?_of_circuit_cases h.1 hc with hretimed | ⟨e, he, hrefuses⟩
    · exact .inl hretimed
    · exact .inr ⟨e, he, fun _ => hrefuses⟩
  · refine .inr ⟨e, ?_, ?_⟩
    · unfold retime?
      simp only [h.1, he, bind, Except.bind]
      rfl
    · intro hdelay
      obtain ⟨nodes, rfl⟩ := hloop hdelay
      exact .loop nodes

lemma Retimable.not_sourced (hm : m.Retimable) (h : m.retime? id delay goal = .ok none) :
    ¬m.HasSourcedRegisters := by
  intro hsourced
  rcases hm.retime?_cases hsourced with ⟨r, report, hok, -⟩ | ⟨e, he, -⟩
  · rw [h] at hok
    cases hok
  · rw [h] at he
    cases he

lemma Retimable.isRetimed_of_retime? (hm : m.Retimable) {report : RetimingReport}
    (h : m.retime? id delay goal = .ok (some (r, report))) :
    m.HasSourcedRegisters ∧ m.IsRetimed id delay goal r report := by
  by_cases hsourced : m.HasSourcedRegisters
  · rcases hm.retime?_cases hsourced with ⟨r', report', hok, hretimed⟩ | ⟨e, he, -⟩
    · rw [h] at hok
      cases hok
      exact ⟨hsourced, hretimed⟩
    · rw [h] at he
      cases he
  · rw [retime?_eq_none hsourced] at h
    cases h

end

end Module

end NetlistCompiler
