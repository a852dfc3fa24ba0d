import NetlistCompiler.Netlist.Circuit
import NetlistCompiler.Proofs.Wiring

/-!
# Tracing wires through registers

A wire traces to another one if the data on it comes from there through a number of registers.
Following a wire back finds exactly this, as long as there are not more registers than the limit
allows, and what a wire traces to stays when a module grows.
-/

namespace NetlistCompiler

namespace Module

/-- The data on a wire comes from another wire through a number of registers, and that wire belongs
to no register. -/
inductive Traces (m : Module) : Wire → Wire → Nat → Prop where
  | here {w : Wire} (hnode : m.isRegister w.node = false) : m.Traces w w 0
  | step {w driver source : Wire} {n leaf : Nat} (hnode : m.isRegister w.node = true)
      (hslot : w.slot = .data leaf)
      (hdriver : m.driver? ⟨w.node, .input, 0, .data leaf⟩ = some driver)
      (hsource : m.Traces driver source n) : m.Traces w source (n + 1)

variable {m : Module}

lemma Traces.isRegister_source {w s : Wire} {n : Nat} (h : m.Traces w s n) :
    m.isRegister s.node = false := by
  induction h with
  | here hnode => exact hnode
  | step _ _ _ _ ih => exact ih

lemma Traces.wire_source {w s : Wire} {n : Nat} (h : m.Traces w s n) (hwired : m.WellWired)
    (hw : m.hasWire w = true) (hp : w.isProduced = true) :
    m.hasWire s = true ∧ s.isProduced = true := by
  induction h with
  | here => exact ⟨hw, hp⟩
  | step _ _ hdriver _ ih =>
    have hmem := hwired.driver?_eq_some_iff.mp hdriver
    exact ih (hwired.hasDriver _ hmem) (hwired.produced _ hmem)

lemma Traces.unique {w s s' : Wire} {n n' : Nat} (h : m.Traces w s n) (h' : m.Traces w s' n') :
    s = s' ∧ n = n' := by
  induction h generalizing s' n' with
  | here hnode =>
    cases h' with
    | here => exact ⟨rfl, rfl⟩
    | step hnode' => rw [hnode] at hnode'; cases hnode'
  | step hnode hslot hdriver _ ih =>
    cases h' with
    | here hnode' => rw [hnode] at hnode'; cases hnode'
    | step _ hslot' hdriver' hsource' =>
      rw [hslot] at hslot'
      cases hslot'
      rw [hdriver] at hdriver'
      cases hdriver'
      obtain ⟨hs, hn⟩ := ih hsource'
      exact ⟨hs, congrArg (· + 1) hn⟩

/-- A wire of a register traces to what the input of the register traces to. -/
lemma traces_register_iff {w source : Wire} {leaf k : Nat} (hnode : m.isRegister w.node = true)
    (hslot : w.slot = .data leaf) :
    m.Traces w source k ↔ ∃ driver n, m.driver? ⟨w.node, .input, 0, .data leaf⟩ = some driver ∧
      m.Traces driver source n ∧ k = n + 1 := by
  constructor
  · intro h
    cases h with
    | here hnode' => rw [hnode] at hnode'; cases hnode'
    | @step w driver source n leaf' _ hslot' hdriver hsource =>
      rw [hslot] at hslot'
      cases hslot'
      exact ⟨driver, n, hdriver, hsource, rfl⟩
  · rintro ⟨driver, n, hdriver, hsource, rfl⟩
    exact .step hnode hslot hdriver hsource

lemma traceBack_combinational {w : Wire} (hnode : m.isRegister w.node = false) (limit : Nat) :
    m.traceBack limit w = some (w, 0) := by
  unfold traceBack
  rw [if_neg (by simp [hnode])]

lemma traceBack_register {w : Wire} {leaf : Nat} (hnode : m.isRegister w.node = true)
    (hslot : w.slot = .data leaf) (limit : Nat) :
    m.traceBack (limit + 1) w = (m.driver? ⟨w.node, .input, 0, .data leaf⟩).bind fun driver =>
      (m.traceBack limit driver).map fun (source, n) => (source, n + 1) := by
  obtain ⟨node, side, port, slot⟩ := w
  cases hslot
  conv_lhs => unfold traceBack
  rw [if_pos hnode]
  dsimp only
  cases m.driver? ⟨node, .input, 0, .data leaf⟩ <;> rfl

lemma traceBack_eq_none {w : Wire} (hnode : m.isRegister w.node = true)
    (hslot : ∀ leaf, w.slot ≠ .data leaf) (limit : Nat) : m.traceBack limit w = none := by
  obtain ⟨node, side, port, slot⟩ := w
  cases slot with
  | data leaf => exact absurd rfl (hslot leaf)
  | valid => cases limit <;> simp [traceBack, hnode]
  | ready => cases limit <;> simp [traceBack, hnode]

/-- Following a wire back finds what it traces to, up to the limit. -/
lemma traceBack_eq_some_iff {limit : Nat} {w s : Wire} {n : Nat} :
    m.traceBack limit w = some (s, n) ↔ m.Traces w s n ∧ n ≤ limit := by
  constructor
  · intro h
    induction limit generalizing w s n with
    | zero =>
      cases hnode : m.isRegister w.node with
      | false =>
        rw [traceBack_combinational hnode] at h
        cases h
        exact ⟨.here hnode, le_rfl⟩
      | true => simp [traceBack, hnode] at h
    | succ limit ih =>
      cases hnode : m.isRegister w.node with
      | false =>
        rw [traceBack_combinational hnode] at h
        cases h
        exact ⟨.here hnode, Nat.zero_le _⟩
      | true =>
        by_cases hslot : ∃ leaf, w.slot = .data leaf
        · obtain ⟨leaf, hslot⟩ := hslot
          rw [traceBack_register hnode hslot] at h
          obtain ⟨driver, hdriver, h⟩ := Option.bind_eq_some_iff.mp h
          obtain ⟨⟨s', n'⟩, hback, heq⟩ := Option.map_eq_some_iff.mp h
          cases heq
          obtain ⟨hsource, hn⟩ := ih hback
          exact ⟨.step hnode hslot hdriver hsource, Nat.succ_le_succ hn⟩
        · rw [traceBack_eq_none hnode (not_exists.mp hslot)] at h
          cases h
  · rintro ⟨h, hn⟩
    induction h generalizing limit with
    | here hnode => exact traceBack_combinational hnode limit
    | step hnode hslot hdriver _ ih =>
      obtain ⟨limit, rfl⟩ := Nat.exists_eq_add_of_le' (Nat.one_le_of_lt hn)
      rw [traceBack_register hnode hslot, hdriver, Option.bind_some, ih (Nat.le_of_succ_le_succ hn)]
      rfl

/-- In a module that grows, wires that are there trace to what they did before. -/
lemma Traces.extend {ns : List Node} {cs : List Connection} {w s : Wire} {n : Nat}
    (h : m.Traces w s n) (hwired : m.WellWired) (hwired' : (m.extend ns cs).WellWired)
    (hw : w.node < m.nodes.size) : (m.extend ns cs).Traces w s n := by
  induction h with
  | here hnode => exact .here (by rw [isRegister_extend hw, hnode])
  | step hnode hslot hdriver _ ih =>
    have hmem := hwired.driver?_eq_some_iff.mp hdriver
    refine .step (by rw [isRegister_extend hw, hnode]) hslot ?_
      (ih (node_lt_of_hasWire (hwired.hasDriver _ hmem)))
    exact hwired'.driver?_eq_some_iff.mpr (mem_extend.mpr (.inl hmem))

/-- A connection followed back through at most as many registers as the limit allows. -/
structure TracesTo (m : Module) (c : Connection) (t : TracedConnection) : Prop where
  driven : t.connection.driven = c.driven
  traces : m.Traces c.driver t.connection.driver t.registers
  within : t.registers ≤ m.nodes.size + 1

lemma traced?_eq_some_iff {c : Connection} {t : TracedConnection} :
    m.traced? c = some t ↔ m.TracesTo c t := by
  unfold traced?
  constructor
  · intro h
    obtain ⟨⟨s, n⟩, hback, rfl⟩ := Option.map_eq_some_iff.mp h
    obtain ⟨htraces, hn⟩ := traceBack_eq_some_iff.mp hback
    exact ⟨rfl, htraces, hn⟩
  · rintro ⟨hdriven, htraces, hn⟩
    rw [traceBack_eq_some_iff.mpr ⟨htraces, hn⟩]
    obtain ⟨⟨driver, driven⟩, registers⟩ := t
    cases hdriven
    rfl

lemma tracedConnections?_eq_some_iff {ts : List TracedConnection} :
    m.tracedConnections? = some ts ↔
      List.Forall₂ m.TracesTo (m.connections.toList.filter m.isDataPath) ts := by
  unfold tracedConnections?
  rw [mapM_eq_some_iff]
  constructor
  · exact List.Forall₂.imp fun c t h => traced?_eq_some_iff.mp h
  · exact List.Forall₂.imp fun c t h => traced?_eq_some_iff.mpr h

end Module

end NetlistCompiler
