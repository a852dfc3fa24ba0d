import NetlistCompiler.Proofs.Extraction
import NetlistCompiler.Proofs.RegisterChains

/-!
# The behaviour of modules

Over integer time, a node that is no register is any time-invariant function from the signals on
its input wires to those on its output wires, a register delays every wire by one step, and inputs
of the module are free. A solution gives every wire a signal. On the wires of nodes that are no
registers, the solutions are those of the traced connections: a wire carries what it is traced to,
one step later for every register.
-/

namespace NetlistCompiler

universe u

variable {α : Type u}

/-- A value at every point of integer time. -/
abbrev Signal (α : Type u) :=
  Int → α

namespace Signal

def delay (x : Signal α) (d : Int) : Signal α :=
  fun t => x (t - d)

@[simp] lemma delay_zero (x : Signal α) : x.delay 0 = x := by
  funext t
  simp [delay]

@[simp] lemma delay_delay (x : Signal α) (a b : Int) : (x.delay a).delay b = x.delay (a + b) := by
  funext t
  simp only [delay]
  congr 1
  omega

lemma delay_inj {x y : Signal α} {d : Int} (h : x.delay d = y.delay d) : x = y := by
  funext t
  have ht := congrFun h (t + d)
  simpa [delay] using ht

end Signal

/-- A data wire of some ports. -/
structure Leaf (ports : List Port) where
  port : Nat
  number : Nat
  inPort : ∃ p, ports[port]? = some p ∧ number < p.shape.width

def Leaf.wire {ports : List Port} (l : Leaf ports) (node : Nat) (side : Side) : Wire :=
  ⟨node, side, l.port, .data l.number⟩

/-- What nodes compute that are no registers, and what wires carry that nothing drives. -/
structure Interpretation (α : Type u) where
  apply : Nat → (n : Node) → (Leaf n.inputs → Signal α) → Leaf n.outputs → Signal α
  constant : Wire → α
  apply_delay : ∀ id n x d, apply id n (fun l => (x l).delay d) = fun l => (apply id n x l).delay d

namespace Module

variable {m : Module}

/-- A data wire of a node that is no register. -/
def IsCombinationalWire (m : Module) (w : Wire) : Prop :=
  m.hasWire w = true ∧ (∃ leaf, w.slot = .data leaf) ∧ m.isRegister w.node = false

abbrev CombinationalWire (m : Module) : Type :=
  { w : Wire // m.IsCombinationalWire w }

/-- Signals on all wires that obey the connections, the nodes and the registers of a module. -/
structure Solves (m : Module) (I : Interpretation α) (s : Wire → Signal α) : Prop where
  connected : ∀ x ∈ m.connections, isHandshake x = false → s x.driven = s x.driver
  computed : ∀ id n, m.nodes[id]? = some n → n.isRegister = false → n.kind ≠ .input →
    ∀ l : Leaf n.outputs, s (l.wire id .output) = I.apply id n (fun k => s (k.wire id .input)) l
  undriven : ∀ w, m.IsCombinationalWire w → w.side = .input → m.driver? w = none →
    s w = fun _ => I.constant w
  delayed : ∀ id n, m.nodes[id]? = some n → n.isRegister = true →
    ∀ l : Leaf n.outputs, s (l.wire id .output) = (s (l.wire id .input)).delay 1

/-- The solutions of a module, restricted to the data wires of nodes that are no registers. -/
def solutions (m : Module) (I : Interpretation α) : Set (m.CombinationalWire → Signal α) :=
  { u | ∃ s, m.Solves I s ∧ ∀ w : m.CombinationalWire, u w = s w.1 }

/-- Signals that obey traced connections in place of connections and registers. -/
structure SolvesTraced (m : Module) (I : Interpretation α) (ts : List TracedConnection)
    (s : Wire → Signal α) : Prop where
  linked : ∀ t ∈ ts, s t.connection.driven = (s t.connection.driver).delay t.registers
  computed : ∀ id n, m.nodes[id]? = some n → n.isRegister = false → n.kind ≠ .input →
    ∀ l : Leaf n.outputs, s (l.wire id .output) = I.apply id n (fun k => s (k.wire id .input)) l
  undriven : ∀ w, m.IsCombinationalWire w → w.side = .input →
    (∀ t ∈ ts, t.connection.driven ≠ w) → s w = fun _ => I.constant w

/-- Every register has the ports of its signature. -/
def RegistersHavePorts (m : Module) : Prop :=
  ∀ n ∈ m.nodes, n.isRegister = true → n.IsPlainRegister

/-! ### From connections to traced connections -/

/-- The data wires of a register are all on its first port, and it has each of them on both
sides. -/
lemma RegistersHavePorts.exists_leaf (h : m.RegistersHavePorts) {w : Wire}
    (hw : m.hasWire w = true) (hnode : m.isRegister w.node = true) {leaf : Nat}
    (hslot : w.slot = .data leaf) :
    w.port = 0 ∧ ∃ n, m.nodes[w.node]? = some n ∧ n.isRegister = true ∧
      ∃ l : Leaf n.outputs, l.port = 0 ∧ l.number = leaf := by
  have hlt := node_lt_of_hasWire hw
  have hget : m.nodes[w.node]? = some m.nodes[w.node] := Array.getElem?_eq_getElem hlt
  have hreg : m.nodes[w.node].isRegister = true := by simpa [isRegister, hget] using hnode
  obtain ⟨shape, -, hinputs, houtputs⟩ := h _ (Array.getElem_mem hlt) hreg
  have hports : ∃ name, m.portsOf w.node w.side = [.signal name shape] := by
    rw [portsOf, hget]
    cases w.side with
    | input => exact ⟨"next", hinputs⟩
    | output => exact ⟨"current", houtputs⟩
  obtain ⟨name, hports⟩ := hports
  have hboth : w.port = 0 ∧ leaf < shape.width := by
    unfold hasWire port? at hw
    rw [hports, hslot] at hw
    cases hport : w.port with
    | zero => simpa [hport, Port.signal] using hw
    | succ port => simp [hport] at hw
  refine ⟨hboth.1, _, hget, hreg, ⟨0, leaf, .signal "current" shape, ?_, hboth.2⟩, rfl, rfl⟩
  rw [houtputs]
  rfl

lemma side_eq_output {w : Wire} {leaf : Nat} (hslot : w.slot = .data leaf)
    (hp : w.isProduced = true) : w.side = .output := by
  simpa [Wire.isProduced, hslot] using hp

/-- A wire carries what it is traced to, one step later for every register. -/
lemma Solves.signal_eq {I : Interpretation α} {s : Wire → Signal α} (hs : m.Solves I s)
    (hwired : m.WellWired) (hports : m.RegistersHavePorts) {w source : Wire} {n : Nat}
    (h : m.Traces w source n) (hw : m.hasWire w = true) (hp : w.isProduced = true) :
    s w = (s source).delay n := by
  induction h with
  | here => simp
  | @step w driver source n leaf hnode hslot hdriver _ ih =>
    have hmem := hwired.driver?_eq_some_iff.mp hdriver
    obtain ⟨hport, node, hget, hreg, l, hl, rfl⟩ := hports.exists_leaf hw hnode hslot
    have hout : w = l.wire w.node .output := by
      rw [Leaf.wire, hl, ← hslot, ← hport, ← side_eq_output hslot hp]
    have hin : l.wire w.node .input = ⟨w.node, .input, 0, .data l.number⟩ := by
      rw [Leaf.wire, hl]
    have hconnected := hs.connected _ hmem (isHandshake_of_data rfl)
    calc s w = s (l.wire w.node .output) := by rw [← hout]
      _ = (s ⟨w.node, .input, 0, .data l.number⟩).delay 1 := by
        rw [hs.delayed w.node node hget hreg l, hin]
      _ = (s driver).delay 1 := by rw [hconnected]
      _ = (s source).delay (n + 1 : Nat) := by
        rw [ih (hwired.hasDriver _ hmem) (hwired.produced _ hmem), Signal.delay_delay]
        push_cast
        rfl

theorem Solves.solvesTraced {I : Interpretation α} {s : Wire → Signal α} (hs : m.Solves I s)
    (hwired : m.WellWired) (hports : m.RegistersHavePorts) {ts : List TracedConnection}
    (hts : m.tracedConnections? = some ts) : m.SolvesTraced I ts s := by
  refine ⟨?_, hs.computed, ?_⟩
  · intro t ht
    obtain ⟨x, hx, hpath, hxt⟩ := exists_connection (tracedConnections?_eq_some_iff.mp hts) ht
    obtain ⟨⟨leaf, hleaf⟩, -⟩ := isDataPath_iff.mp hpath
    rw [hxt.driven, hs.connected x hx (isHandshake_of_data hleaf)]
    exact hs.signal_eq hwired hports hxt.traces (hwired.hasDriver x hx) (hwired.produced x hx)
  · intro w hw hside hfree
    apply hs.undriven w hw hside
    rw [driver?_eq_none_iff]
    rintro x hx rfl
    obtain ⟨t, ht, hxt⟩ := exists_traced (tracedConnections?_eq_some_iff.mp hts) hx (isDataPath_iff.mpr hw.2)
    exact hfree t ht hxt.driven

/-! ### From traced connections to connections -/

open Classical in
/-- What a wire carries by what it is traced to. Wires behind registers that nothing drives, or in
a ring of registers, carry a constant. -/
noncomputable def settled (m : Module) (I : Interpretation α) (s : Wire → Signal α) (w : Wire) :
    Signal α :=
  if h : ∃ p : Wire × Nat, m.Traces w p.1 p.2 then (s h.choose.1).delay h.choose.2
  else fun _ => I.constant default

/-- What the driver of a wire carries, a constant if there is none. -/
noncomputable def received (m : Module) (I : Interpretation α) (s : Wire → Signal α) (w : Wire) :
    Signal α :=
  ((m.driver? w).map (m.settled I s)).getD fun _ => I.constant default

/-- Signals on the wires of nodes that are no registers, carried on to those of registers. -/
noncomputable def carried (m : Module) (I : Interpretation α) (s : Wire → Signal α) (w : Wire) :
    Signal α :=
  if m.isRegister w.node = true ∧ w.isProduced = false then m.received I s w
  else m.settled I s w

lemma settled_of_traces {I : Interpretation α} {s : Wire → Signal α} {w source : Wire} {n : Nat}
    (h : m.Traces w source n) : m.settled I s w = (s source).delay n := by
  have hex : ∃ p : Wire × Nat, m.Traces w p.1 p.2 := ⟨(source, n), h⟩
  obtain ⟨hsource, hn⟩ := hex.choose_spec.unique h
  rw [settled, dif_pos hex, hsource, hn]

lemma settled_of_not_traces {I : Interpretation α} {s : Wire → Signal α} {w : Wire}
    (h : ∀ source n, ¬ m.Traces w source n) : m.settled I s w = fun _ => I.constant default := by
  rw [settled, dif_neg]
  rintro ⟨p, hp⟩
  exact h p.1 p.2 hp

lemma carried_of_combinational {I : Interpretation α} {s : Wire → Signal α} {w : Wire}
    (h : m.isRegister w.node = false) : m.carried I s w = s w := by
  rw [carried, if_neg (by simp [h]), settled_of_traces (.here h)]
  simp

lemma carried_of_produced {I : Interpretation α} {s : Wire → Signal α} {w : Wire}
    (h : w.isProduced = true) : m.carried I s w = m.settled I s w := by
  rw [carried, if_neg (by simp [h])]

lemma carried_of_consumed {I : Interpretation α} {s : Wire → Signal α} {w : Wire}
    (hnode : m.isRegister w.node = true) (h : w.isProduced = false) :
    m.carried I s w = m.received I s w := by
  rw [carried, if_pos ⟨hnode, h⟩]

/-- A register delays what its input receives. -/
lemma settled_register {I : Interpretation α} {s : Wire → Signal α} {w : Wire} {leaf : Nat}
    (hnode : m.isRegister w.node = true) (hslot : w.slot = .data leaf) :
    m.settled I s w = (m.received I s ⟨w.node, .input, 0, .data leaf⟩).delay 1 := by
  rw [received]
  cases hdriver : m.driver? ⟨w.node, .input, 0, .data leaf⟩ with
  | none =>
    apply settled_of_not_traces
    intro source k htraces
    obtain ⟨d, n, hd, -⟩ := (traces_register_iff hnode hslot).mp htraces
    rw [hdriver] at hd
    cases hd
  | some d =>
    rw [Option.map_some, Option.getD_some]
    by_cases hd : ∃ source n, m.Traces d source n
    · obtain ⟨source, n, hd⟩ := hd
      rw [settled_of_traces (.step hnode hslot hdriver hd), settled_of_traces hd,
        Signal.delay_delay]
      push_cast
      rfl
    · simp only [not_exists] at hd
      rw [settled_of_not_traces hd]
      apply settled_of_not_traces
      intro source k htraces
      obtain ⟨d', n, hd', hsource, -⟩ := (traces_register_iff hnode hslot).mp htraces
      rw [hdriver] at hd'
      cases hd'
      exact hd source n hsource

theorem SolvesTraced.solves_carried {I : Interpretation α} {s : Wire → Signal α}
    {ts : List TracedConnection} (hs : m.SolvesTraced I ts s) (hwired : m.WellWired)
    (hports : m.RegistersHavePorts) (hts : m.tracedConnections? = some ts) :
    m.Solves I (m.carried I s) := by
  refine ⟨?_, ?_, ?_, ?_⟩
  · intro x hx hdata
    rw [carried_of_produced (hwired.produced x hx)]
    cases hnode : m.isRegister x.driven.node with
    | true =>
      rw [carried_of_consumed hnode (hwired.consumed x hx), received,
        hwired.driver?_eq_some_iff.mpr hx]
      rfl
    | false =>
      have hpath : m.isDataPath x = true := by
        rw [isDataPath_iff]
        refine ⟨?_, hnode⟩
        cases hslot : x.driven.slot with
        | data leaf => exact ⟨leaf, rfl⟩
        | valid => simp [isHandshake, hslot] at hdata
        | ready => simp [isHandshake, hslot] at hdata
      obtain ⟨t, ht, hxt⟩ := exists_traced (tracedConnections?_eq_some_iff.mp hts) hx hpath
      rw [carried_of_combinational hnode, settled_of_traces hxt.traces, ← hs.linked t ht,
        hxt.driven]
  · intro id n hget hnode hkind l
    have hcombinational : m.isRegister id = false := by simp [isRegister, hget, hnode]
    rw [carried_of_combinational hcombinational, hs.computed id n hget hnode hkind l]
    congr 1
    funext k
    rw [carried_of_combinational hcombinational]
  · intro w hw hside hdriver
    rw [carried_of_combinational hw.2.2]
    apply hs.undriven w hw hside
    intro t ht heq
    obtain ⟨x, hx, -, hxt⟩ := exists_connection (tracedConnections?_eq_some_iff.mp hts) ht
    exact driver?_eq_none_iff.mp hdriver x hx (hxt.driven.symm.trans heq)
  · intro id n hget hnode l
    have hregister : m.isRegister id = true := by simp [isRegister, hget, hnode]
    have hport : l.port = 0 := by
      obtain ⟨shape, -, -, houtputs⟩ := hports n (Array.mem_of_getElem? hget) hnode
      have hlength : n.outputs.length = 1 := by simp [houtputs]
      obtain ⟨p, hp, -⟩ := l.inPort
      have hlt := (List.getElem?_eq_some_iff.mp hp).1
      omega
    have hin : l.wire id .input = ⟨id, .input, 0, .data l.number⟩ := by rw [Leaf.wire, hport]
    rw [carried_of_produced rfl, hin, carried_of_consumed hregister rfl]
    exact settled_register hregister rfl

/-! ### The solutions -/

lemma isCombinationalWire_leaf {id : Nat} {n : Node} (hget : m.nodes[id]? = some n)
    (hnode : n.isRegister = false) (side : Side) (l : Leaf (n.ports side)) :
    m.IsCombinationalWire (l.wire id side) := by
  obtain ⟨p, hp, hlt⟩ := l.inPort
  refine ⟨?_, ⟨_, rfl⟩, by simp [Leaf.wire, isRegister, hget, hnode]⟩
  simp [hasWire, port?, portsOf, Leaf.wire, hget, hp, hlt]

/-- Traced connections between data wires of nodes that are no registers. -/
def JoinsCombinational (m : Module) (ts : List TracedConnection) : Prop :=
  ∀ t ∈ ts, m.IsCombinationalWire t.connection.driver ∧ m.IsCombinationalWire t.connection.driven

lemma SolvesTraced.congr {I : Interpretation α} {ts : List TracedConnection}
    (hjoins : m.JoinsCombinational ts) {s s' : Wire → Signal α}
    (heq : ∀ w, m.IsCombinationalWire w → s w = s' w) (hs : m.SolvesTraced I ts s) :
    m.SolvesTraced I ts s' := by
  refine ⟨?_, ?_, ?_⟩
  · intro t ht
    obtain ⟨hdriver, hdriven⟩ := hjoins t ht
    rw [← heq _ hdriver, ← heq _ hdriven]
    exact hs.linked t ht
  · intro id n hget hnode hkind l
    have houtput : s (l.wire id .output) = s' (l.wire id .output) :=
      heq _ (isCombinationalWire_leaf hget hnode .output l)
    rw [← houtput, hs.computed id n hget hnode hkind l]
    congr 1
    funext k
    exact heq _ (isCombinationalWire_leaf hget hnode .input k)
  · intro w hw hside hfree
    rw [← heq w hw]
    exact hs.undriven w hw hside hfree

/-- On the data wires of nodes that are no registers, the solutions of a module are those of its
traced connections. -/
theorem mem_solutions_iff (hwired : m.WellWired) (hports : m.RegistersHavePorts)
    {ts : List TracedConnection} (hts : m.tracedConnections? = some ts)
    (hjoins : m.JoinsCombinational ts) {I : Interpretation α} {s : Wire → Signal α} :
    (fun w : m.CombinationalWire => s w.1) ∈ m.solutions I ↔ m.SolvesTraced I ts s := by
  constructor
  · rintro ⟨s', hs', heq⟩
    apply (hs'.solvesTraced hwired hports hts).congr hjoins
    intro w hw
    exact (heq ⟨w, hw⟩).symm
  · intro hs
    refine ⟨m.carried I s, hs.solves_carried hwired hports hts, ?_⟩
    intro w
    exact (carried_of_combinational w.2.2.2).symm

lemma exists_extension (I : Interpretation α) (u : m.CombinationalWire → Signal α) :
    ∃ s : Wire → Signal α, u = fun w => s w.1 := by
  classical
  refine ⟨fun w => if h : m.IsCombinationalWire w then u ⟨w, h⟩ else fun _ => I.constant w, ?_⟩
  funext w
  simp [w.2]

end Module

end NetlistCompiler
