import NetlistCompiler.Netlist.Retiming
import NetlistCompiler.Proofs.Tracing

/-!
# Chains of registers

Putting a chain of registers behind some wires of a well wired module succeeds. The module only
grows by registers and by connections into them, and every wire at the end of the chain traces to
what its wire at the start traces to, through as many more registers as the chain has.
-/

namespace NetlistCompiler

/-- A register with the ports of its signature. -/
def Node.IsPlainRegister (n : Node) : Prop :=
  ∃ shape, n.kind = .primitive (.register shape) ∧ n.inputs = [.signal "next" shape] ∧
    n.outputs = [.signal "current" shape]

lemma Node.IsPlainRegister.isRegister {n : Node} (h : n.IsPlainRegister) : n.isRegister = true := by
  obtain ⟨shape, hkind, -⟩ := h
  simp [Node.isRegister, hkind, Primitive.isRegister]

namespace Module

variable {m : Module}

lemma reconnect_eq_ok_iff {m' : Module} {d w : Wire} :
    m.reconnect d w = .ok m' ↔ m.connect d w = .ok m' := by
  unfold reconnect
  cases m.connect d w <;> simp

/-- Connections that can be added are made one after the other. -/
lemma foldlM_reconnect {β : Type} {step : Module → β → Except RetimeError Module}
    {link : β → Connection} {xs : List β}
    (hstep : ∀ m, ∀ x ∈ xs, step m x = m.reconnect (link x).driver (link x).driven)
    (hadd : m.Addable [] (xs.map link)) :
    xs.foldlM step m = .ok (m.extend [] (xs.map link)) := by
  refine foldlM_connect ?_ hadd
  intro m m' x hx hconnect
  rw [hstep m x hx, reconnect_eq_ok_iff]
  exact hconnect

lemma isHandshake_of_data {x : Connection} {leaf : Nat} (hslot : x.driven.slot = .data leaf) :
    isHandshake x = false := by
  simp [isHandshake, hslot]

/-- A wire of the larger module carries the data of a wire of the smaller one, `k` registers
later. -/
structure Behind (m m' : Module) (k : Nat) (d o : Wire) : Prop where
  hasWire : m'.hasWire o = true
  produced : o.isProduced = true
  traces : ∀ s n, m.Traces d s n → m'.Traces o s (n + k)

/-- Nodes and connections that put `k` registers between some wires. -/
structure RegisterChain (m : Module) (k : Nat) (drivers : List Wire) (ns : List Node)
    (cs : List Connection) (outs : List Wire) : Prop where
  wired : (m.extend ns cs).WellWired
  length : ns.length = k
  registers : ∀ n ∈ ns, n.IsPlainRegister
  driven : ∀ c ∈ cs, m.nodes.size ≤ c.driven.node ∧ isHandshake c = false
  behind : List.Forall₂ (Behind m (m.extend ns cs) k) drivers outs

lemma registerChain_nil (hwired : m.WellWired) {drivers : List Wire}
    (hdrivers : ∀ d ∈ drivers, m.hasWire d = true ∧ d.isProduced = true) :
    m.RegisterChain 0 drivers [] [] drivers := by
  refine ⟨by simpa using hwired, rfl, by simp, by simp, ?_⟩
  rw [List.forall₂_same]
  intro d hd
  obtain ⟨hwire, hproduced⟩ := hdrivers d hd
  exact ⟨by simpa using hwire, hproduced, by simp⟩

lemma RegisterChain.append {a b : Nat} {drivers mid outs : List Wire} {ns ns' : List Node}
    {cs cs' : List Connection} (h : m.RegisterChain a drivers ns cs mid)
    (h' : (m.extend ns cs).RegisterChain b mid ns' cs' outs) :
    m.RegisterChain (a + b) drivers (ns ++ ns') (cs ++ cs') outs := by
  have hext : (m.extend ns cs).extend ns' cs' = m.extend (ns ++ ns') (cs ++ cs') :=
    extend_extend ns ns' cs cs'
  refine ⟨hext ▸ h'.wired, ?_, ?_, ?_, ?_⟩
  · rw [List.length_append, h.length, h'.length]
  · intro n hn
    rcases List.mem_append.mp hn with hn | hn
    · exact h.registers n hn
    · exact h'.registers n hn
  · intro c hc
    rcases List.mem_append.mp hc with hc | hc
    · exact h.driven c hc
    · obtain ⟨hle, hdata⟩ := h'.driven c hc
      rw [size_extend] at hle
      exact ⟨by omega, hdata⟩
  · apply forall₂_comp _ h.behind h'.behind
    intro d x o hdx hxo
    rw [hext] at hxo
    refine ⟨hxo.hasWire, hxo.produced, ?_⟩
    intro s n hs
    rw [← Nat.add_assoc]
    exact hxo.traces s _ (hdx.traces s n hs)

/-! ### One register -/

/-- The register that retiming puts in. -/
def insertedRegister (number width : Nat) : Node :=
  ⟨insertedName number, .primitive (.register (.bus width)),
    (Primitive.register (.bus width)).signature.inputs,
    (Primitive.register (.bus width)).signature.outputs⟩

/-- The connections into a register. -/
def inputLinks (id : Nat) (drivers : List Wire) : List Connection :=
  drivers.zipIdx.map fun (driver, leaf) => ⟨driver, ⟨id, .input, 0, .data leaf⟩⟩

lemma hasWire_insertedRegister {number width leaf : Nat} (side : Side) (hleaf : leaf < width)
    (hwidth : width ≤ Shape.maxWidth) (cs : List Connection) :
    (m.extend [insertedRegister number width] cs).hasWire
      ⟨m.nodes.size, side, 0, .data leaf⟩ = true := by
  have hbus : leaf < (Shape.bus width).width := by
    simp [Shape.width, Shape.bus, Shape.wireCount]
    omega
  unfold hasWire port? portsOf
  rw [getElem?_extend_of_le le_rfl]
  cases side <;> simpa [insertedRegister, Node.ports, Primitive.signature, Port.signal] using hbus

lemma mem_inputLinks {id : Nat} {drivers : List Wire} {c : Connection} :
    c ∈ inputLinks id drivers ↔
      ∃ leaf, drivers[leaf]? = some c.driver ∧ c.driven = ⟨id, .input, 0, .data leaf⟩ := by
  unfold inputLinks
  constructor
  · intro hc
    obtain ⟨⟨d, leaf⟩, hmem, rfl⟩ := List.mem_map.mp hc
    exact ⟨leaf, List.mem_zipIdx_iff_getElem?.mp hmem, rfl⟩
  · rintro ⟨leaf, hget, hdriven⟩
    refine List.mem_map.mpr ⟨(c.driver, leaf), List.mem_zipIdx_iff_getElem?.mpr hget, ?_⟩
    simp [← hdriven]

lemma inputLinks_single (id : Nat) (drivers : List Wire) :
    (inputLinks id drivers).Pairwise fun a b => a.driven ≠ b.driven := by
  have hleaves : (drivers.zipIdx.map Prod.snd).Nodup := by
    rw [List.zipIdx_map_snd]
    exact List.nodup_range'
  rw [inputLinks, List.pairwise_map]
  apply (List.pairwise_map.mp hleaves).imp
  intro a b hab heq
  simp only [Wire.mk.injEq, Slot.data.injEq] at heq
  exact hab heq.2.2.2

lemma addable_inputLinks (hwired : m.WellWired) (number : Nat) {drivers : List Wire}
    (hdrivers : ∀ d ∈ drivers, m.hasWire d = true ∧ d.isProduced = true)
    (hfits : drivers.length ≤ Shape.maxWidth) :
    m.Addable [insertedRegister number drivers.length] (inputLinks m.nodes.size drivers) := by
  refine ⟨?_, ?_, ?_, ?_, inputLinks_single _ _, ?_⟩
  · intro c hc
    obtain ⟨leaf, hget, -⟩ := mem_inputLinks.mp hc
    exact hasWire_extend (hdrivers _ (List.mem_of_getElem? hget)).1
  · intro c hc
    obtain ⟨leaf, hget, hdriven⟩ := mem_inputLinks.mp hc
    rw [hdriven]
    exact hasWire_insertedRegister .input (List.getElem?_eq_some_iff.mp hget).1 hfits []
  · intro c hc
    obtain ⟨leaf, hget, -⟩ := mem_inputLinks.mp hc
    exact (hdrivers _ (List.mem_of_getElem? hget)).2
  · intro c hc
    obtain ⟨leaf, -, hdriven⟩ := mem_inputLinks.mp hc
    rw [hdriven]
    rfl
  · intro c hc a ha heq
    -- the register is new, so no connection leads to it yet
    obtain ⟨leaf, -, hdriven⟩ := mem_inputLinks.mp hc
    have hlt := node_lt_of_hasWire (hwired.hasDriven a ha)
    rw [heq, hdriven] at hlt
    exact lt_irrefl _ hlt

/-- The wires on the other side of a register. -/
def outputWires (id width : Nat) : List Wire :=
  (List.range width).map fun leaf => ⟨id, .output, 0, .data leaf⟩

lemma addRegister_eq_ok (hwired : m.WellWired) (number : Nat) {drivers : List Wire}
    (hdrivers : ∀ d ∈ drivers, m.hasWire d = true ∧ d.isProduced = true)
    (hfits : drivers.length ≤ Shape.maxWidth) :
    m.addRegister number drivers =
      .ok (m.extend [insertedRegister number drivers.length] (inputLinks m.nodes.size drivers),
        outputWires m.nodes.size drivers.length) := by
  have hadd := addable_inputLinks hwired number hdrivers hfits
  have hadd' : (m.extend [insertedRegister number drivers.length] []).Addable []
      (inputLinks m.nodes.size drivers) := by
    refine ⟨?_, ?_, hadd.produced, hadd.consumed, hadd.single, ?_⟩
    · simpa using hadd.hasDriver
    · simpa using hadd.hasDriven
    · intro c hc a ha
      exact hadd.fresh c hc a (by simpa [extend] using ha)
  unfold addRegister
  dsimp only
  rw [addNode_eq_extend]
  change drivers.zipIdx.foldlM _ (m.extend [insertedRegister number drivers.length] []) >>= _ = _
  unfold inputLinks at hadd'
  rw [foldlM_reconnect (fun _ _ _ => rfl) hadd', extend_extend]
  rfl

lemma registerChain_single (hwired : m.WellWired) (number : Nat) {drivers : List Wire}
    (hdrivers : ∀ d ∈ drivers, m.hasWire d = true ∧ d.isProduced = true)
    (hfits : drivers.length ≤ Shape.maxWidth) :
    m.RegisterChain 1 drivers [insertedRegister number drivers.length]
      (inputLinks m.nodes.size drivers) (outputWires m.nodes.size drivers.length) := by
  have hwired' := hwired.extend (addable_inputLinks hwired number hdrivers hfits)
  refine ⟨hwired', rfl, ?_, ?_, ?_⟩
  · intro n hn
    obtain rfl := List.mem_singleton.mp hn
    exact ⟨_, rfl, rfl, rfl⟩
  · intro c hc
    obtain ⟨leaf, -, hdriven⟩ := mem_inputLinks.mp hc
    refine ⟨?_, isHandshake_of_data (by rw [hdriven])⟩
    rw [hdriven]
  · rw [List.forall₂_iff_get]
    refine ⟨by simp [outputWires], ?_⟩
    intro leaf h₁ h₂
    have hout : (outputWires m.nodes.size drivers.length).get ⟨leaf, h₂⟩ =
        ⟨m.nodes.size, .output, 0, .data leaf⟩ := by simp [outputWires]
    rw [hout]
    refine ⟨hasWire_insertedRegister .output h₁ hfits _, rfl, ?_⟩
    intro s n hs
    have hdriver : (m.extend [insertedRegister number drivers.length]
        (inputLinks m.nodes.size drivers)).driver? ⟨m.nodes.size, .input, 0, .data leaf⟩ =
        some (drivers.get ⟨leaf, h₁⟩) := by
      rw [hwired'.driver?_eq_some_iff, mem_extend]
      right
      exact mem_inputLinks.mpr ⟨leaf, by simp [List.getElem?_eq_getElem h₁], rfl⟩
    refine .step ?_ rfl hdriver ?_
    · unfold isRegister
      rw [getElem?_extend_of_le le_rfl, Nat.sub_self]
      rfl
    · apply hs.extend hwired hwired'
      exact node_lt_of_hasWire (hdrivers _ (List.get_mem _ _)).1

/-! ### The whole chain -/

lemma RegisterChain.outs_spec {k : Nat} {drivers outs : List Wire} {ns : List Node}
    {cs : List Connection} (h : m.RegisterChain k drivers ns cs outs) :
    outs.length = drivers.length ∧
      ∀ o ∈ outs, (m.extend ns cs).hasWire o = true ∧ o.isProduced = true := by
  refine ⟨h.behind.length_eq.symm, ?_⟩
  intro o ho
  obtain ⟨d, -, hbehind⟩ := exists_mem_of_forall₂ h.behind ho
  exact ⟨hbehind.hasWire, hbehind.produced⟩

lemma RegisterChain.isRegister_driven {k : Nat} {drivers outs : List Wire} {ns : List Node}
    {cs : List Connection} (h : m.RegisterChain k drivers ns cs outs) {c : Connection}
    (hc : c ∈ cs) (cs' : List Connection) :
    (m.extend ns cs').isRegister c.driven.node = true := by
  have hle := (h.driven c hc).1
  have hlt := node_lt_of_hasWire (h.wired.hasDriven c (mem_extend.mpr (.inr hc)))
  rw [size_extend] at hlt
  unfold isRegister
  rw [getElem?_extend_of_le hle, List.getElem?_eq_getElem (by omega)]
  exact (h.registers _ (List.getElem_mem _)).isRegister

theorem addRegisters_spec (hwired : m.WellWired) (number count : Nat) {drivers : List Wire}
    (hdrivers : ∀ d ∈ drivers, m.hasWire d = true ∧ d.isProduced = true)
    (hfits : 0 < count → drivers.length ≤ Shape.maxWidth) :
    ∃ ns cs outs, addRegisters number count (m, drivers) = .ok (m.extend ns cs, outs) ∧
      m.RegisterChain count drivers ns cs outs := by
  induction count generalizing m number drivers with
  | zero =>
    refine ⟨[], [], drivers, ?_, registerChain_nil hwired hdrivers⟩
    rw [extend_nil]
    rfl
  | succ count ih =>
    have hfits := hfits (Nat.succ_pos count)
    have hsingle := registerChain_single hwired number hdrivers hfits
    obtain ⟨hlength, houts⟩ := hsingle.outs_spec
    obtain ⟨ns, cs, outs, hrest, hchain⟩ := ih hsingle.wired (number + 1) houts
      (fun _ => hlength.le.trans hfits)
    refine ⟨_, _, outs, ?_, Nat.add_comm count 1 ▸ hsingle.append hchain⟩
    rw [addRegisters, addRegister_eq_ok hwired number hdrivers hfits, ← extend_extend]
    exact hrest

/-! ### Widths -/

lemma leaf_lt_of_hasWire {w : Wire} {leaf : Nat} (hw : m.hasWire w = true)
    (hslot : w.slot = .data leaf) : leaf < Shape.maxWidth := by
  unfold hasWire at hw
  cases hport : m.port? w with
  | none => simp [hport] at hw
  | some p =>
    have hlt : leaf < p.shape.width := by simpa [hport, hslot] using hw
    exact hlt.trans_le (Nat.min_le_right _ _)

/-- A register is put in only behind wires that fit in a port. -/
lemma length_le_of_addRegister {number : Nat} {drivers : List Wire} {state : Module × List Wire}
    (h : m.addRegister number drivers = .ok state) : drivers.length ≤ Shape.maxWidth := by
  by_contra hlt
  obtain ⟨d, hd⟩ : ∃ d, drivers[drivers.length - 1]? = some d :=
    ⟨_, List.getElem?_eq_getElem (by omega)⟩
  unfold addRegister at h
  simp only [bind, Except.bind] at h
  split at h
  · cases h
  · next m' hfold =>
    have hlast : (d, drivers.length - 1) ∈ drivers.zipIdx :=
      List.mem_zipIdx_iff_getElem?.mpr hd
    obtain ⟨m₁, m₂, hstep⟩ := exists_step_of_foldlM hfold hlast
    obtain ⟨-, -, hw, -⟩ := of_connect_eq_ok (reconnect_eq_ok_iff.mp hstep)
    have hleaf := leaf_lt_of_hasWire hw rfl
    omega

end Module

end NetlistCompiler
