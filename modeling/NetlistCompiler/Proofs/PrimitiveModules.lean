import NetlistCompiler.Elaboration
import NetlistCompiler.Proofs.Placement

/-!
# Modules of primitives

The module of a primitive holds one node for it, and one for each of its ports. The wires of a port
are connected one by one to those of its node. For alike primitives the modules are the same up to
the order of fields, as long as all wires can be numbered.
-/

namespace NetlistCompiler

lemma exists_getElem?_concat {α : Type} {l : List α} {a : α} {P : Nat → α → Prop} :
    (∃ k x, (l ++ [a])[k]? = some x ∧ P k x) ↔ (∃ k x, l[k]? = some x ∧ P k x) ∨ P l.length a := by
  constructor
  · rintro ⟨k, x, hx, hP⟩
    by_cases hk : k < l.length
    · rw [List.getElem?_append_left hk] at hx
      exact .inl ⟨k, x, hx, hP⟩
    · have hlast := (List.getElem?_eq_some_iff.mp hx).1
      obtain rfl : k = l.length := by
        rw [List.length_append, List.length_singleton] at hlast
        omega
      rw [List.getElem?_concat_length] at hx
      cases hx
      exact .inr hP
  · rintro (⟨k, x, hx, hP⟩ | hP)
    · have hk := (List.getElem?_eq_some_iff.mp hx).1
      exact ⟨k, x, by rw [List.getElem?_append_left hk, hx], hP⟩
    · exact ⟨l.length, a, List.getElem?_concat_length, hP⟩

namespace Module

/-- The connection of a wire of input `k`, whose node comes after the primitive. -/
def inputLink (k leaf : Nat) : Connection :=
  ⟨⟨k + 1, .output, 0, .data leaf⟩, ⟨0, .input, k, .data leaf⟩⟩

/-- The connection of a wire of output `k`, whose node comes after `count` inputs. -/
def outputLink (count k leaf : Nat) : Connection :=
  ⟨⟨0, .output, k, .data leaf⟩, ⟨count + k + 1, .input, 0, .data leaf⟩⟩

/-- The module holds the primitive, and exposes some of its ports. -/
structure Wraps (i : Invocation) (q : Primitive) (ins outs : List Port) (m : Module) : Prop where
  invocation : m.invocation = i
  inputs : m.inputs = q.signature.inputs
  outputs : m.outputs = q.signature.outputs
  nodes : m.nodes.toList =
    ⟨q.op.name, .primitive q, q.signature.inputs, q.signature.outputs⟩ ::
      ((ins.map fun x => ⟨x.name, .input, [], [x]⟩) ++ outs.map fun x => ⟨x.name, .output, [x], []⟩)
  connections : ∀ c, c ∈ m.connections ↔
    (∃ k x, ins[k]? = some x ∧ ∃ leaf < x.shape.width, inputLink k leaf = c) ∨
      ∃ k x, outs[k]? = some x ∧ ∃ leaf < x.shape.width, outputLink ins.length k leaf = c

variable {i i' : Invocation} {q q' : Primitive} {ins outs : List Port} {m m' : Module}

lemma Wraps.primitive (h : m.Wraps i q ins outs) : m.nodes[0]? =
    some ⟨q.op.name, .primitive q, q.signature.inputs, q.signature.outputs⟩ := by
  rw [← Array.getElem?_toList, h.nodes]
  rfl

lemma Wraps.input (h : m.Wraps i q ins outs) {k : Nat} {x : Port} (hx : ins[k]? = some x) :
    m.nodes[k + 1]? = some ⟨x.name, .input, [], [x]⟩ := by
  have hk := (List.getElem?_eq_some_iff.mp hx).1
  rw [← Array.getElem?_toList, h.nodes, List.getElem?_cons_succ,
    List.getElem?_append_left (by simpa using hk), List.getElem?_map, hx]
  rfl

lemma Wraps.output (h : m.Wraps i q ins outs) {k : Nat} {x : Port} (hx : outs[k]? = some x) :
    m.nodes[ins.length + k + 1]? = some ⟨x.name, .output, [x], []⟩ := by
  rw [← Array.getElem?_toList, h.nodes, List.getElem?_cons_succ,
    List.getElem?_append_right (by simp), List.getElem?_map]
  simp [hx]

lemma Wraps.size (h : m.Wraps i q ins outs) : m.nodes.size = ins.length + outs.length + 1 := by
  rw [← Array.length_toList, h.nodes]
  simp

lemma hasWire_data {w : Wire} {x : Port} {leaf : Nat} (hport : m.port? w = some x)
    (hslot : w.slot = .data leaf) (hleaf : leaf < x.shape.width) : m.hasWire w = true := by
  unfold hasWire
  rw [hport, hslot]
  simpa using hleaf

/-- The wires of a port are connected to those of another one, of which none is driven. -/
lemma connectPort_eq_ok {source sink : Wire} {x y : Port} (hsource : m.port? source = some x)
    (hsink : m.port? sink = some y) (hwidth : x.shape.width = y.shape.width)
    (hside : source.side = .output) (hside' : sink.side = .input)
    (hfree : ∀ c ∈ m.connections, ∀ leaf, c.driven ≠ { sink with slot := .data leaf }) :
    m.connectPort source sink x.shape.width = .ok (m.extend []
      ((List.range x.shape.width).map fun leaf =>
        ⟨{ source with slot := .data leaf }, { sink with slot := .data leaf }⟩)) := by
  refine foldlM_connect (fun _ _ _ _ hconnect => hconnect) ?_
  have hall : ∀ P : Connection → Prop,
      (∀ leaf < x.shape.width, P ⟨{ source with slot := .data leaf }, { sink with slot := .data leaf }⟩) →
      ∀ c ∈ (List.range x.shape.width).map fun leaf =>
        Connection.mk { source with slot := .data leaf } { sink with slot := .data leaf }, P c := by
    intro P hP c hc
    obtain ⟨leaf, hleaf, rfl⟩ := List.mem_map.mp hc
    exact hP leaf (List.mem_range.mp hleaf)
  refine ⟨hall _ ?_, hall _ ?_, hall _ ?_, hall _ ?_, ?_, hall _ ?_⟩
  · intro leaf hleaf
    rw [extend_nil]
    exact hasWire_data (w := { source with slot := .data leaf }) hsource rfl hleaf
  · intro leaf hleaf
    rw [extend_nil]
    exact hasWire_data (w := { sink with slot := .data leaf }) hsink rfl (hwidth ▸ hleaf)
  · intro leaf _
    simp [Wire.isProduced, hside]
  · intro leaf _
    simp [Wire.isProduced, hside']
  · rw [List.pairwise_map]
    refine List.nodup_range.imp ?_
    intro leaf leaf' hne heq
    simp only [Wire.mk.injEq, Slot.data.injEq] at heq
    exact hne heq.2.2.2
  · intro leaf _ c hc
    exact hfree c hc leaf

lemma mem_links {width : Nat} {link : Nat → Connection} {c : Connection} :
    c ∈ (List.range width).map link ↔ ∃ leaf < width, link leaf = c := by
  simp

lemma Wraps.exposeInput (h : m.Wraps i q ins []) {x : Port} {rest : List Port}
    (hports : ins ++ x :: rest = q.signature.inputs) :
    ∃ m', m.exposeInput x ins.length = .ok m' ∧ m'.Wraps i q (ins ++ [x]) [] := by
  have hsize : m.nodes.size = ins.length + 1 := h.size
  have hsource : (m.addNode ⟨x.name, .input, [], [x]⟩).port?
      ⟨m.nodes.size, .output, 0, .valid⟩ = some x := by
    simp [port?, portsOf, addNode, Node.ports]
  have hsink : (m.addNode ⟨x.name, .input, [], [x]⟩).port? ⟨0, .input, ins.length, .valid⟩ =
      some x := by
    rw [addNode_eq_extend, port?, portsOf, getElem?_extend_of_lt (show 0 < _ by omega), h.primitive]
    simp [Node.ports, ← hports]
  refine ⟨_, connectPort_eq_ok hsource hsink rfl rfl rfl ?_, h.invocation, h.inputs, h.outputs, ?_, ?_⟩
  · intro c hc leaf heq
    rcases (h.connections c).mp hc with ⟨k, y, hy, leaf', -, rfl⟩ | ⟨k, y, hy, -⟩
    · have hk := (List.getElem?_eq_some_iff.mp hy).1
      simp only [inputLink, Wire.mk.injEq] at heq
      omega
    · cases hy
  · simp [extend, addNode, h.nodes]
  · intro c
    rw [mem_extend, mem_links, exists_getElem?_concat, hsize]
    change c ∈ m.connections ∨ _ ↔ _
    rw [h.connections]
    simp only [List.getElem?_nil, reduceCtorEq, false_and, exists_false, or_false]
    exact Iff.rfl

lemma Wraps.exposeOutput (h : m.Wraps i q q.signature.inputs outs) {x : Port} {rest : List Port}
    (hports : outs ++ x :: rest = q.signature.outputs) :
    ∃ m', m.exposeOutput x outs.length = .ok m' ∧ m'.Wraps i q q.signature.inputs (outs ++ [x]) := by
  have hsize : m.nodes.size = q.signature.inputs.length + outs.length + 1 := h.size
  have hsink : (m.addNode ⟨x.name, .output, [x], []⟩).port?
      ⟨m.nodes.size, .input, 0, .valid⟩ = some x := by
    simp [port?, portsOf, addNode, Node.ports]
  have hsource : (m.addNode ⟨x.name, .output, [x], []⟩).port? ⟨0, .output, outs.length, .valid⟩ =
      some x := by
    rw [addNode_eq_extend, port?, portsOf, getElem?_extend_of_lt (show 0 < _ by omega), h.primitive]
    simp [Node.ports, ← hports]
  refine ⟨_, connectPort_eq_ok hsource hsink rfl rfl rfl ?_, h.invocation, h.inputs, h.outputs, ?_, ?_⟩
  · intro c hc leaf heq
    rcases (h.connections c).mp hc with ⟨k, y, hy, leaf', -, rfl⟩ | ⟨k, y, hy, leaf', -, rfl⟩
    · simp only [inputLink, Wire.mk.injEq] at heq
      omega
    · have hk := (List.getElem?_eq_some_iff.mp hy).1
      simp only [outputLink, Wire.mk.injEq] at heq
      omega
  · simp [extend, addNode, h.nodes]
  · intro c
    rw [mem_extend, mem_links, exists_getElem?_concat, hsize]
    change c ∈ m.connections ∨ _ ↔ _
    rw [h.connections, or_assoc]
    exact Iff.rfl

/-- Ports are exposed one after the other. -/
lemma exists_foldlM_zipIdx {f : Module → Port → Nat → Except ConnectError Module}
    {P : List Port → Module → Prop} {ports : List Port}
    (hstep : ∀ done x rest m, done ++ x :: rest = ports → P done m →
      ∃ m', f m x done.length = .ok m' ∧ P (done ++ [x]) m') (hm : P [] m) :
    ∃ m', ports.zipIdx.foldlM (fun m (x, index) => f m x index) m = .ok m' ∧ P ports m' := by
  suffices h : ∀ rest done m, done ++ rest = ports → P done m → ∃ m',
      (rest.zipIdx done.length).foldlM (fun m (x, index) => f m x index) m = .ok m' ∧ P ports m' from
    h ports [] m rfl hm
  intro rest
  induction rest with
  | nil =>
    rintro done m rfl hdone
    rw [List.append_nil]
    exact ⟨m, rfl, hdone⟩
  | cons x rest ih =>
    intro done m hports hdone
    obtain ⟨m₁, hfirst, hm₁⟩ := hstep done x rest m hports hdone
    obtain ⟨m', hrest, hm'⟩ := ih (done ++ [x]) m₁ (by rw [← hports, List.append_assoc]; rfl) hm₁
    rw [List.length_append, List.length_singleton] at hrest
    refine ⟨m', ?_, hm'⟩
    rw [List.zipIdx_cons, List.foldlM_cons]
    change f m x done.length >>= _ = _
    rw [hfirst]
    exact hrest

/-- The module of a primitive can be built, and exposes all ports. -/
theorem exists_ofPrimitive (i : Invocation) (q : Primitive) :
    ∃ m, ofPrimitive i q = .ok m ∧ m.Wraps i q q.signature.inputs q.signature.outputs := by
  have hstart : ((empty i q.signature.inputs q.signature.outputs).addNode
      ⟨q.op.name, .primitive q, q.signature.inputs, q.signature.outputs⟩).Wraps i q [] [] :=
    ⟨rfl, rfl, rfl, by simp [addNode, empty], by simp [addNode, empty]⟩
  obtain ⟨m₁, hinputs, hm₁⟩ := exists_foldlM_zipIdx (f := exposeInput)
    (P := fun ins m => m.Wraps i q ins []) (fun _ _ _ _ hports h => h.exposeInput hports) hstart
  obtain ⟨m₂, houtputs, hm₂⟩ := exists_foldlM_zipIdx (f := exposeOutput)
    (P := fun outs m => m.Wraps i q q.signature.inputs outs)
    (fun _ _ _ _ hports h => h.exposeOutput hports) hm₁
  have hrun : ofPrimitive i q =
      q.signature.inputs.zipIdx.foldlM (fun m (x, index) => m.exposeInput x index)
        ((empty i q.signature.inputs q.signature.outputs).addNode
          ⟨q.op.name, .primitive q, q.signature.inputs, q.signature.outputs⟩) >>= fun m =>
      q.signature.outputs.zipIdx.foldlM (fun m (x, index) => m.exposeOutput x index) m := rfl
  refine ⟨m₂, ?_, hm₂⟩
  rw [hrun, hinputs]
  exact houtputs

end Module

/-! ### Alike primitives -/

lemma Primitive.Like.op {q q' : Primitive} (h : q.Like q') : q.op = q'.op := by
  cases h <;> rfl

lemma Port.Like.fits {x y : Port} (h : x.Like y) (hx : x.Fits) : y.Fits := by
  unfold Port.Fits at hx ⊢
  rwa [← h.shape.wireCount]

lemma Port.Like.exists_sameWire {x y : Port} (h : x.Like y) (hx : x.Fits) {leaf : Nat}
    (hleaf : leaf < x.shape.width) :
    ∃ leaf' < y.shape.width, x.shape.SameWire y.shape leaf leaf' := by
  have hwidth : ∀ z : Port, z.Fits → z.shape.width = z.shape.wireCount := fun _ hz => min_eq_left hz
  obtain ⟨leaf', hsame⟩ := PortTree.exists_sameWire h.shape (hwidth x hx ▸ hleaf)
  exact ⟨leaf', hwidth y (h.fits hx) ▸ hsame.symm.lt, hsame⟩

namespace Module

variable {i i' : Invocation} {q q' : Primitive} {m m' : Module}

lemma placedAs_data {k port leaf leaf' : Nat} {side : Side} {n n' : Node} {x y : Port}
    (hn : m.nodes[k]? = some n) (hn' : m'.nodes[k]? = some n') (hx : (n.ports side)[port]? = some x)
    (hy : (n'.ports side)[port]? = some y) (hleaf : x.shape.SameWire y.shape leaf leaf') :
    (Wire.mk k side port (.data leaf)).PlacedAs m (.inPlace m') ⟨k, side, port, .data leaf'⟩ :=
  ⟨rfl, rfl, n, n', x, y, Placement.inPlace_eq_some.mpr ⟨rfl, hn'⟩, hn, hx, hy, .data hleaf⟩

/-- Links of alike ports, wire by wire, each to the one with the same access path. -/
lemma exists_link {xs ys : List Port} (h : List.Forall₂ Port.Like xs ys) (hfits : ∀ x ∈ xs, x.Fits)
    {link : Nat → Nat → Connection} {c : Connection} {R : Connection → Connection → Prop}
    (hlink : ∀ (k : Nat) x y leaf leaf', xs[k]? = some x → ys[k]? = some y →
      x.shape.SameWire y.shape leaf leaf' → R (link k leaf) (link k leaf'))
    (hc : ∃ k x, xs[k]? = some x ∧ ∃ leaf < x.shape.width, link k leaf = c) :
    ∃ c', (∃ k y, ys[k]? = some y ∧ ∃ leaf < y.shape.width, link k leaf = c') ∧ R c c' := by
  obtain ⟨k, x, hx, leaf, hleaf, rfl⟩ := hc
  have hget := forall₂_getElem? h k
  rw [hx] at hget
  generalize hy : ys[k]? = found at hget
  cases hget with
  | @some _ y hxy =>
    obtain ⟨leaf', hleaf', hsame⟩ :=
      hxy.exists_sameWire (hfits x (List.mem_of_getElem? hx)) hleaf
    exact ⟨link k leaf', ⟨k, y, hy, leaf', hleaf', rfl⟩, hlink k x y leaf leaf' hx hy hsame⟩

/-- The modules of alike primitives are twins. -/
theorem Wraps.twin (hi : i.Like i') (hq : q.Like q') (hfits : q.signature.fits = true)
    (h : m.Wraps i q q.signature.inputs q.signature.outputs)
    (h' : m'.Wraps i' q' q'.signature.inputs q'.signature.outputs) : m.Twin m' := by
  obtain ⟨hins, houts⟩ := hq.signature
  have hports : (∀ x ∈ q.signature.inputs, x.Fits) ∧ ∀ x ∈ q.signature.outputs, x.Fits := by
    simpa [Signature.fits, Port.fits, Port.Fits] using hfits
  have hports' : (∀ y ∈ q'.signature.inputs, y.Fits) ∧ ∀ y ∈ q'.signature.outputs, y.Fits := by
    constructor
    · intro y hy
      obtain ⟨x, hx, hxy⟩ := exists_mem_of_forall₂ hins hy
      exact hxy.fits (hports.1 x hx)
    · intro y hy
      obtain ⟨x, hx, hxy⟩ := exists_mem_of_forall₂ houts hy
      exact hxy.fits (hports.2 x hx)
  have hinput : ∀ (k : Nat) x y leaf leaf', q.signature.inputs[k]? = some x →
      q'.signature.inputs[k]? = some y → x.shape.SameWire y.shape leaf leaf' →
      (inputLink k leaf).PlacedAs m (.inPlace m') (inputLink k leaf') := by
    intro k x y leaf leaf' hx hy hsame
    exact ⟨placedAs_data (h.input hx) (h'.input hy) rfl rfl hsame,
      placedAs_data h.primitive h'.primitive hx hy hsame⟩
  have houtput : ∀ (k : Nat) x y leaf leaf', q.signature.outputs[k]? = some x →
      q'.signature.outputs[k]? = some y → x.shape.SameWire y.shape leaf leaf' →
      (outputLink q.signature.inputs.length k leaf).PlacedAs m (.inPlace m')
        (outputLink q.signature.inputs.length k leaf') := by
    intro k x y leaf leaf' hx hy hsame
    have hnode := h'.output hy
    rw [← hins.length_eq] at hnode
    exact ⟨placedAs_data h.primitive h'.primitive hx hy hsame,
      placedAs_data (h.output hx) hnode rfl rfl hsame⟩
  have hnodes : List.Forall₂ (fun n n' => n.name = n'.name ∧ n.Resembles n') m.nodes.toList
      m'.nodes.toList := by
    have hport : ∀ x y, Port.Like x y → x.name = y.name ∧
        ((Node.mk x.name .input [] [x]).Resembles ⟨y.name, .input, [], [y]⟩ ∧
          (Node.mk x.name .output [x] []).Resembles ⟨y.name, .output, [y], []⟩) := by
      intro x y hxy
      exact ⟨hxy.name, Node.resembles_of_ports (.inl hxy.name) .input .nil (.cons hxy .nil),
        Node.resembles_of_ports (.inl hxy.name) .output (.cons hxy .nil) .nil⟩
    rw [h.nodes, h'.nodes, hq.op]
    refine .cons ⟨rfl, Node.resembles_of_ports (.inl rfl) (.primitive hq) hins houts⟩ ?_
    refine List.rel_append ?_ ?_
    · rw [List.forall₂_map_left_iff, List.forall₂_map_right_iff]
      exact hins.imp fun x y hxy => ⟨(hport x y hxy).1, (hport x y hxy).2.1⟩
    · rw [List.forall₂_map_left_iff, List.forall₂_map_right_iff]
      exact houts.imp fun x y hxy => ⟨(hport x y hxy).1, (hport x y hxy).2.2⟩
  have hback : ∀ {xs ys : List Port}, List.Forall₂ Port.Like xs ys → List.Forall₂ Port.Like ys xs :=
    fun hxy => hxy.flip.imp fun _ _ hyx => ⟨hyx.name.symm, hyx.kind.symm, hyx.shape.symm⟩
  refine ⟨?_, ?_, ?_, hnodes, placed_inPlace (hnodes.imp fun _ _ hn => hn.2) ?_ ?_⟩
  · rw [h.invocation, h'.invocation]
    exact hi
  · rw [h.inputs, h'.inputs]
    exact hins
  · rw [h.outputs, h'.outputs]
    exact houts
  · intro c' hc'
    rw [h'.connections] at hc'
    rcases hc' with hc' | hc'
    · obtain ⟨c, hc, hplaced⟩ := exists_link (R := fun c' c => c.PlacedAs m (.inPlace m') c')
        (hback hins) hports'.1 (fun k y x leaf' leaf hy hx hsame =>
          hinput k x y leaf leaf' hx hy hsame.symm) hc'
      exact ⟨c, (h.connections c).mpr (.inl hc), hplaced⟩
    · rw [← hins.length_eq] at hc'
      obtain ⟨c, hc, hplaced⟩ := exists_link (R := fun c' c => c.PlacedAs m (.inPlace m') c')
        (hback houts) hports'.2 (fun k y x leaf' leaf hy hx hsame =>
          houtput k x y leaf leaf' hx hy hsame.symm) hc'
      exact ⟨c, (h.connections c).mpr (.inr hc), hplaced⟩
  · intro c hc
    rcases (h.connections c).mp hc with hc | hc
    · obtain ⟨c', hc', hplaced⟩ := exists_link hins hports.1 hinput hc
      exact ⟨c', (h'.connections c').mpr (.inl hc'), hplaced⟩
    · obtain ⟨c', hc', hplaced⟩ := exists_link houts hports.2 houtput hc
      rw [hins.length_eq] at hc'
      exact ⟨c', (h'.connections c').mpr (.inr hc'), hplaced⟩

end Module

end NetlistCompiler
