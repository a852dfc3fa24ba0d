import NetlistCompiler.Proofs.ExpansionLikeness

/-!
# Expansion looks at heads only

The expansion of interfaces and instantiations does not look into the bodies of functions. Two
programs with the same interfaces and the same heads of functions open definitions in the same way.
-/

namespace NetlistCompiler

variable {p p' : Program} {u : Unfolding} {b : Bindings}

mutual

lemma InterfaceExpr.expandIn_congr (h : p.SameHeads p') (active : List String) :
    ∀ e : InterfaceExpr, e.expandIn p' u b active = e.expandIn p u b active
  | .wire => by rw [InterfaceExpr.expandIn, InterfaceExpr.expandIn]
  | .vector element size => by
    rw [InterfaceExpr.expandIn, InterfaceExpr.expandIn, InterfaceExpr.expandIn_congr h active element]
  | .generic name => by rw [InterfaceExpr.expandIn, InterfaceExpr.expandIn]
  | .defined name interfaces parameters => by
    rw [InterfaceExpr.expandIn, InterfaceExpr.expandIn, h.interface name,
      InterfaceExpr.expandListIn_congr h active interfaces,
      ArgumentExpr.expandList_congr h parameters]

lemma InterfaceExpr.expandListIn_congr (h : p.SameHeads p') (active : List String) :
    ∀ es : List InterfaceExpr,
      InterfaceExpr.expandListIn p' u b active es = InterfaceExpr.expandListIn p u b active es
  | [] => by rw [InterfaceExpr.expandListIn, InterfaceExpr.expandListIn]
  | e :: rest => by
    rw [InterfaceExpr.expandListIn, InterfaceExpr.expandListIn, InterfaceExpr.expandIn_congr h active e,
      InterfaceExpr.expandListIn_congr h active rest]

lemma ArgumentExpr.expand_congr (h : p.SameHeads p') :
    ∀ a : ArgumentExpr, a.expand p' u b = a.expand p u b
  | .static value => by rw [ArgumentExpr.expand, ArgumentExpr.expand]
  | .instantiation value => by
    rw [ArgumentExpr.expand, ArgumentExpr.expand, Instantiation.expand_congr h value]
  | .reference name => by rw [ArgumentExpr.expand, ArgumentExpr.expand]

lemma ArgumentExpr.expandList_congr (h : p.SameHeads p') :
    ∀ as : List ArgumentExpr, ArgumentExpr.expandList p' u b as = ArgumentExpr.expandList p u b as
  | [] => by rw [ArgumentExpr.expandList, ArgumentExpr.expandList]
  | a :: rest => by
    rw [ArgumentExpr.expandList, ArgumentExpr.expandList, ArgumentExpr.expand_congr h a,
      ArgumentExpr.expandList_congr h rest]

lemma Instantiation.expand_congr (h : p.SameHeads p') :
    ∀ x : Instantiation, x.expand p' u b = x.expand p u b
  | ⟨function, interfaces, parameters⟩ => by
    rw [Instantiation.expand, Instantiation.expand, InterfaceExpr.expandPorts_congr h interfaces,
      ArgumentExpr.expandList_congr h parameters]

lemma InterfaceExpr.expandPorts_congr (h : p.SameHeads p') :
    ∀ es : List InterfaceExpr,
      InterfaceExpr.expandPorts p' u b es = InterfaceExpr.expandPorts p u b es
  | [] => by rw [InterfaceExpr.expandPorts, InterfaceExpr.expandPorts]
  | e :: rest => by
    rw [InterfaceExpr.expandPorts, InterfaceExpr.expandPorts, InterfaceExpr.expandIn_congr h [] e,
      InterfaceExpr.expandPorts_congr h rest]

end

lemma InterfaceExpr.expand_congr (h : p.SameHeads p') (e : InterfaceExpr) :
    e.expand p' u b = e.expand p u b := by
  rw [InterfaceExpr.expand, InterfaceExpr.expand, InterfaceExpr.expandIn_congr h]

lemma Generics.bind_congr (h : p.SameHeads p') (g : Generics) (owner : String)
    (interfaces : List Shape) (parameters : List Argument) :
    g.bind p' u owner interfaces parameters = g.bind p u owner interfaces parameters := by
  have hcheck : ∀ b, checkSignature p' u owner b = checkSignature p u owner b := by
    intro b
    funext q
    simp only [checkSignature, InterfaceExpr.expandPorts_congr h]
  simp only [Generics.bind, hcheck]

lemma FunctionDefinition.signature_congr (h : p.SameHeads p') {d d' : FunctionDefinition}
    (hd : d.SameHead d') (b : Bindings) : d'.signature p' u b = d.signature p u b := by
  simp only [signature, FunctionPort.expandList, hd.inputs, hd.outputs,
    InterfaceExpr.expand_congr h]

lemma Program.eq_of_callee_eq_error {name : String} {e : BuildError}
    (h : p.callee name = .error e) : e = .unknownFunction name := by
  unfold callee at h
  split at h
  · cases h
  · split at h
    · cases h
    · cases h
      rfl

/-- A name calls functions with the same head, the same primitive, or nothing. -/
lemma Program.callee_cases (h : p.SameHeads p') (h' : p'.SameHeads p) (name : String) :
    (∃ e, p.callee name = .error e ∧ p'.callee name = .error e) ∨
      ∃ f f', p.callee name = .ok f ∧ p'.callee name = .ok f' ∧ f.SameHead f' := by
  cases hcallee : p.callee name with
  | ok f =>
    obtain ⟨f', hf', hhead⟩ := h.callee name f hcallee
    exact .inr ⟨f, f', rfl, hf', hhead⟩
  | error e =>
    cases hcallee' : p'.callee name with
    | ok f' =>
      obtain ⟨f, hf, -⟩ := h'.callee name f' hcallee'
      rw [hcallee] at hf
      cases hf
    | error e' =>
      obtain rfl := eq_of_callee_eq_error hcallee
      obtain rfl := eq_of_callee_eq_error hcallee'
      exact .inl ⟨_, rfl, rfl⟩

section

variable {i : Invocation}

lemma Invocation.ports_eq_of_error {e : BuildError} (h : p.callee i.function = .error e) :
    i.ports p u = throw e := by
  unfold Invocation.ports
  rw [h]
  rfl

lemma Invocation.ports_eq_of_primitive {op : PrimitiveOp}
    (h : p.callee i.function = .ok (.primitive op)) :
    i.ports p u = do return (← Primitive.ofCall op i).signature := by
  unfold Invocation.ports
  rw [h]
  rfl

lemma Invocation.ports_eq_of_function {d : FunctionDefinition}
    (h : p.callee i.function = .ok (.function d)) :
    i.ports p u =
      d.generics.bind p u d.name i.interfaces i.parameters >>= d.signature p u := by
  unfold Invocation.ports
  rw [h]
  rfl

end

lemma Invocation.ports_congr (h : p.SameHeads p') (h' : p'.SameHeads p) (i : Invocation) :
    i.ports p' u = i.ports p u := by
  rcases Program.callee_cases h h' i.function with ⟨e, he, he'⟩ | ⟨f, f', hf, hf', hhead⟩
  · rw [ports_eq_of_error he, ports_eq_of_error he']
  · cases hhead with
    | primitive op => rw [ports_eq_of_primitive hf, ports_eq_of_primitive hf']
    | function hd =>
      rw [ports_eq_of_function hf, ports_eq_of_function hf', hd.generics, hd.name,
        Generics.bind_congr h, funext (FunctionDefinition.signature_congr h hd)]

/-- Definitions are opened in the same way. -/
lemma Program.unfolding_congr (h : p.SameHeads p') (h' : p'.SameHeads p) (depth : Nat) :
    p'.unfolding depth = p.unfolding depth := by
  induction depth with
  | zero => rfl
  | succ depth ih =>
    rw [unfolding, unfolding, ih]
    congr 1
    · funext active d interfaces parameters
      simp only [InterfaceDefinition.expand, Generics.bind_congr h,
        InterfaceExpr.expandIn_congr h, InterfaceExpr.expandListIn_congr h]
    · funext i
      exact Invocation.ports_congr h h' i

end NetlistCompiler
