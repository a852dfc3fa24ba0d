import NetlistCompiler.Proofs.Likeness
import NetlistCompiler.Resolution

/-!
# What an expression stands for

One kind of expression serves as size, type, generic value and node of a chain, and each place in a
program has its own reading of expressions. The readings agree. What is a static expression or an
interface is the same thing as a generic value, and what can be a generic value can also be a node
without a name, unless it is static. Static expressions are neither interfaces nor nodes.
-/

namespace NetlistCompiler.Resolution

open Surface (Expr)

/-! ### Static expressions and interfaces as generic values -/

lemma staticExpr_eq_ok_iff (scope : Scope) : ∀ (e : Expr) (s : StaticExpr),
    staticExpr scope e = .ok s ↔ genericValue scope e = .ok (.parameter (.static s))
  | .wire, s => by simp [staticExpr, genericValue, mismatch]
  | .truth _, s => by simp [staticExpr, genericValue]
  | .literal _, s => by simp [staticExpr, genericValue]
  | .binary op lhs rhs, s => by
    rw [genericValue, bind_eq_ok_iff]
    simp [pure, Except.pure]
  | .parenthesized inner, s => by
    rw [staticExpr, genericValue]
    exact staticExpr_eq_ok_iff scope inner s
  | .access accessed step, s => by
    cases step <;> simp [staticExpr, genericValue, mismatch, bind_eq_ok_iff, pure, Except.pure]
  | .atom name arguments, s => by
    rw [staticExpr, genericValue, bind_eq_ok_iff, bind_eq_ok_iff]
    apply exists_congr
    intro declaration
    apply and_congr_right
    intro _
    cases declaration <;> simp [mismatch, bind_eq_ok_iff, pure, Except.pure, ite_eq_iff]

lemma interface_eq_ok_iff (scope : Scope) : ∀ (e : Expr) (x : InterfaceExpr),
    interface scope e = .ok x ↔ genericValue scope e = .ok (.interface x)
  | .wire, x => by simp [interface, genericValue]
  | .truth _, x => by simp [interface, genericValue, mismatch]
  | .literal _, x => by simp [interface, genericValue, mismatch]
  | .binary op lhs rhs, x => by
    rw [interface, genericValue, bind_eq_ok_iff]
    simp [mismatch, pure, Except.pure]
  | .parenthesized inner, x => by
    rw [interface, genericValue]
    exact interface_eq_ok_iff scope inner x
  | .access accessed step, x => by
    cases step <;> simp [interface, genericValue, mismatch, bind_eq_ok_iff, pure, Except.pure]
  | .atom name arguments, x => by
    rw [interface, genericValue, bind_eq_ok_iff, bind_eq_ok_iff]
    apply exists_congr
    intro declaration
    apply and_congr_right
    intro _
    cases declaration <;> simp [mismatch, bind_eq_ok_iff, pure, Except.pure, ite_eq_iff]

/-! ### Generic values as nodes -/

namespace GenericValue

/-- What a generic value is as a node without a name. A static expression is none. -/
def body? : GenericValue → Option NodeBody
  | .interface value => some (.interface value)
  | .parameter (.instantiation value) => some (.function value)
  | .parameter (.reference name) => some (.genericFunction name)
  | .parameter (.static _) => none

variable {v : GenericValue}

lemma body?_eq_interface {x : InterfaceExpr} :
    v.body? = some (.interface x) ↔ v = .interface x := by
  rcases v with _ | (_ | _ | _) <;> simp [body?]

lemma body?_eq_function {i : Instantiation} :
    v.body? = some (.function i) ↔ v = .parameter (.instantiation i) := by
  rcases v with _ | (_ | _ | _) <;> simp [body?]

lemma body?_eq_genericFunction {f : String} :
    v.body? = some (.genericFunction f) ↔ v = .parameter (.reference f) := by
  rcases v with _ | (_ | _ | _) <;> simp [body?]

end GenericValue

section

variable {scope : Scope} {accessed : Expr} {step : Surface.Accessor}

lemma genericValue_access {v : GenericValue} :
    genericValue scope (.access accessed step) = .ok v ↔
      ∃ element index size, interface scope accessed = .ok element ∧ step = .item index ∧
        staticExpr scope index = .ok size ∧ .interface (.vector element size) = v := by
  cases step <;> simp [genericValue, mismatch, bind_eq_ok_iff, pure, Except.pure]

lemma lone_access {body : NodeBody} :
    lone scope (.access accessed step) = .ok (.anonymous body) ↔
      ∃ element index size, lone scope accessed = .ok (.anonymous (.interface element)) ∧
        step = .item index ∧ staticExpr scope index = .ok size ∧
        body = .interface (.vector element size) := by
  rw [lone, bind_eq_ok_iff]
  constructor
  · rintro ⟨n, hn, h⟩
    split at h
    · -- an access to a reference is a reference again
      obtain ⟨a, -, h⟩ := bind_eq_ok_iff.mp h
      cases h
    · next element =>
      split at h
      · next index =>
        obtain ⟨size, hsize, h⟩ := bind_eq_ok_iff.mp h
        cases h
        exact ⟨element, index, size, hn, rfl, hsize, rfl⟩
      · cases h
    · cases h
  · rintro ⟨element, index, size, hn, rfl, hsize, rfl⟩
    refine ⟨_, hn, ?_⟩
    simp only [hsize]
    rfl

end

/-- The nodes without a name are the generic values that are not static. -/
lemma lone_eq_anonymous_iff (scope : Scope) : ∀ (e : Expr) (body : NodeBody),
    lone scope e = .ok (.anonymous body) ↔ ∃ v, genericValue scope e = .ok v ∧ v.body? = some body
  | .wire, body => by simp [lone, genericValue, GenericValue.body?]
  | .truth _, body => by simp [lone, genericValue, mismatch, GenericValue.body?]
  | .literal _, body => by simp [lone, genericValue, mismatch, GenericValue.body?]
  | .binary op lhs rhs, body => by
    simp [lone, genericValue, mismatch, bind_eq_ok_iff, GenericValue.body?, pure, Except.pure]
  | .parenthesized inner, body => by
    rw [lone, genericValue]
    exact lone_eq_anonymous_iff scope inner body
  | .access accessed step, body => by
    have hnode (x : InterfaceExpr) :
        lone scope accessed = .ok (.anonymous (.interface x)) ↔
          interface scope accessed = .ok x := by
      rw [lone_eq_anonymous_iff scope accessed, interface_eq_ok_iff]
      simp [GenericValue.body?_eq_interface]
    simp only [lone_access, genericValue_access, hnode]
    constructor
    · rintro ⟨element, index, size, helement, hstep, hsize, rfl⟩
      exact ⟨_, ⟨element, index, size, helement, hstep, hsize, rfl⟩, rfl⟩
    · rintro ⟨_, ⟨element, index, size, helement, hstep, hsize, rfl⟩, hbody⟩
      cases hbody
      exact ⟨element, index, size, helement, hstep, hsize, rfl⟩
  | .atom name arguments, body => by
    rw [lone, genericValue]
    cases hresolve : scope.resolve name with
    | error err => simp [bind_eq_ok_iff]
    | ok declaration =>
      cases declaration <;>
        simp [interface, instantiation, hresolve, mismatch, bind_eq_ok_iff, pure, Except.pure,
          ite_eq_iff, GenericValue.body?]

/-- A static expression is no node of any kind. -/
lemma lone_error_of_staticExpr (scope : Scope) : ∀ (e : Expr) (s : StaticExpr),
    staticExpr scope e = .ok s → ∃ err, lone scope e = .error err
  | .wire, s, h => by simp [staticExpr, mismatch] at h
  | .truth _, s, h => ⟨_, by rw [lone, mismatch]⟩
  | .literal _, s, h => ⟨_, by rw [lone, mismatch]⟩
  | .binary _ _ _, s, h => ⟨_, by rw [lone, mismatch]⟩
  | .parenthesized inner, s, h => by
    rw [staticExpr] at h
    rw [lone]
    exact lone_error_of_staticExpr scope inner s h
  | .access _ _, s, h => by simp [staticExpr, mismatch] at h
  | .atom name arguments, s, h => by
    rw [staticExpr, bind_eq_ok_iff] at h
    obtain ⟨declaration, hresolve, h⟩ := h
    rw [lone, hresolve]
    cases declaration with
    | integerParameter => exact ⟨_, rfl⟩
    | _ => cases h

/-- The readings of an expression agree. It is an interface as a generic value, as a type and as a
node, or nowhere. It is a static expression as a generic value if and only if it is one as a size,
and then it is neither a type nor a node. It is a function, or a function parameter, as a generic
value if and only if it is one as a node. -/
theorem readings_agree (scope : Scope) (e : Expr) :
    (∀ x, (genericValue scope e = .ok (.interface x) ↔ interface scope e = .ok x) ∧
      (interface scope e = .ok x ↔ lone scope e = .ok (.anonymous (.interface x)))) ∧
    (∀ s, (genericValue scope e = .ok (.parameter (.static s)) ↔ staticExpr scope e = .ok s) ∧
      (staticExpr scope e = .ok s →
        (∃ err, interface scope e = .error err) ∧ ∃ err, lone scope e = .error err)) ∧
    (∀ i, genericValue scope e = .ok (.parameter (.instantiation i)) ↔
      lone scope e = .ok (.anonymous (.function i))) ∧
    ∀ f, genericValue scope e = .ok (.parameter (.reference f)) ↔
      lone scope e = .ok (.anonymous (.genericFunction f)) := by
  refine ⟨fun x => ⟨(interface_eq_ok_iff scope e x).symm, ?_⟩,
    fun s => ⟨(staticExpr_eq_ok_iff scope e s).symm, fun hs => ⟨?_, ?_⟩⟩, fun i => ?_, fun f => ?_⟩
  · rw [interface_eq_ok_iff, lone_eq_anonymous_iff]
    simp [GenericValue.body?_eq_interface]
  · cases hinterface : interface scope e with
    | error err => exact ⟨err, rfl⟩
    | ok x =>
      rw [interface_eq_ok_iff] at hinterface
      rw [staticExpr_eq_ok_iff, hinterface] at hs
      cases hs
  · exact lone_error_of_staticExpr scope e s hs
  · rw [lone_eq_anonymous_iff]
    simp [GenericValue.body?_eq_function]
  · rw [lone_eq_anonymous_iff]
    simp [GenericValue.body?_eq_genericFunction]

/-- A scope with an interface parameter and an integer parameter. -/
def genericScope : Scope :=
  [⟨.interface "buffer", [("item", .genericInterface), ("depth", .integerParameter)]⟩]

/-- One more than the depth is a size and nothing else; so many items are an interface
everywhere. -/
theorem readings_agree_buffer :
    let size : Expr := .parenthesized (.binary .add (.name "depth") (.literal 1))
    let items : Expr := .vector (.parenthesized (.name "item")) size
    let value : StaticExpr := .binary .add (.parameter "depth") (.int 1)
    (staticExpr genericScope size = .ok value ∧ (∃ err, interface genericScope size = .error err) ∧
      ∃ err, lone genericScope size = .error err) ∧
    interface genericScope items = .ok (.vector (.generic "item") value) ∧
    lone genericScope items = .ok (.anonymous (.interface (.vector (.generic "item") value))) := by
  intro size items value
  have hsize : staticExpr genericScope size = .ok value := rfl
  have hitems : interface genericScope items = .ok (.vector (.generic "item") value) := rfl
  exact ⟨⟨hsize, ((readings_agree genericScope size).2.1 value).2 hsize⟩, hitems,
    ((readings_agree genericScope items).1 _).2.mp hitems⟩

end NetlistCompiler.Resolution
