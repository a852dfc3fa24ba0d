import NetlistCompiler.Netlist
import NetlistCompiler.Proofs.Scoping

/-!
# Expansion of known names

The expansion of a program whose names are known does not fail for want of a name. What can go
wrong is in the values: sizes, kinds, numbers of arguments, divisions and definitions that contain
themselves.
-/

namespace NetlistCompiler

/-- The error is about values and shapes, not about a name or a wire that is missing. -/
def BuildError.Ordinary : BuildError → Prop
  | unknownFunction _ => False
  | unknownInterface _ => False
  | unboundGeneric _ => False
  | unresolvedNode _ _ => False
  | unresolvedPort _ _ => False
  | portTooWide => False
  | internal _ => False
  | _ => True

section

variable (p : Program)

mutual

/-- Every function in an invocation is one of the program or a primitive. -/
def Invocation.Known : Invocation → Prop
  | ⟨function, _, parameters⟩ => p.Calls function ∧ Invocation.ArgumentsKnown parameters

def Invocation.ArgumentKnown : Argument → Prop
  | .integer _ => True
  | .function i => i.Known

def Invocation.ArgumentsKnown : List Argument → Prop
  | [] => True
  | a :: rest => Invocation.ArgumentKnown a ∧ Invocation.ArgumentsKnown rest

end

/-- The bindings have a value for every generic parameter. -/
structure Bindings.Covers (g : Generics) (b : Bindings) : Prop where
  interfaces : ∀ name ∈ g.interfaces, (b.interfaces.lookup name).isSome = true
  integers : ∀ name, ⟨name, .integer⟩ ∈ g.parameters → (b.integers.lookup name).isSome = true
  functions : ∀ name, g.HasFunction name → (b.functions.lookup name).isSome = true
  known : ∀ name i, b.functions.lookup name = some i → i.Known p

end

lemma Invocation.known_iff {p : Program} {i : Invocation} :
    i.Known p ↔ p.Calls i.function ∧ ArgumentsKnown p i.parameters := by
  obtain ⟨f, is, ps⟩ := i
  rw [Known]

namespace Expand

variable {α β : Type}

/-- The outcome, if there is one, is a value that satisfies `Q` or an ordinary error. -/
def Yields (Q : α → Prop) (x : Expand α) : Prop :=
  ∀ r, x.run = some r → match r with
    | .ok a => Q a
    | .error e => e.Ordinary

lemma yields_pure {Q : α → Prop} {a : α} (h : Q a) : Yields Q (pure a : Expand α) := by
  intro r hr
  cases hr
  exact h

lemma yields_throw {Q : α → Prop} {e : BuildError} (h : e.Ordinary) :
    Yields Q (throw e : Expand α) := by
  intro r hr
  cases hr
  exact h

lemma Yields.bind {Q : α → Prop} {R : β → Prop} {x : Expand α} {f : α → Expand β}
    (hx : Yields Q x) (hf : ∀ a, Q a → Yields R (f a)) : Yields R (x >>= f) := by
  intro r hr
  rw [run_bind_expand] at hr
  cases hrun : x.run with
  | none =>
    rw [hrun] at hr
    cases hr
  | some result =>
    have hresult := hx result hrun
    rw [hrun] at hr
    cases result with
    | error e =>
      cases hr
      exact hresult
    | ok a => exact hf a hresult r hr

lemma Yields.imp {Q R : α → Prop} {x : Expand α} (hx : Yields Q x) (h : ∀ a, Q a → R a) :
    Yields R x := by
  intro r hr
  have hresult := hx r hr
  cases r with
  | error e => exact hresult
  | ok a => exact h a hresult

lemma yields_liftM {Q : α → Prop} {x : Except BuildError α} (hok : ∀ a, x = .ok a → Q a)
    (herror : ∀ e, x = .error e → e.Ordinary) : Yields Q (liftM x : Expand α) := by
  intro r hr
  cases x with
  | error e =>
    cases hr
    exact herror e rfl
  | ok a =>
    cases hr
    exact hok a rfl

end Expand

open Expand

/-! ### Values -/

lemma ordinary_of_eval {p : Program} {g : Generics} {b : Bindings} (hb : b.Covers p g)
    {e : StaticExpr} (he : e.Scoped g) {error : BuildError} (h : e.eval b = .error error) :
    error.Ordinary := by
  induction e generalizing error with
  | int value => cases h
  | bool value => cases h
  | parameter name =>
    obtain ⟨value, hvalue⟩ := Option.isSome_iff_exists.mp (hb.integers name he)
    rw [StaticExpr.eval, hvalue] at h
    cases h
  | binary op lhs rhs ihl ihr =>
    rw [StaticExpr.eval] at h
    cases hl : lhs.eval b with
    | error e' =>
      rw [hl] at h
      cases h
      exact ihl he.1 hl
    | ok l =>
      cases hr : rhs.eval b with
      | error e' =>
        rw [hl, hr] at h
        cases h
        exact ihr he.2 hr
      | ok r =>
        rw [hl, hr] at h
        dsimp only [bind, Except.bind] at h
        split at h
        · cases h
        · cases h
          trivial

lemma ordinary_of_toSize {value : Int64} {error : BuildError} (h : toSize value = .error error) :
    error.Ordinary := by
  unfold toSize at h
  split at h
  · cases h
    trivial
  · split at h
    · cases h
    · cases h
      trivial

lemma Shape.checkWidth_yields (s : Shape) :
    Yields (fun t : Shape => t.wireCount ≤ maxWidth) (liftM s.checkWidth) := by
  apply yields_liftM
  · intro t ht
    unfold checkWidth at ht
    split at ht
    · next hfits =>
      cases ht
      exact hfits
    · cases ht
  · intro e he
    unfold checkWidth at he
    split at he
    · cases he
    · cases he
      trivial

lemma PrimitiveError.ordinary_toBuildError (e : PrimitiveError) : e.toBuildError.Ordinary := by
  cases e with
  | arity op interfaces parameters =>
    rw [toBuildError]
    split <;> trivial
  | expectedInteger op index => trivial
  | invalidSize op index value =>
    rw [toBuildError]
    split <;> trivial

lemma Primitive.ordinary_of_ofCall {op : PrimitiveOp} {i : Invocation} {error : BuildError}
    (h : ofCall op i = .error error) : error.Ordinary := by
  unfold ofCall at h
  cases hi : ofInvocation op i with
  | error e =>
    rw [hi] at h
    cases h
    exact e.ordinary_toBuildError
  | ok q =>
    rw [hi] at h
    cases h

/-- Definitions are opened without a missing name. -/
structure Unfolding.Knows (p : Program) (u : Unfolding) : Prop where
  interface : ∀ active name d ss as, p.interface? name = some d →
    Invocation.ArgumentsKnown p as → Yields (fun _ => True) (u.interface active d ss as)
  ports : ∀ i, i.Known p → Yields (fun _ => True) (u.ports i)

section

variable {p : Program} {u : Unfolding} {g : Generics} {b : Bindings}

mutual

lemma InterfaceExpr.expandIn_yields (hu : u.Knows p) (hb : b.Covers p g) (active : List String) :
    ∀ e : InterfaceExpr, e.Scoped p g → Yields (fun _ => True) (e.expandIn p u b active)
  | .wire, _ => by
    rw [InterfaceExpr.expandIn]
    exact yields_pure trivial
  | .vector element size, he => by
    rw [InterfaceExpr.expandIn]
    apply (yields_liftM (fun _ _ => trivial) fun _ h => ordinary_of_eval hb he.2 h).bind
    intro value _
    apply (yields_liftM (fun _ _ => trivial) fun _ h => ordinary_of_toSize h).bind
    intro n _
    apply (InterfaceExpr.expandIn_yields hu hb active element he.1).bind
    intro s _
    exact yields_pure trivial
  | .generic name, he => by
    obtain ⟨s, hs⟩ := Option.isSome_iff_exists.mp (hb.interfaces name he)
    rw [InterfaceExpr.expandIn, hs]
    exact yields_pure trivial
  | .defined name interfaces parameters, he => by
    obtain ⟨d, hd⟩ := Option.isSome_iff_exists.mp he.1
    rw [InterfaceExpr.expandIn, hd]
    dsimp only
    split
    · refine Yields.bind (Q := fun _ => False)
        (yields_throw (e := .recursiveInstantiation name) trivial) ?_
      exact fun _ hfalse => hfalse.elim
    · apply (InterfaceExpr.expandListIn_yields hu hb active interfaces he.2.1).bind
      intro ss _
      apply (ArgumentExpr.expandList_yields hu hb parameters he.2.2).bind
      intro as has
      exact hu.interface active name d ss as hd has

lemma InterfaceExpr.expandListIn_yields (hu : u.Knows p) (hb : b.Covers p g)
    (active : List String) : ∀ es : List InterfaceExpr, InterfaceExpr.AllScoped p g es →
      Yields (fun _ => True) (InterfaceExpr.expandListIn p u b active es)
  | [], _ => by
    rw [InterfaceExpr.expandListIn]
    exact yields_pure trivial
  | e :: rest, he => by
    rw [InterfaceExpr.expandListIn]
    apply (InterfaceExpr.expandIn_yields hu hb active e he.1).bind
    intro s _
    apply (InterfaceExpr.expandListIn_yields hu hb active rest he.2).bind
    intro ss _
    exact yields_pure trivial

lemma ArgumentExpr.expand_yields (hu : u.Knows p) (hb : b.Covers p g) :
    ∀ a : ArgumentExpr, a.Scoped p g → Yields (Invocation.ArgumentKnown p) (a.expand p u b)
  | .static value, ha => by
    rw [ArgumentExpr.expand]
    apply (yields_liftM (fun _ _ => trivial) fun _ h => ordinary_of_eval hb ha h).bind
    intro value _
    exact yields_pure trivial
  | .instantiation value, ha => by
    rw [ArgumentExpr.expand]
    apply (Instantiation.expand_yields hu hb value ha).bind
    intro i hi
    exact yields_pure hi
  | .reference name, ha => by
    obtain ⟨i, hi⟩ := Option.isSome_iff_exists.mp (hb.functions name ha)
    rw [ArgumentExpr.expand, hi]
    exact yields_pure (hb.known name i hi)

lemma ArgumentExpr.expandList_yields (hu : u.Knows p) (hb : b.Covers p g) :
    ∀ as : List ArgumentExpr, ArgumentExpr.AllScoped p g as →
      Yields (Invocation.ArgumentsKnown p) (ArgumentExpr.expandList p u b as)
  | [], _ => by
    rw [ArgumentExpr.expandList]
    exact yields_pure trivial
  | a :: rest, ha => by
    rw [ArgumentExpr.expandList]
    apply (ArgumentExpr.expand_yields hu hb a ha.1).bind
    intro value hvalue
    apply (ArgumentExpr.expandList_yields hu hb rest ha.2).bind
    intro values hvalues
    exact yields_pure ⟨hvalue, hvalues⟩

lemma Instantiation.expand_yields (hu : u.Knows p) (hb : b.Covers p g) :
    ∀ i : Instantiation, i.Scoped p g → Yields (Invocation.Known p) (i.expand p u b)
  | ⟨function, interfaces, parameters⟩, hi => by
    rw [Instantiation.expand]
    apply (InterfaceExpr.expandPorts_yields hu hb interfaces hi.2.1).bind
    intro ss _
    apply (ArgumentExpr.expandList_yields hu hb parameters hi.2.2).bind
    intro as has
    exact yields_pure ⟨hi.1, has⟩

lemma InterfaceExpr.expandPorts_yields (hu : u.Knows p) (hb : b.Covers p g) :
    ∀ es : List InterfaceExpr, InterfaceExpr.AllScoped p g es →
      Yields (fun _ => True) (InterfaceExpr.expandPorts p u b es)
  | [], _ => by
    rw [InterfaceExpr.expandPorts]
    exact yields_pure trivial
  | e :: rest, he => by
    rw [InterfaceExpr.expandPorts]
    apply (InterfaceExpr.expandIn_yields hu hb [] e he.1).bind
    intro s _
    apply s.checkWidth_yields.bind
    intro s' _
    apply (InterfaceExpr.expandPorts_yields hu hb rest he.2).bind
    intro ss _
    exact yields_pure trivial

end

lemma InterfaceExpr.expand_yields (hu : u.Knows p) (hb : b.Covers p g) {e : InterfaceExpr}
    (he : e.Scoped p g) : Yields (fun s : Shape => s.wireCount ≤ Shape.maxWidth) (e.expand p u b) :=
  (e.expandIn_yields hu hb [] he).bind fun s _ => s.checkWidth_yields

/-- The ports of a module fit: their widths are not cut off. -/
def Port.Fits (port : Port) : Prop :=
  port.shape.wireCount ≤ Shape.maxWidth

lemma FunctionPort.expandList_yields (hu : u.Knows p) (hb : b.Covers p g)
    {ports : List FunctionPort} (hports : ∀ port ∈ ports, port.interface.Scoped p g) :
    Yields (fun r : List Port => ∀ port ∈ r, port.Fits) (FunctionPort.expandList p u b ports) := by
  unfold FunctionPort.expandList
  induction ports with
  | nil => exact yields_pure (by simp)
  | cons port rest ih =>
    rw [List.forall_mem_cons] at hports
    rw [List.mapM_cons]
    refine Yields.bind (Q := Port.Fits) ?_ ?_
    · apply (InterfaceExpr.expand_yields hu hb hports.1).bind
      intro s hs
      exact yields_pure hs
    · intro q hq
      apply (ih hports.2).bind
      intro qs hqs
      exact yields_pure (List.forall_mem_cons.mpr ⟨hq, hqs⟩)

/-! ### Binding generic values -/

lemma isSome_lookup_cons {α : Type} {l : List (String × α)} {key name : String} {a : α}
    (h : key = name ∨ (l.lookup name).isSome = true) :
    (((key, a) :: l).lookup name).isSome = true := by
  rw [List.lookup_cons]
  rcases h with rfl | h
  · simp
  · cases name == key with
    | true => rfl
    | false => exact h

/-- Parameters that are bound have a value afterwards, those bound already included. -/
lemma Generics.bindParameters_covers {owner : String} {b r : Bindings} {qs : List Parameter}
    {as : List Argument} (hlength : as.length = qs.length) (has : Invocation.ArgumentsKnown p as)
    (hknown : ∀ name i, b.functions.lookup name = some i → i.Known p)
    (h : bindParameters owner b qs as = .ok r) :
    r.interfaces = b.interfaces ∧
      (∀ name, ⟨name, .integer⟩ ∈ qs ∨ (b.integers.lookup name).isSome = true →
        (r.integers.lookup name).isSome = true) ∧
      (∀ name, (∃ inputs outputs, ⟨name, .function inputs outputs⟩ ∈ qs) ∨
        (b.functions.lookup name).isSome = true → (r.functions.lookup name).isSome = true) ∧
      ∀ name i, r.functions.lookup name = some i → i.Known p := by
  induction qs generalizing as b with
  | nil =>
    cases h
    exact ⟨rfl, by simp, by simp, hknown⟩
  | cons q qs ih =>
    cases as with
    | nil => simp at hlength
    | cons a as =>
      obtain ⟨key, type⟩ := q
      have hlength' : as.length = qs.length := by simpa using hlength
      cases type with
      | integer =>
        cases a with
        | function i => cases h
        | integer value =>
          obtain ⟨hinterfaces, hintegers, hfunctions, hknown'⟩ :=
            ih (b := b.bindInteger key value) hlength' has.2 hknown h
          refine ⟨hinterfaces, ?_, ?_, hknown'⟩
          · intro name hname
            apply hintegers name
            rcases hname with hname | hname
            · rcases List.mem_cons.mp hname with heq | hname
              · cases heq
                exact .inr (isSome_lookup_cons (.inl rfl))
              · exact .inl hname
            · exact .inr (isSome_lookup_cons (.inr hname))
          · rintro name (⟨inputs, outputs, hname⟩ | hname)
            · rcases List.mem_cons.mp hname with heq | hname
              · cases heq
              · exact hfunctions name (.inl ⟨inputs, outputs, hname⟩)
            · exact hfunctions name (.inr hname)
      | function inputs outputs =>
        cases a with
        | integer value => cases h
        | function i =>
          have hbound : ∀ name j, (b.bindFunction key i).functions.lookup name = some j →
              j.Known p := by
            intro name j hj
            rw [Bindings.bindFunction, List.lookup_cons] at hj
            split at hj
            · cases hj
              exact has.1
            · exact hknown name j hj
          obtain ⟨hinterfaces, hintegers, hfunctions, hknown'⟩ :=
            ih (b := b.bindFunction key i) hlength' has.2 hbound h
          refine ⟨hinterfaces, ?_, ?_, hknown'⟩
          · rintro name (hname | hname)
            · rcases List.mem_cons.mp hname with heq | hname
              · cases heq
              · exact hintegers name (.inl hname)
            · exact hintegers name (.inr hname)
          · rintro name (⟨inputs', outputs', hname⟩ | hname)
            · apply hfunctions name
              rcases List.mem_cons.mp hname with heq | hname
              · cases heq
                exact .inr (isSome_lookup_cons (.inl rfl))
              · exact .inl ⟨inputs', outputs', hname⟩
            · exact hfunctions name (.inr (isSome_lookup_cons (.inr hname)))

lemma Generics.ordinary_of_bindParameters {owner : String} {b : Bindings} {qs : List Parameter}
    {as : List Argument} {e : BuildError} (h : bindParameters owner b qs as = .error e) :
    e.Ordinary := by
  induction qs generalizing as b with
  | nil => cases h
  | cons q qs ih =>
    cases as with
    | nil => cases h
    | cons a as =>
      obtain ⟨key, type⟩ := q
      cases type with
      | integer =>
        cases a with
        | integer value => exact ih (b := b.bindInteger key value) h
        | function i =>
          cases h
          trivial
      | function inputs outputs =>
        cases a with
        | integer value =>
          cases h
          trivial
        | function i => exact ih (b := b.bindFunction key i) h

lemma Bindings.lookup_bindInterfaces {b : Bindings} {names : List String} {ss : List Shape}
    (hlength : ss.length = names.length) {name : String}
    (h : name ∈ names ∨ (b.interfaces.lookup name).isSome = true) :
    (((names.zip ss).foldl (fun b (name, s) => b.bindInterface name s) b).interfaces.lookup
      name).isSome = true := by
  induction names generalizing b ss with
  | nil => simpa using h
  | cons key names ih =>
    cases ss with
    | nil => simp at hlength
    | cons s ss =>
      apply ih (b := b.bindInterface key s) (by simpa using hlength)
      rcases h with h | h
      · rcases List.mem_cons.mp h with rfl | h
        · exact .inr (isSome_lookup_cons (.inl rfl))
        · exact .inl h
      · exact .inr (isSome_lookup_cons (.inr h))

lemma Bindings.functions_bindInterfaces (b : Bindings) (l : List (String × Shape)) :
    (l.foldl (fun b (name, s) => b.bindInterface name s) b).functions = b.functions := by
  induction l generalizing b with
  | nil => rfl
  | cons f l ih => exact ih (b.bindInterface f.1 f.2)

lemma Generics.bindValues_yields (owner : String) (ss : List Shape) {as : List Argument}
    (has : Invocation.ArgumentsKnown p as) :
    Yields (Bindings.Covers p g) (liftM (g.bindValues owner ss as)) := by
  unfold bindValues
  split
  · exact yields_liftM nofun fun e he => by cases he; trivial
  · next hinterfaces =>
    split
    · exact yields_liftM nofun fun e he => by cases he; trivial
    · next hparameters =>
      rw [not_not] at hinterfaces hparameters
      apply yields_liftM
      · intro r hr
        have hempty : ∀ name i,
            ((g.interfaces.zip ss).foldl (fun b (name, s) => b.bindInterface name s)
              Bindings.empty).functions.lookup name = some i → i.Known p := by
          intro name i hi
          rw [Bindings.functions_bindInterfaces] at hi
          cases hi
        obtain ⟨hsame, hintegers, hfunctions, hknown⟩ :=
          bindParameters_covers hparameters has hempty hr
        refine ⟨?_, fun name hname => hintegers name (.inl hname),
          fun name hname => hfunctions name (.inl hname), hknown⟩
        intro name hname
        rw [hsame]
        exact Bindings.lookup_bindInterfaces hinterfaces (.inl hname)
      · exact fun e he => ordinary_of_bindParameters he

lemma Generics.checkSignature_yields (hu : u.Knows p) (hb : b.Covers p g) (owner : String)
    {q : Parameter} (hq : q.Scoped p g) :
    Yields (fun _ => True) (checkSignature p u owner b q) := by
  obtain ⟨name, type⟩ := q
  unfold checkSignature
  cases type with
  | integer => cases b.functions.lookup name <;> exact yields_pure trivial
  | function inputs outputs =>
    cases hi : b.functions.lookup name with
    | none => exact yields_pure trivial
    | some i =>
      apply (InterfaceExpr.expandPorts_yields hu hb inputs hq.1).bind
      intro ss _
      apply (InterfaceExpr.expandPorts_yields hu hb outputs hq.2).bind
      intro ts _
      apply (hu.ports i (hb.known name i hi)).bind
      intro found _
      dsimp only
      split
      · exact yields_pure trivial
      · exact yields_throw trivial

lemma Generics.bind_yields (hu : u.Knows p) (hg : g.Scoped p) (owner : String) (ss : List Shape)
    {as : List Argument} (has : Invocation.ArgumentsKnown p as) :
    Yields (Bindings.Covers p g) (g.bind p u owner ss as) := by
  apply (bindValues_yields owner ss has).bind
  intro b hb
  have hchecks : ∀ qs : List Parameter, (∀ q ∈ qs, q.Scoped p g) →
      Yields (fun _ => True) (qs.forM (checkSignature p u owner b)) := by
    intro qs hqs
    induction qs with
    | nil => exact yields_pure trivial
    | cons q rest ih =>
      rw [List.forall_mem_cons] at hqs
      exact (checkSignature_yields hu hb owner hqs.1).bind fun _ _ => ih hqs.2
  apply (hchecks g.parameters hg).bind
  intro _ _
  exact yields_pure hb

/-! ### Opening definitions -/

lemma InterfaceDefinition.expand_yields (hu : u.Knows p) {d : InterfaceDefinition}
    (hd : d.Scoped p) (active : List String) (ss : List Shape) {as : List Argument}
    (has : Invocation.ArgumentsKnown p as) : Yields (fun _ => True) (d.expand p u active ss as) := by
  apply (Generics.bind_yields hu hd.1 d.name ss has).bind
  intro b hb
  have hbody := hd.2
  cases hcase : d.body with
  | «alias» e =>
    rw [hcase] at hbody
    exact InterfaceExpr.expandIn_yields hu hb _ e hbody
  | record members =>
    rw [hcase] at hbody
    apply (InterfaceExpr.expandListIn_yields hu hb _ _ hbody).bind
    intro shapes _
    exact yields_pure trivial

/-- The ports of a signature fit. -/
def Signature.Fits (σ : Signature) : Prop :=
  ∀ port ∈ σ.inputs ++ σ.outputs, port.Fits

lemma Signature.fits_iff {σ : Signature} : σ.fits = true ↔ σ.Fits := by
  simp [fits, Fits, Port.fits, Port.Fits, or_imp, forall_and]

lemma Node.fits_iff {n : Node} :
    n.signature.fits = true ↔ ∀ side, ∀ port ∈ n.ports side, port.Fits := by
  rw [Signature.fits_iff, Signature.Fits, List.forall_mem_append]
  constructor
  · rintro ⟨hinputs, houtputs⟩ side
    cases side with
    | input => exact hinputs
    | output => exact houtputs
  · intro h
    exact ⟨h .input, h .output⟩

lemma FunctionDefinition.signature_yields (hu : u.Knows p) {d : FunctionDefinition}
    (hd : d.Scoped p) (hb : b.Covers p d.generics) :
    Yields Signature.Fits (d.signature p u b) := by
  apply (FunctionPort.expandList_yields hu hb hd.inputs).bind
  intro inputs hinputs
  apply (FunctionPort.expandList_yields hu hb hd.outputs).bind
  intro outputs houtputs
  apply yields_pure
  intro port hport
  rcases List.mem_append.mp hport with hport | hport
  · exact hinputs port hport
  · exact houtputs port hport

lemma Invocation.ports_yields (hp : p.Scoped) (hu : u.Knows p) {i : Invocation} (hi : i.Known p) :
    Yields (fun _ => True) (i.ports p u) := by
  obtain ⟨⟨callee, hcallee⟩, hparameters⟩ := known_iff.mp hi
  unfold Invocation.ports
  rw [hcallee]
  cases callee with
  | primitive op =>
    apply (yields_liftM (Q := fun _ => True) (fun _ _ => trivial)
      fun e he => Primitive.ordinary_of_ofCall he).bind
    intro q _
    exact yields_pure trivial
  | function d =>
    have hd := hp.function _ d hcallee
    apply (Generics.bind_yields hu hd.generics d.name i.interfaces hparameters).bind
    intro b hb
    exact (FunctionDefinition.signature_yields hu hd hb).imp fun _ _ => trivial

end

/-- A program whose names are known is expanded without a missing name, to any depth. -/
theorem Program.unfolding_knows {p : Program} (hp : p.Scoped) (depth : Nat) :
    (p.unfolding depth).Knows p := by
  induction depth with
  | zero =>
    constructor
    · intro active name d ss as _ _ r hr
      cases hr
    · intro i _ r hr
      cases hr
  | succ depth ih =>
    constructor
    · intro active name d ss as hd has
      exact InterfaceDefinition.expand_yields ih (hp.interface name d hd) active ss has
    · intro i hi
      exact Invocation.ports_yields hp ih hi

end NetlistCompiler
