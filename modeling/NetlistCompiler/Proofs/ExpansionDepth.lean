import Mathlib
import NetlistCompiler.Proofs.ExpansionLikeness
import NetlistCompiler.Proofs.KnownNames

/-!
# How deep expansion goes

Definitions that are being opened are remembered, so that an interface that is made of itself is an
error. But the functions that are passed as generic values, the signatures that they are checked
against and the ports of functions are expanded from the start, with nothing remembered. Expansion
has an outcome whenever definitions can be ranked such that names that are met on these ways have a
smaller rank. Without such a ranking it can go on without end.
-/

namespace NetlistCompiler

namespace Expand

variable {α β : Type} {Q : α → Prop} {R : β → Prop}

/-- From some depth on an expansion has one and the same outcome, an error or a value with a
property. -/
def Settles (x : Nat → Expand α) (Q : α → Prop) : Prop :=
  ∃ r limit, (∀ depth, limit ≤ depth → (x depth).run = some r) ∧ ∀ a, r = .ok a → Q a

lemma settles_pure {a : α} (h : Q a) : Settles (fun _ => (pure a : Expand α)) Q := by
  refine ⟨.ok a, 0, fun _ _ => rfl, ?_⟩
  rintro _ ⟨⟩
  exact h

lemma settles_throw (e : BuildError) : Settles (fun _ => (throw e : Expand α)) Q :=
  ⟨.error e, 0, fun _ _ => rfl, nofun⟩

lemma settles_liftM {x : Except BuildError α} (h : ∀ a, x = .ok a → Q a) :
    Settles (fun _ => (liftM x : Expand α)) Q := by
  cases x with
  | error e => exact settles_throw e
  | ok a => exact settles_pure (h a rfl)

lemma Settles.bind {x : Nat → Expand α} {f : Nat → α → Expand β} (hx : Settles x Q)
    (hf : ∀ a, Q a → Settles (fun depth => f depth a) R) :
    Settles (fun depth => x depth >>= f depth) R := by
  obtain ⟨r, limit, hrun, hvalue⟩ := hx
  cases r with
  | error e =>
    refine ⟨.error e, limit, ?_, nofun⟩
    intro depth hdepth
    rw [run_bind_expand, hrun depth hdepth]
  | ok a =>
    obtain ⟨r', limit', hrun', hvalue'⟩ := hf a (hvalue a rfl)
    refine ⟨r', max limit limit', ?_, hvalue'⟩
    intro depth hdepth
    rw [run_bind_expand, hrun depth (by omega)]
    exact hrun' depth (by omega)

/-- What settles one level further down settles. -/
lemma Settles.of_succ {x y : Nat → Expand α} (hx : Settles x Q)
    (hstep : ∀ depth, y (depth + 1) = x depth) : Settles y Q := by
  obtain ⟨r, limit, hrun, hvalue⟩ := hx
  refine ⟨r, limit + 1, ?_, hvalue⟩
  intro depth hdepth
  obtain ⟨depth, rfl⟩ : ∃ d, depth = d + 1 := ⟨depth - 1, by omega⟩
  rw [hstep]
  exact hrun depth (by omega)

lemma settles_mapM {γ : Type} {f : Nat → γ → Expand α} {cs : List γ}
    (h : ∀ c ∈ cs, Settles (fun depth => f depth c) Q) :
    Settles (fun depth => cs.mapM (f depth)) fun _ => True := by
  induction cs with
  | nil => exact settles_pure trivial
  | cons c cs ih =>
    simp only [List.mapM_cons]
    apply (h c (by simp)).bind
    intro a _
    apply (ih fun c' hc' => h c' (by simp [hc'])).bind
    intro as _
    exact settles_pure trivial

lemma settles_forM {γ : Type} {f : Nat → γ → Expand Unit} {cs : List γ}
    (h : ∀ c ∈ cs, Settles (fun depth => f depth c) fun _ => True) :
    Settles (fun depth => cs.forM (f depth)) fun _ => True := by
  induction cs with
  | nil => exact settles_pure trivial
  | cons c cs ih =>
    change Settles (fun depth => f depth c >>= fun _ => cs.forM (f depth)) _
    apply (h c (by simp)).bind
    intro _ _
    exact ih fun c' hc' => h c' (by simp [hc'])

end Expand

open Expand

/-! ### Names in expressions -/

/-- A name with what it is the name of. -/
inductive DefinitionName where
  | interface (name : String)
  | function (name : String)
  deriving DecidableEq

mutual

/-- The interfaces that the expansion of an expression opens while what is being opened is
remembered. -/
def InterfaceExpr.opened : InterfaceExpr → List String
  | .wire => []
  | .vector element _ => element.opened
  | .generic _ => []
  | .defined name interfaces _ => name :: InterfaceExpr.openedList interfaces

def InterfaceExpr.openedList : List InterfaceExpr → List String
  | [] => []
  | e :: rest => e.opened ++ InterfaceExpr.openedList rest

end

mutual

/-- The names in functions that are passed as generic values. -/
def InterfaceExpr.passed : InterfaceExpr → List DefinitionName
  | .wire => []
  | .vector element _ => element.passed
  | .generic _ => []
  | .defined _ interfaces parameters =>
    InterfaceExpr.passedList interfaces ++ ArgumentExpr.definitionsList parameters

def InterfaceExpr.passedList : List InterfaceExpr → List DefinitionName
  | [] => []
  | e :: rest => e.passed ++ InterfaceExpr.passedList rest

def ArgumentExpr.definitions : ArgumentExpr → List DefinitionName
  | .static _ => []
  | .instantiation value => value.definitions
  | .reference _ => []

def ArgumentExpr.definitionsList : List ArgumentExpr → List DefinitionName
  | [] => []
  | a :: rest => a.definitions ++ ArgumentExpr.definitionsList rest

def Instantiation.definitions : Instantiation → List DefinitionName
  | ⟨function, interfaces, parameters⟩ =>
    .function function :: ((InterfaceExpr.openedList interfaces).map .interface ++
      InterfaceExpr.passedList interfaces ++ ArgumentExpr.definitionsList parameters)

end

/-- All names in an expression. -/
def InterfaceExpr.definitions (e : InterfaceExpr) : List DefinitionName :=
  e.opened.map .interface ++ e.passed

/-- The interfaces in the declared signatures of function parameters. -/
def Generics.signatures (g : Generics) : List InterfaceExpr :=
  g.parameters.flatMap fun q =>
    match q.type with
    | .integer => []
    | .function inputs outputs => inputs ++ outputs

/-- The interfaces that a definition is made of. -/
def InterfaceBody.members : InterfaceBody → List InterfaceExpr
  | .alias e => [e]
  | .record members => members.map Prod.snd

/-- The interfaces in the head of a function. -/
def FunctionDefinition.head (d : FunctionDefinition) : List InterfaceExpr :=
  d.generics.signatures ++ (d.inputs ++ d.outputs).map FunctionPort.interface

/-- Every definition has a greater rank than the names that expansion meets from the start once the
definition is opened. An interface can be made of interfaces of its own rank. -/
structure Program.Ranked (p : Program) (rank : DefinitionName → Nat) : Prop where
  opened : ∀ d ∈ p.interfaces, ∀ e ∈ d.body.members, ∀ n ∈ e.opened,
    rank (.interface n) ≤ rank (.interface d.name)
  passed : ∀ d ∈ p.interfaces, ∀ e ∈ d.body.members, ∀ n ∈ e.passed,
    rank n < rank (.interface d.name)
  signatures : ∀ d ∈ p.interfaces, ∀ e ∈ d.generics.signatures, ∀ n ∈ e.definitions,
    rank n < rank (.interface d.name)
  heads : ∀ d ∈ p.functions, ∀ e ∈ d.head, ∀ n ∈ e.definitions, rank n < rank (.function d.name)

/-! ### Expressions -/

/-- The ports of an invocation have an outcome. -/
def Invocation.Settled (p : Program) (i : Invocation) : Prop :=
  Settles (fun depth => (p.unfolding depth).ports i) fun _ => True

def ArgumentSettled (p : Program) (a : Argument) : Prop :=
  ∀ i, a = .function i → i.Settled p

def Bindings.Settled (p : Program) (b : Bindings) : Prop :=
  ∀ name i, b.functions.lookup name = some i → i.Settled p

/-- Opening an interface has an outcome, given what is being opened. -/
def Program.Opens (p : Program) (active : List String) (name : String) : Prop :=
  ∀ d shapes arguments, p.interface? name = some d → active.contains name = false →
    (∀ a ∈ arguments, ArgumentSettled p a) →
    Settles (fun depth => (p.unfolding depth).interface active d shapes arguments) fun _ => True

/-- Whatever opens a definition has an outcome. -/
def DefinitionName.Settled (p : Program) : DefinitionName → Prop
  | .interface name => ∀ active, p.Opens active name
  | .function name => ∀ shapes arguments, (∀ a ∈ arguments, ArgumentSettled p a) →
    Invocation.Settled p ⟨name, shapes, arguments⟩

section

variable {p : Program} {b : Bindings}

lemma argumentSettled_integer (value : Int64) : ArgumentSettled p (.integer value) := nofun

lemma argumentSettled_function {i : Invocation} (h : i.Settled p) :
    ArgumentSettled p (.function i) := by
  rintro _ ⟨⟩
  exact h

mutual

lemma InterfaceExpr.settles_expandIn (hb : b.Settled p) (active : List String) :
    ∀ e : InterfaceExpr, (∀ n ∈ e.opened, p.Opens active n) → (∀ n ∈ e.passed, n.Settled p) →
    Settles (fun depth => e.expandIn p (p.unfolding depth) b active) fun _ => True
  | .wire, _, _ => by
    simp only [InterfaceExpr.expandIn]
    exact settles_pure trivial
  | .vector element size, hopened, hpassed => by
    simp only [InterfaceExpr.expandIn]
    apply (settles_liftM fun _ _ => trivial).bind
    intro value _
    apply (settles_liftM fun _ _ => trivial).bind
    intro n _
    rw [InterfaceExpr.opened] at hopened
    rw [InterfaceExpr.passed] at hpassed
    apply (InterfaceExpr.settles_expandIn hb active element hopened hpassed).bind
    intro s _
    exact settles_pure trivial
  | .generic name, _, _ => by
    simp only [InterfaceExpr.expandIn]
    split
    · exact settles_pure trivial
    · exact settles_throw _
  | .defined name interfaces parameters, hopened, hpassed => by
    simp only [InterfaceExpr.expandIn]
    rw [InterfaceExpr.opened] at hopened
    rw [InterfaceExpr.passed] at hpassed
    split
    · exact settles_throw _
    · next d hd =>
      split
      · exact settles_throw _
      · next hactive =>
        apply (InterfaceExpr.settles_expandListIn hb active interfaces
          (fun n hn => hopened n (by simp [hn])) fun n hn => hpassed n (by simp [hn])).bind
        intro shapes _
        apply (ArgumentExpr.settles_expandList hb parameters
          fun n hn => hpassed n (by simp [hn])).bind
        intro arguments harguments
        exact hopened name (by simp) d shapes arguments hd (by simpa using hactive) harguments

lemma InterfaceExpr.settles_expandListIn (hb : b.Settled p) (active : List String) :
    ∀ es : List InterfaceExpr, (∀ n ∈ InterfaceExpr.openedList es, p.Opens active n) →
    (∀ n ∈ InterfaceExpr.passedList es, n.Settled p) →
    Settles (fun depth => InterfaceExpr.expandListIn p (p.unfolding depth) b active es)
      fun _ => True
  | [], _, _ => by
    simp only [InterfaceExpr.expandListIn]
    exact settles_pure trivial
  | e :: rest, hopened, hpassed => by
    simp only [InterfaceExpr.expandListIn]
    rw [InterfaceExpr.openedList] at hopened
    rw [InterfaceExpr.passedList] at hpassed
    apply (InterfaceExpr.settles_expandIn hb active e (fun n hn => hopened n (by simp [hn]))
      fun n hn => hpassed n (by simp [hn])).bind
    intro s _
    apply (InterfaceExpr.settles_expandListIn hb active rest (fun n hn => hopened n (by simp [hn]))
      fun n hn => hpassed n (by simp [hn])).bind
    intro shapes _
    exact settles_pure trivial

lemma ArgumentExpr.settles_expand (hb : b.Settled p) :
    ∀ a : ArgumentExpr, (∀ n ∈ a.definitions, n.Settled p) →
    Settles (fun depth => a.expand p (p.unfolding depth) b) (ArgumentSettled p)
  | .static value, _ => by
    simp only [ArgumentExpr.expand]
    apply (settles_liftM fun _ _ => trivial).bind
    intro value _
    exact settles_pure (argumentSettled_integer value)
  | .instantiation value, hnames => by
    simp only [ArgumentExpr.expand]
    rw [ArgumentExpr.definitions] at hnames
    apply (Instantiation.settles_expand hb value hnames).bind
    intro i hi
    exact settles_pure (argumentSettled_function hi)
  | .reference name, _ => by
    simp only [ArgumentExpr.expand]
    split
    · next i hlookup => exact settles_pure (argumentSettled_function (hb name i hlookup))
    · exact settles_throw _

lemma ArgumentExpr.settles_expandList (hb : b.Settled p) :
    ∀ as : List ArgumentExpr, (∀ n ∈ ArgumentExpr.definitionsList as, n.Settled p) →
    Settles (fun depth => ArgumentExpr.expandList p (p.unfolding depth) b as)
      fun arguments => ∀ a ∈ arguments, ArgumentSettled p a
  | [], _ => by
    simp only [ArgumentExpr.expandList]
    exact settles_pure (by simp)
  | a :: rest, hnames => by
    simp only [ArgumentExpr.expandList]
    rw [ArgumentExpr.definitionsList] at hnames
    apply (ArgumentExpr.settles_expand hb a fun n hn => hnames n (by simp [hn])).bind
    intro value hvalue
    apply (ArgumentExpr.settles_expandList hb rest fun n hn => hnames n (by simp [hn])).bind
    intro arguments harguments
    exact settles_pure (by simpa using ⟨hvalue, harguments⟩)

lemma Instantiation.settles_expand (hb : b.Settled p) :
    ∀ i : Instantiation, (∀ n ∈ i.definitions, n.Settled p) →
    Settles (fun depth => i.expand p (p.unfolding depth) b) (Invocation.Settled p)
  | ⟨function, interfaces, parameters⟩, hnames => by
    simp only [Instantiation.expand]
    rw [Instantiation.definitions] at hnames
    apply (InterfaceExpr.settles_expandPorts hb interfaces
      (fun n hn => hnames (.interface n) (by simp [hn])) fun n hn => hnames n (by simp [hn])).bind
    intro shapes _
    apply (ArgumentExpr.settles_expandList hb parameters fun n hn => hnames n (by simp [hn])).bind
    intro arguments harguments
    exact settles_pure (hnames (.function function) (by simp) shapes arguments harguments)

lemma InterfaceExpr.settles_expandPorts (hb : b.Settled p) :
    ∀ es : List InterfaceExpr,
    (∀ n ∈ InterfaceExpr.openedList es, (DefinitionName.interface n).Settled p) →
    (∀ n ∈ InterfaceExpr.passedList es, n.Settled p) →
    Settles (fun depth => InterfaceExpr.expandPorts p (p.unfolding depth) b es) fun _ => True
  | [], _, _ => by
    simp only [InterfaceExpr.expandPorts]
    exact settles_pure trivial
  | e :: rest, hopened, hpassed => by
    simp only [InterfaceExpr.expandPorts]
    rw [InterfaceExpr.openedList] at hopened
    rw [InterfaceExpr.passedList] at hpassed
    apply (InterfaceExpr.settles_expandIn hb [] e (fun n hn => hopened n (by simp [hn]) [])
      fun n hn => hpassed n (by simp [hn])).bind
    intro s _
    apply (settles_liftM fun _ _ => trivial).bind
    intro s _
    apply (InterfaceExpr.settles_expandPorts hb rest (fun n hn => hopened n (by simp [hn]))
      fun n hn => hpassed n (by simp [hn])).bind
    intro shapes _
    exact settles_pure trivial

end

/-- An expression all of whose names settle has an outcome on its own. -/
lemma InterfaceExpr.settles_expand (hb : b.Settled p) {e : InterfaceExpr}
    (hnames : ∀ n ∈ e.definitions, n.Settled p) :
    Settles (fun depth => e.expand p (p.unfolding depth) b) fun _ => True := by
  apply (InterfaceExpr.settles_expandIn hb [] e
    (fun n hn => hnames (.interface n) (by simp [InterfaceExpr.definitions, hn]) [])
    fun n hn => hnames n (by simp [InterfaceExpr.definitions, hn])).bind
  intro s _
  exact settles_liftM fun _ _ => trivial

lemma mem_openedList {es : List InterfaceExpr} {n : String} :
    n ∈ InterfaceExpr.openedList es ↔ ∃ e ∈ es, n ∈ e.opened := by
  induction es with
  | nil => simp [InterfaceExpr.openedList]
  | cons e es ih => simp [InterfaceExpr.openedList, ih]

lemma mem_passedList {es : List InterfaceExpr} {n : DefinitionName} :
    n ∈ InterfaceExpr.passedList es ↔ ∃ e ∈ es, n ∈ e.passed := by
  induction es with
  | nil => simp [InterfaceExpr.passedList]
  | cons e es ih => simp [InterfaceExpr.passedList, ih]

/-! ### Definitions -/

namespace Generics

variable {g : Generics} {owner : String} {shapes : List Shape} {arguments : List Argument}

lemma bindParameters_functions {qs : List Parameter} {b₀ : Bindings}
    (hb₀ : b₀.Settled p) (harguments : ∀ a ∈ arguments, ArgumentSettled p a)
    (h : bindParameters owner b₀ qs arguments = .ok b) : b.Settled p := by
  induction arguments generalizing qs b₀ with
  | nil =>
    cases qs with
    | nil =>
      cases h
      exact hb₀
    | cons q qs =>
      cases h
      exact hb₀
  | cons a as ih =>
    cases qs with
    | nil =>
      cases h
      exact hb₀
    | cons q qs =>
      obtain ⟨name, type⟩ := q
      have hrest : ∀ a' ∈ as, ArgumentSettled p a' := fun a' ha' => harguments a' (by simp [ha'])
      cases a with
      | integer value =>
        cases type with
        | integer =>
          have hbound : (b₀.bindInteger name value).Settled p := hb₀
          exact ih hbound hrest h
        | function inputs outputs => cases h
      | function i =>
        cases type with
        | integer => cases h
        | function inputs outputs =>
          refine ih ?_ hrest h
          intro key j hj
          rw [Bindings.bindFunction, List.lookup_cons] at hj
          split at hj
          · cases hj
            exact harguments (.function i) (by simp) i rfl
          · exact hb₀ key j hj

/-- The functions that are bound are those that were passed. -/
lemma settled_bindValues (harguments : ∀ a ∈ arguments, ArgumentSettled p a)
    (h : g.bindValues owner shapes arguments = .ok b) : b.Settled p := by
  refine bindParameters_functions ?_ harguments (bindValues_eq_ok_iff.mp h).2
  intro name i hi
  rw [Bindings.functions_bindInterfaces] at hi
  cases hi

lemma settles_checkSignature (hb : b.Settled p) {q : Parameter} (hq : q ∈ g.parameters)
    (hnames : ∀ e ∈ g.signatures, ∀ n ∈ e.definitions, n.Settled p) :
    Settles (fun depth => checkSignature p (p.unfolding depth) owner b q) fun _ => True := by
  unfold checkSignature
  split
  · next inputs outputs i htype hlookup =>
    have hmem : ∀ e, e ∈ inputs ∨ e ∈ outputs → e ∈ g.signatures := by
      intro e he
      refine List.mem_flatMap.mpr ⟨q, hq, ?_⟩
      rw [htype]
      exact List.mem_append.mpr he
    have hports : ∀ es : List InterfaceExpr, (∀ e ∈ es, e ∈ g.signatures) →
        Settles (fun depth => InterfaceExpr.expandPorts p (p.unfolding depth) b es)
          fun _ => True := by
      intro es hes
      apply InterfaceExpr.settles_expandPorts hb
      · intro n hn
        obtain ⟨e, he, hn⟩ := mem_openedList.mp hn
        exact hnames e (hes e he) (.interface n) (by simp [InterfaceExpr.definitions, hn])
      · intro n hn
        obtain ⟨e, he, hn⟩ := mem_passedList.mp hn
        exact hnames e (hes e he) n (by simp [InterfaceExpr.definitions, hn])
    apply (hports inputs fun e he => hmem e (.inl he)).bind
    intro expectedInputs _
    apply (hports outputs fun e he => hmem e (.inr he)).bind
    intro expectedOutputs _
    apply (hb q.name i hlookup).bind
    intro found _
    dsimp only
    split
    · exact settles_pure trivial
    · exact settles_throw _
  · exact settles_pure trivial

lemma settles_bind (harguments : ∀ a ∈ arguments, ArgumentSettled p a)
    (hnames : ∀ e ∈ g.signatures, ∀ n ∈ e.definitions, n.Settled p) :
    Settles (fun depth => g.bind p (p.unfolding depth) owner shapes arguments)
      (Bindings.Settled p) := by
  unfold Generics.bind
  apply (settles_liftM fun b hb => settled_bindValues harguments hb).bind
  intro b hb
  apply (settles_forM fun q hq => settles_checkSignature hb hq hnames).bind
  intro _ _
  exact settles_pure hb

end Generics

/-- The ports of a function settle if all names in its head do. -/
lemma FunctionDefinition.settles_signature {d : FunctionDefinition} (hb : b.Settled p)
    (hnames : ∀ e ∈ d.head, ∀ n ∈ e.definitions, n.Settled p) :
    Settles (fun depth => d.signature p (p.unfolding depth) b) fun _ => True := by
  have hports : ∀ ports : List FunctionPort, (∀ port ∈ ports, port ∈ d.inputs ++ d.outputs) →
      Settles (fun depth => FunctionPort.expandList p (p.unfolding depth) b ports)
        fun _ => True := by
    intro ports hmem
    unfold FunctionPort.expandList
    refine settles_mapM (Q := fun _ => True) ?_
    intro port hport
    have hhead : port.interface ∈ d.head :=
      List.mem_append_right _ (List.mem_map_of_mem (hmem port hport))
    apply (InterfaceExpr.settles_expand hb (hnames _ hhead)).bind
    intro s _
    exact settles_pure trivial
  unfold FunctionDefinition.signature
  apply (hports d.inputs fun port hport => List.mem_append_left _ hport).bind
  intro inputs _
  apply (hports d.outputs fun port hport => List.mem_append_right _ hport).bind
  intro outputs _
  exact settles_pure trivial

end

namespace Program

variable {p : Program} {rank : DefinitionName → Nat}

lemma mem_of_interface? {name : String} {d : InterfaceDefinition} (h : p.interface? name = some d) :
    d ∈ p.interfaces ∧ d.name = name := by
  refine ⟨List.mem_of_find?_eq_some h, ?_⟩
  simpa using List.find?_some h

lemma name_of_callee {name : String} {d : FunctionDefinition}
    (h : p.callee name = .ok (.function d)) : d.name = name := by
  unfold callee at h
  split at h
  · next d' hd' =>
    cases h
    simpa using List.find?_some hd'
  · split at h
    · cases h
    · cases h

/-- A function settles if all names of smaller rank do. -/
lemma Ranked.settled_function (h : p.Ranked rank) {name : String}
    (ih : ∀ n, rank n < rank (.function name) → n.Settled p) :
    (DefinitionName.function name).Settled p := by
  intro shapes arguments harguments
  refine Settles.of_succ (x := fun depth => Invocation.ports p (p.unfolding depth)
    ⟨name, shapes, arguments⟩) ?_ fun _ => rfl
  unfold Invocation.ports
  refine Settles.bind (settles_liftM (Q := fun c => p.callee name = .ok c) fun c hc => hc) ?_
  intro c hc
  cases c with
  | primitive op =>
    apply (settles_liftM fun _ _ => trivial).bind
    intro primitive _
    exact settles_pure trivial
  | function d =>
    have hmem := mem_of_callee hc
    obtain rfl := name_of_callee hc
    have hnames : ∀ e ∈ d.head, ∀ n ∈ e.definitions, n.Settled p :=
      fun e he n hn => ih n (h.heads d hmem e he n hn)
    apply (Generics.settles_bind harguments
      fun e he => hnames e (List.mem_append_left _ he)).bind
    intro b hb
    exact FunctionDefinition.settles_signature hb hnames

/-- The number of interfaces that can still be opened. -/
def unopened (p : Program) (active : List String) : Nat :=
  ((p.interfaces.map InterfaceDefinition.name).toFinset \ active.toFinset).card

lemma unopened_lt {active : List String} {d : InterfaceDefinition} (hd : d ∈ p.interfaces)
    (hactive : active.contains d.name = false) :
    p.unopened (d.name :: active) < p.unopened active := by
  have hname : d.name ∉ active := by simpa using hactive
  have hleft : d.name ∈ (p.interfaces.map InterfaceDefinition.name).toFinset \ active.toFinset := by
    simp only [Finset.mem_sdiff, List.mem_toFinset]
    exact ⟨List.mem_map_of_mem hd, hname⟩
  unfold unopened
  rw [List.toFinset_cons, Finset.sdiff_insert]
  exact Finset.card_erase_lt_of_mem hleft

/-- An interface settles if all names of smaller rank do. Interfaces of the same rank are opened
while fewer and fewer are left. -/
lemma Ranked.settled_interface (h : p.Ranked rank) {name : String}
    (ih : ∀ n, rank n < rank (.interface name) → n.Settled p) :
    (DefinitionName.interface name).Settled p := by
  intro active
  induction hcount : p.unopened active using Nat.strong_induction_on generalizing active name with
  | _ count ihcount =>
    intro d shapes arguments hd hactive harguments
    obtain ⟨hmem, rfl⟩ := mem_of_interface? hd
    have hopened : ∀ e ∈ d.body.members, ∀ n ∈ e.opened, p.Opens (d.name :: active) n := by
      intro e he n hn
      rcases Nat.lt_or_eq_of_le (h.opened d hmem e he n hn) with hlt | heq
      · exact ih (.interface n) hlt _
      · refine ihcount _ (hcount ▸ unopened_lt hmem hactive) ?_ _ rfl
        intro n' hn'
        exact ih n' (heq ▸ hn')
    have hpassed : ∀ e ∈ d.body.members, ∀ n ∈ e.passed, n.Settled p :=
      fun e he n hn => ih n (h.passed d hmem e he n hn)
    refine Settles.of_succ (x := fun depth => InterfaceDefinition.expand p (p.unfolding depth)
      active d shapes arguments) ?_ fun _ => rfl
    unfold InterfaceDefinition.expand
    apply (Generics.settles_bind harguments
      fun e he n hn => ih n (h.signatures d hmem e he n hn)).bind
    intro b hb
    split
    · next e hbody =>
      rw [hbody] at hopened hpassed
      exact InterfaceExpr.settles_expandIn hb _ e (hopened e (by simp [InterfaceBody.members]))
        (hpassed e (by simp [InterfaceBody.members]))
    · next members hbody =>
      rw [hbody] at hopened hpassed
      refine Settles.bind (InterfaceExpr.settles_expandListIn hb _ _ ?_ ?_) ?_
      · intro n hn
        obtain ⟨e, he, hn⟩ := mem_openedList.mp hn
        exact hopened e he n hn
      · intro n hn
        obtain ⟨e, he, hn⟩ := mem_passedList.mp hn
        exact hpassed e he n hn
      · intro shapes _
        exact settles_pure trivial

lemma Ranked.settled (h : p.Ranked rank) (n : DefinitionName) : n.Settled p := by
  induction hrank : rank n using Nat.strong_induction_on generalizing n with
  | _ r ih =>
    have hsmaller : ∀ n', rank n' < rank n → n'.Settled p :=
      fun n' hn' => ih (rank n') (hrank ▸ hn') n' rfl
    cases n with
    | interface name => exact h.settled_interface hsmaller
    | function name => exact h.settled_function hsmaller

mutual

/-- All values that a parameter can have settle, since they are made of invocations of functions. -/
lemma Ranked.settled_invocation (h : p.Ranked rank) : ∀ i : Invocation, i.Settled p
  | ⟨function, shapes, arguments⟩ =>
    h.settled (.function function) shapes arguments (h.settled_arguments arguments)

lemma Ranked.settled_arguments (h : p.Ranked rank) :
    ∀ as : List Argument, ∀ a ∈ as, ArgumentSettled p a
  | [], _, ha => by simp at ha
  | .integer value :: rest, a, ha => by
    rcases List.mem_cons.mp ha with rfl | ha
    · exact argumentSettled_integer value
    · exact h.settled_arguments rest a ha
  | .function i :: rest, a, ha => by
    rcases List.mem_cons.mp ha with rfl | ha
    · exact argumentSettled_function (h.settled_invocation i)
    · exact h.settled_arguments rest a ha

end

/-- If the definitions of a program can be ranked, the expansion of every interface expression under
any bindings ends with a structure or an error. -/
theorem expansion_ends_of_ranked (h : p.Ranked rank) (e : InterfaceExpr) (b : Bindings) :
    ∃ outcome limit, ∀ depth, limit ≤ depth →
      (e.expand p (p.unfolding depth) b).run = some outcome := by
  have hb : b.Settled p := fun _ i _ => h.settled_invocation i
  obtain ⟨outcome, limit, hrun, -⟩ := InterfaceExpr.settles_expand hb fun n (_ : n ∈ e.definitions) =>
    h.settled n
  exact ⟨outcome, limit, hrun⟩

/-- An interface that is made of itself, and one that takes a function and is passed one whose
generic value is a bus. -/
def bufferedProgram : Program :=
  ⟨[⟨"chain", ⟨[], []⟩, .record [("head", .wire), ("tail", .defined "chain" [] [])]⟩,
      ⟨"bus", ⟨[], []⟩, .alias (.vector .wire (.int 8))⟩,
      ⟨"port", ⟨[], [⟨"f", .function [.defined "bus" [] []] [.defined "bus" [] []]⟩]⟩,
        .alias (.defined "bus" [] [])⟩,
      ⟨"buffered", ⟨[], []⟩,
        .alias (.defined "port" [] [.instantiation ⟨"copy", [.defined "bus" [] []], []⟩])⟩],
    [⟨"copy", ⟨["T"], []⟩, [⟨"x", .signal, .generic "T"⟩], [⟨"y", .signal, .generic "T"⟩], []⟩]⟩

/-- Functions and interfaces that take no functions come first. -/
def bufferedRank : DefinitionName → Nat
  | .interface "port" => 1
  | .interface "buffered" => 1
  | _ => 0

theorem expansion_ends_of_ranked_buffered : bufferedProgram.Ranked bufferedRank ∧
    ∃ outcome limit, ∀ depth, limit ≤ depth →
      ((InterfaceExpr.defined "buffered" [] []).expand bufferedProgram
        (bufferedProgram.unfolding depth) .empty).run = some outcome := by
  have hranked : bufferedProgram.Ranked bufferedRank := by
    refine ⟨?_, ?_, ?_, ?_⟩ <;> decide
  exact ⟨hranked, expansion_ends_of_ranked hranked _ _⟩

/-- An interface that passes itself to a function, which it passes to another interface. -/
def ringSource : Surface.Program :=
  ⟨[⟨"ring", [], .alias (.atom "tap" [.atom "use" [.name "ring"]])⟩,
      ⟨"tap", [⟨"f", .function [] []⟩], .alias .wire⟩],
    [⟨"use", [⟨"T", .interface⟩], [], [], []⟩,
      ⟨"top", [], [⟨"a", .name "ring", .signal⟩], [], []⟩]⟩

def ringProgram : Program :=
  ⟨[⟨"ring", ⟨[], []⟩,
        .alias (.defined "tap" [] [.instantiation ⟨"use", [.defined "ring" [] []], []⟩])⟩,
      ⟨"tap", ⟨[], [⟨"f", .function [] []⟩]⟩, .alias .wire⟩],
    [⟨"use", ⟨["T"], []⟩, [], [], []⟩,
      ⟨"top", ⟨[], []⟩, [⟨"a", .signal, .defined "ring" [] []⟩], [], []⟩]⟩

/-- Opening the ring one level deeper comes back to the ring with nothing remembered. -/
lemma expandIn_ring (b : Bindings) (depth : Nat) :
    ((InterfaceExpr.defined "ring" [] []).expandIn ringProgram (ringProgram.unfolding depth) b
      []).run = none := by
  induction depth generalizing b with
  | zero => rfl
  | succ depth ih =>
    have hshapes : (InterfaceExpr.expandPorts ringProgram (ringProgram.unfolding depth) .empty
        [.defined "ring" [] []]).run = none := by
      rw [InterfaceExpr.expandPorts, run_bind_expand, ih]
    have hfunction : (Instantiation.expand ringProgram (ringProgram.unfolding depth) .empty
        ⟨"use", [.defined "ring" [] []], []⟩).run = none := by
      rw [Instantiation.expand, run_bind_expand, hshapes]
    have harguments : (ArgumentExpr.expandList ringProgram (ringProgram.unfolding depth) .empty
        [.instantiation ⟨"use", [.defined "ring" [] []], []⟩]).run = none := by
      rw [ArgumentExpr.expandList, run_bind_expand, ArgumentExpr.expand, run_bind_expand, hfunction]
    change (ArgumentExpr.expandList ringProgram (ringProgram.unfolding depth) .empty
      [.instantiation ⟨"use", [.defined "ring" [] []], []⟩] >>= fun arguments =>
        (ringProgram.unfolding depth).interface ["ring"]
          ⟨"tap", ⟨[], [⟨"f", .function [] []⟩]⟩, .alias .wire⟩ [] arguments).run = none
    rw [run_bind_expand, harguments]

/-- The expansion of a resolved program can go on without end. -/
theorem expansion_of_ring_endless : ringSource.resolve = .ok ringProgram ∧
    (∃ d ∈ ringProgram.functions, ∃ port ∈ d.inputs, port.interface = .defined "ring" [] []) ∧
    ∀ depth b, ((InterfaceExpr.defined "ring" [] []).expand ringProgram
      (ringProgram.unfolding depth) b).run = none := by
  refine ⟨rfl, ⟨_, List.mem_cons_of_mem _ (List.mem_singleton.mpr rfl), _,
    List.mem_singleton.mpr rfl, rfl⟩, ?_⟩
  intro depth b
  rw [InterfaceExpr.expand, run_bind_expand, expandIn_ring]

end Program

end NetlistCompiler
