import NetlistCompiler.Proofs.Likeness

/-!
# Expansion respects likeness

An expansion that succeeds also succeeds for alike bindings and generic values, with an alike
result. It does so at every greater depth, and at a smaller one it has the same outcome or none. The
bodies of functions play no part in it.
-/

namespace NetlistCompiler

namespace Expand

variable {α α' β β' : Type} {N : Prop}

/-- Whenever the first expansion succeeds, the second one succeeds with a related value, or it has
no outcome and `N` holds. -/
def Follows (N : Prop) (R : α → β → Prop) (x : Expand α) (y : Expand β) : Prop :=
  ∀ a, x.run = some (.ok a) → match y.run with
    | none => N
    | some (.ok b) => R a b
    | some (.error _) => False

lemma run_bind_expand (x : Expand α) (f : α → Expand β) :
    (x >>= f).run =
      match x.run with
      | none => none
      | some (.ok a) => (f a).run
      | some (.error e) => some (.error e) := by
  change Option.bind x.run _ = _
  rcases x.run with _ | (_ | _) <;> rfl

lemma exists_of_run_bind {x : Expand α} {f : α → Expand β} {b : β}
    (h : (x >>= f).run = some (.ok b)) : ∃ a, x.run = some (.ok a) ∧ (f a).run = some (.ok b) := by
  rw [run_bind_expand] at h
  generalize x.run = r at h
  rcases r with _ | (_ | a)
  · cases h
  · cases h
  · exact ⟨a, rfl, h⟩

lemma eq_ok_of_run_liftM {x : Except BuildError α} {a : α}
    (h : (liftM x : Expand α).run = some (.ok a)) : x = .ok a := by
  cases x with
  | error e => cases h
  | ok a' =>
    cases h
    rfl

lemma follows_pure {R : α → β → Prop} {a : α} {b : β} (h : R a b) :
    Follows N R (pure a : Expand α) (pure b) := by
  intro a' ha'
  cases ha'
  exact h

lemma follows_throw {R : α → β → Prop} (e : BuildError) (y : Expand β) :
    Follows N R (throw e : Expand α) y := by
  intro a ha
  cases ha

lemma Follows.bind {R : α → β → Prop} {S : α' → β' → Prop} {x : Expand α} {y : Expand β}
    {f : α → Expand α'} {g : β → Expand β'} (hxy : Follows N R x y)
    (hfg : ∀ a b, R a b → Follows N S (f a) (g b)) : Follows N S (x >>= f) (y >>= g) := by
  intro a' ha'
  obtain ⟨a, ha, hfa⟩ := exists_of_run_bind ha'
  have hy := hxy a ha
  rw [run_bind_expand]
  generalize y.run = r at hy
  rcases r with _ | (_ | b)
  · exact hy
  · exact hy
  · exact hfg a b hy a' hfa

lemma follows_liftM {R : α → β → Prop} {x : Except BuildError α} {y : Except BuildError β}
    (h : ∀ a, x = .ok a → ∃ b, y = .ok b ∧ R a b) :
    Follows N R (liftM x : Expand α) (liftM y) := by
  intro a ha
  cases x with
  | error e => cases ha
  | ok a' =>
    cases ha
    obtain ⟨b, rfl, hb⟩ := h a rfl
    exact hb

lemma follows_same (x : Except BuildError α) :
    Follows N (fun a b => a = b) (liftM x : Expand α) (liftM x) :=
  follows_liftM fun a ha => ⟨a, ha, rfl⟩

lemma follows_cons {R : α → β → Prop} {x : Expand α} {y : Expand β} {xs : Expand (List α)}
    {ys : Expand (List β)} (hx : Follows N R x y) (hxs : Follows N (List.Forall₂ R) xs ys) :
    Follows N (List.Forall₂ R) (do return (← x) :: (← xs)) (do return (← y) :: (← ys)) :=
  hx.bind fun _ _ hab => hxs.bind fun _ _ habs => follows_pure (.cons hab habs)

/-- The outcome of an expansion that follows another one. -/
lemma Follows.exists_ok {R : α → β → Prop} {x : Expand α} {y : Expand β} (h : Follows N R x y)
    (hN : ¬ N) {a : α} (ha : x.run = some (.ok a)) : ∃ b, y.run = some (.ok b) ∧ R a b := by
  have hy := h a ha
  generalize y.run = r at hy
  rcases r with _ | (_ | b)
  · exact absurd hy hN
  · exact hy.elim
  · exact ⟨b, rfl, hy⟩

lemma Follows.mono {N' : Prop} {R : α → β → Prop} {x : Expand α} {y : Expand β}
    (h : Follows N R x y) (hN : N → N') : Follows N' R x y := by
  intro a ha
  have hy := h a ha
  generalize y.run = r at hy
  rcases r with _ | (_ | b)
  · exact hN hy
  · exact hy
  · exact hy

lemma Follows.self {R : α → α → Prop} {x : Expand α} (h : Follows N R x x) (hN : ¬ N) {a : α}
    (ha : x.run = some (.ok a)) : R a a := by
  obtain ⟨b, hb, hR⟩ := h.exists_ok hN ha
  rw [ha] at hb
  cases hb
  exact hR

end Expand

open Expand Invocation

/-! ### Bindings -/

structure Bindings.Like (b b' : Bindings) : Prop where
  interfaces : ∀ name,
    Option.Rel Shape.Like (b.interfaces.lookup name) (b'.interfaces.lookup name)
  integers : ∀ name, b.integers.lookup name = b'.integers.lookup name
  functions : ∀ name,
    Option.Rel Invocation.Like (b.functions.lookup name) (b'.functions.lookup name)

namespace Bindings

variable {b b' : Bindings}

lemma like_empty : empty.Like empty :=
  ⟨fun _ => .none, fun _ => rfl, fun _ => .none⟩

lemma Like.bindInterface (h : b.Like b') (name : String) {s t : Shape} (hst : s.Like t) :
    (b.bindInterface name s).Like (b'.bindInterface name t) :=
  ⟨rel_lookup_cons h.interfaces hst name, h.integers, h.functions⟩

lemma Like.bindInteger (h : b.Like b') (name : String) (value : Int64) :
    (b.bindInteger name value).Like (b'.bindInteger name value) := by
  refine ⟨h.interfaces, ?_, h.functions⟩
  intro key
  simp only [Bindings.bindInteger, List.lookup_cons, h.integers key]

lemma Like.bindFunction (h : b.Like b') (name : String) {i j : Invocation} (hij : i.Like j) :
    (b.bindFunction name i).Like (b'.bindFunction name j) :=
  ⟨h.interfaces, h.integers, rel_lookup_cons h.functions hij name⟩

lemma Like.bindInterfaces (h : b.Like b') {ss ts : List Shape} (hst : List.Forall₂ Shape.Like ss ts)
    (names : List String) :
    ((names.zip ss).foldl (fun b (name, s) => b.bindInterface name s) b).Like
      ((names.zip ts).foldl (fun b (name, s) => b.bindInterface name s) b') := by
  induction hst generalizing names b b' with
  | nil => simpa using h
  | cons hst _ ih =>
    cases names with
    | nil => exact h
    | cons name names => exact ih (h.bindInterface name hst) names

end Bindings

lemma StaticExpr.eval_congr {b b' : Bindings} (h : b.Like b') (e : StaticExpr) :
    e.eval b = e.eval b' := by
  induction e with
  | int value => rfl
  | bool value => rfl
  | parameter name => rw [eval, eval, h.integers]
  | binary op lhs rhs ihl ihr => rw [eval, eval, ihl, ihr]

namespace Generics

lemma bindParameters_like {owner : String} {b b' : Bindings} (hb : b.Like b')
    {qs : List Parameter} {as as' : List Argument} (has : List.Forall₂ ArgumentLike as as')
    {r : Bindings} (h : bindParameters owner b qs as = .ok r) :
    ∃ r', bindParameters owner b' qs as' = .ok r' ∧ r.Like r' := by
  induction has generalizing qs b b' with
  | nil =>
    cases qs with
    | nil =>
      cases h
      exact ⟨b', rfl, hb⟩
    | cons q qs =>
      cases h
      exact ⟨b', rfl, hb⟩
  | cons hab _ ih =>
    cases qs with
    | nil =>
      cases h
      exact ⟨b', rfl, hb⟩
    | cons q qs =>
      obtain ⟨name, type⟩ := q
      rcases hab.cases with ⟨value, rfl, rfl⟩ | ⟨i, j, rfl, rfl, hij⟩
      · cases type with
        | integer => exact ih (hb.bindInteger name value) h
        | function inputs outputs => cases h
      · cases type with
        | integer => cases h
        | function inputs outputs => exact ih (hb.bindFunction name hij) h

lemma bindValues_eq_ok_iff {g : Generics} {owner : String} {ss : List Shape} {as : List Argument}
    {r : Bindings} : g.bindValues owner ss as = .ok r ↔
      (ss.length = g.interfaces.length ∧ as.length = g.parameters.length) ∧
        bindParameters owner ((g.interfaces.zip ss).foldl
          (fun b (name, s) => b.bindInterface name s) .empty) g.parameters as = .ok r := by
  unfold bindValues
  split
  · simp [*]
  · split <;> simp_all

lemma bindValues_like {g : Generics} {owner : String} {ss ts : List Shape}
    (hst : List.Forall₂ Shape.Like ss ts) {as bs : List Argument}
    (hab : List.Forall₂ ArgumentLike as bs) {r : Bindings}
    (h : g.bindValues owner ss as = .ok r) :
    ∃ r', g.bindValues owner ts bs = .ok r' ∧ r.Like r' := by
  obtain ⟨hlengths, hbind⟩ := bindValues_eq_ok_iff.mp h
  rw [hst.length_eq, hab.length_eq] at hlengths
  obtain ⟨r', hr', hlike⟩ :=
    bindParameters_like (Bindings.like_empty.bindInterfaces hst g.interfaces) hab hbind
  exact ⟨r', bindValues_eq_ok_iff.mpr ⟨hlengths, hr'⟩, hlike⟩

lemma bindValues_of_bind {p : Program} {u : Unfolding} {g : Generics} {owner : String}
    {ss : List Shape} {as : List Argument} {b : Bindings}
    (h : (g.bind p u owner ss as).run = some (.ok b)) : g.bindValues owner ss as = .ok b := by
  obtain ⟨b', hvalues, h⟩ := exists_of_run_bind h
  obtain ⟨_, -, h⟩ := exists_of_run_bind h
  cases h
  exact eq_ok_of_run_liftM hvalues

end Generics

/-! ### Programs with the same heads -/

/-- The functions differ at most in their bodies. -/
structure FunctionDefinition.SameHead (d d' : FunctionDefinition) : Prop where
  name : d'.name = d.name
  generics : d'.generics = d.generics
  inputs : d'.inputs = d.inputs
  outputs : d'.outputs = d.outputs

inductive Callee.SameHead : Callee → Callee → Prop
  | primitive (op : PrimitiveOp) : SameHead (.primitive op) (.primitive op)
  | function {d d' : FunctionDefinition} (head : d.SameHead d') :
    SameHead (.function d) (.function d')

/-- The programs have the same interfaces and the same functions up to their bodies. -/
structure Program.SameHeads (p p' : Program) : Prop where
  interface : ∀ name, p'.interface? name = p.interface? name
  callee : ∀ name f, p.callee name = .ok f → ∃ f', p'.callee name = .ok f' ∧ f.SameHead f'

lemma Program.sameHeads_self (p : Program) : p.SameHeads p := by
  refine ⟨fun _ => rfl, ?_⟩
  intro name f hf
  refine ⟨f, hf, ?_⟩
  cases f with
  | primitive op => exact .primitive op
  | function d => exact .function ⟨rfl, rfl, rfl, rfl⟩

/-- The members of every record interface have distinct names. -/
def Program.DistinctMembers (p : Program) : Prop :=
  ∀ name d members, p.interface? name = some d → d.body = .record members →
    (members.map Prod.fst).Nodup

/-- Definitions opened in the first way are opened alike in the second. -/
structure Unfolding.Follows (N : Prop) (p : Program) (u u' : Unfolding) : Prop where
  interface : ∀ active name d ss ts as bs, p.interface? name = some d →
    List.Forall₂ Shape.Like ss ts → List.Forall₂ ArgumentLike as bs →
    Expand.Follows N Shape.Like (u.interface active d ss as) (u'.interface active d ts bs)
  ports : ∀ i j, i.Like j → Expand.Follows N Signature.Like (u.ports i) (u'.ports j)

lemma Shape.checkWidth_follows {N : Prop} {s t : Shape} (h : s.Like t) :
    Expand.Follows N Shape.Like (liftM s.checkWidth) (liftM t.checkWidth) := by
  apply follows_liftM
  intro s' hs'
  unfold checkWidth at hs' ⊢
  split at hs'
  · next hfits =>
    cases hs'
    exact ⟨t, if_pos (h.wireCount ▸ hfits), h⟩
  · cases hs'

section

variable {N : Prop} {p p' : Program} {u u' : Unfolding} {b b' : Bindings}

mutual

lemma InterfaceExpr.expandIn_follows (hp : p.SameHeads p') (hu : u.Follows N p u') (hb : b.Like b')
    (active : List String) : ∀ e : InterfaceExpr,
    Expand.Follows N Shape.Like (e.expandIn p u b active) (e.expandIn p' u' b' active)
  | .wire => by
    rw [InterfaceExpr.expandIn, InterfaceExpr.expandIn]
    exact follows_pure Shape.like_wire
  | .vector element size => by
    rw [InterfaceExpr.expandIn, InterfaceExpr.expandIn, StaticExpr.eval_congr hb]
    apply (follows_same _).bind
    rintro value _ rfl
    apply (follows_same _).bind
    rintro n _ rfl
    apply (InterfaceExpr.expandIn_follows hp hu hb active element).bind
    intro s t hst
    exact follows_pure (hst.vector n)
  | .generic name => by
    have hlookup := hb.interfaces name
    rw [InterfaceExpr.expandIn, InterfaceExpr.expandIn]
    generalize b.interfaces.lookup name = x at hlookup
    generalize b'.interfaces.lookup name = y at hlookup
    cases hlookup with
    | none => exact follows_throw _ _
    | some hst => exact follows_pure hst
  | .defined name interfaces parameters => by
    rw [InterfaceExpr.expandIn, InterfaceExpr.expandIn, hp.interface]
    split
    · exact follows_throw _ _
    · next d hd =>
      split
      · exact follows_throw _ _
      · apply (InterfaceExpr.expandListIn_follows hp hu hb active interfaces).bind
        intro ss ts hst
        apply (ArgumentExpr.expandList_follows hp hu hb parameters).bind
        intro as bs hab
        exact hu.interface active name d ss ts as bs hd hst hab

lemma InterfaceExpr.expandListIn_follows (hp : p.SameHeads p') (hu : u.Follows N p u')
    (hb : b.Like b') (active : List String) : ∀ es : List InterfaceExpr,
    Expand.Follows N (List.Forall₂ Shape.Like) (InterfaceExpr.expandListIn p u b active es)
      (InterfaceExpr.expandListIn p' u' b' active es)
  | [] => by
    rw [InterfaceExpr.expandListIn, InterfaceExpr.expandListIn]
    exact follows_pure .nil
  | e :: rest => by
    rw [InterfaceExpr.expandListIn, InterfaceExpr.expandListIn]
    exact follows_cons (InterfaceExpr.expandIn_follows hp hu hb active e)
      (InterfaceExpr.expandListIn_follows hp hu hb active rest)

lemma ArgumentExpr.expand_follows (hp : p.SameHeads p') (hu : u.Follows N p u') (hb : b.Like b') :
    ∀ a : ArgumentExpr, Expand.Follows N ArgumentLike (a.expand p u b) (a.expand p' u' b')
  | .static value => by
    rw [ArgumentExpr.expand, ArgumentExpr.expand, StaticExpr.eval_congr hb]
    apply (follows_same _).bind
    rintro value _ rfl
    exact follows_pure (argumentLike_integer value)
  | .instantiation value => by
    rw [ArgumentExpr.expand, ArgumentExpr.expand]
    apply (Instantiation.expand_follows hp hu hb value).bind
    intro i j hij
    exact follows_pure (argumentLike_function hij)
  | .reference name => by
    have hlookup := hb.functions name
    rw [ArgumentExpr.expand, ArgumentExpr.expand]
    generalize b.functions.lookup name = x at hlookup
    generalize b'.functions.lookup name = y at hlookup
    cases hlookup with
    | none => exact follows_throw _ _
    | some hij => exact follows_pure (argumentLike_function hij)

lemma ArgumentExpr.expandList_follows (hp : p.SameHeads p') (hu : u.Follows N p u')
    (hb : b.Like b') : ∀ as : List ArgumentExpr,
    Expand.Follows N (List.Forall₂ ArgumentLike) (ArgumentExpr.expandList p u b as)
      (ArgumentExpr.expandList p' u' b' as)
  | [] => by
    rw [ArgumentExpr.expandList, ArgumentExpr.expandList]
    exact follows_pure .nil
  | a :: rest => by
    rw [ArgumentExpr.expandList, ArgumentExpr.expandList]
    exact follows_cons (ArgumentExpr.expand_follows hp hu hb a)
      (ArgumentExpr.expandList_follows hp hu hb rest)

lemma Instantiation.expand_follows (hp : p.SameHeads p') (hu : u.Follows N p u')
    (hb : b.Like b') : ∀ i : Instantiation,
    Expand.Follows N Invocation.Like (i.expand p u b) (i.expand p' u' b')
  | ⟨function, interfaces, parameters⟩ => by
    rw [Instantiation.expand, Instantiation.expand]
    apply (InterfaceExpr.expandPorts_follows hp hu hb interfaces).bind
    intro ss ts hst
    apply (ArgumentExpr.expandList_follows hp hu hb parameters).bind
    intro as bs hab
    exact follows_pure (like_mk hst hab)

lemma InterfaceExpr.expandPorts_follows (hp : p.SameHeads p') (hu : u.Follows N p u')
    (hb : b.Like b') : ∀ es : List InterfaceExpr,
    Expand.Follows N (List.Forall₂ Shape.Like) (InterfaceExpr.expandPorts p u b es)
      (InterfaceExpr.expandPorts p' u' b' es)
  | [] => by
    rw [InterfaceExpr.expandPorts, InterfaceExpr.expandPorts]
    exact follows_pure .nil
  | e :: rest => by
    rw [InterfaceExpr.expandPorts, InterfaceExpr.expandPorts]
    apply (InterfaceExpr.expandIn_follows hp hu hb [] e).bind
    intro s t hst
    exact follows_cons (Shape.checkWidth_follows hst)
      (InterfaceExpr.expandPorts_follows hp hu hb rest)

end

lemma InterfaceExpr.expand_follows (hp : p.SameHeads p') (hu : u.Follows N p u') (hb : b.Like b')
    (e : InterfaceExpr) : Expand.Follows N Shape.Like (e.expand p u b) (e.expand p' u' b') :=
  (e.expandIn_follows hp hu hb []).bind fun _ _ hst => Shape.checkWidth_follows hst

lemma FunctionPort.expandList_follows (hp : p.SameHeads p') (hu : u.Follows N p u')
    (hb : b.Like b') (ports : List FunctionPort) :
    Expand.Follows N (List.Forall₂ Port.Like) (FunctionPort.expandList p u b ports)
      (FunctionPort.expandList p' u' b' ports) := by
  unfold FunctionPort.expandList
  induction ports with
  | nil => exact follows_pure .nil
  | cons port rest ih =>
    rw [List.mapM_cons, List.mapM_cons]
    refine follows_cons ?_ ih
    apply (port.interface.expand_follows hp hu hb).bind
    intro s t hst
    exact follows_pure ⟨rfl, rfl, hst⟩

/-! ### Opening definitions -/

lemma FunctionPort.name_expandList {p : Program} {u : Unfolding} {b : Bindings}
    {ports : List FunctionPort} {r : List Port}
    (h : (FunctionPort.expandList p u b ports).run = some (.ok r)) :
    r.map Port.name = ports.map FunctionPort.name := by
  unfold FunctionPort.expandList at h
  induction ports generalizing r with
  | nil =>
    cases h
    rfl
  | cons port rest ih =>
    rw [List.mapM_cons] at h
    obtain ⟨q, hq, hrest⟩ := Expand.exists_of_run_bind h
    obtain ⟨qs, hqs, hend⟩ := Expand.exists_of_run_bind hrest
    obtain ⟨s, -, hport⟩ := Expand.exists_of_run_bind hq
    cases hend
    cases hport
    rw [List.map_cons, List.map_cons, ih hqs]

lemma FunctionDefinition.names_signature {p : Program} {u : Unfolding} {b : Bindings}
    {d : FunctionDefinition} {σ : Signature} (h : (d.signature p u b).run = some (.ok σ)) :
    σ.inputs.map Port.name = d.inputs.map FunctionPort.name ∧
      σ.outputs.map Port.name = d.outputs.map FunctionPort.name := by
  obtain ⟨inputs, hinputs, hrest⟩ := Expand.exists_of_run_bind h
  obtain ⟨outputs, houtputs, hend⟩ := Expand.exists_of_run_bind hrest
  cases hend
  exact ⟨FunctionPort.name_expandList hinputs, FunctionPort.name_expandList houtputs⟩

lemma Generics.checkSignature_follows (hp : p.SameHeads p') (hu : u.Follows N p u')
    (hb : b.Like b') (owner : String) (q : Parameter) :
    Expand.Follows N (fun _ _ => True) (checkSignature p u owner b q)
      (checkSignature p' u' owner b' q) := by
  have hlookup := hb.functions q.name
  unfold checkSignature
  generalize b.functions.lookup q.name = x at hlookup
  generalize b'.functions.lookup q.name = y at hlookup
  cases q.type with
  | integer => cases hlookup <;> exact follows_pure trivial
  | function inputs outputs =>
    cases hlookup with
    | none => exact follows_pure trivial
    | some hij =>
      apply (InterfaceExpr.expandPorts_follows hp hu hb inputs).bind
      intro ss ss' hss
      apply (InterfaceExpr.expandPorts_follows hp hu hb outputs).bind
      intro ts ts' hts
      apply (hu.ports _ _ hij).bind
      intro σ τ hστ
      dsimp only
      split
      · next hagrees =>
        rw [Bool.and_eq_true] at hagrees
        have hinputs := Shape.listAgrees_congr hss (Port.map_shape_like hστ.inputs) hagrees.1
        have houtputs := Shape.listAgrees_congr hts (Port.map_shape_like hστ.outputs) hagrees.2
        rw [if_pos (by rw [hinputs, houtputs]; rfl)]
        exact follows_pure trivial
      · exact follows_throw _ _

lemma Generics.bind_follows (hp : p.SameHeads p') (hu : u.Follows N p u') (g : Generics)
    (owner : String) {ss ts : List Shape} (hst : List.Forall₂ Shape.Like ss ts)
    {as bs : List Argument} (hab : List.Forall₂ ArgumentLike as bs) :
    Expand.Follows N Bindings.Like (g.bind p u owner ss as) (g.bind p' u' owner ts bs) := by
  refine Expand.Follows.bind (R := Bindings.Like)
    (follows_liftM fun r hr => bindValues_like hst hab hr) ?_
  intro b b' hb
  have hchecks : Expand.Follows N (fun _ _ => True) (g.parameters.forM (checkSignature p u owner b))
      (g.parameters.forM (checkSignature p' u' owner b')) := by
    induction g.parameters with
    | nil => exact follows_pure trivial
    | cons q rest ih => exact (checkSignature_follows hp hu hb owner q).bind fun _ _ _ => ih
  exact hchecks.bind fun _ _ _ => follows_pure hb

lemma InterfaceDefinition.expand_follows (hp : p.SameHeads p') (hmembers : p.DistinctMembers)
    (hu : u.Follows N p u') (active : List String) {name : String} {d : InterfaceDefinition}
    (hd : p.interface? name = some d) {ss ts : List Shape} (hst : List.Forall₂ Shape.Like ss ts)
    {as bs : List Argument} (hab : List.Forall₂ ArgumentLike as bs) :
    Expand.Follows N Shape.Like (d.expand p u active ss as) (d.expand p' u' active ts bs) := by
  apply (Generics.bind_follows hp hu d.generics d.name hst hab).bind
  intro b b' hb
  have hnames := hmembers name d
  cases hbody : d.body with
  | «alias» e => exact e.expandIn_follows hp hu hb _
  | record members =>
    apply (InterfaceExpr.expandListIn_follows hp hu hb _ _).bind
    intro ss ts hst
    exact follows_pure (Shape.like_record_zip (hnames members hd hbody) hst)

lemma FunctionDefinition.signature_follows (hp : p.SameHeads p') (hu : u.Follows N p u')
    (hb : b.Like b') {d d' : FunctionDefinition} (hd : d.SameHead d') :
    Expand.Follows N Signature.Like (d.signature p u b) (d'.signature p' u' b') := by
  unfold FunctionDefinition.signature
  rw [hd.inputs, hd.outputs]
  apply (FunctionPort.expandList_follows hp hu hb d.inputs).bind
  intro ps qs hinputs
  apply (FunctionPort.expandList_follows hp hu hb d.outputs).bind
  intro ps' qs' houtputs
  exact follows_pure ⟨hinputs, houtputs⟩

lemma Invocation.ports_follows (hp : p.SameHeads p') (hu : u.Follows N p u') {i j : Invocation}
    (hij : i.Like j) :
    Expand.Follows N Signature.Like (i.ports p u) (j.ports p' u') := by
  obtain ⟨hfunction, hinterfaces, hparameters⟩ := hij.values
  unfold Invocation.ports
  rw [← hfunction]
  refine Expand.Follows.bind (R := Callee.SameHead)
    (follows_liftM fun f hf => hp.callee i.function f hf) ?_
  rintro _ _ (op | hhead)
  · refine Expand.Follows.bind (R := Primitive.Like)
      (follows_liftM fun q hq => Primitive.ofCall_like hij hq) ?_
    intro q q' hqq'
    exact follows_pure hqq'.signature
  · dsimp only
    rw [hhead.generics, hhead.name]
    apply (Generics.bind_follows hp hu _ _ hinterfaces hparameters).bind
    intro b b' hb
    exact FunctionDefinition.signature_follows hp hu hb hhead

end

/-- Opening definitions up to some depth is followed by opening them up to any depth: alike at a
depth that is not smaller, and possibly without an outcome otherwise. -/
theorem Program.unfolding_follows {p p' : Program} (hp : p.SameHeads p')
    (hmembers : p.DistinctMembers) (depth depth' : Nat) :
    (p.unfolding depth).Follows (depth' < depth) p (p'.unfolding depth') := by
  induction depth generalizing depth' with
  | zero =>
    constructor
    · intro active name d ss ts as bs _ _ _ s hs
      cases hs
    · intro i j _ σ hσ
      cases hσ
  | succ depth ih =>
    cases depth' with
    | zero =>
      constructor
      · intro active name d ss ts as bs _ _ _ s _
        exact Nat.succ_pos depth
      · intro i j _ σ _
        exact Nat.succ_pos depth
    | succ depth' =>
      have hu := ih depth'
      rw [← Nat.succ_lt_succ_iff] at hu
      constructor
      · intro active name d ss ts as bs hd hst hab
        exact InterfaceDefinition.expand_follows hp hmembers hu active hd hst hab
      · intro i j hij
        exact Invocation.ports_follows hp hu hij

end NetlistCompiler
