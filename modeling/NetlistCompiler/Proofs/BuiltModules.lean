import NetlistCompiler.Proofs.ElaborationSteps

/-!
# What elaboration guarantees of modules

Every module of an elaborated program is well wired, its primitives have the ports of their
signatures, and its connections join data wires to data wires and handshakes to handshakes. All of
this is kept by every step of the construction of a module, whatever the program is.
-/

namespace NetlistCompiler

/-- What holds of every module that elaboration builds. -/
structure Module.Built (m : Module) : Prop where
  wired : m.WellWired
  signatures : ∀ n ∈ m.nodes, ∀ p, n.kind = .primitive p →
    n.inputs = p.signature.inputs ∧ n.outputs = p.signature.outputs
  slots : ∀ x ∈ m.connections,
    (∃ leaf, x.driver.slot = .data leaf) ↔ ∃ leaf, x.driven.slot = .data leaf
  fits : ∀ n ∈ m.nodes, n.signature.fits = true

namespace Module

variable {m : Module}

lemma built_empty (i : Invocation) (inputs outputs : List Port) :
    (empty i inputs outputs).Built :=
  ⟨wellWired_empty i inputs outputs, by simp [empty], by simp [empty], by simp [empty]⟩

lemma Built.addNode (h : m.Built) {n : Node} (hn : ∀ p, n.kind = .primitive p →
    n.inputs = p.signature.inputs ∧ n.outputs = p.signature.outputs)
    (hfits : n.signature.fits = true) : (m.addNode n).Built := by
  refine ⟨h.wired.addNode n, ?_, h.slots, ?_⟩
  · intro n' hn'
    rcases Array.mem_push.mp hn' with hn' | rfl
    · exact h.signatures n' hn'
    · exact hn
  · intro n' hn'
    rcases Array.mem_push.mp hn' with hn' | rfl
    · exact h.fits n' hn'
    · exact hfits

lemma Built.connect (h : m.Built) {m' : Module} {d w : Wire} (hconnect : m.connect d w = .ok m')
    (hslots : (∃ leaf, d.slot = .data leaf) ↔ ∃ leaf, w.slot = .data leaf) : m'.Built := by
  have hwired := h.wired.connect hconnect
  obtain ⟨rfl, -⟩ := of_connect_eq_ok hconnect
  refine ⟨hwired, ?_, ?_, ?_⟩
  · intro n hn
    exact h.signatures n (by simpa [extend] using hn)
  · intro x hx
    rcases mem_extend.mp hx with hx | hx
    · exact h.slots x hx
    · obtain rfl := List.mem_singleton.mp hx
      exact hslots
  · intro n hn
    exact h.fits n (by simpa [extend] using hn)

lemma Built.connectPort (h : m.Built) {m' : Module} {source sink : Wire} {width : Nat}
    (hconnect : m.connectPort source sink width = .ok m') : m'.Built := by
  refine foldlM_keeps ?_ h hconnect
  intro m leaf _ m' hm hstep
  exact hm.connect hstep (by simp)

lemma Built.exposeInput (h : m.Built) {m' : Module} {port : Port} (hport : port.fits = true)
    {index : Nat} (hexpose : m.exposeInput port index = .ok m') : m'.Built := by
  refine Built.connectPort (h.addNode ?_ ?_) hexpose
  · rintro p ⟨⟩
  · simp [Node.signature, Signature.fits, hport]

lemma Built.exposeOutput (h : m.Built) {m' : Module} {port : Port} (hport : port.fits = true)
    {index : Nat} (hexpose : m.exposeOutput port index = .ok m') : m'.Built := by
  refine Built.connectPort (h.addNode ?_ ?_) hexpose
  · rintro p ⟨⟩
  · simp [Node.signature, Signature.fits, hport]

lemma built_ofPrimitive {i : Invocation} {primitive : Primitive}
    (hfits : primitive.signature.fits = true) (h : ofPrimitive i primitive = .ok m) : m.Built := by
  have hports : (∀ q ∈ primitive.signature.inputs, q.fits = true) ∧
      ∀ q ∈ primitive.signature.outputs, q.fits = true := by
    simpa [Signature.fits] using hfits
  have hstart : ((empty i primitive.signature.inputs primitive.signature.outputs).addNode
      ⟨primitive.op.name, .primitive primitive, primitive.signature.inputs,
        primitive.signature.outputs⟩).Built := by
    refine (built_empty i _ _).addNode ?_ hfits
    rintro p ⟨⟩
    exact ⟨rfl, rfl⟩
  unfold ofPrimitive at h
  simp only [bind, Except.bind] at h
  split at h
  · cases h
  · next m₁ hinputs =>
    have hm₁ : m₁.Built := by
      refine foldlM_keeps ?_ hstart hinputs
      rintro m ⟨q, index⟩ hq m' hm hstep
      exact hm.exposeInput (hports.1 q (List.fst_mem_of_mem_zipIdx hq)) hstep
    refine foldlM_keeps ?_ hm₁ h
    rintro m ⟨q, index⟩ hq m' hm hstep
    exact hm.exposeOutput (hports.2 q (List.fst_mem_of_mem_zipIdx hq)) hstep

end Module

def Session.AllBuilt (s : Session) : Prop :=
  ∀ m ∈ s.design.modules, m.Built

/-! ### Whole programs -/

open Elaborate

lemma closed_built {c : BodyContext} (hbuild : ∀ i s, s.AllBuilt →
    (c.build i).Leads s True (fun _ s' => s'.AllBuilt) fun _ s' => s'.AllBuilt) :
    Construct.Closed c (fun m s => m.Built ∧ s.AllBuilt) Session.AllBuilt where
  fails _ _ h := h.2
  mention _ _ _ h := h
  input _ _ _ hfits h :=
    ⟨h.1.addNode nofun (by simpa [Node.signature, Signature.fits] using hfits), h.2⟩
  output _ _ _ hfits h :=
    ⟨h.1.addNode nofun (by simpa [Node.signature, Signature.fits] using hfits), h.2⟩
  pass _ _ _ _ hfits h := ⟨h.1.addNode nofun hfits, h.2⟩
  primitive _ _ _ _ hfits h :=
    ⟨h.1.addNode (fun _ heq => by cases heq; exact ⟨rfl, rfl⟩) hfits, h.2⟩
  build _ s _ i _ _ _ h :=
    (hbuild i s h.2).imp fun _ _ hs => ⟨hs, fun hfits => ⟨h.1.addNode nofun hfits, hs⟩⟩
  connect _ _ _ _ _ hslots hconnect h := ⟨h.1.connect hconnect hslots, h.2⟩

/-- Building a module builds the modules that it needs, and nothing but built modules. -/
lemma leads_build_built (p : Program) (depth : Nat) (i : Invocation) {s : Session}
    (hs : s.AllBuilt) : (i.build p depth).Leads s True (fun _ s' => s'.AllBuilt)
      fun _ s' => s'.AllBuilt := by
  induction depth generalizing i s with
  | zero => exact trivial
  | succ depth ih =>
    have hrest : Leads (do
        let m ← whileBuilding i (i.construct p depth (Invocation.build p depth))
        let s ← get
        set (s.finish i m)
        return s.design.modules.size : Elaborate Nat) s True (fun _ s' => s'.AllBuilt)
          fun _ s' => s'.AllBuilt := by
      refine Leads.bind (Q := fun m s' => m.Built ∧ s'.AllBuilt) (leads_whileBuilding ?_) ?_
      · apply Invocation.leads_construct
        · exact fun _ => hs
        · exact fun _ _ _ _ _ _ hfits hm => ⟨Module.built_ofPrimitive hfits hm, hs⟩
        · exact fun _ _ _ _ _ _ _ =>
            ⟨closed_built fun j _ hs' => ih j hs', Module.built_empty _ _ _, hs⟩
      · rintro m s' ⟨hm, hs'⟩ m' hm'
        rcases Array.mem_push.mp hm' with hm' | rfl
        · exact hs' m' hm'
        · exact hm
    rw [Invocation.build]
    refine Leads.bind (Q := fun s₁ s' => s = s₁ ∧ s = s') (leads_get ⟨rfl, rfl⟩) ?_
    rintro _ _ ⟨rfl, rfl⟩
    split
    · exact leads_pure hs
    · split
      · exact Leads.bind (Q := fun _ _ => False) (leads_throw hs) fun _ _ hfalse => hfalse.elim
      · exact hrest

lemma leads_buildEntry_built (p : Program) (depth : Nat) (d : FunctionDefinition) {s : Session}
    (hs : s.AllBuilt) : (d.buildEntry p depth).Leads s True (fun _ s' => s'.AllBuilt)
      fun _ s' => s'.AllBuilt := by
  refine (leads_build_built p depth _ hs).bind ?_
  intro id s' hs' m hm
  apply hs' m
  simpa [Design.addEntry, apply_ite Design.modules] using hm

lemma leads_buildAll_built (p : Program) (depth : Nat) {s : Session} (hs : s.AllBuilt) :
    (p.buildAll depth).Leads s True (fun _ s' => s'.AllBuilt) fun _ s' => s'.AllBuilt := by
  unfold Program.buildAll
  induction p.functions.filter (fun d => d.generics.isEmpty) generalizing s with
  | nil => exact leads_pure hs
  | cons d rest ih =>
    refine (leads_buildEntry_built p depth d hs).bind ?_
    intro _ s' hs'
    exact ih hs'

/-- Every module of an elaborated program is built by the rules. -/
theorem built_of_buildAll {p : Program} {depth : Nat} {session : Session}
    (h : (p.buildAll depth).run .empty = some (.ok (), session)) {m : Module}
    (hm : m ∈ session.design.modules) : m.Built := by
  have hempty : Session.empty.AllBuilt := by
    intro m hm
    simp [Session.empty, Design.empty] at hm
  exact (leads_buildAll_built p depth hempty).of_run h m hm

/-- What a check of the session of a program finds. -/
lemma Program.exists_session_of_any {p : Program} {depth : Nat} {f : Session → Bool}
    (h : (((p.buildAll depth).run .empty).any fun result =>
      result.1.toOption.isSome && f result.2) = true) :
    ∃ session, (p.buildAll depth).run .empty = some (.ok (), session) ∧ f session = true := by
  obtain ⟨⟨outcome, session⟩, hrun, hcheck⟩ := (Option.any_eq_true _ _).mp h
  obtain ⟨hok, hf⟩ := Bool.and_eq_true_iff.mp hcheck
  obtain ⟨⟨⟩, hunit⟩ := Option.isSome_iff_exists.mp hok
  obtain rfl : outcome = .ok () := eq_ok_of_toOption hunit
  exact ⟨session, hrun, hf⟩

/-- What a search through the modules of an elaborated program finds. -/
lemma Program.exists_module_of_any {p : Program} {depth : Nat} {f : Module → Bool}
    (h : (((p.buildAll depth).run .empty).any fun result =>
      result.1.toOption.isSome && result.2.design.modules.any f) = true) :
    ∃ session m, (p.buildAll depth).run .empty = some (.ok (), session) ∧
      m ∈ session.design.modules ∧ f m = true := by
  obtain ⟨session, hrun, hany⟩ := exists_session_of_any (f := fun s => s.design.modules.any f) h
  obtain ⟨i, hi, hm⟩ := Array.any_eq_true.mp hany
  exact ⟨session, _, hrun, Array.getElem_mem hi, hm⟩

end NetlistCompiler
