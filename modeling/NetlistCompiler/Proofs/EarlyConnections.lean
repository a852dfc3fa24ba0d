import NetlistCompiler.Proofs.Joints
import NetlistCompiler.Proofs.ReplayedBlocks
import NetlistCompiler.Proofs.SharedHeads

/-!
# Connections made early

Two constructions do the same, but the second one has made some connections already that the first
one still owes. The second construction goes on like the first one unless it drives a wire that is
driven already, and then the first one cannot pay its debt any more. `Tracks` relates the two, with
a rule for every way to put steps together. With nothing owed it says that the order of connections
does not matter.
-/

namespace NetlistCompiler

/-! ### Modules up to the order of their connections -/

/-- The same module with its connections in another order. -/
structure Module.Reconnected (m m' : Module) : Prop where
  invocation : m'.invocation = m.invocation
  inputs : m'.inputs = m.inputs
  outputs : m'.outputs = m.outputs
  nodes : m'.nodes = m.nodes
  connections : m'.connections.toList.Perm m.connections.toList

/-- The same design, where the modules may have their connections in another order. -/
structure Design.Reconnected (d d' : Design) : Prop where
  modules : List.Forall₂ Module.Reconnected d.modules.toList d'.modules.toList
  entries : d'.entries = d.entries

namespace Module

variable {m m' m'' : Module}

lemma reconnected_self (m : Module) : m.Reconnected m :=
  ⟨rfl, rfl, rfl, rfl, .refl _⟩

lemma Reconnected.trans (h : m.Reconnected m') (h' : m'.Reconnected m'') : m.Reconnected m'' :=
  ⟨h'.invocation.trans h.invocation, h'.inputs.trans h.inputs, h'.outputs.trans h.outputs,
    h'.nodes.trans h.nodes, h'.connections.trans h.connections⟩

lemma Reconnected.addNode (h : m.Reconnected m') (n : Node) :
    (m.addNode n).Reconnected (m'.addNode n) :=
  ⟨h.invocation, h.inputs, h.outputs, congrArg (·.push n) h.nodes, h.connections⟩

lemma Reconnected.extend (h : m.Reconnected m') {cs cs' : List Connection} (hcs : cs'.Perm cs) :
    (m.extend [] cs).Reconnected (m'.extend [] cs') := by
  refine ⟨h.invocation, h.inputs, h.outputs, ?_, ?_⟩
  · simp [Module.extend, h.nodes]
  · rw [toList_extend, toList_extend]
    exact h.connections.append hcs

lemma reconnected_extend {cs cs' : List Connection} (m : Module) (hcs : cs'.Perm cs) :
    (m.extend [] cs).Reconnected (m.extend [] cs') :=
  m.reconnected_self.extend hcs

end Module

/-- The sessions have come equally far, and their modules differ in the order of connections. -/
structure Session.Alike (s r : Session) : Prop where
  design : s.design.Reconnected r.design
  cache : r.cache = s.cache
  stack : r.stack = s.stack

namespace Session

variable {s r : Session}

lemma alike_self (s : Session) : s.Alike s :=
  ⟨⟨List.forall₂_same.mpr fun m _ => m.reconnected_self, rfl⟩, rfl, rfl⟩

lemma Alike.mention (h : s.Alike r) (names names' : Array String) :
    Alike { s with mentioned := names } { r with mentioned := names' } :=
  ⟨h.design, h.cache, h.stack⟩

lemma Alike.cached? (h : s.Alike r) (i : Invocation) : r.cached? i = s.cached? i := by
  rw [Session.cached?, Session.cached?, h.cache]

lemma Alike.size (h : s.Alike r) : r.design.modules.size = s.design.modules.size := by
  simpa using h.design.modules.length_eq.symm

lemma Alike.finish (h : s.Alike r) (i : Invocation) {m m' : Module} (hm : m.Reconnected m') :
    (s.finish i m).Alike (r.finish i m') := by
  refine ⟨⟨?_, h.design.entries⟩, ?_, h.stack⟩
  · simp only [Session.finish, Design.addModule, Array.toList_push]
    exact List.rel_append h.design.modules (.cons hm .nil)
  · simp only [Session.finish, h.size, h.cache]

lemma Alike.addEntry (h : s.Alike r) (id : Nat) :
    Alike { s with design := s.design.addEntry id } { r with design := r.design.addEntry id } := by
  refine ⟨?_, h.cache, h.stack⟩
  dsimp only [Design.addEntry]
  rw [h.design.entries]
  split
  · exact h.design
  · exact ⟨h.design.modules, rfl⟩

/-- A finished module has the same ports in both sessions. -/
lemma Alike.module? (h : s.Alike r) (id : Nat) {β : Type} {f : Module → β}
    (hf : ∀ m m', m.Reconnected m' → f m' = f m) :
    r.design.modules[id]?.map f = s.design.modules[id]?.map f := by
  have hrel := h.design.modules
  rw [← Array.getElem?_toList, ← Array.getElem?_toList]
  generalize s.design.modules.toList = ms at hrel
  generalize r.design.modules.toList = ms' at hrel
  induction hrel generalizing id with
  | nil => rfl
  | cons hm _ ih =>
    cases id with
    | zero => exact congrArg some (hf _ _ hm)
    | succ id => exact ih id

end Session

/-! ### Steps of elaboration -/

namespace Elaborate

variable {α β α' β' : Type} {R : α → β → Prop}

/-- In sessions that are alike the steps succeed together, with results that are related and
sessions that are alike. -/
structure Tracks (R : α → β → Prop) (x : Elaborate α) (y : Elaborate β) : Prop where
  forth : ∀ {s r s' : Session} {a : α}, s.Alike r → x.run s = some (.ok a, s') →
    ∃ d r', y.run r = some (.ok d, r') ∧ R a d ∧ s'.Alike r'
  back : ∀ {s r r' : Session} {d : β}, s.Alike r → y.run r = some (.ok d, r') →
    ∃ a s', x.run s = some (.ok a, s') ∧ R a d ∧ s'.Alike r'

lemma tracks_pure {a : α} {d : β} (h : R a d) : Tracks R (pure a) (pure d) := by
  constructor
  · rintro s r _ _ hs ⟨⟩
    exact ⟨d, r, rfl, h, hs⟩
  · rintro s r _ _ hs ⟨⟩
    exact ⟨a, s, rfl, h, hs⟩

lemma Tracks.bind {x : Elaborate α} {y : Elaborate β} (hx : Tracks R x y)
    {f : α → Elaborate α'} {g : β → Elaborate β'} {S : α' → β' → Prop}
    (hfg : ∀ a d, R a d → Tracks S (f a) (g d)) : Tracks S (x >>= f) (y >>= g) := by
  constructor
  · intro s r s' a hs hrun
    obtain ⟨a₁, s₁, hx₁, hf₁⟩ := exists_of_run_bind hrun
    obtain ⟨d₁, r₁, hy₁, hR, hs₁⟩ := hx.forth hs hx₁
    obtain ⟨d, r', hg₁, hS, hs'⟩ := (hfg a₁ d₁ hR).forth hs₁ hf₁
    exact ⟨d, r', by rw [run_bind_step, hy₁]; exact hg₁, hS, hs'⟩
  · intro s r r' d hs hrun
    obtain ⟨d₁, r₁, hy₁, hg₁⟩ := exists_of_run_bind hrun
    obtain ⟨a₁, s₁, hx₁, hR, hs₁⟩ := hx.back hs hy₁
    obtain ⟨a, s', hf₁, hS, hs'⟩ := (hfg a₁ d₁ hR).back hs₁ hg₁
    exact ⟨a, s', by rw [run_bind_step, hx₁]; exact hf₁, hS, hs'⟩

lemma tracks_throw (e e' : BuildError) : Tracks R (throw e) (throw e') := by
  constructor
  · rintro s r _ _ _ ⟨⟩
  · rintro s r _ _ _ ⟨⟩

lemma tracks_liftM (z : Except BuildError α) :
    Tracks Eq (liftM z : Elaborate α) (liftM z : Elaborate α) := by
  cases z with
  | error e => exact tracks_throw e e
  | ok a => exact tracks_pure rfl

lemma tracks_ofExpand (z : Expand α) : Tracks Eq (ofExpand z) (ofExpand z) := by
  have hrun : ∀ s, (ofExpand z).run s = z.run.map fun r => (r, s) := fun _ => rfl
  constructor
  · intro s r s' a hs h
    obtain ⟨hz, rfl⟩ := of_run_ofExpand h
    exact ⟨a, r, by rw [hrun, hz]; rfl, rfl, hs⟩
  · intro s r r' a hs h
    obtain ⟨hz, rfl⟩ := of_run_ofExpand h
    exact ⟨a, s, by rw [hrun, hz]; rfl, rfl, hs⟩

lemma tracks_noResult : Tracks R noResult noResult := by
  constructor
  · rintro s r _ _ _ ⟨⟩
  · rintro s r _ _ _ ⟨⟩

lemma tracks_mention (names names' : List String) : Tracks Eq (mention names) (mention names') := by
  constructor
  · rintro s r _ _ hs ⟨⟩
    exact ⟨(), _, rfl, rfl, hs.mention _ _⟩
  · rintro s r _ _ hs ⟨⟩
    exact ⟨(), _, rfl, rfl, hs.mention _ _⟩

lemma tracks_get : Tracks Session.Alike get get := by
  constructor
  · rintro s r _ _ hs ⟨⟩
    exact ⟨r, r, rfl, hs, hs⟩
  · rintro s r _ _ hs ⟨⟩
    exact ⟨s, s, rfl, hs, hs⟩

lemma tracks_set {s' r' : Session} (h : s'.Alike r') :
    Tracks (fun _ _ => True) (set s' : Elaborate PUnit) (set r' : Elaborate PUnit) := by
  constructor
  · rintro s r _ _ _ ⟨⟩
    exact ⟨⟨⟩, r', rfl, trivial, h⟩
  · rintro s r _ _ _ ⟨⟩
    exact ⟨⟨⟩, s', rfl, trivial, h⟩

lemma tracks_modify {f g : Session → Session} (h : ∀ {s r : Session}, s.Alike r → (f s).Alike (g r)) :
    Tracks Eq (modify f : Elaborate PUnit) (modify g) := by
  constructor
  · rintro s r _ _ hs ⟨⟩
    exact ⟨⟨⟩, g r, rfl, rfl, h hs⟩
  · rintro s r _ _ hs ⟨⟩
    exact ⟨⟨⟩, f s, rfl, rfl, h hs⟩

lemma tracks_whileBuilding (i : Invocation) {x : Elaborate α} {y : Elaborate β} (h : Tracks R x y) :
    Tracks R (whileBuilding i x) (whileBuilding i y) := by
  have hpush : ∀ {s r : Session}, s.Alike r →
      Session.Alike { s with stack := i :: s.stack } { r with stack := i :: r.stack } :=
    fun hs => ⟨hs.design, hs.cache, congrArg (i :: ·) hs.stack⟩
  have hpop : ∀ {s r : Session}, s.Alike r →
      Session.Alike { s with stack := s.stack.tail } { r with stack := r.stack.tail } :=
    fun hs => ⟨hs.design, hs.cache, congrArg List.tail hs.stack⟩
  constructor
  · intro s r s' a hs hrun
    obtain ⟨⟨o, s₁⟩, hx, heq⟩ := Option.map_eq_some_iff.mp hrun
    cases heq
    obtain ⟨d, r₁, hy, hR, hs₁⟩ := h.forth (hpush hs) hx
    exact ⟨d, _, Option.map_eq_some_iff.mpr ⟨_, hy, rfl⟩, hR, hpop hs₁⟩
  · intro s r r' d hs hrun
    obtain ⟨⟨o, r₁⟩, hy, heq⟩ := Option.map_eq_some_iff.mp hrun
    cases heq
    obtain ⟨a, s₁, hx, hR, hs₁⟩ := h.back (hpush hs) hy
    exact ⟨a, _, Option.map_eq_some_iff.mpr ⟨_, hx, rfl⟩, hR, hpop hs₁⟩

end Elaborate

/-! ### Steps of a construction -/

/-- The second construction has come as far as the first one, and it has made the connections `K`
already, which do not collide with those of the first one. -/
structure Body.Ahead (K : List Connection) (b t : Body) : Prop where
  module : (b.module.extend [] K).Reconnected t.module
  scopes : t.scopes = b.scopes
  anonymous : t.anonymous = b.anonymous
  apart : Module.Apart b.module.connections.toList K

namespace Body.Ahead

variable {K : List Connection} {b t : Body}

lemma nodes (h : Ahead K b t) : t.module.nodes = b.module.nodes := by
  simpa [Module.extend] using h.module.nodes

lemma connections (h : Ahead K b t) :
    t.module.connections.toList.Perm (b.module.connections.toList ++ K) := by
  simpa [Module.toList_extend] using h.module.connections

lemma addNode (h : Ahead K b t) (n : Node) :
    Ahead K { b with module := b.module.addNode n } { t with module := t.module.addNode n } := by
  refine ⟨?_, h.scopes, h.anonymous, h.apart⟩
  have hadd : (b.module.extend [] K).addNode n = (b.module.addNode n).extend [] K := by
    simp [Module.addNode, Module.extend]
  rw [← hadd]
  exact h.module.addNode n

lemma joins_iff (h : Ahead K b t) (c : Connection) : t.module.Joins c ↔ b.module.Joins c :=
  ⟨fun hc => hc.congr (by rw [h.nodes]) (by rw [h.nodes]),
    fun hc => hc.congr (by rw [h.nodes]) (by rw [h.nodes])⟩

/-- What can be added to the second module can be added to the first one as well, and it does not
collide with what is owed. -/
lemma addable_iff (h : Ahead K b t) {cs : List Connection} :
    t.module.Addable [] cs ↔ b.module.Addable [] cs ∧ Module.Apart cs K := by
  have hapart : Module.Apart t.module.connections.toList cs ↔
      Module.Apart b.module.connections.toList cs ∧ Module.Apart K cs := by
    rw [← Module.apart_append_left]
    exact ⟨fun hcs => hcs.subset h.connections.symm.subset (List.Subset.refl _),
      fun hcs => hcs.subset h.connections.subset (List.Subset.refl _)⟩
  rw [Module.addable_iff, Module.addable_iff, hapart]
  simp only [h.joins_iff]
  exact ⟨fun ⟨hjoins, hsingle, hb, hK⟩ => ⟨⟨hjoins, hsingle, hb⟩, hK.symm⟩,
    fun ⟨⟨hjoins, hsingle, hb⟩, hK⟩ => ⟨hjoins, hsingle, hb, hK.symm⟩⟩

/-- Both constructions make the same connections. -/
lemma extend (h : Ahead K b t) {cs : List Connection} (hcs : Module.Apart cs K) :
    Ahead K { b with module := b.module.extend [] cs } { t with module := t.module.extend [] cs } := by
  refine ⟨?_, h.scopes, h.anonymous, ?_⟩
  · have hswap : ((b.module.extend [] K).extend [] cs).Reconnected (t.module.extend [] cs) :=
      h.module.extend (.refl cs)
    refine Module.Reconnected.trans ?_ hswap
    rw [Module.extend_extend, Module.extend_extend]
    exact b.module.reconnected_extend List.perm_append_comm
  · rw [Module.toList_extend]
    exact Module.apart_append_left.mpr ⟨h.apart, hcs⟩

/-- The second construction makes connections on its own. -/
lemma advance (h : Ahead K b t) {cs : List Connection}
    (hcs : Module.Apart b.module.connections.toList cs) :
    Ahead (K ++ cs) b { t with module := t.module.extend [] cs } := by
  refine ⟨?_, h.scopes, h.anonymous, Module.apart_append_right.mpr ⟨h.apart, hcs⟩⟩
  have hmore := h.module.extend (.refl cs)
  rwa [Module.extend_extend] at hmore

/-- The second construction makes some more connections, and the first one makes them together with
a part of what it owes. -/
lemma settle {L cs es : List Connection} (h : Ahead (K ++ L) b t)
    (hes : Module.Apart b.module.connections.toList es) (hcs : cs.Perm (L ++ es))
    (hapart : Module.Apart cs K) :
    Ahead K { b with module := b.module.extend [] cs } { t with module := t.module.extend [] es } := by
  have hall := h.advance hes
  rw [List.append_assoc] at hall
  refine ⟨?_, h.scopes, h.anonymous, ?_⟩
  · rw [Module.extend_extend]
    refine (b.module.reconnected_extend ?_).trans hall.module
    exact List.perm_append_comm.trans (hcs.symm.append_right K)
  · rw [Module.toList_extend]
    exact Module.apart_append_left.mpr ⟨(Module.apart_append_right.mp h.apart).1, hapart⟩

end Body.Ahead

lemma Body.ahead_self (b : Body) : Body.Ahead [] b b := by
  refine ⟨?_, rfl, rfl, by simp [Module.Apart]⟩
  rw [Module.extend_nil]
  exact b.module.reconnected_self

namespace Construct

open Elaborate

variable {α β : Type}

/-- The second step does what the first one does for a construction that is ahead, unless the first
one makes connections that collide with what it owes. Whatever the second step does, the first one
can do. -/
structure Tracks (x y : Construct α) : Prop where
  begins : ∀ {b b' : Body} {s s' : Session} {a : α}, x.Ran b s a b' s' → b.module.Begins b'.module
  forth : ∀ {K : List Connection} {b t b' : Body} {s r s' : Session} {a : α}, b.Ahead K t →
    s.Alike r → x.Ran b s a b' s' → Module.Apart b'.module.connections.toList K →
    ∃ t' r', y.Ran t r a t' r' ∧ b'.Ahead K t' ∧ s'.Alike r'
  back : ∀ {K : List Connection} {b t t' : Body} {s r r' : Session} {a : α}, b.Ahead K t →
    s.Alike r → y.Ran t r a t' r' → ∃ b' s', x.Ran b s a b' s' ∧ b'.Ahead K t' ∧ s'.Alike r'

variable {x y : Construct α}

lemma tracks_pure (a : α) : Tracks (pure a : Construct α) (pure a) := by
  refine ⟨?_, ?_, ?_⟩
  · rintro b _ s _ _ ⟨⟩
    exact b.module.begins_self
  · rintro K b t _ s r _ _ hb hs ⟨⟩ _
    exact ⟨t, r, rfl, hb, hs⟩
  · rintro K b t _ s r _ _ hb hs ⟨⟩
    exact ⟨b, s, rfl, hb, hs⟩

lemma tracks_throw (e e' : BuildError) : Tracks (throw e : Construct α) (throw e') := by
  refine ⟨?_, ?_, ?_⟩
  · rintro b _ s _ _ ⟨⟩
  · rintro K b t _ s r _ _ _ _ ⟨⟩
  · rintro K b t _ s r _ _ _ _ ⟨⟩

lemma Tracks.bind {f g : α → Construct β} (hxy : Tracks x y) (hfg : ∀ a, Tracks (f a) (g a)) :
    Tracks (x >>= f) (y >>= g) := by
  refine ⟨?_, ?_, ?_⟩
  · intro b b' s s' d hran
    obtain ⟨a, b₁, s₁, hx, hf⟩ := exists_of_ran_bind hran
    exact (hxy.begins hx).trans ((hfg a).begins hf)
  · intro K b t b' s r s' d hb hs hran hapart
    obtain ⟨a, b₁, s₁, hx, hf⟩ := exists_of_ran_bind hran
    -- what collides with a debt after the first step still does after the second one
    have hapart₁ : Module.Apart b₁.module.connections.toList K :=
      hapart.subset ((hfg a).begins hf).connections.subset (List.Subset.refl _)
    obtain ⟨t₁, r₁, hy, hb₁, hs₁⟩ := hxy.forth hb hs hx hapart₁
    obtain ⟨t', r', hg, hb', hs'⟩ := (hfg a).forth hb₁ hs₁ hf hapart
    exact ⟨t', r', ran_bind_iff.mpr ⟨a, t₁, r₁, hy, hg⟩, hb', hs'⟩
  · intro K b t t' s r r' d hb hs hran
    obtain ⟨a, t₁, r₁, hy, hg⟩ := exists_of_ran_bind hran
    obtain ⟨b₁, s₁, hx, hb₁, hs₁⟩ := hxy.back hb hs hy
    obtain ⟨b', s', hf, hb', hs'⟩ := (hfg a).back hb₁ hs₁ hg
    exact ⟨b', s', ran_bind_iff.mpr ⟨a, b₁, s₁, hx, hf⟩, hb', hs'⟩

/-- Steps that look at the body first. -/
lemma tracks_get {f g : Body → Construct α}
    (h : ∀ {K : List Connection} {b t : Body}, b.Ahead K t → Tracks (f b) (g t)) :
    Tracks (get >>= f) (get >>= g) := by
  have hget : ∀ {k : Body → Construct α} {b b' : Body} {s s' : Session} {a : α},
      (get >>= k).Ran b s a b' s' ↔ (k b).Ran b s a b' s' := by
    intro k b b' s s' a
    rw [ran_bind_iff]
    exact ⟨by rintro ⟨_, _, _, ⟨⟩, hran⟩; exact hran, fun hran => ⟨b, b, s, rfl, hran⟩⟩
  refine ⟨?_, ?_, ?_⟩
  · intro b b' s s' a hran
    exact (h b.ahead_self).begins (hget.mp hran)
  · intro K b t b' s r s' a hb hs hran hapart
    obtain ⟨t', r', hran', hrest⟩ := (h hb).forth hb hs (hget.mp hran) hapart
    exact ⟨t', r', hget.mpr hran', hrest⟩
  · intro K b t t' s r r' a hb hs hran
    obtain ⟨b', s', hran', hrest⟩ := (h hb).back hb hs (hget.mp hran)
    exact ⟨b', s', hget.mpr hran', hrest⟩

/-- Steps that look at the session first. -/
lemma tracks_getSession {f g : Session → Construct α}
    (h : ∀ {s r : Session}, s.Alike r → Tracks (f s) (g r)) :
    Tracks (getThe Session >>= f) (getThe Session >>= g) := by
  have hget : ∀ {k : Session → Construct α} {b b' : Body} {s s' : Session} {a : α},
      (getThe Session >>= k).Ran b s a b' s' ↔ (k s).Ran b s a b' s' := by
    intro k b b' s s' a
    rw [ran_bind_iff]
    exact ⟨by rintro ⟨_, _, _, ⟨⟩, hran⟩; exact hran, fun hran => ⟨s, b, s, rfl, hran⟩⟩
  refine ⟨?_, ?_, ?_⟩
  · intro b b' s s' a hran
    exact (h s.alike_self).begins (hget.mp hran)
  · intro K b t b' s r s' a hb hs hran hapart
    obtain ⟨t', r', hran', hrest⟩ := (h hs).forth hb hs (hget.mp hran) hapart
    exact ⟨t', r', hget.mpr hran', hrest⟩
  · intro K b t t' s r r' a hb hs hran
    obtain ⟨b', s', hran', hrest⟩ := (h hs).back hb hs (hget.mp hran)
    exact ⟨b', s', hget.mpr hran', hrest⟩

/-- A change of the body that keeps the module. -/
lemma tracks_modify {f g : Body → Body} (hf : ∀ b, (f b).module = b.module)
    (h : ∀ {K : List Connection} {b t : Body}, b.Ahead K t → (f b).Ahead K (g t)) :
    Tracks (modify f) (modify g) := by
  refine ⟨?_, ?_, ?_⟩
  · rintro b _ s _ _ ⟨⟩
    rw [hf]
    exact b.module.begins_self
  · rintro K b t _ s r _ _ hb hs ⟨⟩ _
    exact ⟨g t, r, rfl, h hb, hs⟩
  · rintro K b t _ s r _ _ hb hs ⟨⟩
    exact ⟨f b, s, rfl, h hb, hs⟩

lemma tracks_lift {x y : Elaborate α} (h : Elaborate.Tracks Eq x y) :
    Tracks (liftM x : Construct α) (liftM y) := by
  have hlift : ∀ {z : Elaborate α} {b : Body} {s s' : Session} {a : α},
      z.run s = some (.ok a, s') → (liftM z : Construct α).Ran b s a b s' := by
    intro z b s s' a hz
    have hrun : (liftM z : Construct α).run b = z >>= fun a => pure (a, b) := rfl
    unfold Ran
    rw [hrun, run_bind_step, hz]
    rfl
  refine ⟨?_, ?_, ?_⟩
  · intro b b' s s' a hran
    obtain ⟨rfl, -⟩ := ran_lift hran
    exact b.module.begins_self
  · intro K b t b' s r s' a hb hs hran _
    obtain ⟨rfl, hx⟩ := ran_lift hran
    obtain ⟨_, r', hy, rfl, hs'⟩ := h.forth hs hx
    exact ⟨t, r', hlift hy, hb, hs'⟩
  · intro K b t t' s r r' a hb hs hran
    obtain ⟨rfl, hy⟩ := ran_lift hran
    obtain ⟨_, s', hx, rfl, hs'⟩ := h.back hs hy
    exact ⟨b, s', hlift hx, hb, hs'⟩

lemma tracks_liftExcept (z : Except BuildError α) : Tracks (liftM z : Construct α) (liftM z) := by
  cases z with
  | error e => exact tracks_throw e e
  | ok a => exact tracks_pure a

/-- Both steps begin with a value that is there already. -/
lemma tracks_ok_bind {γ γ' : Type} {a : γ} {a' : γ'} {f : γ → Construct α} {g : γ' → Construct α}
    (h : Tracks (f a) (g a')) :
    Tracks ((liftM (.ok a : Except BuildError γ) : Construct γ) >>= f)
      ((liftM (.ok a' : Except BuildError γ') : Construct γ') >>= g) :=
  h

lemma tracks_forM {ι : Type} {f g : ι → Construct PUnit} (h : ∀ i, Tracks (f i) (g i))
    (is : List ι) : Tracks (is.forM f) (is.forM g) := by
  induction is with
  | nil => exact tracks_pure _
  | cons i is ih => exact (h i).bind fun _ => ih

/-! ### Single steps of a construction -/

lemma tracks_addNode (n : Node) : Tracks (addNode n) (addNode n) := by
  have hiff : ∀ {b b' : Body} {s s' : Session} {a : Nat}, (addNode n).Ran b s a b' s' ↔
      n.signature.fits = true ∧ a = b.module.nodes.size ∧
        b' = { b with module := b.module.addNode n } ∧ s' = s := by
    intro b b' s s' a
    unfold addNode
    split
    · next hfits =>
      constructor
      · rintro ⟨⟩
        exact ⟨hfits, rfl, rfl, rfl⟩
      · rintro ⟨-, rfl, rfl, rfl⟩
        rfl
    · next hfits =>
      constructor
      · rintro ⟨⟩
      · exact fun h => absurd h.1 hfits
  refine ⟨?_, ?_, ?_⟩
  · intro b b' s s' a hran
    obtain ⟨-, -, rfl, -⟩ := hiff.mp hran
    exact b.module.begins_addNode n
  · intro K b t b' s r s' a hb hs hran _
    obtain ⟨hfits, rfl, rfl, rfl⟩ := hiff.mp hran
    exact ⟨_, r, hiff.mpr ⟨hfits, by rw [hb.nodes], rfl, rfl⟩, hb.addNode n, hs⟩
  · intro K b t t' s r r' a hb hs hran
    obtain ⟨hfits, rfl, rfl, rfl⟩ := hiff.mp hran
    exact ⟨_, s, hiff.mpr ⟨hfits, by rw [hb.nodes], rfl, rfl⟩, hb.addNode n, hs⟩

lemma tracks_bindName (name : String) (id : Nat) :
    Tracks (bindName name id) (bindName name id) := by
  refine tracks_modify ?_ ?_
  · intro b
    split <;> rfl
  · intro K b t hb
    rw [hb.scopes]
    split
    · exact hb
    · next hscopes => exact ⟨hb.module, rfl, hb.anonymous, hb.apart⟩

lemma tracks_inBlock {x y : Construct Unit} (h : Tracks x y) : Tracks (inBlock x) (inBlock y) := by
  refine Tracks.bind (tracks_modify (fun _ => rfl) fun hb => ?_) fun _ =>
    h.bind fun _ => tracks_modify (fun _ => rfl) fun hb => ?_
  · exact ⟨hb.module, congrArg ([] :: ·) hb.scopes, hb.anonymous, hb.apart⟩
  · exact ⟨hb.module, congrArg List.tail hb.scopes, hb.anonymous, hb.apart⟩

lemma tracks_anonymousName : Tracks anonymousName anonymousName := by
  have hnext : ∀ {K : List Connection} {b t : Body}, b.Ahead K t →
      Body.Ahead K { b with anonymous := b.anonymous + 1 } { t with anonymous := t.anonymous + 1 } :=
    fun hb => ⟨hb.module, hb.scopes, congrArg (· + 1) hb.anonymous, hb.apart⟩
  have hname : ∀ {K : List Connection} {b t : Body}, b.Ahead K t →
      s!"anonymous_{t.anonymous}" = s!"anonymous_{b.anonymous}" :=
    fun hb => congrArg (fun k : Nat => s!"anonymous_{k}") hb.anonymous
  refine ⟨?_, ?_, ?_⟩
  · rintro b _ s _ _ ⟨⟩
    exact b.module.begins_self
  · rintro K b t _ s r _ _ hb hs ⟨⟩ _
    rw [← hname hb]
    exact ⟨_, _, rfl, hnext hb, hs.mention _ _⟩
  · rintro K b t _ s r _ _ hb hs ⟨⟩
    rw [hname hb]
    exact ⟨_, _, rfl, hnext hb, hs.mention _ _⟩

variable {c c' : BodyContext}

lemma tracks_lookup (name : String) : Tracks (lookup c name) (lookup c' name) := by
  refine tracks_get fun {K b t} hb => ?_
  rw [hb.scopes]
  split
  · exact tracks_pure _
  · exact tracks_throw _ _

/-- Stages are joined for both constructions. -/
lemma tracks_joinStages (stages : List Ends) : Tracks (joinStages c stages) (joinStages c' stages) := by
  have hlinks : ∀ {K : List Connection} {b t : Body}, b.Ahead K t →
      Ends.chainLinks t.module stages = Ends.chainLinks b.module stages :=
    fun hb => Ends.chainLinks_congr hb.nodes stages
  refine ⟨?_, ?_, ?_⟩
  · intro b b' s s' ends hran
    obtain ⟨-, -, rfl, -⟩ := ran_joinStages_iff.mp hran
    exact b.module.begins_extend _
  · intro K b t b' s r s' ends hb hs hran hapart
    obtain ⟨hfits, hadd, rfl, rfl, rfl⟩ := ran_joinStages_iff.mp hran
    rw [Module.toList_extend, Module.apart_append_left] at hapart
    refine ⟨_, r, ran_joinStages_iff.mpr ⟨hfits, ?_, rfl, rfl, rfl⟩, ?_, hs⟩
    · rw [hlinks hb]
      exact hb.addable_iff.mpr ⟨hadd, hapart.2⟩
    · rw [hlinks hb]
      exact hb.extend hapart.2
  · intro K b t t' s r r' ends hb hs hran
    obtain ⟨hfits, hadd, rfl, rfl, rfl⟩ := ran_joinStages_iff.mp hran
    rw [hlinks hb] at hadd ⊢
    obtain ⟨hadd, hapart⟩ := hb.addable_iff.mp hadd
    exact ⟨_, s, ran_joinStages_iff.mpr ⟨hfits, hadd, rfl, rfl, rfl⟩, hb.extend hapart, hs⟩

end Construct

/-- The contexts differ in the bodies of functions at most, and needed modules are built alike. -/
structure BodyContext.Alike (c c' : BodyContext) : Prop where
  heads : c.program.SameHeads c'.program
  heads' : c'.program.SameHeads c.program
  unfolding : c'.unfolding = c.unfolding
  bindings : c'.bindings = c.bindings
  label : c'.label = c.label
  build : ∀ i, Elaborate.Tracks Eq (c.build i) (c'.build i)

namespace Construct

open Elaborate

variable {c c' : BodyContext}

lemma tracks_instantiate (hc : c.Alike c') (name : String) (i : Invocation) :
    Tracks (instantiate c name i) (instantiate c' name i) := by
  unfold instantiate
  rcases Program.callee_cases hc.heads hc.heads' i.function with
    ⟨e, he, he'⟩ | ⟨f, f', hf, hf', hhead⟩
  · rw [he, he']
    exact tracks_throw e e
  · rw [hf, hf']
    cases hhead with
    | primitive op =>
      refine tracks_ok_bind ((tracks_liftExcept _).bind fun primitive => ?_)
      exact (tracks_lift (tracks_mention _ _)).bind fun _ => tracks_addNode _
    | function hhead =>
      refine tracks_ok_bind ((tracks_lift (hc.build i)).bind fun id => ?_)
      refine tracks_getSession fun {s r} hs => ?_
      have hnode : instanceNode name i id r = instanceNode name i id s := by
        simp only [instanceNode, hs.module? id fun _ _ hm => hm.inputs,
          hs.module? id fun _ _ hm => hm.outputs]
      change Tracks (addNode (instanceNode name i id s)) (addNode (instanceNode name i id r))
      rw [hnode]
      exact tracks_addNode _

lemma tracks_create (hc : c.Alike c') (name : String) (body : NodeBody) :
    Tracks (create c name body) (create c' name body) := by
  cases body with
  | function instantiation =>
    rw [create, create, hc.unfolding, hc.bindings, Instantiation.expand_congr hc.heads]
    exact (tracks_lift (tracks_ofExpand _)).bind fun i =>
      (tracks_lift (tracks_mention _ _)).bind fun _ => tracks_instantiate hc name i
  | genericFunction parameter =>
    rw [create, create, hc.bindings]
    split
    · exact tracks_instantiate hc name _
    · exact tracks_throw _ _
  | interface e =>
    rw [create, create, hc.unfolding, hc.bindings, InterfaceExpr.expand_congr hc.heads]
    exact (tracks_lift (tracks_ofExpand _)).bind fun shape =>
      (tracks_lift (tracks_mention _ _)).bind fun _ => tracks_addNode _

lemma accessEnds_congr (hc : c.Alike c') (accessors : List Accessor) (ends : Ends) :
    accessEnds c' ends accessors = accessEnds c ends accessors := by
  have haccess : ∀ t a, access c' t a = access c t a := by
    intro t a
    cases a <;> simp only [access, vectorLength, inRange, hc.bindings, hc.label]
  have hend : accessEndpoint c' = accessEndpoint c := by
    funext a e
    rw [accessEndpoint, accessEndpoint, haccess]
  induction accessors generalizing ends with
  | nil => rfl
  | cons a rest ih => simp only [accessEnds, hend, ih]

lemma endsOf_congr {m m' : Module} (h : m'.nodes = m.nodes) (id : Nat) :
    Body.endsOf m' id = Body.endsOf m id := by
  simp only [Body.endsOf, Body.endpoints, Module.portsOf, h]

lemma referenceEnds_congr (hc : c.Alike c') {m m' : Module} (h : m'.nodes = m.nodes) (id : Nat)
    (name : String) (accessors : List Accessor) :
    referenceEnds c' m' id name accessors = referenceEnds c m id name accessors := by
  simp only [referenceEnds, h, endsOf_congr h, accessEnds_congr hc, hc.label]

lemma tracks_reference (hc : c.Alike c') (name : String) (accessors : List Accessor) :
    Tracks (reference c name accessors) (reference c' name accessors) := by
  rw [reference_eq, reference_eq]
  refine (tracks_lookup name).bind fun id => tracks_get fun {K b t} hb => ?_
  rw [referenceEnds_congr hc hb.nodes]
  exact tracks_liftExcept _

lemma tracks_endsOf (id : Nat) : Tracks (do return Body.endsOf (← get).module id)
    (do return Body.endsOf (← get).module id) := by
  refine tracks_get fun {K b t} hb => ?_
  rw [endsOf_congr hb.nodes]
  exact tracks_pure _

/-! ### Chains -/

mutual

lemma tracks_node (hc : c.Alike c') : ∀ n : CircuitNode, Tracks (node c n) (node c' n)
  | .reference name accessors => by
    rw [node, node]
    exact tracks_reference hc name accessors
  | .declared name body => by
    rw [node, node]
    exact (tracks_lookup name).bind tracks_endsOf
  | .anonymous body => by
    rw [node, node]
    exact tracks_anonymousName.bind fun name => (tracks_create hc name body).bind tracks_endsOf
  | .nested chain => by
    rw [node, node]
    exact (tracks_stages hc chain).bind tracks_joinStages

lemma tracks_stages (hc : c.Alike c') : ∀ groups : List (List CircuitNode),
    Tracks (stages c groups) (stages c' groups)
  | [] => by
    rw [stages, stages]
    exact tracks_pure _
  | group :: rest => by
    rw [stages, stages]
    exact (tracks_nodes hc group).bind fun _ => (tracks_stages hc rest).bind fun _ => tracks_pure _

lemma tracks_nodes (hc : c.Alike c') : ∀ ns : List CircuitNode, Tracks (nodes c ns) (nodes c' ns)
  | [] => by
    rw [nodes, nodes]
    exact tracks_pure _
  | n :: rest => by
    rw [nodes, nodes]
    exact (tracks_node hc n).bind fun _ => (tracks_nodes hc rest).bind fun _ => tracks_pure _

end

lemma tracks_declareBlock (hc : c.Alike c') (block : List Statement) :
    Tracks (declareBlock c block) (declareBlock c' block) := by
  rw [declareBlock_eq, declareBlock_eq]
  exact tracks_forM
    (fun d : String × NodeBody => (tracks_create hc d.1 d.2).bind (tracks_bindName d.1)) _

mutual

lemma tracks_statement (hc : c.Alike c') : ∀ s : Statement, Tracks (statement c s) (statement c' s)
  | .connection chain => by
    rw [statement, statement]
    exact ((tracks_stages hc chain).bind tracks_joinStages).bind fun _ => tracks_pure _
  | .conditional predicate thens elses => by
    rw [statement, statement, hc.bindings]
    refine (tracks_liftExcept _).bind fun value => ?_
    split
    · exact tracks_block hc thens
    · exact tracks_block hc elses

lemma tracks_statements (hc : c.Alike c') : ∀ block : List Statement,
    Tracks (statements c block) (statements c' block)
  | [] => by
    rw [statements, statements]
    exact tracks_pure _
  | s :: rest => by
    rw [statements, statements]
    exact (tracks_statement hc s).bind fun _ => tracks_statements hc rest

lemma tracks_block (hc : c.Alike c') (block : List Statement) :
    Tracks (inBlock do declareBlock c block; statements c block)
      (inBlock do declareBlock c' block; statements c' block) :=
  tracks_inBlock ((tracks_declareBlock hc block).bind fun _ => tracks_statements hc block)

end

end Construct

end NetlistCompiler
