import NetlistCompiler.Proofs.ReplayedDesigns

/-!
# Renumbered designs

Two designs are the same up to the numbers of modules and of nodes, the names of nodes that have no
name of their own, the order of connections and the order of fields. Designs that are built from
programs in different orders are the same in this sense: each of the two covers the other, and an
invocation has only one module.
-/

namespace NetlistCompiler

/-- The wires belong to corresponding nodes and have the same access path, which consists of names
of fields and indices. -/
structure Wire.Same (m m' : Module) (nodes : Nat → Nat) (w w' : Wire) : Prop where
  node : w'.node = nodes w.node
  side : w'.side = w.side
  port : w'.port = w.port
  slot : ∃ q q', m.port? w = some q ∧ m'.port? w' = some q' ∧ w.slot.Matches q.shape q'.shape w'.slot

structure Connection.Same (m m' : Module) (nodes : Nat → Nat) (c c' : Connection) : Prop where
  driver : c.driver.Same m m' nodes c'.driver
  driven : c.driven.Same m m' nodes c'.driven

structure Node.Same (modules : Nat → Nat) (n n' : Node) : Prop where
  resembles : n.Resembles n'
  invoked : ∀ id i, n.kind = .instance id i → ∃ j, n'.kind = .instance (modules id) j

structure Module.Same (modules : Nat → Nat) (m m' : Module) : Prop where
  invocation : m.invocation.Like m'.invocation
  inputs : List.Forall₂ Port.Like m.inputs m'.inputs
  outputs : List.Forall₂ Port.Like m.outputs m'.outputs
  body : ∃ nodes, Set.BijOn nodes (Set.Iio m.nodes.size) (Set.Iio m'.nodes.size) ∧
    (∀ (k : Nat) n, m.nodes[k]? = some n →
      ∃ n', m'.nodes[nodes k]? = some n' ∧ n.Same modules n') ∧
    PermRel (Connection.Same m m' nodes) m.connections.toList m'.connections.toList

/-- The designs are the same up to renumbering. -/
def Design.Same (d d' : Design) : Prop :=
  ∃ modules, Set.BijOn modules (Set.Iio d.modules.size) (Set.Iio d'.modules.size) ∧
    (∀ (k : Nat) m, d.modules[k]? = some m →
      ∃ m', d'.modules[modules k]? = some m' ∧ m.Same modules m') ∧
    d'.entries = d.entries.map modules

/-! ### Modules -/

/-- Lists whose elements correspond one to one are permutations of each other. -/
lemma permRel_of_unique {α β : Type} [DecidableEq β] {R : α → β → Prop}
    (hleft : ∀ a a' b, R a b → R a' b → a = a') (hright : ∀ a b b', R a b → R a b' → b = b')
    {as : List α} {bs : List β} (has : as.Nodup) (hbs : bs.Nodup)
    (himage : ∀ a ∈ as, ∃ b ∈ bs, R a b) (honto : ∀ b ∈ bs, ∃ a ∈ as, R a b) : PermRel R as bs := by
  induction as generalizing bs with
  | nil =>
    have hnil : bs = [] := List.eq_nil_iff_forall_not_mem.mpr fun b hb => by simpa using honto b hb
    exact ⟨[], .nil, by rw [hnil]⟩
  | cons a as ih =>
    rw [List.nodup_cons] at has
    obtain ⟨b, hb, hab⟩ := himage a (List.mem_cons_self ..)
    have himage' : ∀ a' ∈ as, ∃ b' ∈ bs.erase b, R a' b' := by
      intro a' ha'
      obtain ⟨b', hb', hab'⟩ := himage a' (List.mem_cons_of_mem _ ha')
      refine ⟨b', hbs.mem_erase_iff.mpr ⟨?_, hb'⟩, hab'⟩
      rintro rfl
      exact has.1 (hleft a a' b' hab hab' ▸ ha')
    have honto' : ∀ b' ∈ bs.erase b, ∃ a' ∈ as, R a' b' := by
      intro b' hb'
      obtain ⟨hne, hmem⟩ := hbs.mem_erase_iff.mp hb'
      obtain ⟨a', ha', hab'⟩ := honto b' hmem
      rcases List.mem_cons.mp ha' with rfl | ha'
      · exact absurd (hright a' b' b hab' hab) hne
      · exact ⟨a', ha', hab'⟩
    obtain ⟨cs, hcs, hperm⟩ := ih has.2 (hbs.erase b) himage' honto'
    exact ⟨b :: cs, .cons hab hcs, (hperm.cons b).trans (List.perm_cons_erase hb).symm⟩

lemma Module.WellWired.nodup {m : Module} (h : m.WellWired) : m.connections.toList.Nodup :=
  h.single.imp fun hne heq => hne (congrArg Connection.driven heq)

namespace Placed

variable {m t : Module} {ρ : Placement} {X : Set Nat}

/-- A wire has at most one image. -/
lemma eq_of_placedAs_right {w u v : Wire} (hu : w.PlacedAs m ρ u) (hv : w.PlacedAs m ρ v) : u = v := by
  obtain ⟨unode, uside, uport, uslot⟩ := u
  obtain ⟨vnode, vside, vport, vslot⟩ := v
  obtain ⟨huside, huport, n, n', q, q', hρu, hn, hq, hq', huslot⟩ := hu
  obtain ⟨hvside, hvport, o, o', r, r', hρv, ho, hr, hr', hvslot⟩ := hv
  dsimp only at *
  rw [hρu] at hρv
  cases hρv
  rw [hn] at ho
  cases ho
  rw [hq] at hr
  cases hr
  rw [hq'] at hr'
  cases hr'
  have hslot : uslot = vslot := by
    revert huslot hvslot
    generalize w.slot = slot
    rintro (hleaf | _ | _) (hleaf' | _ | _)
    · rw [hleaf.symm.left_unique hleaf'.symm]
    · rfl
    · rfl
  rw [hslot, huside, hvside, huport, hvport]

/-- The number of the place of a node. -/
def number (ρ : Placement) (k : Nat) : Nat :=
  ((ρ k).map Prod.fst).getD 0

lemma same_of_placedAs (h : Placed m t ρ X) {w w' : Wire} (hw : w.PlacedAs m ρ w') :
    w.Same m t (number ρ) w' := by
  obtain ⟨n, n', q, q', hρ, hn, hq, hq', hslot⟩ := hw.slot
  refine ⟨?_, hw.side, hw.port, q, q', ?_, ?_, hslot⟩
  · simp [number, hρ]
  · rw [Module.port?, Module.portsOf, hn]
    exact hq
  · rw [Module.port?, Module.portsOf, (h.node _ _ hρ).1, hw.side, hw.port]
    exact hq'

/-- A node in its place has the same number in both modules. -/
lemma same_of_inPlace (h : Placed m t (.inPlace t) X) {w w' : Wire}
    (hw : w.PlacedAs m (.inPlace t) w') : w.Same m t id w' := by
  obtain ⟨n, n', q, q', hρ, -⟩ := hw.slot
  have hsame := h.same_of_placedAs hw
  exact ⟨(Placement.inPlace_eq_some.mp hρ).1, hsame.side, hsame.port, hsame.slot⟩

/-- The connections of two modules correspond one to one, if all of them have been made. -/
lemma permRel_connections (h : Placed m t ρ (Set.Iio m.connections.size)) (hm : m.WellWired)
    (ht : t.WellWired) :
    PermRel (Connection.PlacedAs m ρ) m.connections.toList t.connections.toList := by
  refine permRel_of_unique ?_ ?_ hm.nodup ht.nodup ?_ ?_
  · rintro ⟨d, w⟩ ⟨d', w'⟩ c ⟨hd, hw⟩ ⟨hd', hw'⟩
    rw [Connection.mk.injEq]
    exact ⟨h.eq_of_placedAs hd hd', h.eq_of_placedAs hw hw'⟩
  · rintro c ⟨d, w⟩ ⟨d', w'⟩ ⟨hd, hw⟩ ⟨hd', hw'⟩
    rw [Connection.mk.injEq]
    exact ⟨eq_of_placedAs_right hd hd', eq_of_placedAs_right hw hw'⟩
  · intro c hc
    obtain ⟨k, hk, rfl⟩ := Array.mem_iff_getElem.mp (Array.mem_toList_iff.mp hc)
    obtain ⟨c, hget, c', hc', himage⟩ := h.image k hk
    rw [Array.getElem?_eq_getElem hk] at hget
    cases hget
    exact ⟨c', Array.mem_toList_iff.mpr hc', himage⟩
  · intro c' hc'
    obtain ⟨k, -, c, hc, himage⟩ := h.made c' (Array.mem_toList_iff.mp hc')
    exact ⟨c, Array.mem_toList_iff.mpr (Array.mem_of_getElem? hc), himage⟩

end Placed

/-- Matching modules are the same, given where the modules of their instances are. -/
lemma Module.Matches.same {m m' : Module} (h : m.Matches m') (hm : m.WellWired) (hm' : m'.WellWired)
    {modules : Nat → Nat} (hmodules : ∀ n ∈ m.nodes, ∀ n' ∈ m'.nodes, n.Resembles n' →
      ∀ id i, n.kind = .instance id i → ∃ j, n'.kind = .instance (modules id) j) :
    m.Same modules m' := by
  obtain ⟨ρ, hdomain, hplaced⟩ := h.placed
  have hsome : ∀ k < m.nodes.size, ∃ x, ρ k = some x ∧ Placed.number ρ k = x.1 := by
    intro k hk
    obtain ⟨x, hx⟩ := Option.isSome_iff_exists.mp ((hdomain k).mpr hk)
    exact ⟨x, hx, by simp [Placed.number, hx]⟩
  refine ⟨h.invocation, h.inputs, h.outputs, Placed.number ρ, ⟨?_, ?_, ?_⟩, ?_, ?_⟩
  · intro k hk
    obtain ⟨x, hx, hnumber⟩ := hsome k hk
    rw [hnumber]
    exact (Array.getElem?_eq_some_iff.mp (hplaced.node k x hx).1).1
  · intro k hk l hl heq
    obtain ⟨x, hx, hxnumber⟩ := hsome k hk
    obtain ⟨y, hy, hynumber⟩ := hsome l hl
    rw [hxnumber, hynumber] at heq
    exact hplaced.injective k l x y hx hy heq
  · intro k hk
    obtain ⟨a, x, hx, rfl⟩ := hplaced.onto k hk
    refine ⟨a, (hdomain a).mp (by rw [hx]; rfl), ?_⟩
    simp [Placed.number, hx]
  · intro k n hn
    obtain ⟨x, hx, hnumber⟩ := hsome k (Array.getElem?_eq_some_iff.mp hn).1
    obtain ⟨hx', n₁, hn₁, hresembles⟩ := hplaced.node k x hx
    rw [hn] at hn₁
    cases hn₁
    refine ⟨x.2, by rw [hnumber, hx'], hresembles, ?_⟩
    exact hmodules n (Array.mem_of_getElem? hn) x.2 (Array.mem_of_getElem? hx') hresembles
  · obtain ⟨cs, hcs, hperm⟩ := hplaced.permRel_connections hm hm'
    refine ⟨cs, hcs.imp ?_, hperm⟩
    exact fun c c' hc => ⟨hplaced.same_of_placedAs hc.driver, hplaced.same_of_placedAs hc.driven⟩

lemma Node.Resembles.kind_eq_instance {n n' : Node} (h : n.Resembles n') {id : Nat} {i : Invocation}
    (hkind : n.kind = .instance id i) : ∃ id' j, n'.kind = .instance id' j ∧ i.Like j := by
  have hlike := h.kind
  rw [hkind] at hlike
  generalize n'.kind = kind at hlike
  cases hlike with
  | «instance» _ id' hij => exact ⟨id', _, rfl, hij⟩

/-! ### Designs -/

section

variable {p p' : Program} {s r : Session}

/-- In a sound session an invocation has one module. -/
lemma Session.Sound.eq_of_like (hs : s.Sound p) {k l : Nat} {m n : Module}
    (hm : s.design.modules[k]? = some m) (hn : s.design.modules[l]? = some n)
    (h : m.invocation.Like n.invocation) : k = l :=
  hs.unique k l m n hm hn h.agrees

/-- Where the modules of the first design are in the second one. -/
lemma exists_matching (hs : s.Sound p)
    (hcovers : ∀ m' ∈ r.design.modules, ∃ m ∈ s.design.modules, m.Matches m')
    (hcovered : ∀ m ∈ s.design.modules, ∃ m' ∈ r.design.modules, m'.Matches m) :
    ∃ f : Nat → Nat, ∀ (k : Nat) m, s.design.modules[k]? = some m →
      ∃ m', r.design.modules[f k]? = some m' ∧ m.Matches m' := by
  have hplace : ∀ k : Nat, ∃ l : Nat, ∀ m, s.design.modules[k]? = some m →
      ∃ m', r.design.modules[l]? = some m' ∧ m.Matches m' := by
    intro k
    cases hget : s.design.modules[k]? with
    | none => exact ⟨0, nofun⟩
    | some m =>
      obtain ⟨m', hm', hmatches'⟩ := hcovered m (Array.mem_of_getElem? hget)
      obtain ⟨m₁, hm₁, hmatches⟩ := hcovers m' hm'
      obtain ⟨l, hl⟩ := Array.getElem?_of_mem hm'
      obtain ⟨k₁, hk₁⟩ := Array.getElem?_of_mem hm₁
      -- the module that matches is the same one, since their invocations are alike
      have hsame := hs.eq_of_like hk₁ hget (hmatches.invocation.trans hmatches'.invocation)
      rw [hsame, hget] at hk₁
      cases hk₁
      refine ⟨l, ?_⟩
      rintro _ ⟨⟩
      exact ⟨m', hl, hmatches⟩
  exact ⟨fun k => (hplace k).choose, fun k => (hplace k).choose_spec⟩

/-- Designs that cover each other, with the same entries, are the same. -/
theorem Design.same_of_covers (hs : s.Sound p) (hr : r.Sound p') (hsBuilt : s.AllBuilt)
    (hrBuilt : r.AllBuilt)
    (hcovers : ∀ m' ∈ r.design.modules, ∃ m ∈ s.design.modules, m.Matches m')
    (hcovered : ∀ m ∈ s.design.modules, ∃ m' ∈ r.design.modules, m'.Matches m)
    {names : List String} (hsEntries : List.Forall₂ s.design.IsFor names s.design.entries)
    (hrEntries : List.Forall₂ r.design.IsFor names r.design.entries) :
    s.design.Same r.design := by
  obtain ⟨f, hf⟩ := exists_matching hs hcovers hcovered
  have hget : ∀ k < s.design.modules.size, ∃ m, s.design.modules[k]? = some m := by
    intro k hk
    exact ⟨s.design.modules[k], Array.getElem?_eq_getElem hk⟩
  -- a module of an invocation alike is where `f` says
  have hnumber : ∀ k m l m', s.design.modules[k]? = some m → r.design.modules[l]? = some m' →
      m.invocation.Like m'.invocation → l = f k := by
    intro k m l m' hm hm' hlike
    obtain ⟨m₁, hm₁, hmatches⟩ := hf k m hm
    exact hr.eq_of_like hm' hm₁ (hlike.symm.trans hmatches.invocation)
  refine ⟨f, ⟨?_, ?_, ?_⟩, ?_, ?_⟩
  · intro k hk
    obtain ⟨m, hm⟩ := hget k hk
    obtain ⟨m', hm', -⟩ := hf k m hm
    exact (Array.getElem?_eq_some_iff.mp hm').1
  · intro k hk l hl heq
    obtain ⟨m, hm⟩ := hget k hk
    obtain ⟨n, hn⟩ := hget l hl
    obtain ⟨m', hm', hmatches⟩ := hf k m hm
    obtain ⟨n', hn', hmatches'⟩ := hf l n hn
    rw [heq, hn'] at hm'
    cases hm'
    exact hs.eq_of_like hm hn (hmatches.invocation.trans hmatches'.invocation.symm)
  · intro l hl
    have hm' : r.design.modules[l]? = some r.design.modules[l] := Array.getElem?_eq_getElem hl
    obtain ⟨m, hm, hmatches⟩ := hcovers _ (Array.mem_of_getElem? hm')
    obtain ⟨k, hk⟩ := Array.getElem?_of_mem hm
    exact ⟨k, (Array.getElem?_eq_some_iff.mp hk).1, (hnumber k m l _ hk hm' hmatches.invocation).symm⟩
  · intro k m hm
    obtain ⟨m', hm', hmatches⟩ := hf k m hm
    refine ⟨m', hm', hmatches.same (hsBuilt m (Array.mem_of_getElem? hm)).wired
      (hrBuilt m' (Array.mem_of_getElem? hm')).wired ?_⟩
    intro n hn n' hn' hresembles id i hkind
    obtain ⟨-, m₁, hm₁, hagrees, -⟩ := hs.instances k m hm n hn id i hkind
    obtain ⟨id', j, hkind', hij⟩ := hresembles.kind_eq_instance hkind
    obtain ⟨-, m₂, hm₂, hagrees', -⟩ := hr.instances (f k) m' hm' n' hn' id' j hkind'
    have hleft := (Invocation.like_iff_agrees
      (hs.distinct m₁ (Array.mem_of_getElem? hm₁)) hij.left).mpr hagrees
    have hright := (Invocation.like_iff_agrees
      (hr.distinct m₂ (Array.mem_of_getElem? hm₂)) hij.right).mpr hagrees'
    rw [hkind', hnumber id m₁ id' m₂ hm₁ hm₂ ((hleft.trans hij).trans hright.symm)]
    exact ⟨j, rfl⟩
  · clear hcovers hcovered hsBuilt hrBuilt
    generalize s.design.entries = ids at hsEntries
    generalize r.design.entries = ids' at hrEntries
    induction hsEntries generalizing ids' with
    | nil =>
      cases hrEntries
      rfl
    | cons hid _ ih =>
      cases hrEntries with
      | cons hid' hrest =>
        obtain ⟨m, hm, hlike⟩ := hid
        obtain ⟨m', hm', hlike'⟩ := hid'
        rw [List.map_cons, ih _ hrest, hnumber _ m _ m' hm hm' (hlike.trans hlike'.symm)]

end

/-! ### Programs -/

namespace Program.Shuffled

variable {p p' : Program} {depth depth' : Nat} {s r : Session}

/-- A program in another order is built to the same design. -/
theorem same_of_runs (h : p.Shuffled p') (h' : p'.Shuffled p) (hp : p.Unambiguous)
    (hp' : p'.Unambiguous) (hs : (p.buildAll depth).run .empty = some (.ok (), s))
    (hr : (p'.buildAll depth').run .empty = some (.ok (), r)) : s.design.Same r.design := by
  obtain ⟨hs₁, hsEntries⟩ := (leads_buildAll_elaborated hp depth).of_run hs
  obtain ⟨hr₁, hrEntries⟩ := (leads_buildAll_elaborated hp' depth').of_run hr
  have hcovers := (leads_buildAll_replayed h hp hp'.members hs₁ hsEntries depth').of_run hr
  have hcovered := (leads_buildAll_replayed h' hp' hp.members hr₁ hrEntries depth).of_run hs
  rw [h.entryNames] at hrEntries
  exact Design.same_of_covers hs₁.sound hr₁.sound hs₁.built hr₁.built hcovers hcovered hsEntries
    hrEntries

/-- A program in another order can be built as well. -/
theorem exists_run (h : p.Shuffled p') (hp : p.Unambiguous) (hp' : p'.Unambiguous)
    (hs : (p.buildAll depth).run .empty = some (.ok (), s)) :
    ∃ depth' r, (p'.buildAll depth').run .empty = some (.ok (), r) := by
  obtain ⟨hs₁, hentries⟩ := (leads_buildAll_elaborated hp depth).of_run hs
  have hleads := leads_buildAll_replayed h hp hp'.members hs₁ hentries
    (depth + s.design.modules.size)
  refine ⟨depth + s.design.modules.size, ?_⟩
  unfold Elaborate.Leads at hleads
  split at hleads
  · exact absurd hleads (lt_irrefl _)
  · next r hrun => exact ⟨r, hrun⟩
  · exact hleads.elim

end Program.Shuffled

end NetlistCompiler
