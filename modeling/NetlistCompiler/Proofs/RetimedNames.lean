import NetlistCompiler.Proofs.NodeNames
import NetlistCompiler.Proofs.RetimedDesigns

/-!
# Node names after retiming

Retiming keeps the names of all nodes but the registers, and it numbers the registers that it puts
in from zero on, in each round again. So after any number of rounds the names of a module are those
of its first nodes that are no registers, followed by numbered names. They are distinct if the names
of the built module are and none of them is spelled like that of a register put in by retiming.
-/

namespace NetlistCompiler

namespace Module

variable {m r : Module}

/-! ### The names of a rebuilt module -/

/-- The nodes of the module have the given names, and after them come registers numbered by
retiming. -/
def Numbered (names : List String) (m : Module) (count : Nat) : Prop :=
  m.nodeNames = names ++ (List.range count).map insertedName

lemma keptByRebuilding_numbered (names : List String) :
    KeptByRebuilding fun number r => Numbered names r number := by
  constructor
  · intro number r r' driver driven hr hconnect
    rw [eq_extend_of_reconnect hconnect]
    simpa [Numbered, nodeNames, extend] using hr
  · intro number r n hr hn
    unfold Numbered nodeNames at hr ⊢
    simp [addNode, hr, hn, List.range_succ]

/-- A module rebuilt from a circuit over its nodes. -/
lemma Rebuildable.exists_numbered {c : ModuleCircuit} (hc : m.Rebuildable c)
    (h : m.rebuild c = .ok r) : ∃ count, Numbered (m.keptNodes.map Node.name) r count := by
  refine (keptByRebuilding_numbered _).rebuild ?_ h
  unfold Numbered nodeNames
  rw [keptNodes, ← hc.values, List.filterMap_map]
  simp

/-! ### Rounds of retiming -/

lemma Retimable.exists_numbered (hm : m.Retimable) {id : Nat} {delay : Node → Int}
    {goal : RetimingGoal} {report : RetimingReport}
    (h : m.retime? id delay goal = .ok (some (r, report))) :
    ∃ count, Numbered (m.keptNodes.map Node.name) r count := by
  obtain ⟨hsourced, hretimed⟩ := hm.isRetimed_of_retime? h
  obtain ⟨c, -, hc, hinitial, -⟩ := hretimed.initial
  rw [retime?_of_circuit hsourced.1 (hc _) hinitial] at h
  obtain ⟨⟨c', t⟩, hto, hrest⟩ := exists_of_bind_eq_ok h
  obtain ⟨r', hr, hend⟩ := exists_of_bind_eq_ok hrest
  obtain ⟨rfl, -⟩ := Prod.mk.inj (Option.some.inj (Except.ok.inj hend))
  rcases ModuleCircuit.retimeTo_cases c goal m.invocation.moduleName hinitial with
    ⟨c₁, lags, t₁, hto₁, hretime, hachieves⟩ | ⟨target, -, hto₁⟩ | ⟨-, -, cause, hto₁⟩
  · rw [hto] at hto₁
    cases hto₁
    obtain ⟨ts, c₂, hts, hretime', hgraph, -⟩ := hm.wired.exists_retimed (hc "") hachieves.legal
    obtain rfl : c₂ = c' := Except.ok.inj (hretime'.symm.trans hretime)
    have hrebuildable := hm.wired.rebuildable hts hgraph fun e he => length_le_of_rebuild hr he
    exact hrebuildable.exists_numbered hr
  all_goals
    rw [hto] at hto₁
    cases hto₁

lemma KeepsNodes.keptNodes_eq (h : m.KeepsNodes r) : r.keptNodes = m.keptNodes := by
  rw [keptNodes_eq_filter, keptNodes_eq_filter, h.filter_eq]

/-- What rounds of retiming make of a module: its nodes that are no registers stay, and either
nothing happens to it or its registers are numbered. -/
structure Renumbered (m r : Module) : Prop where
  kept : r.keptNodes = m.keptNodes
  names : r = m ∨ ∃ count, Numbered (m.keptNodes.map Node.name) r count

lemma Renumbered.refl (m : Module) : m.Renumbered m :=
  ⟨rfl, .inl rfl⟩

/-- Another round numbers the registers anew. -/
lemma Renumbered.retime (h : m.Renumbered r) (hr : r.Retimable) {r' : Module} {id : Nat}
    {delay : Node → Int} {goal : RetimingGoal} {report : RetimingReport}
    (hretime : r.retime? id delay goal = .ok (some (r', report))) : m.Renumbered r' := by
  have hkept := (hr.isRetimed_of_retime? hretime).2.nodes.keptNodes_eq
  refine ⟨hkept.trans h.kept, .inr ?_⟩
  rw [← h.kept]
  exact hr.exists_numbered hretime

end Module

/-- One round of retiming, with any delays and any goal. -/
def Design.RetimesInto (d d' : Design) : Prop :=
  ∃ delay goal result, d.retime delay goal = .ok result ∧ result.design = d'

lemma Design.Retimable.rounds {d d' : Design} (hd : d.Retimable)
    (h : Relation.ReflTransGen Design.RetimesInto d d') :
    d'.Retimable ∧ ∀ (k : Nat) (m : Module), d.modules[k]? = some m →
      ∃ r, d'.modules[k]? = some r ∧ m.Renumbered r := by
  induction h with
  | refl => exact ⟨hd, fun k m hm => ⟨m, hm, .refl m⟩⟩
  | tail _ hstep ih =>
    obtain ⟨delay, goal, result, hretime, rfl⟩ := hstep
    obtain ⟨hd₁, hrenumbered⟩ := ih
    have hto := hd₁.retimesTo hretime
    refine ⟨hto.retimable hd₁, ?_⟩
    intro k m hm
    obtain ⟨r, hr, hmr⟩ := hrenumbered k m hm
    obtain ⟨r', hr', ⟨-, rfl⟩ | ⟨report, -, hretimed⟩⟩ := hto.outcomes k r hr
    · exact ⟨r', hr', hmr⟩
    · exact ⟨r', hr', hmr.retime (hd₁ r (Array.mem_of_getElem? hr)) hretimed⟩

namespace Module

variable {m r : Module}

/-! ### Distinct names -/

lemma insertedName_injective : Function.Injective insertedName := by
  intro k l h
  exact Nat.repr_inj.mp ((String.append_right_inj "retimed_register_").mp h)

lemma Numbered.nodup_iff {names : List String} {count : Nat} (h : Numbered names m count) :
    m.nodeNames.Nodup ↔ names.Nodup ∧ ∀ k < count, insertedName k ∉ names := by
  rw [h, nodup_append_map_range insertedName_injective]

lemma map_keptNodes_sublist (m : Module) : (m.keptNodes.map Node.name).Sublist m.nodeNames := by
  rw [keptNodes_eq_filter]
  exact List.filter_sublist.map _

/-- Rounds of retiming keep distinct names distinct if none of them is one that retiming gives. -/
lemma Renumbered.nodup (h : m.Renumbered r) (hm : m.nodeNames.Nodup)
    (hinserted : ∀ k, insertedName k ∉ m.nodeNames) : r.nodeNames.Nodup := by
  rcases h.names with rfl | ⟨count, hcount⟩
  · exact hm
  · rw [hcount.nodup_iff]
    exact ⟨hm.sublist m.map_keptNodes_sublist,
      fun k _ hmem => hinserted k (m.map_keptNodes_sublist.subset hmem)⟩

end Module

def Design.nodeNames (d : Design) : List (List String) :=
  d.modules.toList.map Module.nodeNames

end NetlistCompiler
