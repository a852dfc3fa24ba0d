import Mathlib
import NetlistCompiler.Proofs.BuiltModules
import NetlistCompiler.Proofs.Extraction

/-!
# Register chains that have a source

Followed back through registers, a wire meets a register wire that nothing drives, runs into a ring
of registers, or comes to a wire of another node. A module has no circuit if a data path ends in one
of the first two ways, and also if the chain has a source but passes more registers than the module
has nodes, and one more. A chain that runs through several leaves of one register can be as long.
-/

namespace NetlistCompiler

namespace Module

/-- The data on a wire of a register comes from the wire that drives the same leaf of its input. -/
def ComesFrom (m : Module) (w v : Wire) : Prop :=
  m.isRegister w.node = true ∧
    ∃ leaf, w.slot = .data leaf ∧ m.driver? ⟨w.node, .input, 0, .data leaf⟩ = some v

/-- A wire of a register that gets its data from nowhere, as nothing drives the input. -/
def IsUndriven (m : Module) (w : Wire) : Prop :=
  m.isRegister w.node = true ∧
    ∀ leaf, w.slot = .data leaf → m.driver? ⟨w.node, .input, 0, .data leaf⟩ = none

/-- A wire that comes from itself through registers only. -/
def InRing (m : Module) (w : Wire) : Prop :=
  Relation.TransGen m.ComesFrom w w

variable {m : Module}

lemma ComesFrom.unique {w v v' : Wire} (h : m.ComesFrom w v) (h' : m.ComesFrom w v') : v = v' := by
  obtain ⟨-, leaf, hslot, hdriver⟩ := h
  obtain ⟨-, leaf', hslot', hdriver'⟩ := h'
  rw [hslot] at hslot'
  cases hslot'
  exact Option.some_inj.mp (hdriver.symm.trans hdriver')

lemma ComesFrom.mem_drivers {w v : Wire} (h : m.ComesFrom w v) :
    v ∈ m.connections.toList.map Connection.driver := by
  obtain ⟨-, leaf, -, hdriver⟩ := h
  obtain ⟨c, hfind, rfl⟩ := Option.map_eq_some_iff.mp hdriver
  exact List.mem_map_of_mem (Array.mem_of_find?_eq_some hfind).val

/-- A register wire that is not left undriven comes from some wire. -/
lemma exists_comesFrom {w : Wire} (hnode : m.isRegister w.node = true) (h : ¬ m.IsUndriven w) :
    ∃ v, m.ComesFrom w v := by
  by_contra hnone
  apply h
  refine ⟨hnode, ?_⟩
  intro leaf hslot
  cases hdriver : m.driver? ⟨w.node, .input, 0, .data leaf⟩ with
  | none => rfl
  | some v => exact absurd ⟨v, hnode, leaf, hslot, hdriver⟩ hnone

lemma Traces.of_comesFrom {w v s : Wire} {n : Nat} (h : m.ComesFrom w v) (hs : m.Traces v s n) :
    m.Traces w s (n + 1) := by
  obtain ⟨hnode, leaf, hslot, hdriver⟩ := h
  exact .step hnode hslot hdriver hs

/-- Nothing on the way back to a source is undriven or in a ring. -/
lemma Traces.not_stuck {w s v : Wire} {n : Nat} (h : m.Traces w s n)
    (hv : Relation.ReflTransGen m.ComesFrom w v) : ¬ m.IsUndriven v ∧ ¬ m.InRing v := by
  induction h generalizing v with
  | @here w hnode =>
    have hstop : ∀ x, ¬ m.ComesFrom w x := by
      rintro x ⟨hreg, -⟩
      rw [hnode] at hreg
      cases hreg
    rcases Relation.ReflTransGen.cases_head hv with rfl | ⟨x, hx, -⟩
    · refine ⟨?_, ?_⟩
      · rintro ⟨hreg, -⟩
        rw [hnode] at hreg
        cases hreg
      · intro hring
        obtain ⟨x, hx, -⟩ := Relation.TransGen.head'_iff.mp hring
        exact hstop x hx
    · exact absurd hx (hstop x)
  | @step w driver source n leaf hnode hslot hdriver _ ih =>
    have hcomes : m.ComesFrom w driver := ⟨hnode, leaf, hslot, hdriver⟩
    rcases Relation.ReflTransGen.cases_head hv with rfl | ⟨x, hx, hrest⟩
    · refine ⟨?_, ?_⟩
      · rintro ⟨-, hnone⟩
        rw [hnone leaf hslot] at hdriver
        cases hdriver
      · intro hring
        -- a ring through the wire passes its driver and comes back
        obtain ⟨x, hx, hback⟩ := Relation.TransGen.head'_iff.mp hring
        obtain rfl := hcomes.unique hx
        exact (ih hback).2 hring
    · obtain rfl := hcomes.unique hx
      exact ih hrest

/-- Only finitely many wires are met on the way back. -/
lemma finite_reachable (m : Module) (w : Wire) :
    {v | Relation.ReflTransGen m.ComesFrom w v}.Finite := by
  apply ((m.connections.toList.map Connection.driver).finite_toSet.insert w).subset
  intro v hv
  rcases Relation.ReflTransGen.cases_tail hv with rfl | ⟨x, -, hx⟩
  · exact Set.mem_insert _ _
  · exact Set.mem_insert_of_mem _ hx.mem_drivers

/-- A wire has a source unless the way back meets an undriven wire or a ring. -/
lemma exists_traces_iff {w : Wire} : (∃ s n, m.Traces w s n) ↔
    ∀ v, Relation.ReflTransGen m.ComesFrom w v → ¬ m.IsUndriven v ∧ ¬ m.InRing v := by
  constructor
  · rintro ⟨s, n, h⟩ v hv
    exact h.not_stuck hv
  · intro h
    let Reached := {v // Relation.ReflTransGen m.ComesFrom w v}
    have hfinite : Finite Reached := (m.finite_reachable w).to_subtype
    -- without rings, the wires on the way back are ordered by how far they are
    let behind : Reached → Reached → Prop := fun x y => Relation.TransGen m.ComesFrom y.1 x.1
    have htrans : IsTrans Reached behind := ⟨fun x y z hxy hyz => hyz.trans hxy⟩
    have hirrefl : Std.Irrefl behind := ⟨fun x hx => (h x.1 x.2).2 hx⟩
    have hwf : WellFounded behind := Finite.wellFounded_of_trans_of_irrefl behind
    have hall : ∀ x : Reached, ∃ s n, m.Traces x.1 s n := by
      intro x
      induction x using hwf.induction with
      | _ x ih =>
        cases hnode : m.isRegister x.1.node with
        | false => exact ⟨x.1, 0, .here hnode⟩
        | true =>
          obtain ⟨v, hv⟩ := exists_comesFrom hnode (h x.1 x.2).1
          obtain ⟨s, n, hs⟩ := ih ⟨v, x.2.tail hv⟩ (.single hv)
          exact ⟨s, n + 1, hs.of_comesFrom hv⟩
    exact hall ⟨w, .refl⟩

lemma traced?_eq_none_iff {c : Connection} : m.traced? c = none ↔
    (∃ w, Relation.ReflTransGen m.ComesFrom c.driver w ∧ (m.IsUndriven w ∨ m.InRing w)) ∨
      ∃ source n, m.Traces c.driver source n ∧ m.nodes.size + 1 < n := by
  by_cases hsource : ∃ s n, m.Traces c.driver s n
  · have hfree := exists_traces_iff.mp hsource
    obtain ⟨s, n, hs⟩ := hsource
    constructor
    · intro hnone
      right
      refine ⟨s, n, hs, ?_⟩
      by_contra hle
      have hto : m.TracesTo c ⟨⟨s, c.driven⟩, n⟩ := ⟨rfl, hs, not_lt.mp hle⟩
      have hsome := traced?_eq_some_iff.mpr hto
      rw [hnone] at hsome
      cases hsome
    · rintro (⟨w, hw, hstuck⟩ | ⟨s', n', hs', hlong⟩)
      · rcases hstuck with hloose | hring
        · exact absurd hloose (hfree w hw).1
        · exact absurd hring (hfree w hw).2
      · rw [Option.eq_none_iff_forall_ne_some]
        intro t ht
        have hto := traced?_eq_some_iff.mp ht
        have hn := (hto.traces.unique hs').2
        have := hto.within
        omega
  · have hnone : m.traced? c = none := by
      rw [Option.eq_none_iff_forall_ne_some]
      intro t ht
      exact hsource ⟨_, _, (traced?_eq_some_iff.mp ht).traces⟩
    refine ⟨fun _ => ?_, fun _ => hnone⟩
    left
    by_contra hfree
    apply hsource
    rw [exists_traces_iff]
    intro v hv
    exact ⟨fun hloose => hfree ⟨v, hv, .inl hloose⟩, fun hring => hfree ⟨v, hv, .inr hring⟩⟩

lemma circuit?_eq_none_iff {delay : Node → Int} {name : String} :
    m.circuit? delay name = .ok none ↔ m.tracedConnections? = none := by
  refine ⟨?_, circuit?_eq_none⟩
  intro h
  cases hts : m.tracedConnections? with
  | none => rfl
  | some ts =>
    unfold circuit? at h
    rw [hts] at h
    simp only [bind, Except.bind] at h
    split at h
    · cases h
    · split at h
      · cases h
      · cases h

/-- A module has no circuit exactly if the driver of some data path leads back through registers to
a wire that is undriven or in a ring, or to a source behind more registers than the module has
nodes, and one more. -/
theorem no_circuit_iff (m : Module) (delay : Node → Int) (name : String) :
    m.circuit? delay name = .ok none ↔ ∃ c ∈ m.connections, m.isDataPath c = true ∧
      ((∃ w, Relation.ReflTransGen m.ComesFrom c.driver w ∧ (m.IsUndriven w ∨ m.InRing w)) ∨
        ∃ source n, m.Traces c.driver source n ∧ m.nodes.size + 1 < n) := by
  rw [circuit?_eq_none_iff, tracedConnections?, mapM_eq_none_iff]
  constructor
  · rintro ⟨c, hc, hnone⟩
    obtain ⟨hmem, hpath⟩ := List.mem_filter.mp hc
    exact ⟨c, Array.mem_toList_iff.mp hmem, hpath, traced?_eq_none_iff.mp hnone⟩
  · rintro ⟨c, hmem, hpath, hstuck⟩
    refine ⟨c, List.mem_filter.mpr ⟨Array.mem_toList_iff.mpr hmem, hpath⟩, ?_⟩
    exact traced?_eq_none_iff.mpr hstuck

/-- A register of five wires, each of which takes the value of the wire before it. -/
def shiftProgram : Program :=
  let wire (port : String) (i : Nat) : List CircuitNode :=
    [.reference "held" [.member port, .index (.int (.ofNat i))]]
  ⟨[], [⟨"shift", ⟨[], []⟩, [⟨"a", .signal, .wire⟩], [⟨"b", .signal, .wire⟩],
    [.connection [[.declared "held" (.function ⟨"register", [.vector .wire (.int 5)], []⟩)]],
      .connection [[.reference "a" []], wire "next" 0],
      .connection [wire "current" 0, wire "next" 1],
      .connection [wire "current" 1, wire "next" 2],
      .connection [wire "current" 2, wire "next" 3],
      .connection [wire "current" 3, wire "next" 4],
      .connection [wire "current" 4, [.reference "b" []]]]⟩]⟩

/-- An undriven wire or a ring is not needed for a module to have no circuit: five registers between
its input and its output are too many for a module of three nodes. -/
theorem no_circuit_shiftProgram : ∃ session m,
    (shiftProgram.buildAll 3).run .empty = some (.ok (), session) ∧ m ∈ session.design.modules ∧
    m.circuit? (fun _ => 0) "shift" = .ok none ∧
    ∀ c ∈ m.connections, m.isDataPath c = true → ∀ w,
      Relation.ReflTransGen m.ComesFrom c.driver w → ¬ m.IsUndriven w ∧ ¬ m.InRing w := by
  have hrun : (((shiftProgram.buildAll 3).run .empty).any fun result => result.1.toOption.isSome &&
      result.2.design.modules.any fun m => m.tracedConnections?.isNone &&
        m.connections.all fun c => (m.traceBack 5 c.driver).isSome) = true := by
    decide +kernel
  obtain ⟨session, m, hsession, hm, hcheck⟩ := Program.exists_module_of_any hrun
  simp only [Bool.and_eq_true, Option.isNone_iff_eq_none, Array.all_eq_true_iff_forall_mem] at hcheck
  obtain ⟨hnone, hsources⟩ := hcheck
  refine ⟨session, m, hsession, hm, circuit?_eq_none hnone, ?_⟩
  intro c hc _ w hw
  obtain ⟨⟨s, n⟩, hback⟩ := Option.isSome_iff_exists.mp (hsources c hc)
  exact (traceBack_eq_some_iff.mp hback).1.not_stuck hw

end Module

end NetlistCompiler
