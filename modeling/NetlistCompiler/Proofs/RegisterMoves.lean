import NetlistCompiler.Circuit.Retiming
import NetlistCompiler.Proofs.CombinationalDelay

/-!
# Moving registers

Lags change the number of registers on a walk by the difference of the lags at its ends. So a cycle
keeps its registers, no lags make a register-free cycle, and every legal retiming of a circuit is a
circuit again. Its combinational delays can be computed from the lags alone.
-/

namespace NetlistCompiler

namespace Circuit

open WeightedGraph

variable {ν ε : Type} {c : Circuit ν ε} {a : Arithmetic}

lemma isLegal_iff {lags : Array Int} :
    c.isLegal lags = true ↔ ∀ e ∈ c.graph.edges, 0 ≤ registersUnder lags e := by
  rw [isLegal, Array.all_eq_true_iff_forall_mem]
  simp

lemma registersUnder_noLags (c : Circuit ν ε) (e : Edge ε) :
    registersUnder c.noLags e = e.weight := by
  have hget : ∀ v, c.noLags.getD v 0 = 0 := by
    intro v
    simp only [noLags, Array.getD_eq_getD_getElem?, Array.getElem?_replicate]
    split <;> rfl
  rw [registersUnder, hget, hget]
  ring

lemma isLegal_noLags (c : Circuit ν ε) : c.isLegal c.noLags = true := by
  rw [isLegal_iff]
  intro e he
  rw [registersUnder_noLags]
  exact c.registers_nonneg e he

lemma sum_registersUnder {u v : Nat} {p : List (Edge ε)} (h : c.graph.IsWalk u p v)
    (lags : Array Int) :
    (p.map (registersUnder lags)).sum =
      (p.map Edge.weight).sum + lags.getD v 0 - lags.getD u 0 :=
  h.sum_potential Edge.weight (fun v => lags.getD v 0)

lemma sum_registersUnder_nonneg {lags : Array Int} (hlegal : c.isLegal lags = true) {u v : Nat}
    {p : List (Edge ε)} (h : c.graph.IsWalk u p v) : 0 ≤ (p.map (registersUnder lags)).sum :=
  sum_map_nonneg fun e he => isLegal_iff.mp hlegal e (h.mem_edges he)

/-- Legal lags leave no register on a walk only if they leave none on any of its edges. -/
lemma registersUnder_eq_zero {lags : Array Int} (hlegal : c.isLegal lags = true) {u v : Nat}
    {p : List (Edge ε)} (h : c.graph.IsWalk u p v)
    (hsum : (p.map (registersUnder lags)).sum = 0) : ∀ e ∈ p, registersUnder lags e = 0 :=
  eq_zero_of_sum_eq_zero (fun e he => isLegal_iff.mp hlegal e (h.mem_edges he)) hsum

/-- Whatever the lags, a cycle without registers had none before. -/
lemma acyclic_registersUnder (c : Circuit ν ε) (lags : Array Int) :
    c.graph.Acyclic fun e => registersUnder lags e = 0 := by
  intro v p hp hfree
  have hzero : (p.map (registersUnder lags)).sum = 0 := sum_map_eq_zero hfree
  have hsum : (p.map Edge.weight).sum = 0 := by
    have := sum_registersUnder hp lags
    omega
  have hnonneg : ∀ e ∈ p, 0 ≤ e.weight := fun e he => c.registers_nonneg e (hp.mem_edges he)
  exact c.acyclic v p hp (eq_zero_of_sum_eq_zero hnonneg hsum)

theorem delaysUnder_spec (c : Circuit ν ε) (lags : Array Int) :
    ∃ delays, c.delaysUnder .exact lags = .ok delays ∧ delays.size = c.graph.order ∧
      ∀ v < c.graph.order,
        IsGreatest (arrivals c.graph (registersUnder lags) v) (delays.getD v 0) :=
  delaysWith_spec c.fitsIn_exact (c.acyclic_registersUnder lags)

theorem periodUnder_spec (c : Circuit ν ε) (lags : Array Int) :
    ∃ t, c.periodUnder .exact lags = .ok t ∧ IsPeriod c.graph (registersUnder lags) t :=
  c.exists_isPeriod (c.acyclic_registersUnder lags)

lemma FitsIn.delaysUnder_eq (h : c.FitsIn a) (lags : Array Int) :
    c.delaysUnder a lags = c.delaysUnder .exact lags :=
  h.delaysWith_eq (c.acyclic_registersUnder lags)

lemma FitsIn.periodUnder_eq (h : c.FitsIn a) (lags : Array Int) :
    c.periodUnder a lags = c.periodUnder .exact lags := by
  rw [periodUnder, periodUnder, h.delaysUnder_eq]

lemma FitsIn.period_eq (h : c.FitsIn a) : c.period a = c.period .exact := by
  rw [period, period, delays, delays, h.delaysWith_eq c.acyclic]

/-- Whatever becomes of the sums, there are delays, a period and no failure. -/
lemma exists_delaysUnder (c : Circuit ν ε) (a : Arithmetic) (lags : Array Int) :
    ∃ delays, c.delaysUnder a lags = .ok delays :=
  have ⟨_, _, hok⟩ := c.exists_delaysWith a (c.acyclic_registersUnder lags)
  ⟨_, hok⟩

lemma exists_periodUnder (c : Circuit ν ε) (a : Arithmetic) (lags : Array Int) :
    ∃ t, c.periodUnder a lags = .ok t := by
  obtain ⟨delays, hok⟩ := c.exists_delaysUnder a lags
  refine ⟨largest delays.toList, ?_⟩
  rw [periodUnder, hok]
  rfl

/-! ### The retimed circuit -/

lemma mem_reweight {g : WeightedGraph ν ε} {f : Edge ε → Int} {e : Edge ε} :
    e ∈ (g.reweight f).edges ↔ ∃ e' ∈ g.edges, { e' with weight := f e' } = e := by
  simp [reweight]

lemma isWalk_reweight {g : WeightedGraph ν ε} {f : Edge ε → Int} {u v : Nat}
    {q : List (Edge ε)} :
    (g.reweight f).IsWalk u q v ↔
      ∃ p, g.IsWalk u p v ∧ p.map (fun e => { e with weight := f e }) = q := by
  induction q generalizing u with
  | nil => simp [IsWalk, reweight, WeightedGraph.order]
  | cons e q ih =>
    simp only [IsWalk, ih, mem_reweight]
    constructor
    · rintro ⟨⟨e', he', rfl⟩, rfl, p, hp, rfl⟩
      exact ⟨e' :: p, ⟨he', rfl, hp⟩, rfl⟩
    · rintro ⟨p, hp, heq⟩
      cases p with
      | nil => simp at heq
      | cons e' p =>
        obtain ⟨he', rfl, hp⟩ := hp
        simp only [List.map_cons, List.cons.injEq] at heq
        obtain ⟨rfl, hq⟩ := heq
        exact ⟨⟨e', he', rfl⟩, rfl, p, hp, hq⟩

lemma acyclic_reweight {g : WeightedGraph ν ε} {f : Edge ε → Int}
    (ha : g.Acyclic fun e => f e = 0) : (g.reweight f).Acyclic fun e => e.weight = 0 := by
  intro v q hq hfree
  obtain ⟨p, hp, rfl⟩ := isWalk_reweight.mp hq
  rw [List.map_eq_nil_iff]
  exact ha v p hp (fun e he => hfree _ (List.mem_map_of_mem he))

/-- What becomes of a graph: it is refused for a negative delay, for a negative number of registers
or for a cycle without registers, or else it is made a circuit. -/
lemma ofGraph_outcomes (g : WeightedGraph ν ε) :
    (∃ i w, ofGraph g = .error (.negativeDelay i w) ∧ ∃ v ∈ g.vertices, v.weight < 0) ∨
      (∃ i w, ofGraph g = .error (.negativeRegisters i w) ∧ ∃ e ∈ g.edges, e.weight < 0) ∨
      (∃ nodes, ofGraph g = .error (.combinationalLoop nodes) ∧
        ¬g.Acyclic fun e => e.weight = 0) ∨
      ∃ c, ofGraph g = .ok c ∧ c.graph = g := by
  have hsort : (∃ l, g.topologicalSort (fun e => e.weight == 0) = .ok l) ↔
      g.Acyclic fun e => e.weight = 0 := by
    rw [exists_topologicalSort_iff]
    simp
  unfold ofGraph
  split
  · next i h =>
    obtain ⟨hi, hneg, -⟩ := Array.findIdx?_eq_some_iff_getElem.mp h
    exact .inl ⟨_, _, rfl, _, Array.getElem_mem hi, by simpa using hneg⟩
  · split
    · next i h =>
      obtain ⟨hi, hneg, -⟩ := Array.findIdx?_eq_some_iff_getElem.mp h
      exact .inr (.inl ⟨_, _, rfl, _, Array.getElem_mem hi, by simpa using hneg⟩)
    · split
      · next remaining _ h =>
        refine .inr (.inr (.inl ⟨remaining, rfl, ?_⟩))
        rw [← hsort, h]
        rintro ⟨l, ⟨⟩⟩
      · next e hne h =>
        obtain ⟨remaining, total, rfl⟩ := exists_cycle_of_topologicalSort h
        exact absurd rfl (hne remaining total)
      · exact .inr (.inr (.inr ⟨_, rfl, rfl⟩))

lemma graph_of_ofGraph {g : WeightedGraph ν ε} {c : Circuit ν ε} (h : ofGraph g = .ok c) :
    c.graph = g := by
  obtain ⟨_, _, h', -⟩ | ⟨_, _, h', -⟩ | ⟨_, h', -⟩ | ⟨c', h', hgraph⟩ := ofGraph_outcomes g
  all_goals rw [h'] at h; cases h
  exact hgraph

/-- A graph whose weights are not negative is made a circuit or has a cycle without registers. -/
lemma ofGraph_cases {g : WeightedGraph ν ε} (hv : ∀ v ∈ g.vertices, 0 ≤ v.weight)
    (he : ∀ e ∈ g.edges, 0 ≤ e.weight) :
    ((∃ c, ofGraph g = .ok c ∧ c.graph = g) ∧ g.Acyclic fun e => e.weight = 0) ∨
      (∃ nodes, ofGraph g = .error (.combinationalLoop nodes)) ∧
        ¬ g.Acyclic fun e => e.weight = 0 := by
  obtain ⟨_, _, -, v, hmem, hneg⟩ | ⟨_, _, -, e, hmem, hneg⟩ | ⟨nodes, h, hcycle⟩ |
    ⟨c, h, hgraph⟩ := ofGraph_outcomes g
  · exact absurd (hv v hmem) hneg.not_ge
  · exact absurd (he e hmem) hneg.not_ge
  · exact .inr ⟨⟨nodes, h⟩, hcycle⟩
  · exact .inl ⟨⟨c, h, hgraph⟩, hgraph ▸ c.acyclic⟩

/-- A graph is made a circuit if its weights are not negative and every cycle has a register. -/
lemma exists_ofGraph {g : WeightedGraph ν ε} (hv : ∀ v ∈ g.vertices, 0 ≤ v.weight)
    (he : ∀ e ∈ g.edges, 0 ≤ e.weight) (ha : g.Acyclic fun e => e.weight = 0) :
    ∃ c, ofGraph g = .ok c ∧ c.graph = g := by
  rcases ofGraph_cases hv he with ⟨hc, -⟩ | ⟨-, hcycle⟩
  · exact hc
  · exact absurd ha hcycle

lemma relabels_reweight (g : WeightedGraph ν ε) (f : Edge ε → Int) :
    Relabels g f (g.reweight f) Edge.weight :=
  ⟨rfl, fun _ => rfl, _, rfl, fun _ _ => ⟨rfl, rfl, rfl⟩⟩

/-- The delays of a circuit with moved registers are those under the lags. -/
lemma delays_of_reweight {lags : Array Int} {c' : Circuit ν ε}
    (hgraph : c'.graph = c.graph.reweight (registersUnder lags)) (a : Arithmetic) :
    c'.delays a = c.delaysUnder a lags := by
  have hrelabels : Relabels c.graph (registersUnder lags) c'.graph Edge.weight :=
    hgraph ▸ relabels_reweight _ _
  exact hrelabels.delaysWith_eq a

/-- A legal retiming succeeds, and the clock period of the result is that of the lags. -/
theorem retime_spec {lags : Array Int} (hlegal : c.isLegal lags = true) :
    ∃ c', c.retime lags = .ok c' ∧ c'.graph = c.graph.reweight (registersUnder lags) ∧
      ∀ a, c'.period a = c.periodUnder a lags := by
  have hnonneg : ∀ e ∈ (c.graph.reweight (registersUnder lags)).edges, 0 ≤ e.weight := by
    intro e he
    obtain ⟨e', he', rfl⟩ := mem_reweight.mp he
    exact isLegal_iff.mp hlegal e' he'
  obtain ⟨c', hc', hgraph⟩ := exists_ofGraph (g := c.graph.reweight (registersUnder lags))
    c.delay_nonneg hnonneg (acyclic_reweight (c.acyclic_registersUnder lags))
  refine ⟨c', ?_, hgraph, ?_⟩
  · unfold retime
    rw [if_pos hlegal, hc']
  · intro a
    rw [period, periodUnder, delays_of_reweight hgraph]

/-- A slow and a fast vertex in a ring with two registers behind the slow one, and a second way
from the fast to the slow one. -/
def ring : Circuit Unit Unit where
  graph := ⟨#[⟨3, ()⟩, ⟨7, ()⟩], #[⟨0, 1, 0, ()⟩, ⟨1, 0, 2, ()⟩, ⟨0, 1, 1, ()⟩], by decide⟩
  delay_nonneg := by decide
  registers_nonneg := by decide
  sortable := ⟨[0, 1], rfl⟩

/-! ### Legal lags and no others -/

/-- A graph in which every cycle has a register is not refused because of a loop. -/
lemma ofGraph_ne_combinationalLoop {g : WeightedGraph ν ε}
    (ha : g.Acyclic fun e => e.weight = 0) (nodes : Nat) :
    ofGraph g ≠ .error (.combinationalLoop nodes) := by
  intro h
  obtain ⟨_, _, h', -⟩ | ⟨_, _, h', -⟩ | ⟨_, -, hcycle⟩ | ⟨_, h', -⟩ := ofGraph_outcomes g
  · rw [h'] at h
    cases h
  · rw [h'] at h
    cases h
  · exact hcycle ha
  · rw [h'] at h
    cases h

lemma retime_of_not_legal {lags : Array Int} (h : ¬c.isLegal lags = true) :
    c.retime lags = .error (.internal "retiming produces a negative register count") := by
  unfold retime
  rw [if_neg h]

lemma graph_of_retime {lags : Array Int} {c' : Circuit ν ε} (h : c.retime lags = .ok c') :
    c.isLegal lags = true ∧ c'.graph = c.graph.reweight (registersUnder lags) := by
  by_cases hlegal : c.isLegal lags = true
  · obtain ⟨c'', hc'', hgraph, -⟩ := retime_spec hlegal
    rw [hc''] at h
    cases h
    exact ⟨hlegal, hgraph⟩
  · rw [retime_of_not_legal hlegal] at h
    cases h

lemma error_of_retime {lags : Array Int} {e : GraphError} (h : c.retime lags = .error e) :
    e = .internal "retiming produces a negative register count" := by
  by_cases hlegal : c.isLegal lags = true
  · obtain ⟨c', hc', -⟩ := retime_spec hlegal
    rw [hc'] at h
    cases h
  · rw [retime_of_not_legal hlegal] at h
    cases h
    rfl

/-- Retiming succeeds exactly if the lags are legal. The registers on a walk change in number by the
difference of the lags at its ends, those on a cycle not at all, so that no lags lead to a loop
without registers: lags are only refused because they are not legal. -/
theorem retime_ok_iff_isLegal (c : Circuit ν ε) (lags : Array Int) :
    ((∃ c', c.retime lags = .ok c') ↔ c.isLegal lags = true) ∧
    (∀ c', c.retime lags = .ok c' → c'.graph = c.graph.reweight (registersUnder lags)) ∧
    (∀ u p v, c.graph.IsWalk u p v →
      (p.map (registersUnder lags)).sum - (p.map Edge.weight).sum =
        lags.getD v 0 - lags.getD u 0) ∧
    (∀ v p, c.graph.IsWalk v p v →
      (p.map (registersUnder lags)).sum = (p.map Edge.weight).sum) ∧
    (∀ nodes, ofGraph (c.graph.reweight (registersUnder lags)) ≠
      .error (.combinationalLoop nodes)) ∧
    (∀ e, c.retime lags = .error e →
      e = .internal "retiming produces a negative register count") ∧
    ∀ reason, c.retime lags ≠
      .error (.internal ("retimed circuit failed validation: " ++ reason)) := by
  refine ⟨⟨?_, ?_⟩, fun c' h => (graph_of_retime h).2, ?_, ?_, ?_, fun e => error_of_retime, ?_⟩
  · rintro ⟨c', h⟩
    exact (graph_of_retime h).1
  · intro hlegal
    obtain ⟨c', hc', -⟩ := retime_spec hlegal
    exact ⟨c', hc'⟩
  · intro u p v hp
    rw [sum_registersUnder hp]
    ring
  · intro v p hp
    rw [sum_registersUnder hp]
    ring
  · exact ofGraph_ne_combinationalLoop (acyclic_reweight (c.acyclic_registersUnder lags))
  · intro reason h
    -- the two texts differ in their sixth letter
    have htext := error_of_retime h
    rw [GraphError.internal.injEq] at htext
    have hletters := congrArg (fun text => text.toList.take 6) htext
    simp at hletters

/-- A register can be moved from behind the slow vertex of the ring to its front, but there is none
in front of it that could be moved behind it. Around the ring there are two registers afterwards,
as there were before. -/
theorem retime_ok_iff_isLegal_ring :
    (∃ c', ring.retime #[0, 1] = .ok c' ∧
      c'.graph = ring.graph.reweight (registersUnder #[0, 1])) ∧
    ¬(∃ c', ring.retime #[1, 0] = .ok c') ∧
    (([⟨0, 1, 0, ()⟩, ⟨1, 0, 2, ()⟩] : List (Edge Unit)).map (registersUnder #[0, 1])).sum = 2 := by
  obtain ⟨hlegal, hgraph, -, hcycle, -⟩ := ring.retime_ok_iff_isLegal #[0, 1]
  obtain ⟨hillegal, -⟩ := ring.retime_ok_iff_isLegal #[1, 0]
  have haround : ring.graph.IsWalk 0 [⟨0, 1, 0, ()⟩, ⟨1, 0, 2, ()⟩] 0 :=
    ⟨by simp [ring], rfl, by simp [ring], rfl, rfl, by decide +kernel⟩
  obtain ⟨c', hc'⟩ := hlegal.mpr (by decide +kernel)
  refine ⟨⟨c', hc', hgraph c' hc'⟩, ?_, (hcycle 0 _ haround).trans rfl⟩
  rw [hillegal]
  decide +kernel

/-! ### Delays under lags -/

lemma delaysUnder_noLags (c : Circuit ν ε) (a : Arithmetic) :
    c.delaysUnder a c.noLags = c.delays a := by
  have hregisters : (registersUnder c.noLags : Edge ε → Int) = Edge.weight :=
    funext c.registersUnder_noLags
  rw [delaysUnder, hregisters, delays]

lemma periodUnder_noLags (c : Circuit ν ε) (a : Arithmetic) :
    c.periodUnder a c.noLags = c.period a := by
  rw [periodUnder, delaysUnder_noLags, period]

/-- Under legal lags every vertex gets the largest total delay of a walk to it over edges that are
left without registers, and the clock period is the largest of these delays, 0 without vertices.
They are also the delays and the period of the retimed circuit, and without lags those of the
circuit itself. All this holds in every arithmetic that keeps the delays of paths. -/
theorem delaysUnder_exact (c : Circuit ν ε) (a : Arithmetic) (h : c.FitsIn a) :
    (∀ lags, c.isLegal lags = true → ∃ delays t,
      c.delaysUnder a lags = .ok delays ∧ c.periodUnder a lags = .ok t ∧
      delays.size = c.graph.order ∧
      (∀ v < c.graph.order,
        IsGreatest (arrivals c.graph (registersUnder lags) v) (delays.getD v 0)) ∧
      (0 < c.graph.order → IsGreatest {d | ∃ v < c.graph.order, delays.getD v 0 = d} t) ∧
      (c.graph.order = 0 → t = 0) ∧
      ∃ c', c.retime lags = .ok c' ∧ c'.delays a = .ok delays ∧ c'.period a = .ok t) ∧
    c.isLegal c.noLags = true ∧ c.delaysUnder a c.noLags = c.delays a ∧
      c.periodUnder a c.noLags = c.period a := by
  refine ⟨?_, c.isLegal_noLags, c.delaysUnder_noLags a, c.periodUnder_noLags a⟩
  intro lags hlegal
  obtain ⟨delays, hdelays, hsize, hgreatest⟩ :=
    delaysWith_spec h (c.acyclic_registersUnder lags)
  obtain ⟨c', hc', hgraph, hperiod'⟩ := retime_spec hlegal
  have hperiod : c.periodUnder a lags = .ok (largest delays.toList) := by
    rw [periodUnder, delaysUnder, hdelays]
    rfl
  refine ⟨delays, largest delays.toList, hdelays, hperiod, hsize, hgreatest, ?_, ?_, c', hc',
    (delays_of_reweight hgraph a).trans hdelays, (hperiod' a).trans hperiod⟩
  · intro hpos
    rw [← hsize] at hpos ⊢
    exact isGreatest_largest hpos
  · exact (isPeriod_largest hsize hgreatest).empty

lemma fitsIn_ring (a : Arithmetic) : ring.FitsIn a :=
  fitsIn_of_sum_le a (by decide +kernel)

/-- With a register in front of the slow vertex of the ring its own delay is the period. -/
theorem delaysUnder_exact_ring :
    ring.delays .word = .ok #[3, 10] ∧ ring.isLegal #[0, 1] = true ∧
    ring.delaysUnder .word #[0, 1] = .ok #[3, 7] ∧ ring.periodUnder .word #[0, 1] = .ok 7 ∧
    IsGreatest (arrivals ring.graph (registersUnder #[0, 1]) 1) 7 ∧
    ∃ c', ring.retime #[0, 1] = .ok c' ∧ c'.delays .word = .ok #[3, 7] ∧
      c'.period .word = .ok 7 := by
  have hlegal : ring.isLegal #[0, 1] = true := by decide +kernel
  have hdelays : ring.delaysUnder .word #[0, 1] = .ok #[3, 7] := by decide +kernel
  have hperiod : ring.periodUnder .word #[0, 1] = .ok 7 := by decide +kernel
  obtain ⟨delays, t, hdelays', hperiod', -, hgreatest, -, -, hretimed⟩ :=
    (ring.delaysUnder_exact .word (fitsIn_ring .word)).1 #[0, 1] hlegal
  rw [hdelays] at hdelays'
  rw [hperiod] at hperiod'
  cases hdelays'
  cases hperiod'
  exact ⟨by decide +kernel, hlegal, hdelays, hperiod, hgreatest 1 (by decide +kernel), hretimed⟩

end Circuit

end NetlistCompiler
