import NetlistCompiler.Proofs.LeastPeriod

/-!
# Retimings one after the other

A circuit that has the vertices of another one, and its edges with the registers that some lags leave
on them, is retimed further by adding lags to these. So the least clock period of a circuit is also
that of all its retimings, whatever their vertices and edges stand for.
-/

namespace NetlistCompiler

namespace Circuit

open WeightedGraph

variable {ν ν' ε ε' : Type}

/-! ### Adding lags -/

/-- A circuit has the vertices of another one, and its edges with as many registers as the lags
leave on them. -/
structure RetimesTo (c : Circuit ν ε) (lags : Array Int) (d : Circuit ν' ε') : Prop where
  order : d.graph.order = c.graph.order
  delayAt : ∀ v, d.graph.delayAt v = c.graph.delayAt v
  edges : ∃ F : Edge ε → Edge ε', d.graph.edges = c.graph.edges.map F ∧
    ∀ e, (F e).source = e.source ∧ (F e).sink = e.sink ∧ (F e).weight = registersUnder lags e

/-- The lags of two retimings one after the other. -/
def addLags (a b : Array Int) : Array Int :=
  Array.zipWith (· + ·) a b

lemma getD_addLags {a b : Array Int} {v : Nat} (ha : v < a.size) (hb : v < b.size) :
    (addLags a b).getD v 0 = a.getD v 0 + b.getD v 0 := by
  simp [addLags, Array.getD_eq_getD_getElem?, ha, hb]

section

variable {c : Circuit ν ε} {d : Circuit ν' ε'} {lags : Array Int}

lemma registersUnder_addLags {ρ : Array Int} (hlags : lags.size = c.graph.order)
    (hρ : ρ.size = c.graph.order) {e : Edge ε} (he : e ∈ c.graph.edges) {e' : Edge ε'}
    (hsource : e'.source = e.source) (hsink : e'.sink = e.sink)
    (hweight : e'.weight = registersUnder lags e) :
    registersUnder ρ e' = registersUnder (addLags lags ρ) e := by
  have hs := source_lt_of_mem he
  have ht := sink_lt_of_mem he
  have hsum₁ := getD_addLags (hlags ▸ hs) (hρ ▸ hs)
  have hsum₂ := getD_addLags (hlags ▸ ht) (hρ ▸ ht)
  simp only [registersUnder, hsource, hsink, hweight, hsum₁, hsum₂]
  omega

/-- Lags in the retimed circuit leave the registers that they leave in the original on top of its
own lags. -/
lemma RetimesTo.relabels (h : c.RetimesTo lags d) {ρ : Array Int}
    (hlags : lags.size = c.graph.order) (hρ : ρ.size = c.graph.order) :
    Relabels c.graph (registersUnder (addLags lags ρ)) d.graph (registersUnder ρ) := by
  obtain ⟨F, hedges, hF⟩ := h.edges
  refine ⟨h.order, h.delayAt, F, hedges, ?_⟩
  intro e he
  obtain ⟨hsource, hsink, hweight⟩ := hF e
  exact ⟨hsource, hsink, registersUnder_addLags hlags hρ he hsource hsink hweight⟩

lemma RetimesTo.fitsIn (h : c.RetimesTo lags d) {a : Arithmetic} (hfit : c.FitsIn a) :
    d.FitsIn a := by
  obtain ⟨F, hedges, hF⟩ := h.edges
  have hrelabels : Relabels c.graph (registersUnder lags) d.graph Edge.weight :=
    ⟨h.order, h.delayAt, F, hedges, fun e _ => hF e⟩
  exact hrelabels.fitsIn hfit

lemma RetimesTo.periodUnder_eq (h : c.RetimesTo lags d) {ρ : Array Int}
    (hlags : lags.size = c.graph.order) (hρ : ρ.size = c.graph.order) (a : Arithmetic) :
    d.periodUnder a ρ = c.periodUnder a (addLags lags ρ) := by
  have hdelays : d.delaysUnder a ρ = c.delaysUnder a (addLags lags ρ) :=
    (h.relabels hlags hρ).delaysWith_eq a
  rw [periodUnder, periodUnder, hdelays]

/-- What meets a target in the retimed circuit meets it in the original, on top of the lags. -/
lemma RetimesTo.meets (h : c.RetimesTo lags d) (hlags : lags.size = c.graph.order) {ρ : Array Int}
    {s : Int} (hρ : d.Meets s ρ) : c.Meets s (addLags lags ρ) := by
  have hsize : ρ.size = c.graph.order := hρ.size.trans h.order
  refine ⟨by simp [addLags, hlags, hsize], ?_, ?_⟩
  · rw [isLegal_iff]
    intro e he
    obtain ⟨F, hedges, hF⟩ := (h.relabels hlags hsize).edges
    rw [← (hF e he).2.2]
    exact isLegal_iff.mp hρ.legal (F e) (hedges ▸ Array.mem_map_of_mem he)
  · rw [← h.periodUnder_eq hlags hsize]
    exact hρ.period

lemma RetimesTo.period_eq (h : c.RetimesTo lags d) (hlags : lags.size = c.graph.order)
    (a : Arithmetic) : d.period a = c.periodUnder a lags := by
  have hzero : addLags lags d.noLags = lags := by
    apply Array.ext
    · simp [addLags, noLags, h.order, hlags]
    · intro i hi hi'
      simp [addLags, noLags]
  have hsize : d.noLags.size = c.graph.order := by simp [noLags, h.order]
  rw [← periodUnder_noLags, h.periodUnder_eq hlags hsize, hzero]

/-! ### The least clock period -/

/-- The clock period of the circuit is the least that any retiming of it has. -/
structure IsLeastPeriod (c : Circuit ν ε) (t : Int) : Prop where
  period : c.period .exact = .ok t
  least : ∀ ρ s, c.Meets s ρ → t ≤ s

/-- A retiming that reaches the least clock period leaves nothing to be gained. -/
lemma RetimesTo.isLeastPeriod (h : c.RetimesTo lags d) (hlags : lags.size = c.graph.order) {t : Int}
    (ht : c.periodUnder .exact lags = .ok t) (hleast : ∀ ρ s, c.Meets s ρ → t ≤ s) :
    d.IsLeastPeriod t :=
  ⟨(h.period_eq hlags .exact).trans ht, fun _ s hρ => hleast _ s (h.meets hlags hρ)⟩

end

lemma meets_noLags {c : Circuit ν ε} {t : Int} (h : c.period .exact = .ok t) :
    c.Meets t c.noLags :=
  ⟨by simp [noLags], isLegal_noLags c, t, by rw [periodUnder_noLags, h], le_rfl⟩

end Circuit

end NetlistCompiler
