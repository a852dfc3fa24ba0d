import NetlistCompiler.Proofs.DistinctLists
import NetlistCompiler.Proofs.RegisterMoves
import NetlistCompiler.Proofs.ShortestPaths

/-!
# Possible clock periods

The candidates for a clock period are the largest delays of walks with the fewest registers between
two vertices. A walk that legal lags leave without registers has the fewest registers of all walks
between its ends, so every period that legal lags lead to is a candidate. The candidates are exactly
these delays, one for every pair of vertices with a walk between them, in every arithmetic that keeps
the delays of paths.
-/

namespace NetlistCompiler

namespace Circuit

open WeightedGraph

variable {ν ε : Type} {c : Circuit ν ε} {a : Arithmetic}

/-- Whether `d` is the largest total delay of the walks from `u` to `v` with the fewest
registers. -/
def IsCritical (c : Circuit ν ε) (u v : Nat) (d : Int) : Prop :=
  ∃ p, c.graph.IsWalk u p v ∧ c.graph.walkDelay p v = d ∧
    ∀ q, c.graph.IsWalk u q v → (p.map Edge.weight).sum < (q.map Edge.weight).sum ∨
      (p.map Edge.weight).sum = (q.map Edge.weight).sum ∧ c.graph.walkDelay q v ≤ d

/-! ### The order of walks -/

lemma comparePaths_isLE {a b : Int × Int} :
    (comparePaths a b).isLE ↔ a.1 < b.1 ∨ a.1 = b.1 ∧ a.2 ≤ b.2 := by
  unfold comparePaths
  rcases lt_trichotomy a.1 b.1 with h | h | h
  · simp [compare_lt_iff_lt.mpr h, h]
  · simp [h, Std.isLE_compare]
  · simp [compare_gt_iff_gt.mpr h, h.not_gt, h.ne']

lemma transCmp_comparePaths : Std.TransCmp comparePaths := by
  have horiented : Std.OrientedCmp comparePaths := by
    refine ⟨?_⟩
    intro a b
    unfold comparePaths
    rw [Ordering.swap_then, ← Std.OrientedCmp.eq_swap, ← Std.OrientedCmp.eq_swap]
  refine ⟨?_⟩
  intro a b x hab hbx
  rw [comparePaths_isLE] at hab hbx ⊢
  omega

lemma walkValue_pathWeight (g : WeightedGraph ν ε) (a : Int × Int) (p : List (Edge ε)) :
    walkValue (pathWeight g) (addPaths .exact) a p =
      (a.1 + (p.map Edge.weight).sum, a.2 - (p.map fun e => g.delayAt e.source).sum) := by
  induction p generalizing a with
  | nil => simp [walkValue]
  | cons e p ih =>
    have hstep : walkValue (pathWeight g) (addPaths .exact) a (e :: p) =
        walkValue (pathWeight g) (addPaths .exact) (a.1 + e.weight, a.2 + -g.delayAt e.source) p := rfl
    rw [hstep, ih, List.map_cons, List.map_cons, List.sum_cons, List.sum_cons]
    apply Prod.ext
    · simp only
      ring
    · simp only
      ring

/-- Around a cycle there is a register, so that a cycle never makes a walk better. -/
lemma pathOrder (c : Circuit ν ε) :
    c.graph.PathOrder (pathWeight c.graph) comparePaths (addPaths .exact) := by
  refine ⟨transCmp_comparePaths, ?_, ?_⟩
  · intro a b x hab
    rw [comparePaths_isLE] at hab ⊢
    simp only [addPaths, Arithmetic.fit_exact]
    omega
  · intro a v p hp
    rw [comparePaths_isLE, walkValue_pathWeight]
    have hnonneg : ∀ e ∈ p, 0 ≤ e.weight := fun e he => c.registers_nonneg e (hp.mem_edges he)
    have hsum : 0 ≤ (p.map Edge.weight).sum := sum_map_nonneg hnonneg
    rcases hsum.lt_or_eq with hpos | hzero
    · left
      simp only
      omega
    · right
      have hnil : p = [] := c.acyclic v p hp (eq_zero_of_sum_eq_zero hnonneg hzero.symm)
      subst hnil
      simp

/-! ### The candidates -/

lemma isCritical_iff {u v : Nat} {d : Int} (hu : u < c.graph.order) :
    c.IsCritical u v d ↔ ∃ w,
      (c.graph.shortestPaths (pathWeight c.graph) comparePaths (addPaths .exact) u (0, 0)).getD v none =
        some (w, c.graph.delayAt v - d) := by
  obtain ⟨_, hleast, hreach⟩ := c.pathOrder.shortestPaths_spec hu (0, 0)
  constructor
  · rintro ⟨p, hp, rfl, hbest⟩
    obtain ⟨x, hx⟩ := hreach v p hp
    obtain ⟨⟨q, hq, hvalue⟩, hle⟩ := hleast v x hx
    have hxp := hle p hp
    have hpq := hbest q hq
    rw [walkValue_pathWeight] at hvalue hxp
    rw [comparePaths_isLE, ← hvalue] at hxp
    simp only [zero_add, zero_sub] at hvalue hxp
    refine ⟨x.1, ?_⟩
    rw [hx, ← hvalue]
    simp only [walkDelay] at hpq ⊢
    congr 2
    omega
  · rintro ⟨w, hx⟩
    obtain ⟨⟨p, hp, hvalue⟩, hle⟩ := hleast v _ hx
    rw [walkValue_pathWeight] at hvalue
    simp only [zero_add, zero_sub, Prod.mk.injEq] at hvalue
    refine ⟨p, hp, ?_, ?_⟩
    · unfold walkDelay
      omega
    · intro q hq
      have hpq := hle q hq
      rw [walkValue_pathWeight, comparePaths_isLE] at hpq
      simp only [zero_add, zero_sub] at hpq
      unfold walkDelay
      omega

lemma exists_of_mem_zip {distances : Array (Option (Int × Int))} {distance : Option (Int × Int)}
    {vertex : Vertex ν} (h : (distance, vertex) ∈ distances.toList.zip c.graph.vertices.toList) :
    ∃ v, distances.getD v none = distance ∧ c.graph.delayAt v = vertex.weight := by
  obtain ⟨v, hv, heq⟩ := List.getElem_of_mem h
  simp only [List.length_zip, Array.length_toList] at hv
  simp only [List.getElem_zip, Array.getElem_toList, Prod.mk.injEq] at heq
  have hv₁ : v < distances.size := by omega
  have hv₂ : v < c.graph.vertices.size := by omega
  refine ⟨v, ?_, by simp [delayAt, hv₂, heq.2]⟩
  rw [Array.getD_eq_getD_getElem?, Array.getElem?_eq_getElem hv₁, heq.1, Option.getD_some]

lemma mem_zip_of_distance {distances : Array (Option (Int × Int))}
    (hsize : distances.size = c.graph.order) {v : Nat} {x : Int × Int}
    (h : distances.getD v none = some x) :
    ∃ vertex, (some x, vertex) ∈ distances.toList.zip c.graph.vertices.toList ∧
      c.graph.delayAt v = vertex.weight := by
  have hv : v < distances.size := by
    by_contra hge
    rw [Array.getD_eq_getD_getElem?, Array.getElem?_eq_none (not_lt.mp hge)] at h
    cases h
  have hv' : v < c.graph.vertices.size := hv.trans_eq hsize
  refine ⟨c.graph.vertices[v], ?_, by simp [delayAt, hv']⟩
  rw [List.mem_iff_getElem]
  refine ⟨v, by simpa using ⟨hv, hv'⟩, ?_⟩
  rw [Array.getD_eq_getD_getElem?, Array.getElem?_eq_getElem hv] at h
  simpa using h

lemma mem_periodsFrom {u : Nat} {d : Int} (hu : u < c.graph.order) :
    d ∈ c.periodsFrom .exact u ↔ ∃ v, c.IsCritical u v d := by
  unfold periodsFrom
  simp only [List.mem_filterMap, Prod.exists, Option.map_eq_some_iff, isCritical_iff hu]
  constructor
  · rintro ⟨distance, vertex, hmem, w, x, rfl, rfl⟩
    obtain ⟨v, hv, hdelay⟩ := exists_of_mem_zip hmem
    refine ⟨v, w, ?_⟩
    rw [hv, hdelay, Arithmetic.fit_exact, sub_sub_cancel]
  · rintro ⟨v, w, hx⟩
    obtain ⟨vertex, hmem, hdelay⟩ := mem_zip_of_distance (size_shortestPaths u (0, 0)) hx
    refine ⟨_, vertex, hmem, w, _, rfl, ?_⟩
    rw [Arithmetic.fit_exact, hdelay, sub_sub_cancel]

lemma mem_sortedDistinct {n : Int} {ns : List Int} : n ∈ sortedDistinct ns ↔ n ∈ ns := by
  rw [sortedDistinct, mem_eraseReps, List.mem_mergeSort]

lemma mem_possiblePeriods {d : Int} :
    d ∈ c.possiblePeriods .exact ↔ ∃ u v, c.IsCritical u v d := by
  rw [possiblePeriods, mem_sortedDistinct, List.mem_flatMap]
  constructor
  · rintro ⟨u, hu, hd⟩
    obtain ⟨v, hv⟩ := (mem_periodsFrom (List.mem_range.mp hu)).mp hd
    exact ⟨u, v, hv⟩
  · rintro ⟨u, v, hv⟩
    have hu : u < c.graph.order := by
      obtain ⟨p, hp, _⟩ := hv
      exact hp.source_lt
    exact ⟨u, List.mem_range.mpr hu, (mem_periodsFrom hu).mpr ⟨v, hv⟩⟩

lemma possiblePeriods_sorted (c : Circuit ν ε) (a : Arithmetic) :
    (c.possiblePeriods a).Pairwise (· < ·) := by
  have hsorted : (((List.range c.graph.order).flatMap (c.periodsFrom a)).mergeSort
      fun s t => decide (s ≤ t)).Pairwise fun s t => decide (s ≤ t) = true :=
    List.pairwise_mergeSort (by simpa using fun a b x => le_trans) (by simpa using le_total) _
  have hstrict := pairwise_eraseReps (by simpa using fun a b => le_antisymm) hsorted
  refine hstrict.imp ?_
  rintro s t ⟨hle, hne⟩
  exact lt_of_le_of_ne (by simpa using hle) hne

/-- The sums on the way to the candidates are those of paths: an edge adds the delay of its source to
that of the path before it, and the last vertex is added at the end. -/
lemma FitsIn.periodsFrom_eq (h : c.FitsIn a) {u : Nat} (hu : u < c.graph.order) :
    c.periodsFrom a u = c.periodsFrom .exact u := by
  have hdistances : c.graph.shortestPaths (pathWeight c.graph) comparePaths (addPaths a) u (0, 0) =
      c.graph.shortestPaths (pathWeight c.graph) comparePaths (addPaths .exact) u (0, 0) := by
    refine c.pathOrder.shortestPaths_congr ?_ hu
    intro e he p hp
    have hdelay := h u p e.source hp
    have hneg := Arithmetic.fit_neg (walkDelay_nonneg c.delay_nonneg p e.source) hdelay
    rw [walkValue_pathWeight]
    simp only [addPaths, pathWeight, Arithmetic.fit_exact, zero_add, zero_sub]
    rw [walkDelay, neg_add] at hneg
    exact congrArg _ hneg
  unfold periodsFrom
  rw [hdistances]
  apply List.filterMap_congr
  rintro ⟨distance, vertex⟩ hmem
  cases distance with
  | none => rfl
  | some x =>
    obtain ⟨v, hv, hvertex⟩ := exists_of_mem_zip hmem
    obtain ⟨p, hp, hvalue⟩ := c.pathOrder.exists_isPath hu hv
    have hdelay : vertex.weight - x.2 = c.graph.walkDelay p v := by
      rw [← hvalue, walkValue_pathWeight, walkDelay, hvertex]
      simp only
      omega
    simp only [Option.map_some, hdelay, h u p v hp, Arithmetic.fit_exact]

lemma FitsIn.possiblePeriods_eq (h : c.FitsIn a) :
    c.possiblePeriods a = c.possiblePeriods .exact := by
  unfold possiblePeriods
  congr 1
  exact List.flatMap_congr fun u hu => h.periodsFrom_eq (List.mem_range.mp hu)

/-- Every clock period that legal lags lead to is a candidate. -/
theorem IsPeriod.mem_possiblePeriods {lags : Array Int} {t : Int}
    (hlegal : c.isLegal lags = true) (hpos : 0 < c.graph.order)
    (h : IsPeriod c.graph (registersUnder lags) t) : t ∈ c.possiblePeriods .exact := by
  obtain ⟨⟨v, u, p, hp, hfree, rfl⟩, hgreatest⟩ := h.isGreatest hpos
  rw [Circuit.mem_possiblePeriods]
  refine ⟨u, v, p, hp, rfl, ?_⟩
  intro q hq
  have hpsum : (p.map (registersUnder lags)).sum = 0 := sum_map_eq_zero hfree
  have hqsum := sum_registersUnder_nonneg hlegal hq
  have hqfree := registersUnder_eq_zero hlegal hq
  rw [sum_registersUnder hp] at hpsum
  rw [sum_registersUnder hq] at hqsum hqfree
  rcases lt_or_eq_of_le (show (p.map Edge.weight).sum ≤ (q.map Edge.weight).sum by omega)
    with hlt | heq
  · exact Or.inl hlt
  · exact Or.inr ⟨heq, hgreatest ⟨v, u, q, hq, hqfree (by omega), rfl⟩⟩

lemma possiblePeriods_eq_nil_iff : c.possiblePeriods .exact = [] ↔ c.graph.order = 0 := by
  constructor
  · intro hnil
    by_contra hne
    obtain ⟨t, _, hperiod⟩ := c.periodUnder_spec c.noLags
    have hmem := hperiod.mem_possiblePeriods c.isLegal_noLags (Nat.pos_of_ne_zero hne)
    rw [hnil] at hmem
    simp at hmem
  · intro h0
    rw [List.eq_nil_iff_forall_not_mem]
    intro d hd
    obtain ⟨u, v, p, hp, _⟩ := mem_possiblePeriods.mp hd
    have := hp.source_lt
    omega

/-- In every arithmetic a circuit with vertices has candidates. -/
lemma order_eq_zero_of_possiblePeriods (h : c.possiblePeriods a = []) : c.graph.order = 0 := by
  by_contra hne
  have hpos : 0 < c.graph.order := Nat.pos_of_ne_zero hne
  obtain ⟨x, hx⟩ : ∃ x, (c.graph.shortestPaths (pathWeight c.graph) comparePaths (addPaths a) 0
      (0, 0)).getD 0 none = some x := exists_distance_root hpos (0, 0)
  obtain ⟨vertex, hmem, -⟩ := mem_zip_of_distance (size_shortestPaths 0 (0, 0)) hx
  have hcandidate : a.fit (vertex.weight - x.2) ∈ c.possiblePeriods a := by
    rw [possiblePeriods, mem_sortedDistinct, List.mem_flatMap]
    exact ⟨0, List.mem_range.mpr hpos, List.mem_filterMap.mpr ⟨_, hmem, rfl⟩⟩
  rw [h] at hcandidate
  cases hcandidate

/-! ### Pairs of vertices -/

/-- The total delays of the walks from `u` to `v` that have the fewest registers. -/
def leanDelays (c : Circuit ν ε) (u v : Nat) : Set Int :=
  {d | ∃ p, c.graph.IsWalk u p v ∧ c.graph.walkDelay p v = d ∧
    ∀ q, c.graph.IsWalk u q v → (p.map Edge.weight).sum ≤ (q.map Edge.weight).sum}

lemma isCritical_iff_isGreatest {u v : Nat} {d : Int} :
    c.IsCritical u v d ↔ IsGreatest (c.leanDelays u v) d := by
  constructor
  · rintro ⟨p, hp, hd, hbest⟩
    have hfewest : ∀ q, c.graph.IsWalk u q v →
        (p.map Edge.weight).sum ≤ (q.map Edge.weight).sum := by
      intro q hq
      rcases hbest q hq with hlt | ⟨heq, _⟩
      · exact hlt.le
      · exact heq.le
    refine ⟨⟨p, hp, hd, hfewest⟩, ?_⟩
    rintro _ ⟨q, hq, rfl, hqfewest⟩
    rcases hbest q hq with hlt | ⟨_, hle⟩
    · exact absurd (hqfewest p hp) hlt.not_ge
    · exact hle
  · rintro ⟨⟨p, hp, hd, hfewest⟩, hgreatest⟩
    refine ⟨p, hp, hd, ?_⟩
    intro q hq
    rcases lt_or_eq_of_le (hfewest q hq) with hlt | heq
    · exact Or.inl hlt
    · exact Or.inr ⟨heq, hgreatest ⟨q, hq, rfl, fun q' hq' => heq ▸ hfewest q' hq'⟩⟩

lemma exists_isCritical {u v : Nat} {p : List (Edge ε)} (hp : c.graph.IsWalk u p v) :
    ∃ d, c.IsCritical u v d := by
  obtain ⟨_, _, hreach⟩ := c.pathOrder.shortestPaths_spec hp.source_lt (0, 0)
  obtain ⟨x, hx⟩ := hreach v p hp
  refine ⟨c.graph.delayAt v - x.2, (isCritical_iff hp.source_lt).mpr ⟨x.1, ?_⟩⟩
  rw [hx, sub_sub_cancel]

/-- The candidates are, in ascending order, the largest delays of the walks with the fewest
registers, one for every pair of vertices with a walk between them. The clock period of a circuit
with vertices is a candidate after every legal retiming. -/
theorem possiblePeriods_exact (c : Circuit ν ε) (a : Arithmetic) (h : c.FitsIn a) :
    (c.possiblePeriods a).Pairwise (· < ·) ∧
      (∀ d, d ∈ c.possiblePeriods a ↔ ∃ u v, IsGreatest (c.leanDelays u v) d) ∧
      (∀ u p v, c.graph.IsWalk u p v → ∃ d, IsGreatest (c.leanDelays u v) d) ∧
      ∀ lags, 0 < c.graph.order → c.isLegal lags = true →
        ∃ c' t, c.retime lags = .ok c' ∧ c'.graph = c.graph.reweight (registersUnder lags) ∧
          c'.period a = .ok t ∧ t ∈ c.possiblePeriods a := by
  rw [h.possiblePeriods_eq]
  refine ⟨c.possiblePeriods_sorted .exact, ?_, ?_, ?_⟩
  · intro d
    simp only [mem_possiblePeriods, isCritical_iff_isGreatest]
  · intro u p v hp
    simpa only [isCritical_iff_isGreatest] using exists_isCritical hp
  · intro lags hpos hlegal
    obtain ⟨c', hc', hgraph, hperiod⟩ := retime_spec hlegal
    obtain ⟨t, ht, hspec⟩ := c.periodUnder_spec lags
    refine ⟨c', t, hc', hgraph, ?_, hspec.mem_possiblePeriods hlegal hpos⟩
    rw [hperiod, h.periodUnder_eq, ht]

/-- Around the ring the fewest registers are two, and a register in front of the slow vertex takes
the ring from one candidate to another. -/
theorem possiblePeriods_exact_ring :
    ring.possiblePeriods .word = [3, 7, 10] ∧ (∃ u v, IsGreatest (ring.leanDelays u v) 10) ∧
      (∃ d, IsGreatest (ring.leanDelays 1 0) d) ∧ ring.isLegal #[0, 1] = true ∧
      ∃ c' t, ring.retime #[0, 1] = .ok c' ∧
        c'.graph = ring.graph.reweight (registersUnder #[0, 1]) ∧ c'.period .word = .ok t ∧
        t ∈ ring.possiblePeriods .word := by
  obtain ⟨_, hmem, hwalk, hretime⟩ := ring.possiblePeriods_exact .word (fitsIn_ring .word)
  have hperiods : ring.possiblePeriods .word = [3, 7, 10] := by cbv
  have hlegal : ring.isLegal #[0, 1] = true := by decide +kernel
  have hback : ring.graph.IsWalk 1 [⟨1, 0, 2, ()⟩] 0 :=
    ⟨by simp [ring], rfl, rfl, by decide +kernel⟩
  refine ⟨hperiods, (hmem 10).mp ?_, hwalk 1 _ 0 hback, hlegal,
    hretime #[0, 1] (by decide +kernel) hlegal⟩
  simp [hperiods]

end Circuit

end NetlistCompiler
