import NetlistCompiler.Circuit
import NetlistCompiler.Proofs.TopologicalSort

/-!
# Combinational delays

The delays are computed along a topological order of the register-free edges. If no sum leaves the
range of the arithmetic, they are the largest total delays of register-free walks, and the clock
period is the largest of them all. They are computed in every arithmetic, and from nothing but the
ends and the registers of the edges and the delays of the vertices.
-/

namespace NetlistCompiler

namespace Circuit

open WeightedGraph

variable {ν ε : Type}

/-- The total delays of the walks to a vertex that meet no register. -/
def arrivals (g : WeightedGraph ν ε) (registers : Edge ε → Int) (v : Nat) : Set Int :=
  {d | ∃ u p, g.IsWalk u p v ∧ (∀ e ∈ p, registers e = 0) ∧ g.walkDelay p v = d}

/-- The total delays of all walks that meet no register. -/
def freeDelays (g : WeightedGraph ν ε) (registers : Edge ε → Int) : Set Int :=
  {d | ∃ v, d ∈ arrivals g registers v}

/-- Whether the total delays of all paths are kept by an arithmetic. -/
def FitsIn (c : Circuit ν ε) (a : Arithmetic) : Prop :=
  ∀ u p v, c.graph.IsPath u p v → a.fit (c.graph.walkDelay p v) = c.graph.walkDelay p v

lemma fitsIn_exact (c : Circuit ν ε) : c.FitsIn .exact :=
  fun _ _ _ _ => rfl

/-- No path takes longer than all vertices together. -/
lemma walkDelay_le_sum {c : Circuit ν ε} {u v : Nat} {p : List (Edge ε)}
    (h : c.graph.IsPath u p v) :
    c.graph.walkDelay p v ≤ ∑ w ∈ Finset.range c.graph.order, c.graph.delayAt w := by
  have hdelay : c.graph.walkDelay p v =
      ∑ w ∈ (p.map Edge.source ++ [v]).toFinset, c.graph.delayAt w := by
    rw [List.sum_toFinset _ h.nodup, List.map_append, List.map_map, List.sum_append]
    simp [walkDelay, Function.comp_def]
  rw [hdelay]
  apply Finset.sum_le_sum_of_subset_of_nonneg
  · intro w hw
    rw [Finset.mem_range]
    rcases List.mem_append.mp (List.mem_toFinset.mp hw) with hw | hw
    · obtain ⟨e, he, rfl⟩ := List.mem_map.mp hw
      exact source_lt_of_mem (h.isWalk.mem_edges he)
    · rw [List.mem_singleton.mp hw]
      exact h.isWalk.sink_lt
  · intro w _ _
    exact delayAt_nonneg c.delay_nonneg w

/-- Every arithmetic is exact if all delays together fit in a word. -/
lemma fitsIn_of_sum_le {c : Circuit ν ε} (a : Arithmetic)
    (h : ∑ w ∈ Finset.range c.graph.order, c.graph.delayAt w ≤ maxInt64) : c.FitsIn a := by
  intro u p v hp
  have hnonneg := walkDelay_nonneg c.delay_nonneg p v
  have hmin : minInt64 ≤ 0 := by decide
  exact a.fit_of_range (hmin.trans hnonneg) ((walkDelay_le_sum hp).trans h)

lemma le_largest {xs : List Int} {x : Int} (hx : x ∈ xs) : x ≤ largest xs := by
  unfold largest
  cases h : xs.max? with
  | none =>
    rw [List.max?_eq_none_iff.mp h] at hx
    simp at hx
  | some m => exact (List.max?_le_iff h).mp le_rfl x hx

lemma largest_mem {xs : List Int} (hne : xs ≠ []) : largest xs ∈ xs := by
  unfold largest
  cases h : xs.max? with
  | none => exact absurd (List.max?_eq_none_iff.mp h) hne
  | some m => exact List.max?_mem h

/-- The largest of the delays of all vertices. -/
lemma isGreatest_largest {delays : Array Int} (hpos : 0 < delays.size) :
    IsGreatest {d | ∃ v < delays.size, delays.getD v 0 = d} (largest delays.toList) := by
  have hmem : ∀ d, d ∈ delays.toList ↔ ∃ v < delays.size, delays.getD v 0 = d := by
    intro d
    rw [List.mem_iff_getElem]
    simp only [Array.length_toList, Array.getElem_toList]
    constructor
    · rintro ⟨v, hv, rfl⟩
      exact ⟨v, hv, by simp [Array.getD_eq_getD_getElem?, hv]⟩
    · rintro ⟨v, hv, rfl⟩
      exact ⟨v, hv, by simp [Array.getD_eq_getD_getElem?, hv]⟩
  constructor
  · exact (hmem _).mp (largest_mem (by simpa using Array.size_pos_iff.mp hpos))
  · intro d hd
    exact le_largest ((hmem d).mpr hd)

lemma largest_nonneg {xs : List Int} (h : ∀ x ∈ xs, 0 ≤ x) : 0 ≤ largest xs := by
  by_cases hne : xs = []
  · simp [hne, largest]
  · exact h _ (largest_mem hne)

section

variable {a : Arithmetic} {g : WeightedGraph ν ε} {registers : Edge ε → Int}

lemma arrivals_nonneg (hd : ∀ v ∈ g.vertices, 0 ≤ v.weight) {v : Nat} {d : Int}
    (h : d ∈ arrivals g registers v) : 0 ≤ d := by
  obtain ⟨u, p, _, _, rfl⟩ := h
  exact walkDelay_nonneg hd p v

/-- The delay of a vertex follows from those of the vertices before it. -/
lemma isGreatest_arrivals (hd : ∀ v ∈ g.vertices, 0 ≤ v.weight) {v : Nat} (hv : v < g.order)
    {f : Nat → Int}
    (hf : ∀ e ∈ g.edges, e.sink = v → registers e = 0 →
      IsGreatest (arrivals g registers e.source) (f e.source)) :
    IsGreatest (arrivals g registers v)
      (largest ((g.edges.toList.filter fun e => e.sink == v && registers e == 0).map
        fun e => f e.source) + g.delayAt v) := by
  let incoming := g.edges.toList.filter fun e => e.sink == v && registers e == 0
  have hincoming : ∀ e ∈ incoming, e ∈ g.edges ∧ e.sink = v ∧ registers e = 0 := by
    intro e he
    obtain ⟨hmem, hc⟩ := List.mem_filter.mp he
    simp only [Bool.and_eq_true, beq_iff_eq] at hc
    exact ⟨Array.mem_toList_iff.mp hmem, hc⟩
  constructor
  · by_cases hne : incoming.map (fun e => f e.source) = []
    · change largest (incoming.map fun e => f e.source) + g.delayAt v ∈ _
      rw [hne]
      exact ⟨v, [], isWalk_nil hv, by simp, by simp [largest]⟩
    · obtain ⟨e, he, heq⟩ := List.mem_map.mp (largest_mem hne)
      obtain ⟨hmem, rfl, hr⟩ := hincoming e he
      obtain ⟨u, p, hp, hfree, hdelay⟩ := (hf e hmem rfl hr).1
      refine ⟨u, p ++ [e], isWalk_concat.mpr ⟨hp, hmem, rfl⟩, ?_, ?_⟩
      · intro e' he'
        rcases List.mem_append.mp he' with he' | he'
        · exact hfree e' he'
        · rw [List.mem_singleton.mp he']
          exact hr
      · rw [walkDelay_concat, hdelay, heq]
  · rintro d ⟨u, p, hp, hfree, rfl⟩
    rcases List.eq_nil_or_concat p with rfl | ⟨p, e, rfl⟩
    · rw [walkDelay_nil, le_add_iff_nonneg_left]
      apply largest_nonneg
      intro x hx
      obtain ⟨e, he, rfl⟩ := List.mem_map.mp hx
      obtain ⟨hmem, hs, hr⟩ := hincoming e he
      exact arrivals_nonneg hd (hf e hmem hs hr).1
    · rw [List.concat_eq_append] at hp hfree ⊢
      obtain ⟨hp, he, hs⟩ := isWalk_concat.mp hp
      have hr : registers e = 0 := hfree e (by simp)
      have hle : g.walkDelay p e.source ≤ f e.source :=
        (hf e he hs hr).2 ⟨u, p, hp, fun e' he' => hfree e' (by simp [he']), rfl⟩
      have hmax : f e.source ≤ largest (incoming.map fun e => f e.source) := by
        apply le_largest
        refine List.mem_map.mpr ⟨e, ?_, rfl⟩
        exact List.mem_filter.mpr ⟨Array.mem_toList_iff.mpr he, by simp [hs, hr]⟩
      rw [walkDelay_concat]
      exact add_le_add (hle.trans hmax) le_rfl

/-- What holds of the delays after the vertices `l` of a topological order. -/
structure DelaysAfter (g : WeightedGraph ν ε) (registers : Edge ε → Int) (l : List Nat)
    (delays : Array Int) : Prop where
  size : delays.size = g.order
  isGreatest : ∀ v ∈ l, IsGreatest (arrivals g registers v) (delays.getD v 0)

lemma DelaysAfter.setDelay (hd : ∀ v ∈ g.vertices, 0 ≤ v.weight) {l : List Nat} {v : Nat}
    {delays : Array Int} (h : DelaysAfter g registers l delays) (hv : v < g.order) (hvl : v ∉ l)
    (hbefore : ∀ e ∈ g.edges, e.sink = v → registers e = 0 → e.source ∈ l)
    (hfit : ∀ d ∈ arrivals g registers v, a.fit d = d) :
    DelaysAfter g registers (l ++ [v]) (Circuit.setDelay a g registers delays v) := by
  have hgreatest := isGreatest_arrivals hd hv (f := fun u => delays.getD u 0)
    fun e he hs hr => h.isGreatest e.source (hbefore e he hs hr)
  have hget : ∀ w, (Circuit.setDelay a g registers delays v).getD w 0 =
      if v = w then
        largest ((g.edges.toList.filter fun e => e.sink == v && registers e == 0).map
          fun e => delays.getD e.source 0) + g.delayAt v
      else delays.getD w 0 := by
    intro w
    rw [← hfit _ hgreatest.1]
    exact getD_set! _ _ _ _ _ (h.size ▸ hv)
  refine ⟨Array.size_setIfInBounds.trans h.size, ?_⟩
  intro w hw
  rw [hget]
  rcases List.mem_append.mp hw with hw | hw
  · have hne : v ≠ w := fun heq => hvl (heq ▸ hw)
    rw [if_neg hne]
    exact h.isGreatest w hw
  · rw [List.mem_singleton.mp hw, if_pos rfl]
    exact hgreatest

lemma DelaysAfter.foldl (hd : ∀ v ∈ g.vertices, 0 ≤ v.weight) {l₁ l₂ : List Nat}
    {delays : Array Int} (h : DelaysAfter g registers l₁ delays)
    (horder : g.IsTopologicalOrder (fun e => registers e == 0) (l₁ ++ l₂))
    (hfit : ∀ v, ∀ d ∈ arrivals g registers v, a.fit d = d) :
    DelaysAfter g registers (l₁ ++ l₂) (l₂.foldl (Circuit.setDelay a g registers) delays) := by
  induction l₂ generalizing l₁ delays with
  | nil => simpa using h
  | cons v l₂ ih =>
    have hv : v < g.order := (horder.mem_iff v).mp (by simp)
    have hvl : v ∉ l₁ := by
      intro hvl
      exact (List.nodup_append.mp horder.nodup).2.2 v hvl v (by simp) rfl
    have hbefore : ∀ e ∈ g.edges, e.sink = v → registers e = 0 → e.source ∈ l₁ := by
      intro e he hs hr
      exact horder.before l₁ v l₂ rfl e he (by simp [hr]) hs
    have hstep := h.setDelay hd hv hvl hbefore (hfit v)
    have hassoc : l₁ ++ v :: l₂ = l₁ ++ [v] ++ l₂ := by simp
    rw [hassoc] at horder ⊢
    exact ih hstep horder

end

lemma exists_delaysWith (c : Circuit ν ε) (a : Arithmetic) {registers : Edge ε → Int}
    (hacyclic : c.graph.Acyclic fun e => registers e = 0) :
    ∃ l, c.graph.IsTopologicalOrder (fun e => registers e == 0) l ∧
      c.delaysWith a registers =
        .ok (l.foldl (setDelay a c.graph registers) (Array.replicate c.graph.order 0)) := by
  obtain ⟨l, hl⟩ : ∃ l, c.graph.topologicalSort (fun e => registers e == 0) = .ok l := by
    rw [exists_topologicalSort_iff]
    simpa using hacyclic
  refine ⟨l, topologicalSort_isTopologicalOrder hl, ?_⟩
  unfold delaysWith
  rw [hl]
  rfl

lemma FitsIn.fit_arrivals {c : Circuit ν ε} {a : Arithmetic} (h : c.FitsIn a)
    {registers : Edge ε → Int} (hacyclic : c.graph.Acyclic fun e => registers e = 0) {v : Nat}
    {d : Int} (hd : d ∈ arrivals c.graph registers v) : a.fit d = d := by
  obtain ⟨u, p, hp, hfree, rfl⟩ := hd
  exact h u p v (hacyclic.isPath hp hfree)

/-- Every vertex gets the largest total delay of a register-free walk to it. -/
theorem delaysWith_spec {c : Circuit ν ε} {a : Arithmetic} (h : c.FitsIn a)
    {registers : Edge ε → Int} (hacyclic : c.graph.Acyclic fun e => registers e = 0) :
    ∃ delays, c.delaysWith a registers = .ok delays ∧ delays.size = c.graph.order ∧
      ∀ v < c.graph.order, IsGreatest (arrivals c.graph registers v) (delays.getD v 0) := by
  obtain ⟨l, horder, hok⟩ := c.exists_delaysWith a hacyclic
  have hstart : DelaysAfter c.graph registers [] (Array.replicate c.graph.order 0) :=
    ⟨by simp, by simp⟩
  have hend : DelaysAfter c.graph registers l
      (l.foldl (setDelay a c.graph registers) (Array.replicate c.graph.order 0)) :=
    hstart.foldl c.delay_nonneg horder fun _ _ => h.fit_arrivals hacyclic
  exact ⟨_, hok, hend.size, fun v hv => hend.isGreatest v ((horder.mem_iff v).mpr hv)⟩

/-- The register-free walks determine the delays. -/
lemma delays_unique {g : WeightedGraph ν ε} {registers : Edge ε → Int} {a b : Array Int}
    (ha : a.size = g.order) (hb : b.size = g.order)
    (hagreatest : ∀ v < g.order, IsGreatest (arrivals g registers v) (a.getD v 0))
    (hbgreatest : ∀ v < g.order, IsGreatest (arrivals g registers v) (b.getD v 0)) : a = b := by
  apply Array.ext (ha.trans hb.symm)
  intro v hva hvb
  have hv : v < g.order := ha ▸ hva
  have hsame := (hagreatest v hv).unique (hbgreatest v hv)
  simpa [Array.getD_eq_getD_getElem?, hva, hvb] using hsame

/-- Sums that fit are exact. -/
lemma FitsIn.delaysWith_eq {c : Circuit ν ε} {a : Arithmetic} (h : c.FitsIn a)
    {registers : Edge ε → Int} (hacyclic : c.graph.Acyclic fun e => registers e = 0) :
    c.delaysWith a registers = c.delaysWith .exact registers := by
  obtain ⟨delays, hok, hsize, hgreatest⟩ := delaysWith_spec h hacyclic
  obtain ⟨delays', hok', hsize', hgreatest'⟩ := delaysWith_spec c.fitsIn_exact hacyclic
  rw [hok, hok', delays_unique hsize hsize' hgreatest hgreatest']

/-- A clock period: 0 without vertices, else the largest total delay of a register-free walk. -/
structure IsPeriod (g : WeightedGraph ν ε) (registers : Edge ε → Int) (t : Int) : Prop where
  empty : g.order = 0 → t = 0
  isGreatest : 0 < g.order → IsGreatest (freeDelays g registers) t

lemma IsPeriod.unique {g : WeightedGraph ν ε} {registers : Edge ε → Int} {s t : Int}
    (hs : IsPeriod g registers s) (ht : IsPeriod g registers t) : s = t := by
  rcases Nat.eq_zero_or_pos g.order with h | h
  · rw [hs.empty h, ht.empty h]
  · exact (hs.isGreatest h).unique (ht.isGreatest h)

lemma isPeriod_largest {g : WeightedGraph ν ε} {registers : Edge ε → Int} {delays : Array Int}
    (hsize : delays.size = g.order)
    (h : ∀ v < g.order, IsGreatest (arrivals g registers v) (delays.getD v 0)) :
    IsPeriod g registers (largest delays.toList) := by
  constructor
  · intro h0
    have hempty : delays = #[] := Array.eq_empty_of_size_eq_zero (hsize.trans h0)
    simp [hempty, largest]
  · intro hpos
    rw [← hsize] at hpos
    obtain ⟨⟨v, hv, heq⟩, hupper⟩ := isGreatest_largest hpos
    constructor
    · exact ⟨v, heq ▸ (h v (hsize ▸ hv)).1⟩
    · rintro d ⟨v, u, p, hp, hfree, rfl⟩
      have hle := (h v hp.sink_lt).2 ⟨u, p, hp, hfree, rfl⟩
      exact hle.trans (hupper ⟨v, hsize ▸ hp.sink_lt, rfl⟩)

theorem exists_isPeriod (c : Circuit ν ε) {registers : Edge ε → Int}
    (hacyclic : c.graph.Acyclic fun e => registers e = 0) :
    ∃ t, (do return largest (← c.delaysWith .exact registers).toList) =
        Except.ok (ε := GraphError) t ∧
      IsPeriod c.graph registers t := by
  obtain ⟨delays, hok, hsize, hgreatest⟩ := delaysWith_spec c.fitsIn_exact hacyclic
  refine ⟨largest delays.toList, ?_, isPeriod_largest hsize hgreatest⟩
  rw [hok]
  rfl

/-- Walks without registers only return if they are empty. -/
lemma acyclic (c : Circuit ν ε) : c.graph.Acyclic fun e => e.weight = 0 := by
  simpa using exists_topologicalSort_iff.mp c.sortable

theorem period_spec (c : Circuit ν ε) :
    ∃ t, c.period .exact = .ok t ∧ IsPeriod c.graph Edge.weight t :=
  c.exists_isPeriod c.acyclic

/-! ### Other values -/

/-- The second graph is the first one with other values of its vertices and edges, as far as delays
and registers are concerned. -/
structure Relabels {ν' ε' : Type} (g : WeightedGraph ν ε) (f : Edge ε → Int)
    (g' : WeightedGraph ν' ε') (f' : Edge ε' → Int) : Prop where
  order : g'.order = g.order
  delayAt : ∀ v, g'.delayAt v = g.delayAt v
  edges : ∃ F : Edge ε → Edge ε', g'.edges = g.edges.map F ∧
    ∀ e ∈ g.edges, (F e).source = e.source ∧ (F e).sink = e.sink ∧ f' (F e) = f e

section

variable {ν' ε' : Type} {g : WeightedGraph ν ε} {f : Edge ε → Int} {g' : WeightedGraph ν' ε'}
  {f' : Edge ε' → Int}

lemma Relabels.inDegrees_eq (h : Relabels g f g' f') :
    g'.inDegrees (fun e => f' e == 0) = g.inDegrees (fun e => f e == 0) := by
  obtain ⟨F, hedges, hF⟩ := h.edges
  unfold inDegrees
  rw [hedges, h.order, ← Array.foldl_toList, ← Array.foldl_toList, Array.toList_map,
    List.foldl_map]
  apply List.foldl_ext
  intro degrees e he
  obtain ⟨-, hsink, hregisters⟩ := hF e (Array.mem_toList_iff.mp he)
  simp only [hregisters, hsink]

/-- What is left of a list of edges after a choice by their ends and registers. -/
lemma Relabels.filter_eq {F : Edge ε → Edge ε'} (hedges : g'.edges = g.edges.map F)
    (keep : Edge ε → Bool) (keep' : Edge ε' → Bool)
    (hkeep : ∀ e ∈ g.edges, keep' (F e) = keep e) :
    g'.edges.toList.filter keep' = (g.edges.toList.filter keep).map F := by
  rw [hedges, Array.toList_map, List.filter_map]
  congr 1
  exact List.filter_congr fun e he => hkeep e (Array.mem_toList_iff.mp he)

lemma Relabels.drain_eq (h : Relabels g f g' f') (fuel : Nat) (queue : List Nat)
    (degrees : Array Nat) :
    g'.drain (fun e => f' e == 0) fuel queue degrees =
      g.drain (fun e => f e == 0) fuel queue degrees := by
  obtain ⟨F, hedges, hF⟩ := h.edges
  induction fuel generalizing queue degrees with
  | zero => rfl
  | succ fuel ih =>
    cases queue with
    | nil => rfl
    | cons v queue =>
      have hleaving := Relabels.filter_eq hedges (fun e => e.source == v && f e == 0)
        (fun e => e.source == v && f' e == 0) fun e he => by
          rw [(hF e he).1, (hF e he).2.2]
      have hreleased : ((g.edges.toList.filter fun e => e.source == v && f e == 0).map F).foldl
          release (degrees, queue) =
          (g.edges.toList.filter fun e => e.source == v && f e == 0).foldl
            release (degrees, queue) := by
        rw [List.foldl_map]
        apply List.foldl_ext
        intro state e he
        have hsink := (hF e (Array.mem_toList_iff.mp (List.mem_filter.mp he).1)).2.1
        simp only [release, hsink]
      rw [drain, drain]
      simp only [hleaving, hreleased, ih]

lemma Relabels.topologicalSort_eq (h : Relabels g f g' f') :
    g'.topologicalSort (fun e => f' e == 0) = g.topologicalSort (fun e => f e == 0) := by
  unfold topologicalSort
  simp only [h.inDegrees_eq, h.drain_eq, h.order]

lemma Relabels.setDelay_eq (h : Relabels g f g' f') (a : Arithmetic) :
    Circuit.setDelay a g' f' = Circuit.setDelay a g f := by
  obtain ⟨F, hedges, hF⟩ := h.edges
  funext delays v
  have harriving := Relabels.filter_eq hedges (fun e => e.sink == v && f e == 0)
    (fun e => e.sink == v && f' e == 0) fun e he => by
      rw [(hF e he).2.1, (hF e he).2.2]
  have harrivals : ((g.edges.toList.filter fun e => e.sink == v && f e == 0).map F).map
      (fun e => delays.getD e.source 0) =
      (g.edges.toList.filter fun e => e.sink == v && f e == 0).map
        fun e => delays.getD e.source 0 := by
    rw [List.map_map]
    apply List.map_congr_left
    intro e he
    have hsource := (hF e (Array.mem_toList_iff.mp (List.mem_filter.mp he).1)).1
    simp only [Function.comp, hsource]
  have hdelay := h.delayAt v
  unfold WeightedGraph.delayAt at hdelay
  unfold Circuit.setDelay
  simp only [harriving, harrivals, hdelay]

lemma Relabels.exists_isWalk (h : Relabels g f g' f') {u v : Nat} {p' : List (Edge ε')}
    (hp' : g'.IsWalk u p' v) :
    ∃ p, g.IsWalk u p v ∧ p.map Edge.source = p'.map Edge.source := by
  obtain ⟨F, hedges, hF⟩ := h.edges
  induction p' generalizing u with
  | nil => exact ⟨[], ⟨hp'.1, h.order ▸ hp'.2⟩, rfl⟩
  | cons e' p' ih =>
    obtain ⟨he', rfl, hrest⟩ := hp'
    rw [hedges] at he'
    obtain ⟨e, he, rfl⟩ := Array.mem_map.mp he'
    obtain ⟨hsource, hsink, -⟩ := hF e he
    obtain ⟨p, hp, hsources⟩ := ih hrest
    refine ⟨e :: p, ⟨he, hsource.symm, hsink ▸ hp⟩, ?_⟩
    rw [List.map_cons, List.map_cons, hsource, hsources]

lemma Relabels.fitsIn {c : Circuit ν ε} {d : Circuit ν' ε'} (h : Relabels c.graph f d.graph f')
    {a : Arithmetic} (hfit : c.FitsIn a) : d.FitsIn a := by
  intro u p' v hp'
  obtain ⟨p, hp, hsources⟩ := h.exists_isWalk hp'.isWalk
  have hdelay : d.graph.walkDelay p' v = c.graph.walkDelay p v := by
    have hsum := congrArg (fun sources => (sources.map c.graph.delayAt).sum) hsources
    simp only [List.map_map, Function.comp_def] at hsum
    simp only [walkDelay, h.delayAt, hsum]
  rw [hdelay]
  exact hfit u p v ⟨hp, hsources ▸ hp'.nodup⟩

/-- The delays do not depend on what vertices and edges stand for. -/
theorem Relabels.delaysWith_eq {c : Circuit ν ε} {d : Circuit ν' ε'}
    (h : Relabels c.graph f d.graph f') (a : Arithmetic) :
    d.delaysWith a f' = c.delaysWith a f := by
  unfold delaysWith
  rw [h.topologicalSort_eq, h.setDelay_eq, h.order]

end

end Circuit

end NetlistCompiler
