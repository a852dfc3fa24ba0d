import Mathlib
import NetlistCompiler.WeightedGraph

/-!
# Walks in weighted graphs

A walk is a list of edges each of which starts where the one before it ends. Sums over a walk
telescope for differences of a potential, and a walk with as many edges as the graph has vertices
runs through a cycle.
-/

namespace NetlistCompiler

namespace WeightedGraph

variable {ν ε : Type} (g : WeightedGraph ν ε)

/-- Whether edges lead from one vertex to another, one edge after the other. -/
def IsWalk : Nat → List (Edge ε) → Nat → Prop
  | u, [], v => u = v ∧ u < g.order
  | u, e :: p, v => e ∈ g.edges ∧ e.source = u ∧ IsWalk e.sink p v

/-- A walk that comes to no vertex twice. -/
structure IsPath (u : Nat) (p : List (Edge ε)) (v : Nat) : Prop where
  isWalk : g.IsWalk u p v
  nodup : (p.map Edge.source ++ [v]).Nodup

/-- No walk along edges out of `keep` returns to its start, apart from the empty one. -/
def Acyclic (keep : Edge ε → Prop) : Prop :=
  ∀ v p, g.IsWalk v p v → (∀ e ∈ p, keep e) → p = []

/-- The weight of a vertex, 0 if there is no such vertex. -/
def delayAt (v : Nat) : Int :=
  (g.vertices[v]?.map Vertex.weight).getD 0

/-- The total weight of the vertices on a walk to `v`, both ends included. -/
def walkDelay (p : List (Edge ε)) (v : Nat) : Int :=
  (p.map fun e => g.delayAt e.source).sum + g.delayAt v

variable {g}

lemma getD_set! {α : Type} (xs : Array α) (i j : Nat) (x d : α) (hi : i < xs.size) :
    (xs.set! i x).getD j d = if i = j then x else xs.getD j d := by
  simp only [Array.getD_eq_getD_getElem?, Array.set!_eq_setIfInBounds,
    Array.getElem?_setIfInBounds]
  by_cases hij : i = j
  · simp [← hij, hi]
  · simp [hij]

lemma source_lt_of_mem {e : Edge ε} (he : e ∈ g.edges) : e.source < g.order :=
  (g.edges_inRange e he).1

lemma sink_lt_of_mem {e : Edge ε} (he : e ∈ g.edges) : e.sink < g.order :=
  (g.edges_inRange e he).2

lemma IsWalk.source_lt {u v : Nat} {p : List (Edge ε)} (h : g.IsWalk u p v) : u < g.order := by
  cases p with
  | nil => exact h.2
  | cons e p => exact h.2.1 ▸ source_lt_of_mem h.1

lemma IsWalk.sink_lt {u v : Nat} {p : List (Edge ε)} (h : g.IsWalk u p v) : v < g.order := by
  induction p generalizing u with
  | nil => exact h.1 ▸ h.2
  | cons e p ih => exact ih h.2.2

lemma IsWalk.mem_edges {u v : Nat} {p : List (Edge ε)} (h : g.IsWalk u p v) {e : Edge ε}
    (he : e ∈ p) : e ∈ g.edges := by
  induction p generalizing u with
  | nil => simp at he
  | cons a p ih =>
    rcases List.mem_cons.mp he with rfl | he
    · exact h.1
    · exact ih h.2.2 he

lemma IsWalk.sink_unique {u v w : Nat} {p : List (Edge ε)} (hv : g.IsWalk u p v)
    (hw : g.IsWalk u p w) : v = w := by
  induction p generalizing u with
  | nil => exact hv.1.symm.trans hw.1
  | cons e p ih => exact ih hv.2.2 hw.2.2

lemma isWalk_nil {v : Nat} (hv : v < g.order) : g.IsWalk v [] v :=
  ⟨rfl, hv⟩

lemma isWalk_append {u v : Nat} {p q : List (Edge ε)} :
    g.IsWalk u (p ++ q) v ↔ ∃ w, g.IsWalk u p w ∧ g.IsWalk w q v := by
  induction p generalizing u with
  | nil =>
    constructor
    · intro h
      exact ⟨u, isWalk_nil h.source_lt, h⟩
    · rintro ⟨w, ⟨rfl, _⟩, h⟩
      exact h
  | cons e p ih =>
    simp only [List.cons_append, IsWalk, ih]
    constructor
    · rintro ⟨he, hs, w, hp, hq⟩
      exact ⟨w, ⟨he, hs, hp⟩, hq⟩
    · rintro ⟨w, ⟨he, hs, hp⟩, hq⟩
      exact ⟨he, hs, w, hp, hq⟩

lemma IsWalk.append {u v w : Nat} {p q : List (Edge ε)} (hp : g.IsWalk u p v)
    (hq : g.IsWalk v q w) : g.IsWalk u (p ++ q) w :=
  isWalk_append.mpr ⟨v, hp, hq⟩

lemma isWalk_concat {u v : Nat} {p : List (Edge ε)} {e : Edge ε} :
    g.IsWalk u (p ++ [e]) v ↔ g.IsWalk u p e.source ∧ e ∈ g.edges ∧ e.sink = v := by
  rw [isWalk_append]
  constructor
  · rintro ⟨w, hp, he, rfl, hv, _⟩
    exact ⟨hp, he, hv⟩
  · rintro ⟨hp, he, hv⟩
    exact ⟨e.source, hp, he, rfl, hv, sink_lt_of_mem he⟩

lemma sum_map_nonneg {f : Edge ε → Int} {p : List (Edge ε)} (h : ∀ e ∈ p, 0 ≤ f e) :
    0 ≤ (p.map f).sum := by
  apply List.sum_nonneg
  intro x hx
  obtain ⟨e, he, rfl⟩ := List.mem_map.mp hx
  exact h e he

lemma sum_map_eq_zero {f : Edge ε → Int} {p : List (Edge ε)} (h : ∀ e ∈ p, f e = 0) :
    (p.map f).sum = 0 := by
  apply List.sum_eq_zero
  intro x hx
  obtain ⟨e, he, rfl⟩ := List.mem_map.mp hx
  exact h e he

lemma eq_zero_of_sum_eq_zero {f : Edge ε → Int} {p : List (Edge ε)}
    (hnonneg : ∀ e ∈ p, 0 ≤ f e) (hsum : (p.map f).sum = 0) : ∀ e ∈ p, f e = 0 := by
  induction p with
  | nil => simp
  | cons e p ih =>
    rw [List.map_cons, List.sum_cons] at hsum
    have he : 0 ≤ f e := hnonneg e (by simp)
    have hp : ∀ e' ∈ p, 0 ≤ f e' := fun e' he' => hnonneg e' (by simp [he'])
    have hrest : 0 ≤ (p.map f).sum := sum_map_nonneg hp
    intro e' he'
    rcases List.mem_cons.mp he' with rfl | he'
    · omega
    · exact ih hp (by omega) e' he'

/-- Differences of a potential along a walk add up to the difference at its ends. -/
lemma IsWalk.sum_potential {u v : Nat} {p : List (Edge ε)} (h : g.IsWalk u p v)
    (f : Edge ε → Int) (φ : Nat → Int) :
    (p.map fun e => f e + φ e.sink - φ e.source).sum = (p.map f).sum + φ v - φ u := by
  induction p generalizing u with
  | nil =>
    rw [h.1]
    simp
  | cons e p ih =>
    obtain ⟨_, rfl, hp⟩ := h
    rw [List.map_cons, List.map_cons, List.sum_cons, List.sum_cons, ih hp]
    ring

@[simp] lemma walkDelay_nil (v : Nat) : g.walkDelay [] v = g.delayAt v := by
  simp [walkDelay]

lemma walkDelay_concat (p : List (Edge ε)) (e : Edge ε) (v : Nat) :
    g.walkDelay (p ++ [e]) v = g.walkDelay p e.source + g.delayAt v := by
  simp [walkDelay]

lemma delayAt_nonneg (hd : ∀ v ∈ g.vertices, 0 ≤ v.weight) (v : Nat) : 0 ≤ g.delayAt v := by
  unfold delayAt
  cases h : g.vertices[v]? with
  | none => simp
  | some x => simpa using hd x (Array.mem_of_getElem? h)

lemma walkDelay_nonneg (hd : ∀ v ∈ g.vertices, 0 ≤ v.weight) (p : List (Edge ε)) (v : Nat) :
    0 ≤ g.walkDelay p v := by
  exact add_nonneg (sum_map_nonneg fun e _ => delayAt_nonneg hd e.source) (delayAt_nonneg hd v)

/-- Every place of a walk splits it into a walk to that place and a walk from there. -/
lemma IsWalk.exists_split {u v : Nat} {p : List (Edge ε)} (h : g.IsWalk u p v) (i : Nat) :
    ∃ w, g.IsWalk u (p.take i) w ∧ g.IsWalk w (p.drop i) v := by
  rw [← isWalk_append, List.take_append_drop]
  exact h

/-- A walk with at least as many edges as there are vertices contains a cycle. -/
theorem IsWalk.exists_cycle {u v : Nat} {p : List (Edge ε)} (h : g.IsWalk u p v)
    (hlen : g.order ≤ p.length) :
    ∃ p₁ q p₂ w, p = p₁ ++ q ++ p₂ ∧ q ≠ [] ∧ g.IsWalk u p₁ w ∧ g.IsWalk w q w ∧
      g.IsWalk w p₂ v := by
  choose stop hto hfrom using h.exists_split
  -- the stops after 0, 1, ..., `p.length` edges are more than there are vertices
  obtain ⟨i, j, hij, hstop⟩ : ∃ i j : Fin (p.length + 1), i < j ∧ stop i = stop j := by
    let f : Fin (p.length + 1) → Fin g.order := fun i => ⟨stop i, (hto i).sink_lt⟩
    have hcard : Fintype.card (Fin g.order) < Fintype.card (Fin (p.length + 1)) := by
      simp only [Fintype.card_fin]
      omega
    obtain ⟨i, j, hne, heq⟩ := Fintype.exists_ne_map_eq_of_card_lt f hcard
    have heq' : stop i = stop j := congrArg Fin.val heq
    rcases lt_or_gt_of_ne hne with hij | hij
    · exact ⟨i, j, hij, heq'⟩
    · exact ⟨j, i, hij, heq'.symm⟩
  have hij' : i.val < j.val := hij
  have hj : j.val ≤ p.length := Nat.lt_succ_iff.mp j.isLt
  have htake : p.take i.val ++ (p.take j.val).drop i.val = p.take j.val := by
    have hmin : min i.val j.val = i.val := min_eq_left hij'.le
    conv_rhs => rw [← List.take_append_drop i.val (p.take j.val), List.take_take, hmin]
  refine ⟨p.take i, (p.take j).drop i, p.drop j, stop i, ?_, ?_, hto i, ?_, ?_⟩
  · rw [htake, List.take_append_drop]
  · intro hnil
    have := congrArg List.length hnil
    simp only [List.length_drop, List.length_take, List.length_nil] at this
    omega
  · have hj' := hto j
    rw [← htake, isWalk_append] at hj'
    obtain ⟨w, hw, hq⟩ := hj'
    rw [hw.sink_unique (hto i), ← hstop] at hq
    exact hq
  · rw [hstop]
    exact hfrom j

/-! ### Paths -/

lemma isPath_nil {v : Nat} (hv : v < g.order) : g.IsPath v [] v :=
  ⟨isWalk_nil hv, by simp⟩

/-- A path goes on through an edge to a vertex that it has not come to. -/
lemma IsPath.concat {u : Nat} {p : List (Edge ε)} {e : Edge ε} (h : g.IsPath u p e.source)
    (he : e ∈ g.edges) (hne : e.sink ≠ e.source) (hnew : ∀ e' ∈ p, e'.source ≠ e.sink) :
    g.IsPath u (p ++ [e]) e.sink := by
  refine ⟨isWalk_concat.mpr ⟨h.isWalk, he, rfl⟩, ?_⟩
  rw [List.map_append, List.map_singleton, List.nodup_append]
  refine ⟨h.nodup, List.nodup_singleton _, ?_⟩
  intro w hw w' hw'
  rw [List.mem_singleton.mp hw']
  rcases List.mem_append.mp hw with hw | hw
  · obtain ⟨e', he', rfl⟩ := List.mem_map.mp hw
    exact hnew e' he'
  · rw [List.mem_singleton.mp hw]
    exact hne.symm

/-- Along edges without a cycle every walk is a path. -/
lemma Acyclic.isPath {keep : Edge ε → Prop} (h : g.Acyclic keep) {u v : Nat} {p : List (Edge ε)}
    (hp : g.IsWalk u p v) (hkeep : ∀ e ∈ p, keep e) : g.IsPath u p v := by
  induction p generalizing u with
  | nil => exact hp.1 ▸ isPath_nil hp.2
  | cons e p ih =>
    have hrest := ih hp.2.2 fun e' he' => hkeep e' (by simp [he'])
    refine ⟨hp, List.nodup_cons.mpr ⟨?_, hrest.nodup⟩⟩
    intro hmem
    -- the walk from `e` back to its source would be a cycle
    obtain ⟨q, r, rfl, hq⟩ : ∃ q r, p = q ++ r ∧ g.IsWalk e.sink q e.source := by
      rcases List.mem_append.mp hmem with hmem | hmem
      · obtain ⟨e', he', hsource⟩ := List.mem_map.mp hmem
        obtain ⟨q, r, rfl⟩ := List.append_of_mem he'
        obtain ⟨w, hq, -, rfl, -⟩ := isWalk_append.mp hp.2.2
        exact ⟨q, e' :: r, rfl, hsource ▸ hq⟩
      · exact ⟨p, [], by simp, List.mem_singleton.mp hmem ▸ hp.2.2⟩
    have hcycle := h e.source (e :: q) ⟨hp.1, rfl, hq⟩ fun e' he' => hkeep e' (by
      simp only [List.mem_cons, List.mem_append] at he' ⊢
      tauto)
    cases hcycle

end WeightedGraph

end NetlistCompiler
