import NetlistCompiler.Proofs.Walk

/-!
# Topological order

The queue of the sort holds the vertices all of whose kept incoming edges start at vertices that
were already taken, and the degree of a vertex counts those of its edges that were not yet taken
away. Hence a vertex that is never taken has a kept edge from another such vertex: it lies on a
cycle of kept edges or behind one, and the sort succeeds exactly if the kept edges have no cycle.
-/

namespace NetlistCompiler

namespace WeightedGraph

variable {ν ε : Type} (g : WeightedGraph ν ε) (keep : Edge ε → Bool)

/-- The number of kept edges into a vertex whose sources are not among `taken`. -/
def pending (taken : List Nat) (w : Nat) : Nat :=
  g.edges.toList.countP fun e => keep e && e.sink == w && !taken.contains e.source

/-- The kept edges into every vertex of a list start at earlier vertices of the list. -/
def SourcesBefore (l : List Nat) : Prop :=
  ∀ l₁ w l₂, l = l₁ ++ w :: l₂ → ∀ e ∈ g.edges, keep e → e.sink = w → e.source ∈ l₁

/-- The state of the sort between two vertices: the degrees count the edges from vertices not yet
taken, and the vertices of degree 0 are those taken and those in the queue. -/
structure Draining (taken queue : List Nat) (degrees : Array Nat) : Prop where
  size : degrees.size = g.order
  nodup : (taken ++ queue).Nodup
  inRange : ∀ v ∈ taken ++ queue, v < g.order
  degree : ∀ w < g.order, degrees.getD w 0 = g.pending keep taken w
  released : ∀ w < g.order, w ∈ taken ++ queue ↔ g.pending keep taken w = 0
  before : g.SourcesBefore keep taken

/-- The state of the sort while the edges that leave the vertex `v` are taken away; `left` are
still to come. -/
structure Releasing (taken : List Nat) (v : Nat) (left : List (Edge ε))
    (state : Array Nat × List Nat) : Prop where
  size : state.1.size = g.order
  nodup : (taken ++ v :: state.2).Nodup
  inRange : ∀ u ∈ taken ++ v :: state.2, u < g.order
  degree : ∀ w < g.order,
    state.1.getD w 0 = g.pending keep (taken ++ [v]) w + left.countP fun e => e.sink == w
  released : ∀ w < g.order, w ∈ taken ++ v :: state.2 ↔ state.1.getD w 0 = 0

/-- What the sort has done in the end: a vertex that was not taken waits for another one. -/
structure Drained (l : List Nat) : Prop where
  nodup : l.Nodup
  inRange : ∀ v ∈ l, v < g.order
  before : g.SourcesBefore keep l
  waiting : ∀ w < g.order, w ∉ l → ∃ e ∈ g.edges, keep e ∧ e.sink = w ∧ e.source ∉ l

/-- The sort between two steps: the vertices taken so far, the edges that leave the last of them and
are still to be taken away, the queue and the degrees. -/
structure SortState (ε : Type) where
  taken : List Nat
  leaving : List (Edge ε)
  queue : List Nat
  degrees : Array Nat

/-- The sort before its first step. -/
def sortStart : SortState ε where
  taken := []
  leaving := []
  queue := (List.range g.order).filter fun v => (g.inDegrees keep).getD v 0 == 0
  degrees := g.inDegrees keep

/-- A step of the sort takes one edge away, or the first vertex of the queue if no edge is left. -/
inductive SortStep : SortState ε → SortState ε → Prop
  | take (taken : List Nat) (v : Nat) (queue : List Nat) (degrees : Array Nat) :
    SortStep ⟨taken, [], v :: queue, degrees⟩
      ⟨taken ++ [v], g.edges.toList.filter fun e => e.source == v && keep e, queue, degrees⟩
  | release (taken : List Nat) (e : Edge ε) (left : List (Edge ε)) (queue : List Nat)
      (degrees : Array Nat) :
    SortStep ⟨taken, e :: left, queue, degrees⟩
      ⟨taken, left, (WeightedGraph.release (degrees, queue) e).2,
        (WeightedGraph.release (degrees, queue) e).1⟩

/-- What holds in every state of the sort, between two vertices or amid the edges of one. -/
inductive SortSound : SortState ε → Prop
  | between {taken queue : List Nat} {degrees : Array Nat} :
    g.Draining keep taken queue degrees → SortSound ⟨taken, [], queue, degrees⟩
  | amid {taken : List Nat} {v : Nat} {left : List (Edge ε)} {queue : List Nat}
      {degrees : Array Nat} :
    g.Releasing keep taken v left (degrees, queue) → g.SourcesBefore keep (taken ++ [v]) →
      (∀ e ∈ left, e ∈ g.edges) → SortSound ⟨taken ++ [v], left, queue, degrees⟩

/-- Whether a vertex lies on a cycle of kept edges. -/
def OnCycle (v : Nat) : Prop :=
  ∃ p, p ≠ [] ∧ g.IsWalk v p v ∧ ∀ e ∈ p, keep e = true

/-- Whether a vertex lies on a cycle of kept edges, or kept edges lead to it from such a cycle. -/
def Blocked (v : Nat) : Prop :=
  ∃ u p, g.OnCycle keep u ∧ g.IsWalk u p v ∧ ∀ e ∈ p, keep e = true

variable {g keep}

lemma pending_eq_zero_iff {taken : List Nat} {w : Nat} :
    g.pending keep taken w = 0 ↔ ∀ e ∈ g.edges, keep e → e.sink = w → e.source ∈ taken := by
  simp only [pending, List.countP_eq_zero, Array.mem_toList_iff]
  constructor
  · intro h e he hk hw
    by_contra hs
    exact h e he (by simp [hk, hw, hs])
  · intro h e he hc
    simp only [Bool.and_eq_true, beq_iff_eq, Bool.not_eq_true', List.contains_eq_mem,
      decide_eq_false_iff_not] at hc
    exact hc.2 (h e he hc.1.1 hc.1.2)

/-- Taking a vertex takes the edges that leave it away from the degrees. -/
lemma pending_concat {taken : List Nat} {v : Nat} (hv : v ∉ taken) (w : Nat) :
    g.pending keep taken w = g.pending keep (taken ++ [v]) w +
      (g.edges.toList.filter fun e => e.source == v && keep e).countP fun e => e.sink == w := by
  unfold pending
  induction g.edges.toList with
  | nil => simp
  | cons e l ih =>
    simp only [List.countP_cons, List.filter_cons, ih]
    by_cases hk : keep e = true
    · by_cases hs : e.source = v
      · subst hs
        simp only [hk, hv, beq_self_eq_true, List.contains_eq_mem, List.mem_append,
          List.mem_singleton, or_true, decide_true, decide_false, Bool.and_true, Bool.and_false,
          Bool.true_and, Bool.not_true, Bool.not_false, Bool.false_eq_true, if_true, if_false,
          List.countP_cons]
        omega
      · simp only [hk, hs, beq_eq_false_iff_ne.mpr hs, List.contains_eq_mem, List.mem_append,
          List.mem_singleton, or_false, Bool.false_and, Bool.false_eq_true, if_false]
        omega
    · simp [hk]

lemma length_le_order {l : List Nat} (hnd : l.Nodup) (hr : ∀ v ∈ l, v < g.order) :
    l.length ≤ g.order := by
  have hsub : l ⊆ List.range g.order := fun v hv => List.mem_range.mpr (hr v hv)
  simpa using (List.subperm_of_subset hnd hsub).length_le

/-! ### One step -/

/-- The degree of the sink of an edge that is still to come counts this edge. -/
lemma Releasing.degree_pos {taken : List Nat} {v : Nat} {e : Edge ε} {left : List (Edge ε)}
    {state : Array Nat × List Nat} (h : g.Releasing keep taken v (e :: left) state)
    (he : e.sink < g.order) : 0 < state.1.getD e.sink 0 := by
  rw [h.degree e.sink he, List.countP_cons_of_pos (by simp)]
  omega

lemma Releasing.release {taken : List Nat} {v : Nat} {e : Edge ε} {left : List (Edge ε)}
    {state : Array Nat × List Nat} (h : g.Releasing keep taken v (e :: left) state)
    (he : e.sink < g.order) :
    g.Releasing keep taken v left (WeightedGraph.release state e) := by
  have hpos := h.degree_pos he
  have hnew : e.sink ∉ taken ++ v :: state.2 := by
    rw [h.released e.sink he]
    omega
  have hget : ∀ w, (WeightedGraph.release state e).1.getD w 0 =
      if e.sink = w then state.1.getD e.sink 0 - 1 else state.1.getD w 0 := by
    intro w
    exact getD_set! _ _ _ _ _ (h.size ▸ he)
  have hsize : (WeightedGraph.release state e).1.size = g.order :=
    Array.size_setIfInBounds.trans h.size
  have hdegree : ∀ w < g.order, (WeightedGraph.release state e).1.getD w 0 =
      g.pending keep (taken ++ [v]) w + left.countP fun e => e.sink == w := by
    intro w hw
    have hdeg := h.degree w hw
    rw [hget]
    rw [List.countP_cons] at hdeg
    split
    · next heq =>
      subst heq
      rw [hdeg]
      simp
    · next hne => simpa [hne] using hdeg
  by_cases hzero : state.1.getD e.sink 0 - 1 = 0
  · -- the sink goes to the end of the queue
    have hqueue : taken ++ v :: (WeightedGraph.release state e).2 =
        (taken ++ v :: state.2) ++ [e.sink] := by
      have : (WeightedGraph.release state e).2 = state.2 ++ [e.sink] := if_pos hzero
      rw [this]
      simp
    refine ⟨hsize, ?_, ?_, hdegree, ?_⟩
    · rw [hqueue]
      exact List.nodup_append.mpr ⟨h.nodup, List.nodup_singleton _, fun a ha b hb hab => by
        rw [List.mem_singleton] at hb
        exact hnew (hb ▸ hab ▸ ha)⟩
    · intro u hu
      rw [hqueue, List.mem_append, List.mem_singleton] at hu
      rcases hu with hu | rfl
      · exact h.inRange u hu
      · exact he
    · intro w hw
      rw [hqueue, List.mem_append, List.mem_singleton, hget]
      split
      · next heq => exact ⟨fun _ => hzero, fun _ => Or.inr heq.symm⟩
      · next hne =>
        rw [h.released w hw]
        exact ⟨fun h' => h'.resolve_right (fun h'' => hne h''.symm), Or.inl⟩
  · have hqueue : (WeightedGraph.release state e).2 = state.2 := if_neg hzero
    refine ⟨hsize, hqueue ▸ h.nodup, hqueue ▸ h.inRange, hdegree, ?_⟩
    intro w hw
    rw [hqueue, hget]
    split
    · next heq =>
      subst heq
      exact ⟨fun h' => absurd h' hnew, fun h' => absurd h' hzero⟩
    · exact h.released w hw

lemma SourcesBefore.concat {l : List Nat} {v : Nat} (h : g.SourcesBefore keep l)
    (hv : ∀ e ∈ g.edges, keep e → e.sink = v → e.source ∈ l) :
    g.SourcesBefore keep (l ++ [v]) := by
  intro l₁ w l₂ heq e he hk hw
  rcases List.eq_nil_or_concat l₂ with rfl | ⟨l₃, z, rfl⟩
  · obtain ⟨rfl, hvw⟩ := List.append_inj' heq rfl
    simp only [List.cons.injEq, and_true] at hvw
    exact hv e he hk (hw.trans hvw.symm)
  · have heq' : l ++ [v] = (l₁ ++ w :: l₃) ++ [z] := by simpa using heq
    obtain ⟨hl, _⟩ := List.append_inj' heq' rfl
    exact h l₁ w l₃ hl e he hk hw

/-- With the first vertex of the queue, the edges that leave it are to be taken away. -/
lemma Draining.take {taken queue : List Nat} {v : Nat} {degrees : Array Nat}
    (h : g.Draining keep taken (v :: queue) degrees) :
    g.Releasing keep taken v (g.edges.toList.filter fun e => e.source == v && keep e)
        (degrees, queue) ∧
      g.SourcesBefore keep (taken ++ [v]) := by
  have hvt : v ∉ taken := by
    intro hvt
    exact (List.nodup_append.mp h.nodup).2.2 v hvt v (by simp) rfl
  refine ⟨⟨h.size, h.nodup, h.inRange, ?_, ?_⟩, ?_⟩
  · intro w hw
    rw [h.degree w hw, pending_concat hvt]
  · intro w hw
    rw [h.released w hw, h.degree w hw]
  · have hv : v < g.order := h.inRange v (by simp)
    exact h.before.concat (pending_eq_zero_iff.mp ((h.released v hv).mp (by simp)))

/-- After the last of these edges the sort is between two vertices again. -/
lemma Releasing.draining {taken : List Nat} {v : Nat} {state : Array Nat × List Nat}
    (h : g.Releasing keep taken v [] state) (hbefore : g.SourcesBefore keep (taken ++ [v])) :
    g.Draining keep (taken ++ [v]) state.2 state.1 := by
  have hassoc : ∀ l : List Nat, taken ++ [v] ++ l = taken ++ v :: l := by simp
  refine ⟨h.size, ?_, ?_, ?_, ?_, hbefore⟩
  · rw [hassoc]
    exact h.nodup
  · rw [hassoc]
    exact h.inRange
  · intro w hw
    simpa using h.degree w hw
  · intro w hw
    rw [hassoc, h.released w hw, h.degree w hw]
    simp

lemma SortSound.draining {taken queue : List Nat} {degrees : Array Nat}
    (h : g.SortSound keep ⟨taken, [], queue, degrees⟩) :
    g.Draining keep taken queue degrees := by
  cases h with
  | between h => exact h
  | amid h hbefore _ => exact h.draining hbefore

lemma SortSound.step {s s' : SortState ε} (h : g.SortSound keep s)
    (hstep : g.SortStep keep s s') : g.SortSound keep s' := by
  cases hstep with
  | take taken v queue degrees =>
    obtain ⟨hreleasing, hbefore⟩ := h.draining.take
    exact .amid hreleasing hbefore fun e he => Array.mem_toList_iff.mp (List.mem_filter.mp he).1
  | release taken e left queue degrees =>
    cases h with
    | amid h hbefore hleft =>
      exact .amid (h.release (sink_lt_of_mem (hleft e (by simp)))) hbefore
        fun e' he' => hleft e' (by simp [he'])

/-- No degree is 0 when an edge is taken away from it. -/
lemma SortSound.degree_pos {s : SortState ε} (h : g.SortSound keep s) {e : Edge ε}
    {left : List (Edge ε)} (hs : s.leaving = e :: left) : 0 < s.degrees.getD e.sink 0 := by
  cases h with
  | between _ => cases hs
  | amid h _ hleft =>
    subst hs
    exact h.degree_pos (sink_lt_of_mem (hleft e (by simp)))

/-! ### The whole run -/

lemma Draining.drained {taken : List Nat} {degrees : Array Nat}
    (h : g.Draining keep taken [] degrees) : g.Drained keep taken := by
  have hnd := h.nodup
  have hr := h.inRange
  rw [List.append_nil] at hnd hr
  refine ⟨hnd, hr, h.before, ?_⟩
  intro w hw hwt
  have hpos : g.pending keep taken w ≠ 0 := by
    rw [ne_eq, ← h.released w hw, List.append_nil]
    exact hwt
  rw [ne_eq, pending_eq_zero_iff] at hpos
  push Not at hpos
  exact hpos

lemma inDegrees_spec (g : WeightedGraph ν ε) (keep : Edge ε → Bool) :
    (g.inDegrees keep).size = g.order ∧
      ∀ w < g.order, (g.inDegrees keep).getD w 0 = g.pending keep [] w := by
  have hfold : ∀ (l : List (Edge ε)) (a : Array Nat),
      let b := l.foldl
        (fun degrees e => if keep e then degrees.modify e.sink (· + 1) else degrees) a
      b.size = a.size ∧ ∀ w < a.size,
        b.getD w 0 = a.getD w 0 + l.countP fun e => keep e && e.sink == w := by
    intro l
    induction l with
    | nil => simp
    | cons e l ih =>
      intro a
      by_cases hk : keep e = true
      · obtain ⟨hsize, hget⟩ := ih (a.modify e.sink (· + 1))
        simp only [Array.size_modify] at hsize hget
        simp only [List.foldl_cons, hk, if_true, List.countP_cons, Bool.true_and]
        refine ⟨hsize, ?_⟩
        intro w hw
        rw [hget w hw]
        simp only [Array.getD_eq_getD_getElem?, Array.getElem?_modify]
        by_cases hs : e.sink = w
        · simp [hs, hw]
          omega
        · simp [hs]
      · simpa [hk] using ih a
  have hrun := hfold g.edges.toList (Array.replicate g.order 0)
  simp only [Array.foldl_toList, Array.size_replicate] at hrun
  refine ⟨hrun.1, ?_⟩
  intro w hw
  have hget : (Array.replicate g.order 0).getD w 0 = 0 := by
    simp [Array.getD_eq_getD_getElem?, hw]
  rw [inDegrees, hrun.2 w hw, hget, pending]
  simp

lemma sortSound_start (g : WeightedGraph ν ε) (keep : Edge ε → Bool) :
    g.SortSound keep (g.sortStart keep) := by
  obtain ⟨hsize, hget⟩ := inDegrees_spec g keep
  refine .between ⟨hsize, ?_, ?_, hget, ?_, ?_⟩
  · exact List.nodup_range.filter _
  · intro v hv
    exact List.mem_range.mp (List.mem_filter.mp hv).1
  · intro w hw
    rw [← hget w hw]
    simp [hw]
  · intro l₁ w l₂ heq
    simp at heq

lemma SortSound.run {s s' : SortState ε} (h : g.SortSound keep s)
    (hrun : Relation.ReflTransGen (g.SortStep keep) s s') : g.SortSound keep s' := by
  induction hrun with
  | refl => exact h
  | tail _ hstep ih => exact ih.step hstep

lemma run_foldl_release (taken : List Nat) (left : List (Edge ε)) (queue : List Nat)
    (degrees : Array Nat) :
    Relation.ReflTransGen (g.SortStep keep) ⟨taken, left, queue, degrees⟩
      ⟨taken, [], (left.foldl WeightedGraph.release (degrees, queue)).2,
        (left.foldl WeightedGraph.release (degrees, queue)).1⟩ := by
  induction left generalizing queue degrees with
  | nil => exact .refl
  | cons e left ih => exact .head (.release taken e left queue degrees) (ih _ _)

variable (g keep) in
/-- The sort is a run of its steps, which is over or has taken as many vertices as it may. -/
lemma exists_run_drain (fuel : Nat) (taken queue : List Nat) (degrees : Array Nat) :
    ∃ queue' degrees',
      Relation.ReflTransGen (g.SortStep keep) ⟨taken, [], queue, degrees⟩
        ⟨taken ++ g.drain keep fuel queue degrees, [], queue', degrees'⟩ ∧
      (queue' = [] ∨ (g.drain keep fuel queue degrees).length = fuel) := by
  induction fuel generalizing taken queue degrees with
  | zero =>
    refine ⟨queue, degrees, ?_, .inr rfl⟩
    simpa [WeightedGraph.drain] using Relation.ReflTransGen.refl
  | succ fuel ih =>
    cases queue with
    | nil =>
      refine ⟨[], degrees, ?_, .inl rfl⟩
      simpa [WeightedGraph.drain] using Relation.ReflTransGen.refl
    | cons v queue =>
      let leaving := g.edges.toList.filter fun e => e.source == v && keep e
      obtain ⟨queue', degrees', hrun, hend⟩ := ih (taken ++ [v])
        (leaving.foldl WeightedGraph.release (degrees, queue)).2
        (leaving.foldl WeightedGraph.release (degrees, queue)).1
      refine ⟨queue', degrees', ?_, ?_⟩
      · refine .head (.take taken v queue degrees) ((run_foldl_release _ _ _ _).trans ?_)
        simpa [WeightedGraph.drain] using hrun
      · simpa [WeightedGraph.drain] using hend

/-- The vertices that the sort takes, complete or not. -/
def sortTaken (g : WeightedGraph ν ε) (keep : Edge ε → Bool) : List Nat :=
  g.drain keep g.order (g.sortStart keep).queue (g.sortStart keep).degrees

/-- The sort is over when its queue is empty, and not before. -/
lemma exists_run_sortTaken (g : WeightedGraph ν ε) (keep : Edge ε → Bool) :
    ∃ degrees, Relation.ReflTransGen (g.SortStep keep) (g.sortStart keep)
      ⟨g.sortTaken keep, [], [], degrees⟩ := by
  obtain ⟨queue, degrees, hrun, hend⟩ := exists_run_drain g keep g.order []
    (g.sortStart keep).queue (g.sortStart keep).degrees
  rw [List.nil_append] at hrun
  have hqueue : queue = [] := by
    rcases hend with hend | hfull
    · exact hend
    · -- all vertices have been taken, so that nothing can be left in the queue
      have hdraining := ((sortSound_start g keep).run hrun).draining
      have hlen := length_le_order hdraining.nodup hdraining.inRange
      rw [List.length_append, hfull] at hlen
      exact List.eq_nil_of_length_eq_zero (by omega)
  exact ⟨degrees, hqueue ▸ hrun⟩

lemma drained_sortTaken (g : WeightedGraph ν ε) (keep : Edge ε → Bool) :
    g.Drained keep (g.sortTaken keep) := by
  obtain ⟨degrees, hrun⟩ := exists_run_sortTaken g keep
  exact ((sortSound_start g keep).run hrun).draining.drained

lemma topologicalSort_eq (g : WeightedGraph ν ε) (keep : Edge ε → Bool) :
    g.topologicalSort keep =
      if (g.sortTaken keep).length = g.order then .ok (g.sortTaken keep)
      else .error (.cycle (g.order - (g.sortTaken keep).length) g.order) :=
  rfl

/-! ### Success -/

/-- A complete order of the vertices, in which kept edges go forward. -/
structure IsTopologicalOrder (g : WeightedGraph ν ε) (keep : Edge ε → Bool) (l : List Nat) :
    Prop where
  nodup : l.Nodup
  mem_iff : ∀ v, v ∈ l ↔ v < g.order
  before : g.SourcesBefore keep l

lemma Drained.isTopologicalOrder {l : List Nat} (h : g.Drained keep l)
    (hlen : l.length = g.order) : g.IsTopologicalOrder keep l := by
  refine ⟨h.nodup, ?_, h.before⟩
  intro v
  refine ⟨h.inRange v, ?_⟩
  intro hv
  by_contra hvl
  have hcons := length_le_order (l := v :: l) (g := g)
    (List.nodup_cons.mpr ⟨hvl, h.nodup⟩) (by
      intro w hw
      rcases List.mem_cons.mp hw with rfl | hw
      · exact hv
      · exact h.inRange w hw)
  simp only [List.length_cons] at hcons
  omega

lemma topologicalSort_isTopologicalOrder {l : List Nat}
    (h : g.topologicalSort keep = .ok l) : g.IsTopologicalOrder keep l := by
  rw [topologicalSort_eq] at h
  split at h
  · next hlen =>
    cases h
    exact (drained_sortTaken g keep).isTopologicalOrder hlen
  · cases h

/-- A sort that fails does so because of a cycle. -/
lemma exists_cycle_of_topologicalSort {e : GraphError} (h : g.topologicalSort keep = .error e) :
    ∃ remaining total, e = .cycle remaining total := by
  rw [topologicalSort_eq] at h
  split at h
  · cases h
  · cases h
    exact ⟨_, _, rfl⟩

lemma SourcesBefore.idxOf_lt {l : List Nat} (h : g.SourcesBefore keep l) {e : Edge ε}
    (he : e ∈ g.edges) (hk : keep e) (hmem : e.sink ∈ l) (hnd : l.Nodup) :
    l.idxOf e.source < l.idxOf e.sink := by
  obtain ⟨l₁, l₂, heq⟩ := List.append_of_mem hmem
  have hsrc := h l₁ e.sink l₂ heq e he hk rfl
  have hsink : e.sink ∉ l₁ := by
    rw [heq] at hnd
    intro hin
    exact (List.nodup_append.mp hnd).2.2 _ hin _ (by simp) rfl
  rw [heq, List.idxOf_append_of_mem hsrc, List.idxOf_append_of_notMem hsink]
  have := List.idxOf_lt_length_of_mem hsrc
  omega

/-- Along kept edges the place in the list grows with every edge. -/
lemma SourcesBefore.idxOf_add_length_le {l : List Nat} (h : g.SourcesBefore keep l)
    (hnd : l.Nodup) {u v : Nat} {p : List (Edge ε)} (hp : g.IsWalk u p v)
    (hk : ∀ e ∈ p, keep e = true) (hv : v ∈ l) :
    u ∈ l ∧ l.idxOf u + p.length ≤ l.idxOf v := by
  induction p generalizing u with
  | nil =>
    obtain ⟨rfl, _⟩ := hp
    exact ⟨hv, le_rfl⟩
  | cons e p ih =>
    obtain ⟨he, rfl, hp⟩ := hp
    obtain ⟨hsink, hle⟩ := ih hp fun e' he' => hk e' (by simp [he'])
    have hlt := h.idxOf_lt he (hk e (by simp)) hsink hnd
    have hsource : l.idxOf e.source < l.length := hlt.trans (List.idxOf_lt_length_of_mem hsink)
    refine ⟨List.idxOf_lt_length_iff.mp hsource, ?_⟩
    rw [List.length_cons]
    omega

/-- No vertex of the list is on a cycle, since its place would grow around the cycle. -/
lemma SourcesBefore.not_onCycle {l : List Nat} (h : g.SourcesBefore keep l) (hnd : l.Nodup)
    {v : Nat} (hv : v ∈ l) : ¬g.OnCycle keep v := by
  rintro ⟨p, hne, hp, hk⟩
  have hlen := (h.idxOf_add_length_le hnd hp hk hv).2
  have hpos := List.length_pos_iff.mpr hne
  omega

lemma acyclic_iff_not_onCycle : (g.Acyclic fun e => keep e) ↔ ∀ v, ¬g.OnCycle keep v := by
  constructor
  · rintro ha v ⟨p, hne, hp, hk⟩
    exact hne (ha v p hp hk)
  · intro h v p hp hk
    by_contra hne
    exact h v ⟨p, hne, hp, hk⟩

lemma OnCycle.lt_order {v : Nat} (h : g.OnCycle keep v) : v < g.order := by
  obtain ⟨p, -, hp, -⟩ := h
  exact hp.source_lt

lemma IsTopologicalOrder.acyclic {l : List Nat} (h : g.IsTopologicalOrder keep l) :
    g.Acyclic fun e => keep e :=
  acyclic_iff_not_onCycle.mpr fun v hv =>
    h.before.not_onCycle h.nodup ((h.mem_iff v).mpr hv.lt_order) hv

/-! ### Failure -/

/-- If a vertex waits for another one that waits too, kept walks of any length lead to it. -/
lemma Drained.exists_walk {l : List Nat} (h : g.Drained keep l) (n w : Nat)
    (hw : w < g.order) (hwl : w ∉ l) :
    ∃ u p, g.IsWalk u p w ∧ (∀ e ∈ p, keep e = true) ∧ p.length = n := by
  induction n generalizing w with
  | zero => exact ⟨w, [], isWalk_nil hw, by simp, rfl⟩
  | succ n ih =>
    obtain ⟨e, he, hk, rfl, hs⟩ := h.waiting w hw hwl
    obtain ⟨u, p, hp, hkp, hlen⟩ := ih e.source (source_lt_of_mem he) hs
    refine ⟨u, p ++ [e], isWalk_concat.mpr ⟨hp, he, rfl⟩, ?_, by simp [hlen]⟩
    intro e' he'
    rcases List.mem_append.mp he' with he' | he'
    · exact hkp e' he'
    · rw [List.mem_singleton] at he'
      exact he' ▸ hk

/-- The vertices that the sort leaves out are those on cycles of kept edges and those behind. -/
lemma Drained.blocked_iff {l : List Nat} (h : g.Drained keep l) (v : Nat) :
    g.Blocked keep v ↔ v < g.order ∧ v ∉ l := by
  constructor
  · rintro ⟨u, p, hcycle, hp, hk⟩
    refine ⟨hp.sink_lt, ?_⟩
    intro hv
    exact h.before.not_onCycle h.nodup (h.before.idxOf_add_length_le h.nodup hp hk hv).1 hcycle
  · rintro ⟨hv, hvl⟩
    -- a walk of as many edges as there are vertices runs through a cycle on its way to `v`
    obtain ⟨u, p, hp, hk, hlen⟩ := h.exists_walk g.order v hv hvl
    obtain ⟨p₁, q, p₂, x, rfl, hne, -, hcycle, hp₂⟩ := hp.exists_cycle hlen.ge
    exact ⟨x, p₂, ⟨q, hne, hcycle, fun e he => hk e (by simp [he])⟩, hp₂,
      fun e he => hk e (by simp [he])⟩

lemma Drained.length_eq {l : List Nat} (h : g.Drained keep l)
    (ha : g.Acyclic fun e => keep e) : l.length = g.order := by
  have hall : ∀ w < g.order, w ∈ l := by
    intro w hw
    by_contra hwl
    obtain ⟨u, -, hcycle, -⟩ := (h.blocked_iff w).mpr ⟨hw, hwl⟩
    exact acyclic_iff_not_onCycle.mp ha u hcycle
  apply le_antisymm (length_le_order h.nodup h.inRange)
  have hsub : List.range g.order ⊆ l := fun w hw => hall w (List.mem_range.mp hw)
  simpa using (List.subperm_of_subset List.nodup_range hsub).length_le

/-- The sort succeeds exactly if the kept edges have no cycle. -/
theorem exists_topologicalSort_iff :
    (∃ l, g.topologicalSort keep = .ok l) ↔ g.Acyclic fun e => keep e := by
  constructor
  · rintro ⟨l, hl⟩
    exact (topologicalSort_isTopologicalOrder hl).acyclic
  · intro ha
    have hlen := (drained_sortTaken g keep).length_eq ha
    exact ⟨_, if_pos hlen⟩

/-- As many vertices are left out as are blocked. -/
lemma Drained.exists_card_blocked {l : List Nat} (h : g.Drained keep l) :
    ∃ blocked : Finset Nat, (∀ v, v ∈ blocked ↔ g.Blocked keep v) ∧
      blocked.card = g.order - l.length := by
  refine ⟨Finset.range g.order \ l.toFinset, ?_, ?_⟩
  · intro v
    rw [h.blocked_iff, Finset.mem_sdiff, Finset.mem_range, List.mem_toFinset]
  · have hsub : l.toFinset ⊆ Finset.range g.order := by
      intro v hv
      exact Finset.mem_range.mpr (h.inRange v (List.mem_toFinset.mp hv))
    rw [Finset.card_sdiff_of_subset hsub, Finset.card_range, List.toFinset_card_of_nodup h.nodup]

lemma IsTopologicalOrder.perm_range {l : List Nat} (h : g.IsTopologicalOrder keep l) :
    l.Perm (List.range g.order) := by
  rw [List.perm_ext_iff_of_nodup h.nodup List.nodup_range]
  simpa using h.mem_iff

/-- The sort succeeds exactly if the kept edges have no cycle, and then it orders all vertices so
that kept edges go forward. If it fails, it tells how many vertices lie on cycles of kept edges or
behind them. Its result comes from a run of its steps that ends with an empty queue, and in no state
of the run an edge is taken away from a degree of 0. -/
theorem topologicalSort_exact (g : WeightedGraph ν ε) (keep : Edge ε → Bool) :
    ((∃ l, g.topologicalSort keep = .ok l) ↔ g.Acyclic fun e => keep e) ∧
    (∀ l, g.topologicalSort keep = .ok l → l.Perm (List.range g.order) ∧
      ∀ e ∈ g.edges, keep e = true → l.idxOf e.source < l.idxOf e.sink) ∧
    (∀ err, g.topologicalSort keep = .error err → ∃ blocked : Finset Nat,
      (∀ v, v ∈ blocked ↔ g.Blocked keep v) ∧ err = .cycle blocked.card g.order) ∧
    (∃ l degrees,
      Relation.ReflTransGen (g.SortStep keep) (g.sortStart keep) ⟨l, [], [], degrees⟩ ∧
      g.topologicalSort keep =
        if l.length = g.order then .ok l else .error (.cycle (g.order - l.length) g.order)) ∧
    ∀ s, Relation.ReflTransGen (g.SortStep keep) (g.sortStart keep) s →
      ∀ e left, s.leaving = e :: left → 0 < s.degrees.getD e.sink 0 := by
  refine ⟨exists_topologicalSort_iff, ?_, ?_, ?_, ?_⟩
  · intro l hl
    have horder := topologicalSort_isTopologicalOrder hl
    refine ⟨horder.perm_range, ?_⟩
    intro e he hk
    exact horder.before.idxOf_lt he hk ((horder.mem_iff _).mpr (sink_lt_of_mem he)) horder.nodup
  · intro err herr
    obtain ⟨blocked, hblocked, hcard⟩ := (drained_sortTaken g keep).exists_card_blocked
    refine ⟨blocked, hblocked, ?_⟩
    rw [topologicalSort_eq] at herr
    split at herr
    · cases herr
    · cases herr
      rw [hcard]
  · obtain ⟨degrees, hrun⟩ := exists_run_sortTaken g keep
    exact ⟨g.sortTaken keep, degrees, hrun, topologicalSort_eq g keep⟩
  · intro s hrun e left hs
    exact ((sortSound_start g keep).run hrun).degree_pos hs

/-- A ring of two vertices with a double edge, one vertex in front of it and one behind, from which
an edge leads back to the front, and a vertex with an edge to itself. -/
def tangle : WeightedGraph Unit Unit where
  vertices := Array.replicate 5 ⟨0, ()⟩
  edges := #[⟨0, 1, 0, ()⟩, ⟨1, 2, 0, ()⟩, ⟨1, 2, 0, ()⟩, ⟨2, 1, 0, ()⟩, ⟨2, 3, 0, ()⟩, ⟨4, 4, 0, ()⟩,
    ⟨3, 0, 1, ()⟩]
  edges_inRange := by decide

/-- Without the edge back to the front, the ring, the vertex behind it and the last one are blocked.
If edges to smaller vertices and to the same one are left out, all vertices can be ordered. -/
theorem topologicalSort_exact_tangle :
    tangle.topologicalSort (fun e => e.weight == 0) = .error (.cycle 4 5) ∧
    (∃ blocked : Finset Nat,
      (∀ v, v ∈ blocked ↔ tangle.Blocked (fun e => e.weight == 0) v) ∧ blocked.card = 4) ∧
    tangle.topologicalSort (fun e => e.source < e.sink) = .ok [0, 4, 1, 2, 3] ∧
    [0, 4, 1, 2, 3].Perm (List.range 5) ∧
    tangle.Acyclic fun e => decide (e.source < e.sink) := by
  have hfail : tangle.topologicalSort (fun e => e.weight == 0) = .error (.cycle 4 5) := by
    decide +kernel
  have hsort : tangle.topologicalSort (fun e => e.source < e.sink) = .ok [0, 4, 1, 2, 3] := by
    decide +kernel
  obtain ⟨hiff, hok, -⟩ := tangle.topologicalSort_exact fun e => decide (e.source < e.sink)
  obtain ⟨-, -, herror, -⟩ := tangle.topologicalSort_exact fun e => e.weight == 0
  obtain ⟨blocked, hblocked, hcount⟩ := herror _ hfail
  refine ⟨hfail, ⟨blocked, hblocked, ?_⟩, hsort, (hok _ hsort).1, hiff.mp ⟨_, hsort⟩⟩
  rw [GraphError.cycle.injEq] at hcount
  exact hcount.1.symm

end WeightedGraph

end NetlistCompiler
