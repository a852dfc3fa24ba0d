import NetlistCompiler.Proofs.Walk

/-!
# Shortest walks

Relaxing all edges once improves every distance at least as far as one more edge allows, whatever
the order of the edges. After as many rounds as there are vertices, less one, the distances are
least among all walks, since a longer walk runs through a cycle that can be left out. From then on
no offer is taken, so that further rounds change nothing. An offer along a walk that comes back to a
vertex is never taken, so that all distances are those of paths, and only they are ever added to.
-/

namespace NetlistCompiler

namespace WeightedGraph

variable {ν ε ω : Type} (g : WeightedGraph ν ε) (edgeWeight : Edge ε → ω)
  (compare : ω → ω → Ordering) (add : ω → ω → ω)

/-- The value at the end of a walk, given that at its start. -/
def walkValue (start : ω) (p : List (Edge ε)) : ω :=
  p.foldl (fun a e => add a (edgeWeight e)) start

/-- What shortest walks need: `compare` is a total preorder, adding the weight of an edge keeps it,
and no cycle makes a value less. -/
structure PathOrder : Prop where
  trans : Std.TransCmp compare
  add_mono : ∀ a b x, (compare a b).isLE → (compare (add a x) (add b x)).isLE
  cycle : ∀ a v p, g.IsWalk v p v → (compare a (walkValue edgeWeight add a p)).isLE

/-- One distance offered to the sink of an edge, without the note of a change. -/
def offer (distances : Array (Option ω)) (e : Edge ε) : Array (Option ω) :=
  (relax edgeWeight compare add (distances, false) e).1

/-- One round over all edges. -/
def round (distances : Array (Option ω)) : Array (Option ω) :=
  g.edges.toList.foldl (offer edgeWeight compare add) distances

/-- Where `b` has a distance, `a` has one that is not greater. -/
def Improves (a b : Array (Option ω)) : Prop :=
  ∀ v x, b.getD v none = some x → ∃ y, a.getD v none = some y ∧ (compare y x).isLE

variable {g edgeWeight compare add}

lemma walkValue_append (a : ω) (p q : List (Edge ε)) :
    walkValue edgeWeight add a (p ++ q) =
      walkValue edgeWeight add (walkValue edgeWeight add a p) q := by
  simp [walkValue, List.foldl_append]

lemma walkValue_concat (a : ω) (p : List (Edge ε)) (e : Edge ε) :
    walkValue edgeWeight add a (p ++ [e]) =
      add (walkValue edgeWeight add a p) (edgeWeight e) := by
  simp [walkValue, List.foldl_append]

namespace PathOrder

variable (h : g.PathOrder edgeWeight compare add)
include h

lemma le_refl (a : ω) : (compare a a).isLE := by
  have := h.trans
  have hself : compare a a = .eq := Std.ReflCmp.compare_self
  rw [hself]
  rfl

lemma le_trans {a b x : ω} (hab : (compare a b).isLE) (hbx : (compare b x).isLE) :
    (compare a x).isLE := by
  have := h.trans
  exact Std.TransCmp.isLE_trans hab hbx

lemma le_of_not_lt {a b : ω} (hab : compare a b ≠ .lt) : (compare b a).isLE := by
  have := h.trans
  have hswap : compare b a = (compare a b).swap := Std.OrientedCmp.eq_swap
  rw [hswap]
  cases hc : compare a b with
  | lt => exact absurd hc hab
  | eq => rfl
  | gt => rfl

lemma walkValue_mono {a b : ω} (hab : (compare a b).isLE) (p : List (Edge ε)) :
    (compare (walkValue edgeWeight add a p) (walkValue edgeWeight add b p)).isLE := by
  induction p generalizing a b with
  | nil => exact hab
  | cons e p ih => exact ih (h.add_mono a b (edgeWeight e) hab)

/-- Leaving out cycles, every walk is at least as long as one with fewer edges than vertices. -/
lemma exists_short {root v : Nat} {p : List (Edge ε)} (hp : g.IsWalk root p v) (a : ω) :
    ∃ q, g.IsWalk root q v ∧ q.length < g.order ∧
      (compare (walkValue edgeWeight add a q) (walkValue edgeWeight add a p)).isLE := by
  induction hn : p.length using Nat.strong_induction_on generalizing p with
  | _ n ih =>
    by_cases hlen : p.length < g.order
    · exact ⟨p, hp, hlen, h.le_refl _⟩
    · obtain ⟨p₁, q, p₂, w, rfl, hq, hp₁, hcycle, hp₂⟩ := hp.exists_cycle (not_lt.mp hlen)
      have hpos : 0 < q.length := List.length_pos_iff.mpr hq
      have hshort : (p₁ ++ p₂).length < n := by
        simp only [List.length_append] at hn ⊢
        omega
      obtain ⟨r, hr, hrlen, hle⟩ := ih _ hshort (hp₁.append hp₂) rfl
      refine ⟨r, hr, hrlen, h.le_trans hle ?_⟩
      rw [walkValue_append, walkValue_append, walkValue_append]
      exact h.walkValue_mono (h.cycle _ w q hcycle) p₂

end PathOrder

/-! ### One edge -/

lemma relax_fst (distances : Array (Option ω)) (flag : Bool) (e : Edge ε) :
    (relax edgeWeight compare add (distances, flag) e).1 =
      offer edgeWeight compare add distances e := by
  unfold offer relax
  simp only
  split
  · rfl
  · split_ifs <;> rfl

variable (edgeWeight compare add) in
/-- An offer is either taken by the sink of the edge or changes nothing. -/
lemma relax_cases (distances : Array (Option ω)) (flag : Bool) (e : Edge ε) :
    (∃ x, distances.getD e.source none = some x ∧
      (∀ y, distances.getD e.sink none = some y → compare (add x (edgeWeight e)) y = .lt) ∧
      relax edgeWeight compare add (distances, flag) e =
        (distances.set! e.sink (some (add x (edgeWeight e))), true)) ∨
    ((∀ x, distances.getD e.source none = some x →
        ∃ y, distances.getD e.sink none = some y ∧ compare (add x (edgeWeight e)) y ≠ .lt) ∧
      relax edgeWeight compare add (distances, flag) e = (distances, flag)) := by
  unfold relax
  simp only
  cases hs : distances.getD e.source none with
  | none => right; simp
  | some x =>
    cases ht : distances.getD e.sink none with
    | none => left; exact ⟨x, rfl, by simp, by simp⟩
    | some y =>
      by_cases hlt : compare (add x (edgeWeight e)) y = .lt
      · left
        refine ⟨x, rfl, ?_, by simp [hlt]⟩
        intro y' hy'
        cases hy'
        exact hlt
      · right
        refine ⟨?_, by simp [hlt]⟩
        intro x' hx'
        cases hx'
        exact ⟨y, rfl, hlt⟩

variable (edgeWeight compare add) in
/-- What an offer does: the sink takes the new distance if it is less than the old one. -/
lemma offer_cases (distances : Array (Option ω)) (e : Edge ε) :
    (∃ x, distances.getD e.source none = some x ∧
      (∀ y, distances.getD e.sink none = some y → compare (add x (edgeWeight e)) y = .lt) ∧
      offer edgeWeight compare add distances e =
        distances.set! e.sink (some (add x (edgeWeight e)))) ∨
    ((∀ x, distances.getD e.source none = some x →
        ∃ y, distances.getD e.sink none = some y ∧ compare (add x (edgeWeight e)) y ≠ .lt) ∧
      offer edgeWeight compare add distances e = distances) := by
  rcases relax_cases edgeWeight compare add distances false e with ⟨x, hx, hy, heq⟩ | ⟨hx, heq⟩
  · exact Or.inl ⟨x, hx, hy, congrArg Prod.fst heq⟩
  · exact Or.inr ⟨hx, congrArg Prod.fst heq⟩

lemma size_offer (distances : Array (Option ω)) (e : Edge ε) :
    (offer edgeWeight compare add distances e).size = distances.size := by
  rcases offer_cases edgeWeight compare add distances e with ⟨x, _, _, heq⟩ | ⟨_, heq⟩
  · rw [heq]
    exact Array.size_setIfInBounds
  · rw [heq]

lemma exists_distance_of_offer {distances : Array (Option ω)} {e : Edge ε}
    (he : e.sink < distances.size) {v : Nat} {x : ω} (hx : distances.getD v none = some x) :
    ∃ y, (offer edgeWeight compare add distances e).getD v none = some y := by
  rcases offer_cases edgeWeight compare add distances e with ⟨z, _, _, heq⟩ | ⟨_, heq⟩
  · rw [heq, getD_set! _ _ _ _ _ he]
    split
    · exact ⟨_, rfl⟩
    · exact ⟨x, hx⟩
  · rw [heq]
    exact ⟨x, hx⟩

namespace PathOrder

variable (h : g.PathOrder edgeWeight compare add)
include h

lemma improves_refl (a : Array (Option ω)) : Improves compare a a :=
  fun _ x hx => ⟨x, hx, h.le_refl x⟩

lemma improves_trans {a b d : Array (Option ω)} (hab : Improves compare a b)
    (hbd : Improves compare b d) : Improves compare a d := by
  intro v x hx
  obtain ⟨y, hy, hyx⟩ := hbd v x hx
  obtain ⟨z, hz, hzy⟩ := hab v y hy
  exact ⟨z, hz, h.le_trans hzy hyx⟩

lemma improves_offer {distances : Array (Option ω)} {e : Edge ε} (he : e.sink < distances.size) :
    Improves compare (offer edgeWeight compare add distances e) distances := by
  intro v y hy
  rcases offer_cases edgeWeight compare add distances e with ⟨x, _, hlt, heq⟩ | ⟨_, heq⟩
  · rw [heq, getD_set! _ _ _ _ _ he]
    by_cases hv : e.sink = v
    · rw [if_pos hv]
      refine ⟨_, rfl, ?_⟩
      rw [hlt y (hv ▸ hy)]
      rfl
    · rw [if_neg hv]
      exact ⟨y, hy, h.le_refl y⟩
  · rw [heq]
    exact ⟨y, hy, h.le_refl y⟩

/-- After an offer the sink is no farther away than the way through the edge. -/
lemma le_of_offer {distances : Array (Option ω)} {e : Edge ε} (he : e.sink < distances.size)
    {x : ω} (hx : distances.getD e.source none = some x) :
    ∃ y, (offer edgeWeight compare add distances e).getD e.sink none = some y ∧
      (compare y (add x (edgeWeight e))).isLE := by
  rcases offer_cases edgeWeight compare add distances e with ⟨x', hx', _, heq⟩ | ⟨hno, heq⟩
  · rw [hx] at hx'
    cases hx'
    rw [heq, getD_set! _ _ _ _ _ he, if_pos rfl]
    exact ⟨_, rfl, h.le_refl _⟩
  · obtain ⟨y, hy, hle⟩ := hno x hx
    rw [heq]
    exact ⟨y, hy, h.le_of_not_lt hle⟩

end PathOrder

/-! ### One round -/

lemma size_foldl_offer (l : List (Edge ε)) (distances : Array (Option ω)) :
    (l.foldl (offer edgeWeight compare add) distances).size = distances.size := by
  induction l generalizing distances with
  | nil => rfl
  | cons e l ih => rw [List.foldl_cons, ih, size_offer]

lemma size_round (distances : Array (Option ω)) :
    (g.round edgeWeight compare add distances).size = distances.size :=
  size_foldl_offer _ _

/-- The distances of a round do not depend on the note of a change. -/
lemma foldl_relax_fst (l : List (Edge ε)) (distances : Array (Option ω)) (flag : Bool) :
    (l.foldl (relax edgeWeight compare add) (distances, flag)).1 =
      l.foldl (offer edgeWeight compare add) distances := by
  induction l generalizing distances flag with
  | nil => rfl
  | cons e l ih =>
    rw [List.foldl_cons, List.foldl_cons, ← relax_fst distances flag e]
    exact ih _ _

/-- If no change has been noted, there was none. -/
lemma foldl_relax_unchanged (l : List (Edge ε)) (distances : Array (Option ω)) (flag : Bool)
    (h : (l.foldl (relax edgeWeight compare add) (distances, flag)).2 = false) :
    flag = false ∧ l.foldl (offer edgeWeight compare add) distances = distances := by
  induction l generalizing distances flag with
  | nil => exact ⟨h, rfl⟩
  | cons e l ih =>
    rw [List.foldl_cons] at h ⊢
    rcases relax_cases edgeWeight compare add distances flag e with ⟨x, _, _, heq⟩ | ⟨_, heq⟩
    · rw [heq] at h
      exact absurd (ih _ _ h).1 (by simp)
    · have hoffer : offer edgeWeight compare add distances e = distances := by
        rw [← relax_fst distances flag e, heq]
      rw [heq] at h
      rw [hoffer]
      exact ih _ _ h

/-- Stopping early makes no difference. -/
lemma relaxRounds_eq_iterate (rounds : Nat) (distances : Array (Option ω)) :
    g.relaxRounds edgeWeight compare add rounds distances =
      (g.round edgeWeight compare add)^[rounds] distances := by
  induction rounds generalizing distances with
  | zero => rfl
  | succ rounds ih =>
    have hround : (g.edges.foldl (relax edgeWeight compare add) (distances, false)).1 =
        g.round edgeWeight compare add distances := by
      rw [← Array.foldl_toList]
      exact foldl_relax_fst _ _ _
    rw [relaxRounds, Function.iterate_succ_apply]
    simp only
    split
    · rw [hround]
      exact ih _
    · next hflag =>
      have hsame : g.round edgeWeight compare add distances = distances := by
        rw [← Array.foldl_toList, Bool.not_eq_true] at hflag
        exact (foldl_relax_unchanged _ _ _ hflag).2
      rw [hround, hsame, Function.iterate_fixed hsame]

namespace PathOrder

variable (h : g.PathOrder edgeWeight compare add)
include h

lemma improves_foldl {l : List (Edge ε)} {distances : Array (Option ω)}
    (hl : ∀ e ∈ l, e.sink < distances.size) :
    Improves compare (l.foldl (offer edgeWeight compare add) distances) distances := by
  induction l generalizing distances with
  | nil => exact h.improves_refl distances
  | cons e l ih =>
    have hrest : ∀ e' ∈ l, e'.sink < (offer edgeWeight compare add distances e).size := by
      intro e' he'
      rw [size_offer]
      exact hl e' (by simp [he'])
    exact h.improves_trans (ih hrest) (h.improves_offer (hl e (by simp)))

lemma improves_round {distances : Array (Option ω)} (hsize : distances.size = g.order) :
    Improves compare (g.round edgeWeight compare add distances) distances := by
  apply h.improves_foldl
  intro e he
  rw [hsize]
  exact sink_lt_of_mem (Array.mem_toList_iff.mp he)

/-- After a round no vertex is farther away than one of its neighbours before the round and the
edge between them. -/
lemma le_of_round {distances : Array (Option ω)} (hsize : distances.size = g.order)
    {e : Edge ε} (he : e ∈ g.edges) {x : ω} (hx : distances.getD e.source none = some x) :
    ∃ y, (g.round edgeWeight compare add distances).getD e.sink none = some y ∧
      (compare y (add x (edgeWeight e))).isLE := by
  have hsink : ∀ e' ∈ g.edges.toList, e'.sink < distances.size := by
    intro e' he'
    rw [hsize]
    exact sink_lt_of_mem (Array.mem_toList_iff.mp he')
  obtain ⟨l₁, l₂, hl⟩ := List.append_of_mem (Array.mem_toList_iff.mpr he)
  rw [hl] at hsink
  unfold round
  rw [hl, List.foldl_append, List.foldl_cons]
  -- the source only gets nearer before the offer, and the sink only after it
  have hsize₁ : (l₁.foldl (offer edgeWeight compare add) distances).size = distances.size :=
    size_foldl_offer _ _
  obtain ⟨x', hx', hle⟩ := h.improves_foldl (l := l₁)
    (fun e' he' => hsink e' (by simp [he'])) e.source x hx
  obtain ⟨y, hy, hyle⟩ := h.le_of_offer (hsize₁ ▸ hsink e (by simp)) hx'
  obtain ⟨z, hz, hzle⟩ := h.improves_foldl (l := l₂) (by
    intro e' he'
    rw [size_offer, hsize₁]
    exact hsink e' (by simp [he'])) e.sink y hy
  exact ⟨z, hz, h.le_trans hzle (h.le_trans hyle (h.add_mono _ _ _ hle))⟩

end PathOrder

/-! ### All rounds -/

variable (g edgeWeight add) in
/-- Every distance is that of a walk from the root. -/
def Reached (root : Nat) (zero : ω) (distances : Array (Option ω)) : Prop :=
  ∀ v x, distances.getD v none = some x →
    ∃ p, g.IsWalk root p v ∧ walkValue edgeWeight add zero p = x

lemma Reached.offer {root : Nat} {zero : ω} {distances : Array (Option ω)}
    (h : g.Reached edgeWeight add root zero distances) {e : Edge ε} (he : e ∈ g.edges)
    (hsize : distances.size = g.order) :
    g.Reached edgeWeight add root zero
      (WeightedGraph.offer edgeWeight compare add distances e) := by
  rcases offer_cases edgeWeight compare add distances e with ⟨x, hx, _, heq⟩ | ⟨_, heq⟩
  · intro v y hy
    rw [heq, getD_set! _ _ _ _ _ (hsize ▸ sink_lt_of_mem he)] at hy
    split at hy
    · next hv =>
      cases hy
      obtain ⟨p, hp, hvalue⟩ := h e.source x hx
      refine ⟨p ++ [e], isWalk_concat.mpr ⟨hp, he, hv⟩, ?_⟩
      rw [walkValue_concat, hvalue]
    · exact h v y hy
  · rw [heq]
    exact h

lemma Reached.round {root : Nat} {zero : ω} {distances : Array (Option ω)}
    (h : g.Reached edgeWeight add root zero distances) (hsize : distances.size = g.order) :
    g.Reached edgeWeight add root zero
      (g.round edgeWeight compare add distances) := by
  have hround : (g.round edgeWeight compare add distances).size = g.order ∧
      g.Reached edgeWeight add root zero (g.round edgeWeight compare add distances) := by
    refine List.foldlRecOn
      (motive := fun d => d.size = g.order ∧ g.Reached edgeWeight add root zero d) _ _ ⟨hsize, h⟩ ?_
    rintro d ⟨hd, hreached⟩ e he
    exact ⟨(size_offer d e).trans hd, hreached.offer (Array.mem_toList_iff.mp he) hd⟩
  exact hround.2

/-- The distances before the first round. -/
def startAt (n root : Nat) (zero : ω) : Array (Option ω) :=
  (Array.replicate n none).set! root (some zero)

lemma getD_startAt {n root : Nat} (hroot : root < n) (zero : ω) (v : Nat) :
    (startAt n root zero).getD v none = if root = v then some zero else none := by
  unfold startAt
  rw [getD_set! _ _ _ _ _ (by simpa using hroot), Array.getD_eq_getD_getElem?,
    Array.getElem?_replicate]
  split_ifs <;> rfl

variable (g edgeWeight compare add) in
/-- The distances after some rounds. -/
def distancesAfter (root : Nat) (zero : ω) (rounds : Nat) : Array (Option ω) :=
  (g.round edgeWeight compare add)^[rounds] (startAt g.order root zero)

lemma distancesAfter_succ (root : Nat) (zero : ω) (k : Nat) :
    g.distancesAfter edgeWeight compare add root zero (k + 1) =
      g.round edgeWeight compare add (g.distancesAfter edgeWeight compare add root zero k) :=
  Function.iterate_succ_apply' _ _ _

lemma size_distancesAfter (root : Nat) (zero : ω) (k : Nat) :
    (g.distancesAfter edgeWeight compare add root zero k).size = g.order := by
  induction k with
  | zero => simp [distancesAfter, startAt]
  | succ k ih => rw [distancesAfter_succ, size_round, ih]

lemma size_shortestPaths (root : Nat) (zero : ω) :
    (g.shortestPaths edgeWeight compare add root zero).size = g.order :=
  (congrArg Array.size (relaxRounds_eq_iterate _ _)).trans (size_distancesAfter root zero _)

/-- The root has a distance, however distances are compared and added. -/
lemma exists_distance_root {root : Nat} (hroot : root < g.order) (zero : ω) :
    ∃ x, (g.shortestPaths edgeWeight compare add root zero).getD root none = some x := by
  have hall : ∀ k, ∃ x,
      (g.distancesAfter edgeWeight compare add root zero k).getD root none = some x := by
    intro k
    induction k with
    | zero => exact ⟨zero, (getD_startAt hroot zero root).trans (if_pos rfl)⟩
    | succ k ih =>
      rw [distancesAfter_succ]
      refine (List.foldlRecOn (motive := fun d : Array (Option ω) =>
        d.size = g.order ∧ ∃ x, d.getD root none = some x)
        _ _ ⟨size_distancesAfter root zero k, ih⟩ ?_).2
      rintro d ⟨hd, x, hx⟩ e he
      exact ⟨(size_offer d e).trans hd, exists_distance_of_offer
        (hd ▸ sink_lt_of_mem (Array.mem_toList_iff.mp he)) hx⟩
  obtain ⟨x, hx⟩ := hall (g.order - 1)
  exact ⟨x, (congrArg (Array.getD · root none) (relaxRounds_eq_iterate _ _)).trans hx⟩

lemma reached_distancesAfter {root : Nat} (hroot : root < g.order) (zero : ω) (k : Nat) :
    g.Reached edgeWeight add root zero
      (g.distancesAfter edgeWeight compare add root zero k) := by
  induction k with
  | zero =>
    intro v x hx
    change (startAt g.order root zero).getD v none = some x at hx
    rw [getD_startAt hroot] at hx
    split at hx
    · next hv =>
      cases hx
      exact ⟨[], hv ▸ isWalk_nil hroot, rfl⟩
    · cases hx
  | succ k ih =>
    rw [distancesAfter_succ]
    exact ih.round (size_distancesAfter root zero k)

/-- After some rounds no vertex is farther away than along a walk of that many edges. -/
lemma PathOrder.le_of_distancesAfter (h : g.PathOrder edgeWeight compare add) {root : Nat}
    (hroot : root < g.order) (zero : ω) {k v : Nat} {p : List (Edge ε)}
    (hp : g.IsWalk root p v) (hlen : p.length ≤ k) :
    ∃ x, (g.distancesAfter edgeWeight compare add root zero k).getD v none = some x ∧
      (compare x (walkValue edgeWeight add zero p)).isLE := by
  induction k generalizing v p with
  | zero =>
    have hnil : p = [] := List.eq_nil_of_length_eq_zero (Nat.le_zero.mp hlen)
    subst hnil
    refine ⟨zero, ?_, h.le_refl zero⟩
    change (startAt g.order root zero).getD v none = some zero
    rw [getD_startAt hroot, if_pos hp.1]
  | succ k ih =>
    have hsize : (g.distancesAfter edgeWeight compare add root zero k).size = g.order :=
      size_distancesAfter root zero k
    rw [distancesAfter_succ]
    rcases List.eq_nil_or_concat p with rfl | ⟨q, e, rfl⟩
    · obtain ⟨x, hx, hle⟩ := ih hp (by simp)
      obtain ⟨y, hy, hyx⟩ := h.improves_round hsize v x hx
      exact ⟨y, hy, h.le_trans hyx hle⟩
    · rw [List.concat_eq_append] at hp hlen ⊢
      obtain ⟨hq, he, rfl⟩ := isWalk_concat.mp hp
      rw [List.length_append, List.length_singleton] at hlen
      obtain ⟨x, hx, hle⟩ := ih hq (by omega)
      obtain ⟨y, hy, hyx⟩ := h.le_of_round hsize he hx
      refine ⟨y, hy, h.le_trans hyx ?_⟩
      rw [walkValue_concat]
      exact h.add_mono _ _ _ hle

/-- After as many rounds as there are vertices, less one, no vertex is farther away than along any
walk, since cycles can be left out of a longer one. -/
lemma PathOrder.le_of_enough_rounds (h : g.PathOrder edgeWeight compare add) {root : Nat}
    (hroot : root < g.order) (zero : ω) {rounds : Nat} (hrounds : g.order - 1 ≤ rounds) {v : Nat}
    {p : List (Edge ε)} (hp : g.IsWalk root p v) :
    ∃ x, (g.distancesAfter edgeWeight compare add root zero rounds).getD v none = some x ∧
      (compare x (walkValue edgeWeight add zero p)).isLE := by
  obtain ⟨q, hq, hlen, hqp⟩ := h.exists_short hp zero
  have hlen' : q.length ≤ rounds := (Nat.le_sub_one_of_lt hlen).trans hrounds
  obtain ⟨x, hx, hxq⟩ := h.le_of_distancesAfter hroot zero hq hlen'
  exact ⟨x, hx, h.le_trans hxq hqp⟩

/-- The distances of shortest walks: none where no walk leads, else the value of a walk that is not
greater than that of any other. -/
theorem PathOrder.shortestPaths_spec (h : g.PathOrder edgeWeight compare add) {root : Nat}
    (hroot : root < g.order) (zero : ω) :
    let distances := g.shortestPaths edgeWeight compare add root zero
    distances.size = g.order ∧
    (∀ v x, distances.getD v none = some x →
      (∃ p, g.IsWalk root p v ∧ walkValue edgeWeight add zero p = x) ∧
      ∀ p, g.IsWalk root p v → (compare x (walkValue edgeWeight add zero p)).isLE) ∧
    ∀ v p, g.IsWalk root p v → ∃ x, distances.getD v none = some x := by
  intro distances
  have heq : distances = g.distancesAfter edgeWeight compare add root zero (g.order - 1) :=
    relaxRounds_eq_iterate _ _
  rw [heq]
  refine ⟨size_distancesAfter root zero _, ?_, ?_⟩
  · intro v x hx
    refine ⟨reached_distancesAfter hroot zero _ v x hx, ?_⟩
    intro p hp
    obtain ⟨y, hy, hyp⟩ := h.le_of_enough_rounds hroot zero le_rfl hp
    rw [hx] at hy
    cases hy
    exact hyp
  · intro v p hp
    obtain ⟨x, hx, _⟩ := h.le_of_enough_rounds hroot zero le_rfl hp
    exact ⟨x, hx⟩

/-! ### Further rounds -/

/-- An offer is not taken where every distance is that of a walk and no walk is shorter. -/
lemma PathOrder.offer_eq_self (h : g.PathOrder edgeWeight compare add) {root : Nat} {zero : ω}
    {distances : Array (Option ω)} (hreached : g.Reached edgeWeight add root zero distances)
    (hleast : ∀ v p, g.IsWalk root p v → ∃ x, distances.getD v none = some x ∧
      (compare x (walkValue edgeWeight add zero p)).isLE)
    {e : Edge ε} (he : e ∈ g.edges) : offer edgeWeight compare add distances e = distances := by
  rcases offer_cases edgeWeight compare add distances e with ⟨x, hx, hlt, -⟩ | ⟨-, heq⟩
  · -- the walk behind the distance of the source goes on through the edge
    obtain ⟨p, hp, rfl⟩ := hreached e.source x hx
    obtain ⟨y, hy, hle⟩ := hleast e.sink (p ++ [e]) (isWalk_concat.mpr ⟨hp, he, rfl⟩)
    rw [walkValue_concat] at hle
    have := h.trans
    exact absurd (hlt y hy) (Std.OrientedCmp.not_lt_of_isLE hle)
  · exact heq

lemma PathOrder.round_eq_self (h : g.PathOrder edgeWeight compare add) {root : Nat}
    (hroot : root < g.order) (zero : ω) {rounds : Nat} (hrounds : g.order - 1 ≤ rounds) :
    let distances := g.distancesAfter edgeWeight compare add root zero rounds
    g.round edgeWeight compare add distances = distances := by
  intro distances
  refine List.foldlRecOn (motive := (· = distances)) _ _ rfl ?_
  rintro _ rfl e he
  exact h.offer_eq_self (reached_distancesAfter hroot zero rounds)
    (fun v p hp => h.le_of_enough_rounds hroot zero hrounds hp) (Array.mem_toList_iff.mp he)

lemma PathOrder.distancesAfter_eq (h : g.PathOrder edgeWeight compare add) {root : Nat}
    (hroot : root < g.order) (zero : ω) {rounds : Nat} (hrounds : g.order - 1 ≤ rounds) :
    g.distancesAfter edgeWeight compare add root zero rounds =
      g.shortestPaths edgeWeight compare add root zero := by
  induction rounds, hrounds using Nat.le_induction with
  | base => exact (relaxRounds_eq_iterate _ _).symm
  | succ k hk ih => rw [distancesAfter_succ, h.round_eq_self hroot zero hk, ih]

/-- A vertex has no distance exactly if no walk leads to it from the root. Else its distance is the
value of a walk, and that of no other walk is less. The rounds that are made are enough: if more
rounds are allowed, with or without stopping early, the distances are the same. -/
theorem PathOrder.shortestPaths_exact (h : g.PathOrder edgeWeight compare add) {root : Nat}
    (hroot : root < g.order) (zero : ω) :
    let distances := g.shortestPaths edgeWeight compare add root zero
    distances.size = g.order ∧
    (∀ v, distances.getD v none = none ↔ ¬∃ p, g.IsWalk root p v) ∧
    (∀ v x, distances.getD v none = some x →
      (∃ p, g.IsWalk root p v ∧ walkValue edgeWeight add zero p = x) ∧
      ∀ p, g.IsWalk root p v → (compare x (walkValue edgeWeight add zero p)).isLE) ∧
    ∀ rounds, g.order - 1 ≤ rounds →
      g.relaxRounds edgeWeight compare add rounds (startAt g.order root zero) = distances ∧
      (g.round edgeWeight compare add)^[rounds] (startAt g.order root zero) = distances := by
  intro distances
  obtain ⟨hsize, hleast, hreach⟩ := h.shortestPaths_spec hroot zero
  refine ⟨hsize, ?_, hleast, ?_⟩
  · intro v
    constructor
    · rintro hnone ⟨p, hp⟩
      obtain ⟨x, hx⟩ := hreach v p hp
      rw [hnone] at hx
      cases hx
    · intro hunreached
      rw [Option.eq_none_iff_forall_ne_some]
      intro x hx
      obtain ⟨⟨p, hp, -⟩, -⟩ := hleast v x hx
      exact hunreached ⟨p, hp⟩
  · intro rounds hrounds
    have hiterate := h.distancesAfter_eq hroot zero hrounds
    exact ⟨(relaxRounds_eq_iterate _ _).trans hiterate, hiterate⟩

/-! ### Paths behind distances -/

variable (g edgeWeight compare add) in
/-- Every distance is that of a path from the root, and no vertex on the path is farther away than
along it. -/
def Traced (root : Nat) (zero : ω) (distances : Array (Option ω)) : Prop :=
  ∀ v x, distances.getD v none = some x →
    ∃ p, g.IsPath root p v ∧ walkValue edgeWeight add zero p = x ∧
      ∀ q e r, p = q ++ e :: r → ∃ y, distances.getD e.source none = some y ∧
        (compare y (walkValue edgeWeight add zero q)).isLE

section

variable (h : g.PathOrder edgeWeight compare add) {root : Nat} {zero : ω}
  {distances : Array (Option ω)}
include h

/-- An offer that is taken does not lead back to a vertex of the path behind it. -/
lemma PathOrder.offer_leads_on {e : Edge ε} (he : e ∈ g.edges) {p : List (Edge ε)}
    (hp : g.IsPath root p e.source)
    (hbefore : ∀ q e' r, p = q ++ e' :: r → ∃ y, distances.getD e'.source none = some y ∧
      (compare y (walkValue edgeWeight add zero q)).isLE)
    (hx : distances.getD e.source none = some (walkValue edgeWeight add zero p))
    (hlt : ∀ y, distances.getD e.sink none = some y →
      compare (add (walkValue edgeWeight add zero p) (edgeWeight e)) y = .lt) :
    e.sink ≠ e.source ∧ ∀ e' ∈ p, e'.source ≠ e.sink := by
  have := h.trans
  -- a cycle from `w` through `e` back to `w` offers no less than the distance of `w`
  have hcycle : ∀ q r y, p = q ++ r → g.IsWalk e.sink (r ++ [e]) e.sink →
      distances.getD e.sink none = some y →
      ¬(compare y (walkValue edgeWeight add zero q)).isLE := by
    rintro q r y rfl hwalk hy hle
    have hle' := h.le_trans hle (h.cycle _ _ _ hwalk)
    rw [← walkValue_append, ← List.append_assoc, walkValue_concat] at hle'
    exact absurd (hlt y hy) (Std.OrientedCmp.not_lt_of_isLE hle')
  constructor
  · intro hloop
    refine hcycle p [] _ (by simp) ?_ (hloop ▸ hx) (h.le_refl _)
    exact ⟨he, hloop.symm, rfl, sink_lt_of_mem he⟩
  · intro e' he' hback
    obtain ⟨q, r, rfl⟩ := List.append_of_mem he'
    obtain ⟨y, hy, hle⟩ := hbefore q e' r rfl
    obtain ⟨w, -, hrest⟩ := isWalk_append.mp hp.isWalk
    obtain rfl : e'.source = w := hrest.2.1
    refine hcycle q (e' :: r) y rfl ?_ (hback ▸ hy) hle
    exact isWalk_concat.mpr ⟨hback ▸ hrest, he, rfl⟩

lemma Traced.offer (htraced : g.Traced edgeWeight compare add root zero distances) {e : Edge ε}
    (he : e ∈ g.edges) (hsize : distances.size = g.order) :
    g.Traced edgeWeight compare add root zero
      (WeightedGraph.offer edgeWeight compare add distances e) := by
  have hsink : e.sink < distances.size := hsize ▸ sink_lt_of_mem he
  -- vertices only get nearer
  have hnearer : ∀ {w y z}, distances.getD w none = some y → (compare y z).isLE →
      ∃ y', (WeightedGraph.offer edgeWeight compare add distances e).getD w none = some y' ∧
        (compare y' z).isLE := by
    intro w y z hy hle
    obtain ⟨y', hy', hle'⟩ := h.improves_offer hsink w y hy
    exact ⟨y', hy', h.le_trans hle' hle⟩
  have hold : ∀ v x, distances.getD v none = some x →
      ∃ p, g.IsPath root p v ∧ walkValue edgeWeight add zero p = x ∧
        ∀ q e' r, p = q ++ e' :: r →
          ∃ y, (WeightedGraph.offer edgeWeight compare add distances e).getD e'.source none =
              some y ∧ (compare y (walkValue edgeWeight add zero q)).isLE := by
    intro v x hx
    obtain ⟨p, hp, hvalue, hbefore⟩ := htraced v x hx
    refine ⟨p, hp, hvalue, ?_⟩
    intro q e' r hpath
    obtain ⟨y, hy, hle⟩ := hbefore q e' r hpath
    exact hnearer hy hle
  rcases offer_cases edgeWeight compare add distances e with ⟨x, hx, hlt, heq⟩ | ⟨_, heq⟩
  · intro v y hy
    have hy' := hy
    rw [heq, getD_set! _ _ _ _ _ hsink] at hy'
    split at hy'
    · next hv =>
      subst hv
      cases hy'
      obtain ⟨p, hp, rfl, hbefore⟩ := htraced e.source x hx
      obtain ⟨hne, hnew⟩ := h.offer_leads_on he hp hbefore hx hlt
      refine ⟨p ++ [e], hp.concat he hne hnew, walkValue_concat _ _ _, ?_⟩
      intro q e' r hpath
      rcases List.eq_nil_or_concat r with rfl | ⟨r, e'', rfl⟩
      · obtain ⟨rfl, ⟨⟩⟩ := List.append_inj' hpath rfl
        exact hnearer hx (h.le_refl _)
      · rw [List.concat_eq_append, ← List.cons_append, ← List.append_assoc] at hpath
        obtain ⟨hinit, -⟩ := List.append_inj' hpath rfl
        obtain ⟨y, hy, hle⟩ := hbefore q e' r hinit
        exact hnearer hy hle
    · exact hold v y hy'
  · intro v y hy
    exact hold v y (heq ▸ hy)

lemma traced_distancesAfter (hroot : root < g.order) (k : Nat) :
    g.Traced edgeWeight compare add root zero
      (g.distancesAfter edgeWeight compare add root zero k) := by
  induction k with
  | zero =>
    intro v x hx
    change (startAt g.order root zero).getD v none = some x at hx
    rw [getD_startAt hroot] at hx
    split at hx
    · next hv =>
      cases hx
      exact ⟨[], hv ▸ isPath_nil hroot, rfl, by simp⟩
    · cases hx
  | succ k ih =>
    have hround : (g.distancesAfter edgeWeight compare add root zero (k + 1)).size = g.order ∧
        g.Traced edgeWeight compare add root zero
          (g.distancesAfter edgeWeight compare add root zero (k + 1)) := by
      rw [distancesAfter_succ]
      refine List.foldlRecOn
        (motive := fun d => d.size = g.order ∧ g.Traced edgeWeight compare add root zero d)
        _ _ ⟨size_distancesAfter root zero k, ih⟩ ?_
      rintro d ⟨hd, htraced⟩ e he
      exact ⟨(size_offer d e).trans hd, htraced.offer h (Array.mem_toList_iff.mp he) hd⟩
    exact hround.2

lemma PathOrder.exists_isPath (hroot : root < g.order) {v : Nat} {x : ω}
    (hx : (g.shortestPaths edgeWeight compare add root zero).getD v none = some x) :
    ∃ p, g.IsPath root p v ∧ walkValue edgeWeight add zero p = x := by
  rw [← h.distancesAfter_eq hroot zero le_rfl] at hx
  obtain ⟨p, hp, hvalue, -⟩ := traced_distancesAfter h hroot _ v x hx
  exact ⟨p, hp, hvalue⟩

end

lemma offer_congr {add' : ω → ω → ω} {distances : Array (Option ω)} {e : Edge ε}
    (h : ∀ x, distances.getD e.source none = some x → add' x (edgeWeight e) = add x (edgeWeight e)) :
    offer edgeWeight compare add' distances e = offer edgeWeight compare add distances e := by
  unfold offer relax
  cases hx : distances.getD e.source none with
  | none => rfl
  | some x => simp only [h x hx]

section

variable (h : g.PathOrder edgeWeight compare add) {root : Nat} {zero : ω} {add' : ω → ω → ω}
  (hsame : ∀ e ∈ g.edges, ∀ p, g.IsPath root p e.source →
    add' (walkValue edgeWeight add zero p) (edgeWeight e) =
      add (walkValue edgeWeight add zero p) (edgeWeight e))
include h hsame

lemma PathOrder.foldl_offer_congr {l : List (Edge ε)} (hl : ∀ e ∈ l, e ∈ g.edges)
    {distances : Array (Option ω)} (hsize : distances.size = g.order)
    (htraced : g.Traced edgeWeight compare add root zero distances) :
    l.foldl (offer edgeWeight compare add') distances =
      l.foldl (offer edgeWeight compare add) distances := by
  induction l generalizing distances with
  | nil => rfl
  | cons e l ih =>
    have he : e ∈ g.edges := hl e (by simp)
    have hoffer : offer edgeWeight compare add' distances e =
        offer edgeWeight compare add distances e := by
      apply offer_congr
      intro x hx
      obtain ⟨p, hp, rfl, -⟩ := htraced e.source x hx
      exact hsame e he p hp
    rw [List.foldl_cons, List.foldl_cons, hoffer]
    exact ih (fun e' he' => hl e' (by simp [he'])) ((size_offer _ e).trans hsize)
      (htraced.offer h he hsize)

/-- Distances are the same with another addition that agrees on the values of paths. -/
theorem PathOrder.shortestPaths_congr (hroot : root < g.order) :
    g.shortestPaths edgeWeight compare add' root zero =
      g.shortestPaths edgeWeight compare add root zero := by
  have hdistances : ∀ k, g.distancesAfter edgeWeight compare add' root zero k =
      g.distancesAfter edgeWeight compare add root zero k := by
    intro k
    induction k with
    | zero => rfl
    | succ k ih =>
      rw [distancesAfter_succ, distancesAfter_succ, ih]
      exact h.foldl_offer_congr hsame (fun e he => Array.mem_toList_iff.mp he)
        (size_distancesAfter root zero k) (traced_distancesAfter h hroot k)
  calc g.shortestPaths edgeWeight compare add' root zero
      = g.distancesAfter edgeWeight compare add' root zero (g.order - 1) :=
        relaxRounds_eq_iterate _ _
    _ = g.distancesAfter edgeWeight compare add root zero (g.order - 1) := hdistances _
    _ = g.shortestPaths edgeWeight compare add root zero := (relaxRounds_eq_iterate _ _).symm

end

end WeightedGraph

/-! ### Integer weights -/

namespace WeightedGraph

variable {ν ε : Type} {g : WeightedGraph ν ε}

lemma walkValue_weight (a : Int) (p : List (Edge ε)) :
    walkValue Edge.weight (· + ·) a p = a + (p.map Edge.weight).sum := by
  induction p generalizing a with
  | nil => simp [walkValue]
  | cons e p ih =>
    have hstep : walkValue Edge.weight (· + ·) a (e :: p) =
        walkValue Edge.weight (· + ·) (a + e.weight) p := rfl
    rw [hstep, ih, List.map_cons, List.sum_cons, add_assoc]

/-- Edges may have negative weights if some potential rises along no edge by more than its weight:
then no cycle has a negative weight. -/
lemma pathOrder_of_potential (φ : Nat → Int)
    (hφ : ∀ e ∈ g.edges, φ e.sink ≤ φ e.source + e.weight) :
    g.PathOrder Edge.weight compare (· + ·) := by
  refine ⟨inferInstance, ?_, ?_⟩
  · intro a b x hab
    rw [Std.isLE_compare] at hab ⊢
    exact add_le_add hab le_rfl
  · intro a v p hp
    have hsum := hp.sum_potential Edge.weight fun u => -φ u
    have hnonneg : 0 ≤ (p.map fun e => e.weight + -φ e.sink - -φ e.source).sum := by
      apply sum_map_nonneg
      intro e he
      have := hφ e (hp.mem_edges he)
      omega
    rw [Std.isLE_compare, walkValue_weight]
    omega

/-- A negative edge makes the way through a farther vertex the shorter one, and together with the
edge beside it a cycle of weight 0. The edges stand in an order in which it takes three rounds to
find the distances. No edge leads to the last vertex. -/
def detour : WeightedGraph Unit Unit where
  vertices := Array.replicate 5 ⟨0, ()⟩
  edges := #[⟨1, 3, 1, ()⟩, ⟨1, 3, 2, ()⟩, ⟨2, 1, -3, ()⟩, ⟨1, 2, 3, ()⟩, ⟨0, 2, 5, ()⟩,
    ⟨0, 1, 4, ()⟩, ⟨4, 3, -9, ()⟩]
  edges_inRange := by decide

theorem PathOrder.shortestPaths_exact_detour :
    detour.shortestPaths Edge.weight compare (· + ·) 0 (0 : Int) =
        #[some 0, some 2, some 5, some 3, none] ∧
      (¬∃ p, detour.IsWalk 0 p 4) ∧
      (∀ p, detour.IsWalk 0 p 3 → 3 ≤ (p.map Edge.weight).sum) ∧
      detour.relaxRounds Edge.weight compare (· + ·) 100 (startAt 5 0 (0 : Int)) =
        #[some 0, some 2, some 5, some 3, none] := by
  have horder : detour.PathOrder Edge.weight compare (· + ·) :=
    pathOrder_of_potential (fun v => #[0, 2, 5, 3, 12].getD v 0) (by decide)
  have hdistances : detour.shortestPaths Edge.weight compare (· + ·) 0 (0 : Int) =
      #[some 0, some 2, some 5, some 3, none] := by decide +kernel
  have hroot : 0 < detour.order := by decide
  obtain ⟨-, hnone, hleast, hrounds⟩ := horder.shortestPaths_exact hroot 0
  rw [hdistances] at hnone hleast hrounds
  refine ⟨hdistances, (hnone 4).mp rfl, ?_, (hrounds 100 (by decide)).1⟩
  intro p hp
  have hle := (hleast 3 3 rfl).2 p hp
  rwa [Std.isLE_compare, walkValue_weight, zero_add] at hle

end WeightedGraph

end NetlistCompiler
