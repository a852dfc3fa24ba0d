import NetlistCompiler.Proofs.RegisterMoves

/-!
# Meeting a target period

A round of the search adds one to the lag of every vertex that is later than the target. A vertex
that is late after a round is the end of a register-free walk from a vertex that was late before
it, so late vertices form chains through the rounds. Measured against lags that meet the target,
the shortfall cannot shrink along a chain, so no vertex occurs on it twice. Hence no chain has more
vertices than the circuit, and all rounds but one less than the number of vertices change nothing.
Rounds stay below all lags that meet the target, so the lags that are found are the least ones.
The target is met in exact arithmetic; a search in an arithmetic that keeps the delays of paths finds
the same lags, and a search in any other still ends with legal lags or none.
-/

namespace NetlistCompiler

namespace Circuit

open WeightedGraph

variable {ν ε : Type} (c : Circuit ν ε) (a : Arithmetic) (target : Int)

/-- Lags for all vertices that are legal and lead to a clock period of at most the target. -/
structure Meets (lags : Array Int) : Prop where
  size : lags.size = c.graph.order
  legal : c.isLegal lags = true
  period : ∃ t, c.periodUnder .exact lags = .ok t ∧ t ≤ target

/-- Whether a register-free walk to a vertex takes longer than the target. -/
def Late (lags : Array Int) (v : Nat) : Prop :=
  ∃ u p, c.graph.IsWalk u p v ∧ (∀ e ∈ p, registersUnder lags e = 0) ∧
    target < c.graph.walkDelay p v

/-- One round of the search. -/
def raise (lags : Array Int) : Array Int :=
  match c.delaysUnder .exact lags with
  | .ok delays => lags.mapIdx fun v lag => if target < delays.getD v 0 then lag + 1 else lag
  | .error _ => lags

variable {c a target}

/-! ### One round -/

lemma late_iff {lags delays : Array Int} {v : Nat}
    (h : IsGreatest (arrivals c.graph (registersUnder lags) v) (delays.getD v 0)) :
    target < delays.getD v 0 ↔ c.Late target lags v := by
  constructor
  · intro hlt
    obtain ⟨u, p, hp, hfree, hdelay⟩ := h.1
    exact ⟨u, p, hp, hfree, hdelay ▸ hlt⟩
  · rintro ⟨u, p, hp, hfree, hlt⟩
    exact hlt.trans_le (h.2 ⟨u, p, hp, hfree, rfl⟩)

lemma size_raise (c : Circuit ν ε) (target : Int) (lags : Array Int) :
    (c.raise target lags).size = lags.size := by
  unfold raise
  split <;> simp

open Classical in
lemma getD_raise {lags : Array Int} (hsize : lags.size = c.graph.order) {v : Nat}
    (hv : v < c.graph.order) :
    (c.raise target lags).getD v 0 =
      lags.getD v 0 + if c.Late target lags v then 1 else 0 := by
  obtain ⟨delays, hok, _, hgreatest⟩ := c.delaysUnder_spec lags
  have hlate : target < delays.getD v 0 ↔ c.Late target lags v := late_iff (hgreatest v hv)
  have hv' : v < lags.size := hsize ▸ hv
  unfold raise
  rw [hok]
  simp only [Array.getD_eq_getD_getElem?, Array.getElem?_mapIdx, Array.getElem?_eq_getElem hv',
    Option.map_some, Option.getD_some]
  rw [Array.getD_eq_getD_getElem?] at hlate
  by_cases h : c.Late target lags v
  · rw [if_pos (hlate.mpr h), if_pos h]
  · rw [if_neg (fun h' => h (hlate.mp h')), if_neg h, add_zero]

lemma getD_raise_of_late {lags : Array Int} (hsize : lags.size = c.graph.order) {v : Nat}
    (h : c.Late target lags v) : (c.raise target lags).getD v 0 = lags.getD v 0 + 1 := by
  have hv : v < c.graph.order := by
    obtain ⟨u, p, hp, _, _⟩ := h
    exact hp.sink_lt
  rw [getD_raise hsize hv, if_pos h]

lemma getD_raise_of_not_late {lags : Array Int} (hsize : lags.size = c.graph.order) {v : Nat}
    (hv : v < c.graph.order) (h : ¬c.Late target lags v) :
    (c.raise target lags).getD v 0 = lags.getD v 0 := by
  rw [getD_raise hsize hv, if_neg h, add_zero]

/-- Whatever follows a late vertex without a register between them is late too. -/
lemma Late.of_edge {lags : Array Int} {e : Edge ε} (he : e ∈ c.graph.edges)
    (hfree : registersUnder lags e = 0) (h : c.Late target lags e.source) :
    c.Late target lags e.sink := by
  obtain ⟨u, p, hp, hfree', hlt⟩ := h
  refine ⟨u, p ++ [e], isWalk_concat.mpr ⟨hp, he, rfl⟩, ?_, ?_⟩
  · intro e' he'
    rcases List.mem_append.mp he' with he' | he'
    · exact hfree' e' he'
    · rw [List.mem_singleton.mp he']
      exact hfree
  · rw [walkDelay_concat]
    have := delayAt_nonneg c.delay_nonneg e.sink
    omega

lemma isLegal_raise {lags : Array Int} (hsize : lags.size = c.graph.order)
    (hlegal : c.isLegal lags = true) : c.isLegal (c.raise target lags) = true := by
  rw [isLegal_iff] at hlegal ⊢
  intro e he
  have hcount := hlegal e he
  have hsink : (c.raise target lags).getD e.sink 0 = _ := getD_raise hsize (sink_lt_of_mem he)
  have hsource : (c.raise target lags).getD e.source 0 = _ :=
    getD_raise hsize (source_lt_of_mem he)
  have hedge : registersUnder lags e = 0 → c.Late target lags e.source →
      c.Late target lags e.sink := Late.of_edge he
  unfold registersUnder at hcount hedge ⊢
  rw [hsink, hsource]
  split_ifs with h₁ h₂ h₂
  · omega
  · omega
  · have : e.weight + lags.getD e.sink 0 - lags.getD e.source 0 ≠ 0 := fun h => h₁ (hedge h h₂)
    omega
  · omega

/-- If a walk without registers takes too long after a round, its start was late before it. -/
lemma late_source_of_raise {lags : Array Int} (hsize : lags.size = c.graph.order)
    (hlegal : c.isLegal lags = true) {u v : Nat} {p : List (Edge ε)}
    (hp : c.graph.IsWalk u p v)
    (hfree : ∀ e ∈ p, registersUnder (c.raise target lags) e = 0)
    (hlt : target < c.graph.walkDelay p v) : c.Late target lags u := by
  by_contra hu
  have hsum := sum_registersUnder_nonneg hlegal hp
  have hzero : (p.map (registersUnder (c.raise target lags))).sum = 0 := sum_map_eq_zero hfree
  rw [sum_registersUnder hp, getD_raise_of_not_late hsize hp.source_lt hu] at hzero
  rw [sum_registersUnder hp] at hsum
  have hend : (c.raise target lags).getD v 0 = _ := getD_raise hsize hp.sink_lt
  -- the walk was free of registers before the round, so its end was late and has moved on
  have hfree' : ∀ e ∈ p, registersUnder lags e = 0 := by
    apply registersUnder_eq_zero hlegal hp
    rw [sum_registersUnder hp]
    split_ifs at hend <;> omega
  have hv := getD_raise_of_late hsize ⟨u, p, hp, hfree', hlt⟩
  omega

/-! ### All rounds -/

variable (c target) in
/-- The lags after some rounds. -/
def lagsAfter (rounds : Nat) : Array Int :=
  (c.raise target)^[rounds] c.noLags

lemma lagsAfter_succ (k : Nat) :
    c.lagsAfter target (k + 1) = c.raise target (c.lagsAfter target k) :=
  Function.iterate_succ_apply' _ _ _

lemma size_lagsAfter (k : Nat) : (c.lagsAfter target k).size = c.graph.order := by
  induction k with
  | zero => simp [lagsAfter, noLags]
  | succ k ih => rw [lagsAfter_succ, size_raise, ih]

lemma isLegal_lagsAfter (k : Nat) : c.isLegal (c.lagsAfter target k) = true := by
  induction k with
  | zero => exact c.isLegal_noLags
  | succ k ih =>
    rw [lagsAfter_succ]
    exact isLegal_raise (size_lagsAfter k) ih

lemma raise_eq_self {lags : Array Int} (hsize : lags.size = c.graph.order)
    (h : ∀ v, ¬c.Late target lags v) : c.raise target lags = lags := by
  apply Array.ext (size_raise c target lags)
  intro v hv hv'
  have := getD_raise_of_not_late hsize (hsize ▸ hv') (h v)
  simpa [Array.getD_eq_getD_getElem?, hv, hv'] using this

lemma catchUp_eq_iterate {lags : Array Int} (hsize : lags.size = c.graph.order) (rounds : Nat) :
    c.catchUp .exact target rounds lags = .ok ((c.raise target)^[rounds] lags) := by
  induction rounds generalizing lags with
  | zero => rfl
  | succ rounds ih =>
    obtain ⟨delays, hok, hdsize, hgreatest⟩ := c.delaysUnder_spec lags
    have hraise : c.raise target lags =
        lags.mapIdx fun v lag => if target < delays.getD v 0 then lag + 1 else lag := by
      unfold raise
      rw [hok]
    by_cases hany : (delays.any fun d => target < d) = true
    · have hnext := ih ((size_raise c target lags).trans hsize)
      rw [hraise] at hnext
      rw [Function.iterate_succ_apply, hraise, ← hnext, catchUp, hok]
      simp only [bind, Except.bind]
      rw [if_pos hany]
    · have hnone : ∀ v, ¬c.Late target lags v := by
        intro v hlate
        have hv : v < c.graph.order := by
          obtain ⟨u, p, hp, _, _⟩ := hlate
          exact hp.sink_lt
        apply hany
        have hv' : v < delays.size := hdsize ▸ hv
        have hlt := (late_iff (hgreatest v hv)).mpr hlate
        rw [Array.getD_eq_getD_getElem?, Array.getElem?_eq_getElem hv'] at hlt
        rw [Array.any_eq_true]
        exact ⟨v, hv', by simpa using hlt⟩
      have hfix := raise_eq_self hsize hnone
      rw [Function.iterate_fixed hfix, catchUp, hok]
      simp only [bind, Except.bind]
      rw [if_neg hany]
      rfl

lemma catchUp_noLags (rounds : Nat) :
    c.catchUp .exact target rounds c.noLags = .ok (c.lagsAfter target rounds) :=
  catchUp_eq_iterate (by simp [noLags]) rounds

lemma getD_lagsAfter_le {i j : Nat} (hij : i ≤ j) {v : Nat} (hv : v < c.graph.order) :
    (c.lagsAfter target i).getD v 0 ≤ (c.lagsAfter target j).getD v 0 := by
  induction j, hij using Nat.le_induction with
  | base => exact le_rfl
  | succ j _ ih =>
    rw [lagsAfter_succ, getD_raise (size_lagsAfter j) hv]
    split_ifs <;> omega

/-! ### Chains of late vertices -/

/-- Lags that meet the target put a register on every walk that takes too long. -/
lemma Meets.one_le_sum {lags : Array Int} (h : c.Meets target lags) {u v : Nat}
    {p : List (Edge ε)} (hp : c.graph.IsWalk u p v) (hlt : target < c.graph.walkDelay p v) :
    1 ≤ (p.map (registersUnder lags)).sum := by
  have hsum := sum_registersUnder_nonneg h.legal hp
  have hne : (p.map (registersUnder lags)).sum ≠ 0 := by
    intro hzero
    obtain ⟨t, ht, hle⟩ := h.period
    obtain ⟨t', ht', hperiod⟩ := c.periodUnder_spec lags
    rw [ht] at ht'
    cases ht'
    have hpos : 0 < c.graph.order := Nat.zero_lt_of_lt hp.sink_lt
    have := (hperiod.isGreatest hpos).2
      ⟨v, u, p, hp, registersUnder_eq_zero h.legal hp hzero, rfl⟩
    omega
  omega

/-- A chain of late vertices through the rounds. The shortfall against `ρ` does not shrink. -/
structure LateChain (c : Circuit ν ε) (target : Int) (ρ : Array Int) (k : Nat) (f : Nat → Nat) :
    Prop where
  late : ∀ i ≤ k, c.Late target (c.lagsAfter target i) (f (i + 1))
  inRange : ∀ i ≤ k + 1, f i < c.graph.order
  shortfall : ∀ i ≤ k, ρ.getD (f i) 0 - (c.lagsAfter target i).getD (f i) 0 ≤
    ρ.getD (f (i + 1)) 0 - (c.lagsAfter target (i + 1)).getD (f (i + 1)) 0

lemma shortfall_le {ρ lags : Array Int} (hρ : c.Meets target ρ)
    (hsize : lags.size = c.graph.order) {u v : Nat} {p : List (Edge ε)}
    (hp : c.graph.IsWalk u p v) (hfree : ∀ e ∈ p, registersUnder lags e = 0)
    (hlt : target < c.graph.walkDelay p v) :
    ρ.getD u 0 - lags.getD u 0 ≤ ρ.getD v 0 - (c.raise target lags).getD v 0 := by
  have hone := hρ.one_le_sum hp hlt
  rw [sum_registersUnder hp] at hone
  have hzero : (p.map (registersUnder lags)).sum = 0 := sum_map_eq_zero hfree
  rw [sum_registersUnder hp] at hzero
  rw [getD_raise_of_late hsize ⟨u, p, hp, hfree, hlt⟩]
  omega

lemma exists_lateChain {ρ : Array Int} (hρ : c.Meets target ρ) (k v : Nat)
    (hv : c.Late target (c.lagsAfter target k) v) :
    ∃ f, LateChain c target ρ k f ∧ f (k + 1) = v := by
  induction k generalizing v with
  | zero =>
    obtain ⟨u, p, hp, hfree, hlt⟩ := hv
    refine ⟨fun i => if i = 0 then u else v, ⟨?_, ?_, ?_⟩, rfl⟩
    · intro i hi
      rw [Nat.le_zero.mp hi]
      exact ⟨u, p, hp, hfree, hlt⟩
    · intro i _
      by_cases h : i = 0
      · simpa [h] using hp.source_lt
      · simpa [h] using hp.sink_lt
    · intro i hi
      rw [Nat.le_zero.mp hi, lagsAfter_succ]
      exact shortfall_le hρ (size_lagsAfter 0) hp hfree hlt
  | succ k ih =>
    obtain ⟨u, p, hp, hfree, hlt⟩ := hv
    have hfree' := hfree
    rw [lagsAfter_succ] at hfree'
    have hu := late_source_of_raise (size_lagsAfter k) (isLegal_lagsAfter k) hp hfree' hlt
    obtain ⟨f, hf, hfu⟩ := ih u hu
    have hne : ∀ i ≤ k + 1, i ≠ k + 2 := fun i hi => by omega
    refine ⟨fun i => if i = k + 2 then v else f i, ⟨?_, ?_, ?_⟩, by simp⟩
    · intro i hi
      by_cases h : i = k + 1
      · subst h
        simpa using ⟨u, p, hp, hfree, hlt⟩
      · have hi' : i ≤ k := by omega
        simpa [h] using hf.late i hi'
    · intro i hi
      by_cases h : i = k + 2
      · simpa [h] using hp.sink_lt
      · simpa [h] using hf.inRange i (by omega)
    · intro i hi
      by_cases h : i = k + 1
      · subst h
        simp only [hfu, if_true, if_neg (hne (k + 1) le_rfl)]
        rw [lagsAfter_succ (k + 1)]
        exact shortfall_le hρ (size_lagsAfter (k + 1)) hp hfree hlt
      · have hi' : i ≤ k := by omega
        simpa [h, hne i hi] using hf.shortfall i hi'

lemma LateChain.shortfall_mono {ρ : Array Int} {k : Nat} {f : Nat → Nat}
    (h : LateChain c target ρ k f) {i j : Nat} (hij : i ≤ j) (hj : j ≤ k + 1) :
    ρ.getD (f i) 0 - (c.lagsAfter target i).getD (f i) 0 ≤
      ρ.getD (f j) 0 - (c.lagsAfter target j).getD (f j) 0 := by
  induction j, hij using Nat.le_induction with
  | base => exact le_rfl
  | succ j _ ih => exact (ih (by omega)).trans (h.shortfall j (by omega))

lemma LateChain.ne {ρ : Array Int} {k : Nat} {f : Nat → Nat} (h : LateChain c target ρ k f)
    {i j : Nat} (hij : i < j) (hj : j ≤ k + 1) : f i ≠ f j := by
  intro heq
  obtain ⟨j, rfl⟩ : ∃ j', j = j' + 1 := ⟨j - 1, by omega⟩
  have hmono := h.shortfall_mono hij.le hj
  have hgrow : (c.lagsAfter target i).getD (f (j + 1)) 0 ≤ (c.lagsAfter target j).getD _ 0 :=
    getD_lagsAfter_le (Nat.lt_succ_iff.mp hij) (h.inRange (j + 1) hj)
  have hraise := getD_raise_of_late (size_lagsAfter j) (h.late j (by omega))
  rw [← lagsAfter_succ] at hraise
  rw [heq] at hmono
  omega

/-- If the target can be met, no vertex is late after all rounds. -/
theorem not_late_lagsAfter {ρ : Array Int} (hρ : c.Meets target ρ) {k : Nat}
    (hk : c.graph.order - 1 ≤ k) (v : Nat) : ¬c.Late target (c.lagsAfter target k) v := by
  intro hv
  obtain ⟨f, hf, _⟩ := exists_lateChain hρ k v hv
  let stop : Fin (k + 2) → Fin c.graph.order := fun i =>
    ⟨f i, hf.inRange i (Nat.lt_succ_iff.mp i.isLt)⟩
  have hcard : Fintype.card (Fin c.graph.order) < Fintype.card (Fin (k + 2)) := by
    simp only [Fintype.card_fin]
    omega
  obtain ⟨i, j, hne, heq⟩ := Fintype.exists_ne_map_eq_of_card_lt stop hcard
  have heq' : f i = f j := congrArg Fin.val heq
  rcases lt_or_gt_of_ne hne with hij | hij
  · exact hf.ne hij (Nat.lt_succ_iff.mp j.isLt) heq'
  · exact hf.ne hij (Nat.lt_succ_iff.mp i.isLt) heq'.symm

/-! ### The search -/

lemma meets_iff_not_late {lags : Array Int} (hsize : lags.size = c.graph.order)
    (hlegal : c.isLegal lags = true) (hpos : 0 < c.graph.order) :
    c.Meets target lags ↔ ∀ v, ¬c.Late target lags v := by
  obtain ⟨t, ht, hperiod⟩ := c.periodUnder_spec lags
  have hgreatest := hperiod.isGreatest hpos
  constructor
  · rintro h v ⟨u, p, hp, hfree, hlt⟩
    obtain ⟨t', ht', hle⟩ := h.period
    rw [ht] at ht'
    cases ht'
    have := hgreatest.2 ⟨v, u, p, hp, hfree, rfl⟩
    omega
  · intro h
    refine ⟨hsize, hlegal, t, ht, ?_⟩
    obtain ⟨v, u, p, hp, hfree, rfl⟩ := hgreatest.1
    by_contra hlt
    exact h v ⟨u, p, hp, hfree, not_le.mp hlt⟩

lemma Meets.lagsAfter {ρ : Array Int} (hρ : c.Meets target ρ) {k : Nat}
    (hk : c.graph.order - 1 ≤ k) : c.Meets target (c.lagsAfter target k) := by
  rcases Nat.eq_zero_or_pos c.graph.order with h0 | hpos
  · obtain ⟨t, ht, hperiod⟩ := c.periodUnder_spec (c.lagsAfter target k)
    obtain ⟨t', ht', hle⟩ := hρ.period
    obtain ⟨s, hs, hperiod'⟩ := c.periodUnder_spec ρ
    rw [hs] at ht'
    cases ht'
    refine ⟨size_lagsAfter k, isLegal_lagsAfter k, t, ht, ?_⟩
    rw [hperiod.empty h0, ← hperiod'.empty h0]
    exact hle
  · rw [meets_iff_not_late (size_lagsAfter k) (isLegal_lagsAfter k) hpos]
    exact not_late_lagsAfter hρ hk

lemma retimeFor_eq_some_of_meets {ρ : Array Int} (hρ : c.Meets target ρ) :
    c.retimeFor .exact target = .ok (some (c.lagsAfter target (c.graph.order - 1))) := by
  obtain ⟨t, ht, hle⟩ := (hρ.lagsAfter le_rfl).period
  unfold retimeFor
  rw [catchUp_noLags]
  simp only [bind, Except.bind]
  rw [if_pos (isLegal_lagsAfter _), ht]
  simp only
  rw [if_pos hle]
  rfl

lemma retimeFor_eq_none_of_not_meets (h : ¬∃ ρ, c.Meets target ρ) :
    c.retimeFor .exact target = .ok none := by
  let lags := c.lagsAfter target (c.graph.order - 1)
  obtain ⟨t, ht, _⟩ := c.periodUnder_spec lags
  have hgt : ¬t ≤ target := fun hle => h ⟨lags, size_lagsAfter _, isLegal_lagsAfter _, t, ht, hle⟩
  unfold retimeFor
  rw [catchUp_noLags]
  simp only [bind, Except.bind]
  rw [if_pos (isLegal_lagsAfter _), ht]
  simp only
  rw [if_neg hgt]
  rfl

/-! ### The search in any arithmetic -/

lemma FitsIn.catchUp_eq (h : c.FitsIn a) (rounds : Nat) (lags : Array Int) :
    c.catchUp a target rounds lags = c.catchUp .exact target rounds lags := by
  induction rounds generalizing lags with
  | zero => rfl
  | succ rounds ih => simp only [catchUp, h.delaysUnder_eq, ih]

lemma FitsIn.retimeFor_eq (h : c.FitsIn a) : c.retimeFor a target = c.retimeFor .exact target := by
  unfold retimeFor
  simp only [h.catchUp_eq, h.periodUnder_eq]

lemma exists_catchUp (c : Circuit ν ε) (a : Arithmetic) (target : Int) (rounds : Nat)
    (lags : Array Int) :
    ∃ lags', c.catchUp a target rounds lags = .ok lags' ∧ lags'.size = lags.size := by
  induction rounds generalizing lags with
  | zero => exact ⟨lags, rfl, rfl⟩
  | succ rounds ih =>
    obtain ⟨delays, hdelays⟩ := c.exists_delaysUnder a lags
    rw [catchUp, hdelays]
    simp only [bind, Except.bind]
    split
    · obtain ⟨lags', hok, hsize⟩ := ih
        (lags.mapIdx fun v lag => if target < delays.getD v 0 then lag + 1 else lag)
      exact ⟨lags', hok, hsize.trans (by simp)⟩
    · exact ⟨lags, rfl, rfl⟩

/-- Whatever becomes of the sums, the search does not fail, and lags that it finds are legal and have
the period that they were searched for. -/
lemma exists_retimeFor (c : Circuit ν ε) (a : Arithmetic) (target : Int) :
    ∃ result, c.retimeFor a target = .ok result ∧ ∀ lags, result = some lags →
      lags.size = c.graph.order ∧ c.isLegal lags = true ∧
      ∃ t, c.periodUnder a lags = .ok t ∧ t ≤ target := by
  obtain ⟨lags, hlags, hsize⟩ := c.exists_catchUp a target (c.graph.order - 1) c.noLags
  obtain ⟨t, ht⟩ := c.exists_periodUnder a lags
  unfold retimeFor
  rw [hlags]
  simp only [bind, Except.bind, ht]
  split
  · next hlegal =>
    split
    · next hle =>
      refine ⟨some lags, rfl, ?_⟩
      rintro _ ⟨⟩
      exact ⟨hsize.trans (by simp [noLags]), hlegal, t, ht, hle⟩
    · exact ⟨none, rfl, by simp⟩
  · exact ⟨none, rfl, by simp⟩

/-- Lags that have the period already are not changed. -/
lemma catchUp_eq_self {c : Circuit ν ε} {a : Arithmetic} {target t : Int} {lags : Array Int}
    (h : c.periodUnder a lags = .ok t) (hle : t ≤ target) (rounds : Nat) :
    c.catchUp a target rounds lags = .ok lags := by
  cases rounds with
  | zero => rfl
  | succ rounds =>
    obtain ⟨delays, hdelays⟩ := c.exists_delaysUnder a lags
    rw [periodUnder, hdelays] at h
    obtain rfl : largest delays.toList = t := Except.ok.inj h
    have hany : (delays.any fun d => target < d) = false := by
      rw [Array.any_eq_false]
      intro i hi hlate
      have hlargest := le_largest (Array.mem_toList_iff.mpr (Array.getElem_mem hi))
      have := of_decide_eq_true hlate
      omega
    rw [catchUp, hdelays]
    simp only [bind, Except.bind, hany]
    rfl

/-- A period that is met as it is moves no register. -/
lemma retimeFor_of_period_le {c : Circuit ν ε} {a : Arithmetic} {initial target : Int}
    (h : c.period a = .ok initial) (hle : initial ≤ target) :
    c.retimeFor a target = .ok (some c.noLags) := by
  rw [← periodUnder_noLags] at h
  unfold retimeFor
  rw [catchUp_eq_self h hle]
  simp only [bind, Except.bind, isLegal_noLags, h]
  rw [if_pos hle]
  rfl

/-- Whatever becomes of the sums, the lags that the search finds do not make the period longer. -/
lemma period_le_of_retimeFor {c : Circuit ν ε} {a : Arithmetic} {initial target t : Int}
    {lags : Array Int} (hinitial : c.period a = .ok initial)
    (hlags : c.retimeFor a target = .ok (some lags)) (ht : c.periodUnder a lags = .ok t) :
    t ≤ initial := by
  rcases le_or_gt initial target with hle | hlt
  · rw [retimeFor_of_period_le hinitial hle] at hlags
    cases hlags
    rw [periodUnder_noLags, hinitial] at ht
    cases ht
    exact le_rfl
  · obtain ⟨result, hresult, hspec⟩ := c.exists_retimeFor a target
    rw [hlags] at hresult
    cases hresult
    obtain ⟨-, -, t', ht', hle⟩ := hspec lags rfl
    rw [ht] at ht'
    cases ht'
    omega

/-- The search for a target never fails, and it finds lags exactly if there are any that meet the
target. The lags after every round are legal, so that delays can be computed again, and all rounds
after the first `order - 1` change nothing if the target can be met. -/
theorem retimeFor_decides (c : Circuit ν ε) (a : Arithmetic) (h : c.FitsIn a) (target : Int) :
    (∃ result, c.retimeFor a target = .ok result ∧
      (result.isSome ↔ ∃ lags, c.Meets target lags) ∧
      ∀ lags, result = some lags → c.Meets target lags) ∧
    (∀ rounds, ∃ lags delays, c.catchUp a target rounds c.noLags = .ok lags ∧
      c.isLegal lags = true ∧ c.delaysUnder a lags = .ok delays) ∧
    ((∃ lags, c.Meets target lags) → ∀ rounds, c.graph.order - 1 ≤ rounds →
      c.catchUp a target rounds c.noLags = c.catchUp a target (c.graph.order - 1) c.noLags) := by
  simp only [h.retimeFor_eq, h.catchUp_eq, h.delaysUnder_eq]
  refine ⟨?_, ?_, ?_⟩
  · by_cases h : ∃ lags, c.Meets target lags
    · obtain ⟨ρ, hρ⟩ := h
      refine ⟨_, retimeFor_eq_some_of_meets hρ, ?_, ?_⟩
      · exact ⟨fun _ => ⟨ρ, hρ⟩, fun _ => rfl⟩
      · intro lags hlags
        cases hlags
        exact hρ.lagsAfter le_rfl
    · refine ⟨none, retimeFor_eq_none_of_not_meets h, ?_, ?_⟩
      · exact ⟨fun h' => by simp at h', fun h' => absurd h' h⟩
      · intro lags hlags
        cases hlags
  · intro rounds
    obtain ⟨delays, hok, _, _⟩ := c.delaysUnder_spec (c.lagsAfter target rounds)
    exact ⟨_, delays, catchUp_noLags rounds, isLegal_lagsAfter rounds, hok⟩
  · rintro ⟨ρ, hρ⟩ rounds hrounds
    rw [catchUp_noLags, catchUp_noLags]
    induction rounds, hrounds using Nat.le_induction with
    | base => rfl
    | succ k hk ih =>
      rw [lagsAfter_succ, raise_eq_self (size_lagsAfter k) (not_late_lagsAfter hρ hk)]
      exact ih

/-- The ring can be brought to a period of 7, that of its slow vertex alone, but not to less. -/
theorem retimeFor_decides_ring :
    ring.retimeFor .word 7 = .ok (some #[0, 1]) ∧ ring.Meets 7 #[0, 1] ∧
      ring.retimeFor .word 6 = .ok none ∧ ¬∃ lags, ring.Meets 6 lags := by
  obtain ⟨⟨found, hfound, -, hmeets⟩, -⟩ := ring.retimeFor_decides .word (fitsIn_ring .word) 7
  obtain ⟨⟨missing, hmissing, hnone, -⟩, -⟩ := ring.retimeFor_decides .word (fitsIn_ring .word) 6
  have hseven : ring.retimeFor .word 7 = .ok (some #[0, 1]) := by decide +kernel
  have hsix : ring.retimeFor .word 6 = .ok none := by decide +kernel
  rw [hseven] at hfound
  rw [hsix] at hmissing
  cases hfound
  cases hmissing
  exact ⟨hseven, hmeets _ rfl, hsix, fun h => by simpa using hnone.mpr h⟩

/-! ### The least lags -/

lemma getD_lagsAfter_zero (v : Nat) : (c.lagsAfter target 0).getD v 0 = 0 := by
  simp only [lagsAfter, Function.iterate_zero, id_eq, noLags, Array.getD_eq_getD_getElem?,
    Array.getElem?_replicate]
  split <;> rfl

/-- A round adds at most one to a lag. -/
lemma getD_lagsAfter_mem_Icc (k : Nat) {v : Nat} (hv : v < c.graph.order) :
    (c.lagsAfter target k).getD v 0 ∈ Set.Icc 0 (k : Int) := by
  induction k with
  | zero =>
    rw [getD_lagsAfter_zero]
    exact ⟨le_rfl, le_rfl⟩
  | succ k ih =>
    obtain ⟨hlower, hupper⟩ := ih
    rw [lagsAfter_succ, getD_raise (size_lagsAfter k) hv]
    constructor
    · split_ifs <;> omega
    · push_cast
      split_ifs <;> omega

/-- No round goes beyond lags that meet the target: a vertex is only late at the end of a walk that
such lags put a register on, and the lag at the start of the walk is not yet beyond them. -/
lemma getD_lagsAfter_le_of_meets {ρ : Array Int} (hρ : c.Meets target ρ)
    (hnonneg : ∀ v < c.graph.order, 0 ≤ ρ.getD v 0) (k : Nat) {v : Nat} (hv : v < c.graph.order) :
    (c.lagsAfter target k).getD v 0 ≤ ρ.getD v 0 := by
  induction k generalizing v with
  | zero =>
    rw [getD_lagsAfter_zero]
    exact hnonneg v hv
  | succ k ih =>
    rw [lagsAfter_succ]
    by_cases hlate : c.Late target (c.lagsAfter target k) v
    · obtain ⟨u, p, hp, hfree, hlt⟩ := hlate
      have hshortfall := shortfall_le hρ (size_lagsAfter k) hp hfree hlt
      have hu := ih hp.source_lt
      omega
    · rw [getD_raise_of_not_late (size_lagsAfter k) hv hlate]
      exact ih hv

lemma eq_lagsAfter_of_retimeFor {lags : Array Int} (h : c.retimeFor .exact target = .ok (some lags)) :
    lags = c.lagsAfter target (c.graph.order - 1) ∧ c.Meets target lags := by
  by_cases hmeets : ∃ ρ, c.Meets target ρ
  · obtain ⟨ρ, hρ⟩ := hmeets
    rw [retimeFor_eq_some_of_meets hρ] at h
    cases h
    exact ⟨rfl, hρ.lagsAfter le_rfl⟩
  · rw [retimeFor_eq_none_of_not_meets hmeets] at h
    cases h

/-- The lags that the search finds are the least among all non-negative lags that meet the target,
and none of them is as large as the number of vertices. -/
theorem retimeFor_least (hfit : c.FitsIn a) {lags : Array Int}
    (h : c.retimeFor a target = .ok (some lags)) :
    c.Meets target lags ∧
      (∀ v < c.graph.order, 0 ≤ lags.getD v 0 ∧ lags.getD v 0 ≤ (c.graph.order : Int) - 1) ∧
      ∀ ρ, c.Meets target ρ → (∀ v < c.graph.order, 0 ≤ ρ.getD v 0) →
        ∀ v < c.graph.order, lags.getD v 0 ≤ ρ.getD v 0 := by
  rw [hfit.retimeFor_eq] at h
  obtain ⟨rfl, hmeets⟩ := eq_lagsAfter_of_retimeFor h
  refine ⟨hmeets, ?_, ?_⟩
  · intro v hv
    have hlag : (c.lagsAfter target (c.graph.order - 1)).getD v 0 ∈
        Set.Icc 0 ((c.graph.order - 1 : Nat) : Int) :=
      getD_lagsAfter_mem_Icc _ hv
    exact ⟨hlag.1, by have hle := hlag.2; omega⟩
  · intro ρ hρ hnonneg v hv
    exact getD_lagsAfter_le_of_meets hρ hnonneg (c.graph.order - 1) hv

/-- The ring has a period of 7 if a register is moved to the front of the slow vertex. Lags of 3 and
4 have the same effect, and lags of 0 and 1 are the least that do. -/
theorem retimeFor_least_ring :
    ring.retimeFor .word 7 = .ok (some #[0, 1]) ∧ ring.Meets 7 #[3, 4] ∧ ring.Meets 7 #[0, 1] ∧
      ∀ v < 2, (#[0, 1] : Array Int).getD v 0 ≤ (#[3, 4] : Array Int).getD v 0 := by
  have hfound : ring.retimeFor .word 7 = .ok (some #[0, 1]) := by decide +kernel
  have hmeets : ring.Meets 7 #[3, 4] :=
    ⟨rfl, by decide +kernel, 7, by decide +kernel, le_rfl⟩
  obtain ⟨hself, _, hleast⟩ := retimeFor_least (fitsIn_ring .word) hfound
  exact ⟨hfound, hmeets, hself, hleast _ hmeets (by decide +kernel)⟩

end Circuit

end NetlistCompiler
