import NetlistCompiler.Proofs.Feasibility
import NetlistCompiler.Proofs.PossiblePeriods

/-!
# The least clock period

The candidates are searched by bisection, which needs that a longer period can be met whenever a
shorter one can. The period of every legal retiming is a candidate that can be met, so the least
candidate that can be met is the least period of all legal retimings. What the search finds out on
its way is remembered, and the lags of the least candidate are always among it.
-/

namespace NetlistCompiler

namespace Circuit

open WeightedGraph

variable {ν ε : Type} {c : Circuit ν ε} {a : Arithmetic}

lemma Meets.mono {s t : Int} {lags : Array Int} (h : c.Meets s lags) (hst : s ≤ t) :
    c.Meets t lags := by
  obtain ⟨p, hp, hle⟩ := h.period
  exact ⟨h.size, h.legal, p, hp, hle.trans hst⟩

/-! ### What is remembered -/

/-- Whether there are lags to be found for a target. -/
def Finds (c : Circuit ν ε) (a : Arithmetic) (target : Int) : Prop :=
  ∃ lags, c.retimeFor a target = .ok (some lags)

/-- Every entry is what the search for its target finds. -/
def Remembers (c : Circuit ν ε) (a : Arithmetic) (memo : Memo) : Prop :=
  ∀ target found, memo.lookup target = some found → c.retimeFor a target = .ok found

lemma Search.run_bind_of_ok {α β : Type} {x : Search α} {f : α → Search β} {memo memo' : Memo}
    {v : α} (h : x.run memo = .ok (v, memo')) : (x >>= f).run memo = (f v).run memo' := by
  rw [StateT.run_bind, h]
  rfl

lemma feasible_spec {memo : Memo} (h : c.Remembers a memo) (target : Int) :
    ∃ found memo', c.retimeFor a target = .ok found ∧
      (c.feasible a target).run memo = .ok (found.isSome, memo') ∧ c.Remembers a memo' ∧
      memo'.lookup target = some found := by
  obtain ⟨found, hfound, -⟩ := c.exists_retimeFor a target
  cases hlookup : memo.lookup target with
  | some known =>
    have hknown := h target known hlookup
    rw [hfound] at hknown
    cases hknown
    refine ⟨found, memo, hfound, ?_, h, hlookup⟩
    rw [feasible, StateT.run_bind, StateT.run_get]
    simp only [pure_bind, hlookup]
    rfl
  | none =>
    refine ⟨found, (target, found) :: memo, hfound, ?_, ?_, by simp⟩
    · rw [feasible, StateT.run_bind, StateT.run_get]
      simp only [pure_bind, hlookup, hfound]
      rfl
    · intro t known hknown
      rw [List.lookup_cons] at hknown
      split at hknown
      · next heq =>
        cases hknown
        rw [beq_iff_eq.mp heq, hfound]
      · exact h t known hknown

/-! ### Bisection -/

/-- There is nothing to be found for the candidates below a place, but for those from it on. -/
structure Splits (c : Circuit ν ε) (a : Arithmetic) (candidates : Array Int) (low high : Nat) :
    Prop where
  below : ∀ i < low, ¬c.Finds a (candidates.getD i 0)
  above : ∀ i, high ≤ i → i < candidates.size → c.Finds a (candidates.getD i 0)

/-- Whether something is found for every candidate after one for which something is found. -/
def FindsUpwards (c : Circuit ν ε) (a : Arithmetic) (candidates : Array Int) : Prop :=
  ∀ i j, i ≤ j → j < candidates.size → c.Finds a (candidates.getD i 0) →
    c.Finds a (candidates.getD j 0)

lemma searchPeriod_spec (candidates : Array Int) {low high : Nat} (hle : low ≤ high)
    {memo : Memo} (hmemo : c.Remembers a memo) :
    ∃ k memo', (c.searchPeriod a candidates low high).run memo = .ok (k, memo') ∧
      c.Remembers a memo' ∧
      (c.FindsUpwards a candidates → high ≤ candidates.size → Splits c a candidates low high →
        Splits c a candidates k k) := by
  induction hn : high - low using Nat.strong_induction_on generalizing low high memo with
  | _ n ih =>
    rw [searchPeriod]
    by_cases hlt : low < high
    · let middle := low + (high - low) / 2
      have hmiddle : low ≤ middle ∧ middle < high := by
        simp only [middle]
        omega
      obtain ⟨found, memo₁, hfound, hrun, hmemo₁, -⟩ :=
        feasible_spec hmemo (candidates.getD middle 0)
      rw [if_pos hlt]
      cases found with
      | some lags =>
        obtain ⟨k, memo₂, hk, hmemo₂, hsplits⟩ :=
          ih (middle - low) (by omega) hmiddle.1 hmemo₁ rfl
        refine ⟨k, memo₂, ?_, hmemo₂, ?_⟩
        · rw [Search.run_bind_of_ok hrun]
          exact hk
        · intro hup hhigh h
          refine hsplits hup (by omega) ⟨h.below, ?_⟩
          intro i hi hsize
          exact hup middle i hi hsize ⟨lags, hfound⟩
      | none =>
        obtain ⟨k, memo₂, hk, hmemo₂, hsplits⟩ :=
          ih (high - (middle + 1)) (by omega) (by omega) hmemo₁ rfl
        refine ⟨k, memo₂, ?_, hmemo₂, ?_⟩
        · rw [Search.run_bind_of_ok hrun]
          exact hk
        · intro hup hhigh h
          refine hsplits hup hhigh ⟨?_, h.above⟩
          intro i hi hfinds
          obtain ⟨lags, hlags⟩ := hup i middle (by omega) (by omega) hfinds
          rw [hfound] at hlags
          cases hlags
    · have heq : low = high := by omega
      rw [if_neg hlt]
      exact ⟨low, memo, rfl, hmemo, fun _ _ h => ⟨h.below, heq ▸ h.above⟩⟩

/-- What is found is remembered. If longer periods can be met whenever shorter ones can, it is the
least candidate that can be met. -/
lemma leastFeasible_spec (c : Circuit ν ε) (a : Arithmetic) (candidates : Array Int) :
    ∃ best memo, (c.leastFeasible a candidates).run [] = .ok (best, memo) ∧
      (∀ t, best = some t → ∃ lags, c.retimeFor a t = .ok (some lags) ∧
        memo.lookup t = some (some lags) ∧
        (c.FindsUpwards a candidates →
          ∃ k < candidates.size, t = candidates.getD k 0 ∧ Splits c a candidates k k)) ∧
      (best = none → c.FindsUpwards a candidates →
        ¬∃ i < candidates.size, c.Finds a (candidates.getD i 0)) := by
  have hnothing : c.Remembers a [] := fun _ _ h => by cases h
  have hstart : Splits c a candidates 0 candidates.size :=
    ⟨fun i hi => by omega, fun i hi hi' => by omega⟩
  obtain ⟨k, memo, hk, hmemo, hsplits⟩ := searchPeriod_spec candidates (Nat.zero_le _) hnothing
  have hsplits' := fun hup => hsplits hup le_rfl hstart
  by_cases hlt : k < candidates.size
  · have hget : candidates[k]? = some (candidates.getD k 0) := by
      rw [Array.getD_eq_getD_getElem?, Array.getElem?_eq_getElem hlt]
      rfl
    obtain ⟨found, memo', hfound, hrun, -, hlookup⟩ := feasible_spec hmemo (candidates.getD k 0)
    cases found with
    | some lags =>
      refine ⟨some (candidates.getD k 0), memo', ?_, ?_, by simp⟩
      · rw [leastFeasible, Search.run_bind_of_ok hk]
        simp only [hget]
        rw [Search.run_bind_of_ok hrun]
        rfl
      · rintro _ ⟨⟩
        exact ⟨lags, hfound, hlookup, fun hup => ⟨k, hlt, rfl, hsplits' hup⟩⟩
    | none =>
      refine ⟨none, memo', ?_, by simp, ?_⟩
      · rw [leastFeasible, Search.run_bind_of_ok hk]
        simp only [hget]
        rw [Search.run_bind_of_ok hrun]
        rfl
      · intro _ hup
        obtain ⟨lags, hlags⟩ := (hsplits' hup).above k le_rfl hlt
        rw [hfound] at hlags
        cases hlags
  · have hget : candidates[k]? = none := Array.getElem?_eq_none (not_lt.mp hlt)
    refine ⟨none, memo, ?_, by simp, ?_⟩
    · rw [leastFeasible, Search.run_bind_of_ok hk]
      simp only [hget]
      rfl
    · rintro _ hup ⟨i, hi, hfinds⟩
      exact (hsplits' hup).below i (by omega) hfinds

/-! ### Outcomes -/

/-- What minimizing can come to, whatever becomes of the sums: the circuit as it is if there is no
candidate, the circuit under lags that are found for a candidate, the least one if the search can
rely on longer periods, or a failure because the search has come to no candidate. In particular the
lags are never missing from what is remembered, and they do not make the period longer. -/
theorem minimizePeriod_outcomes (c : Circuit ν ε) (a : Arithmetic) :
    ∃ initial, c.period a = .ok initial ∧
      (c.possiblePeriods a = [] ∧ c.minimizePeriod a = .ok ⟨c, #[], initial, initial⟩ ∨
      c.possiblePeriods a ≠ [] ∧
        ((∃ best lags c' t, c.retimeFor a best = .ok (some lags) ∧ c.retime lags = .ok c' ∧
          c'.period a = .ok t ∧ t ≤ initial ∧ c.minimizePeriod a = .ok ⟨c', lags, initial, t⟩ ∧
          (c.FindsUpwards a (c.possiblePeriods a).toArray →
            ∃ k < (c.possiblePeriods a).toArray.size,
              best = (c.possiblePeriods a).toArray.getD k 0 ∧
              Splits c a (c.possiblePeriods a).toArray k k)) ∨
        c.minimizePeriod a = .error (.internal
            s!"no clock period among {(c.possiblePeriods a).toArray.size} candidates is achievable") ∧
          (c.FindsUpwards a (c.possiblePeriods a).toArray →
            ¬∃ i < (c.possiblePeriods a).toArray.size,
              c.Finds a ((c.possiblePeriods a).toArray.getD i 0)))) := by
  obtain ⟨initial, hinitial⟩ := c.exists_periodUnder a c.noLags
  rw [periodUnder_noLags] at hinitial
  refine ⟨initial, hinitial, ?_⟩
  by_cases hempty : c.possiblePeriods a = []
  · left
    refine ⟨hempty, ?_⟩
    rw [minimizePeriod, hinitial, hempty]
    rfl
  · refine .inr ⟨hempty, ?_⟩
    have hne : (c.possiblePeriods a).toArray.isEmpty = false := by simpa using hempty
    obtain ⟨best, memo, hrun, hbest, hnone⟩ :=
      c.leastFeasible_spec a (c.possiblePeriods a).toArray
    cases best with
    | none =>
      refine .inr ⟨?_, hnone rfl⟩
      rw [minimizePeriod, hinitial]
      simp only [bind, Except.bind, hne, Bool.false_eq_true, if_false]
      rw [hrun]
      rfl
    | some best =>
      obtain ⟨lags, hlags, hlookup, hleast⟩ := hbest best rfl
      obtain ⟨result, hresult, hspec⟩ := c.exists_retimeFor a best
      rw [hlags] at hresult
      cases hresult
      obtain ⟨-, hlegal, t, ht, -⟩ := hspec lags rfl
      obtain ⟨c', hc', -, hperiod⟩ := retime_spec hlegal
      have ht' : c'.period a = .ok t := (hperiod a).trans ht
      refine .inl ⟨best, lags, c', t, hlags, hc', ht', period_le_of_retimeFor hinitial hlags ht, ?_,
        hleast⟩
      have hjoin : (memo.lookup best).join = some lags := by rw [hlookup]; rfl
      rw [minimizePeriod, hinitial]
      simp only [bind, Except.bind, hne, Bool.false_eq_true, if_false]
      rw [hrun]
      simp only [hjoin, hc', ht']
      rfl

/-! ### Sums that fit -/

lemma FitsIn.finds_iff (h : c.FitsIn a) {target : Int} :
    c.Finds a target ↔ ∃ lags, c.Meets target lags := by
  unfold Finds
  rw [h.retimeFor_eq]
  constructor
  · rintro ⟨lags, hlags⟩
    exact ⟨lags, (eq_lagsAfter_of_retimeFor hlags).2⟩
  · rintro ⟨ρ, hρ⟩
    exact ⟨_, retimeFor_eq_some_of_meets hρ⟩

lemma getD_possiblePeriods_mono (c : Circuit ν ε) (a : Arithmetic) {i j : Nat} (hij : i ≤ j)
    (hj : j < (c.possiblePeriods a).toArray.size) :
    (c.possiblePeriods a).toArray.getD i 0 ≤ (c.possiblePeriods a).toArray.getD j 0 := by
  rw [List.size_toArray] at hj
  simp only [Array.getD_eq_getD_getElem?, List.getElem?_toArray, List.getElem?_eq_getElem hj,
    List.getElem?_eq_getElem (hij.trans_lt hj), Option.getD_some]
  rcases hij.lt_or_eq with hlt | rfl
  · exact
      (List.pairwise_iff_getElem.mp (c.possiblePeriods_sorted a) i j (hij.trans_lt hj) hj hlt).le
  · exact le_rfl

lemma FitsIn.findsUpwards (h : c.FitsIn a) : c.FindsUpwards a (c.possiblePeriods a).toArray := by
  intro i j hij hj hfinds
  rw [h.finds_iff] at hfinds ⊢
  obtain ⟨lags, hlags⟩ := hfinds
  exact ⟨lags, hlags.mono (c.getD_possiblePeriods_mono a hij hj)⟩

/-- Legal lags meet their own period, which is a candidate. -/
lemma FitsIn.exists_candidate (h : c.FitsIn a) {lags : Array Int}
    (hsize : lags.size = c.graph.order) (hlegal : c.isLegal lags = true)
    (hpos : 0 < c.graph.order) :
    ∃ t i, c.periodUnder .exact lags = .ok t ∧ i < (c.possiblePeriods a).toArray.size ∧
      (c.possiblePeriods a).toArray.getD i 0 = t ∧ c.Meets t lags := by
  obtain ⟨t, ht, hperiod⟩ := c.periodUnder_spec lags
  obtain ⟨i, hi, heq⟩ := List.getElem_of_mem (hperiod.mem_possiblePeriods hlegal hpos)
  rw [h.possiblePeriods_eq]
  refine ⟨t, i, ht, by simpa using hi, ?_, hsize, hlegal, t, ht, le_rfl⟩
  rw [← heq]
  simp [Array.getD_eq_getD_getElem?, hi]

lemma reweight_registersUnder_empty (g : WeightedGraph ν ε) :
    g.reweight (registersUnder #[]) = g := by
  have hweight : ∀ e : Edge ε, registersUnder #[] e = e.weight := by
    intro e
    simp [registersUnder]
  have hedges : g.edges.map (fun e => { e with weight := registersUnder #[] e }) = g.edges := by
    simp only [hweight]
    exact Array.map_id _
  unfold reweight
  cases g
  simp only at hedges
  simp only [hedges]

/-- Where the target is met as it is, no register is moved. -/
lemma lagsAfter_eq_noLags {target : Int} (hpos : 0 < c.graph.order) (h : c.Meets target c.noLags)
    (k : Nat) : c.lagsAfter target k = c.noLags := by
  induction k with
  | zero => rfl
  | succ k ih =>
    rw [lagsAfter_succ, ih]
    exact raise_eq_self h.size ((meets_iff_not_late h.size h.legal hpos).mp h)

lemma FitsIn.minimizePeriod_of_empty (h : c.FitsIn a) (h0 : c.graph.order = 0) {initial : Int}
    (hinitial : c.period .exact = .ok initial) :
    c.minimizePeriod a = .ok ⟨c, #[], initial, initial⟩ := by
  unfold minimizePeriod
  rw [h.period_eq, hinitial, h.possiblePeriods_eq, possiblePeriods_eq_nil_iff.mpr h0]
  rfl

/-- The search ends with lags for the least candidate that can be met. -/
lemma FitsIn.minimizePeriod_of_pos (h : c.FitsIn a) (hpos : 0 < c.graph.order) {initial : Int}
    (hinitial : c.period .exact = .ok initial) :
    ∃ best c' lags t, c.minimizePeriod a = .ok ⟨c', lags, initial, t⟩ ∧ c.retime lags = .ok c' ∧
      c.retimeFor .exact best = .ok (some lags) ∧ c.periodUnder .exact lags = .ok t ∧
      ∀ ρ s, c.Meets s ρ → best ≤ s := by
  have hsize : c.noLags.size = c.graph.order := by simp [noLags]
  obtain ⟨initial', hinitial', hempty | ⟨-, hfound | ⟨-, hnone⟩⟩⟩ := c.minimizePeriod_outcomes a
  · rw [h.possiblePeriods_eq, possiblePeriods_eq_nil_iff] at hempty
    omega
  · obtain ⟨best, lags, c', t, hlags, hc', ht, -, hok, hleast⟩ := hfound
    obtain ⟨k, hk, rfl, hsplits⟩ := hleast h.findsUpwards
    rw [h.period_eq, hinitial] at hinitial'
    cases hinitial'
    obtain ⟨hlegal, hgraph⟩ := graph_of_retime hc'
    refine ⟨_, c', lags, t, hok, hc', h.retimeFor_eq ▸ hlags, ?_, ?_⟩
    · rw [← h.periodUnder_eq, ← ht, periodUnder, period, delays_of_reweight hgraph]
    · intro ρ s hρ
      obtain ⟨u, i, hu, hi, rfl, hcandidate⟩ := h.exists_candidate hρ.size hρ.legal hpos
      obtain ⟨u', hu', hle⟩ := hρ.period
      rw [hu] at hu'
      cases hu'
      have hki : k ≤ i := by
        by_contra hlt
        exact hsplits.below i (by omega) (h.finds_iff.mpr ⟨ρ, hcandidate⟩)
      exact (c.getD_possiblePeriods_mono a hki hi).trans hle
  · -- the present period is met without moving any register, so that some candidate is met
    obtain ⟨_, i, _, hi, rfl, hmeets⟩ := h.exists_candidate hsize c.isLegal_noLags hpos
    exact absurd ⟨i, hi, h.finds_iff.mpr ⟨_, hmeets⟩⟩ (hnone h.findsUpwards)

/-- Minimizing succeeds, with lags that lead to the least period that can be met. If this is the
present one, no register is moved. -/
lemma FitsIn.exists_minimized (h : c.FitsIn a) {initial : Int}
    (hinitial : c.period .exact = .ok initial) :
    ∃ c' lags t, c.minimizePeriod a = .ok ⟨c', lags, initial, t⟩ ∧ c.retime lags = .ok c' ∧
      c.Meets t lags ∧ c.periodUnder .exact lags = .ok t ∧ (∀ ρ s, c.Meets s ρ → t ≤ s) ∧
      (c.Meets t c.noLags → lags = c.noLags) := by
  rcases Nat.eq_zero_or_pos c.graph.order with h0 | hpos
  · have hempty : c.noLags = #[] := by simp [noLags, h0]
    have hperiod : c.periodUnder .exact #[] = .ok initial := by
      rw [← hinitial, ← periodUnder_noLags, hempty]
    have hlegal : c.isLegal #[] = true := hempty ▸ c.isLegal_noLags
    obtain ⟨c', hretime, hgraph, -⟩ := retime_spec hlegal
    have hsame : c' = c := by
      cases c'
      cases c
      simpa [reweight_registersUnder_empty] using hgraph
    refine ⟨c, #[], initial, h.minimizePeriod_of_empty h0 hinitial, hsame ▸ hretime,
      ⟨h0.symm, hlegal, initial, hperiod, le_rfl⟩, hperiod, ?_, fun _ => hempty.symm⟩
    intro ρ s hρ
    obtain ⟨t, ht, hle⟩ := hρ.period
    obtain rfl : ρ = #[] := Array.eq_empty_of_size_eq_zero (hρ.size.trans h0)
    rw [hperiod] at ht
    cases ht
    exact hle
  · obtain ⟨best, c', lags, t, hok, hc', hlags, ht, hleast⟩ := h.minimizePeriod_of_pos hpos hinitial
    have hmeets := (eq_lagsAfter_of_retimeFor hlags).2
    have hself : c.Meets t lags := ⟨hmeets.size, hmeets.legal, t, ht, le_rfl⟩
    obtain rfl : best = t := by
      obtain ⟨t', ht', hle⟩ := hmeets.period
      rw [ht] at ht'
      cases ht'
      exact le_antisymm (hleast _ _ hself) hle
    refine ⟨c', lags, best, hok, hc', hself, ht, hleast, ?_⟩
    intro hstill
    rw [retimeFor_eq_some_of_meets hstill, lagsAfter_eq_noLags hpos hstill] at hlags
    cases hlags
    rfl

/-- Minimizing the clock period always succeeds in an arithmetic that keeps the delays of paths. The
result is the circuit under legal lags, with its clock period and the one before, and no legal lags
lead to a shorter one. -/
theorem minimizePeriod_optimal (c : Circuit ν ε) (a : Arithmetic) (h : c.FitsIn a) :
    ∃ result, c.minimizePeriod a = .ok result ∧
      result.lags.size = c.graph.order ∧ c.isLegal result.lags = true ∧
      result.circuit.graph = c.graph.reweight (registersUnder result.lags) ∧
      c.period a = .ok result.initialPeriod ∧ result.circuit.period a = .ok result.period ∧
      ∀ lags, lags.size = c.graph.order → c.isLegal lags = true →
        ∃ t, c.periodUnder a lags = .ok t ∧ result.period ≤ t := by
  obtain ⟨initial, hinitial, -⟩ := c.period_spec
  obtain ⟨c', lags, t, hok, hc', hmeets, ht, hleast, -⟩ := h.exists_minimized hinitial
  obtain ⟨hlegal, hgraph⟩ := graph_of_retime hc'
  refine ⟨_, hok, hmeets.size, hlegal, hgraph, h.period_eq.trans hinitial, ?_, ?_⟩
  · rw [period, delays_of_reweight hgraph, h.delaysUnder_eq]
    exact ht
  · intro ρ hsize hρ
    obtain ⟨s, hs, -⟩ := c.periodUnder_spec ρ
    exact ⟨s, (h.periodUnder_eq ρ).trans hs, hleast ρ s ⟨hsize, hρ, s, hs, le_rfl⟩⟩

/-- The least period of the ring is that of its slow vertex alone. -/
theorem minimizePeriod_optimal_ring :
    ∃ result, ring.minimizePeriod .word = .ok result ∧ result.initialPeriod = 10 ∧
      result.circuit.period .word = .ok result.period ∧ result.period ≤ 7 := by
  obtain ⟨result, hok, -, -, -, hinitial, hperiod, hleast⟩ :=
    ring.minimizePeriod_optimal .word (fitsIn_ring .word)
  have hten : ring.period .word = .ok 10 := by decide +kernel
  have hseven : ring.periodUnder .word #[0, 1] = .ok 7 := by decide +kernel
  rw [hten] at hinitial
  obtain ⟨t, ht, hle⟩ := hleast #[0, 1] (by decide +kernel) (by decide +kernel)
  rw [hseven] at ht
  cases ht
  exact ⟨result, hok, (Except.ok.inj hinitial).symm, hperiod, hle⟩

end Circuit

end NetlistCompiler
