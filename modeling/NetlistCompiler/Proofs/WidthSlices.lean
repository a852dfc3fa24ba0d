import NetlistCompiler.Configuration
import NetlistCompiler.Proofs.Agreement

/-!
# Slices of widths

The slices of a function are checked one by one, each against those before it, by comparing bounds.
They pass if and only if every slice covers a width, no width is in two slices and no delay is
negative. None of this depends on the order of the slices, and the slice found for a width is then
the only one there is.
-/

namespace NetlistCompiler

namespace WidthSlice

variable {s t : WidthSlice} {width : Nat}

/-! ### Bounds and widths -/

/-- No width is in both slices. -/
def Apart (s t : WidthSlice) : Prop :=
  ∀ width, ¬(s.contains width = true ∧ t.contains width = true)

lemma Apart.symm (h : s.Apart t) : t.Apart s :=
  fun width hboth => h width hboth.symm

lemma contains_iff : s.contains width = true ↔ s.first ≤ width ∧ ∀ u ∈ s.stop, width < u := by
  cases hstop : s.stop <;> simp [contains, hstop]

lemma endsBy_eq_false_iff : s.endsBy width = false ↔ ∀ u ∈ s.stop, width < u := by
  cases hstop : s.stop <;> simp [endsBy, hstop]

lemma isEmpty_eq_false_iff : s.isEmpty = false ↔ s.contains s.first = true := by
  rw [isEmpty, endsBy_eq_false_iff, contains_iff]
  simp

lemma contains_first (h : ∃ width, s.contains width = true) : s.contains s.first = true := by
  obtain ⟨width, hwidth⟩ := h
  obtain ⟨hfirst, hstop⟩ := contains_iff.mp hwidth
  exact contains_iff.mpr ⟨le_rfl, fun u hu => hfirst.trans_lt (hstop u hu)⟩

lemma overlaps_iff : s.overlaps t = true ↔
    (∀ u ∈ s.stop, t.first < u) ∧ ∀ u ∈ t.stop, s.first < u := by
  simp only [overlaps, Bool.and_eq_true, Bool.not_eq_true', endsBy_eq_false_iff]

lemma overlaps_of_contains (hs : s.contains width = true) (ht : t.contains width = true) :
    s.overlaps t = true := by
  obtain ⟨hs, hsstop⟩ := contains_iff.mp hs
  obtain ⟨ht, htstop⟩ := contains_iff.mp ht
  exact overlaps_iff.mpr
    ⟨fun u hu => ht.trans_lt (hsstop u hu), fun u hu => hs.trans_lt (htstop u hu)⟩

/-- Of two slices that overlap, the one that begins no later covers the first width of the other. -/
lemma contains_first_of_overlaps (h : s.overlaps t = true) (hfirst : s.first ≤ t.first) :
    s.contains t.first = true :=
  contains_iff.mpr ⟨hfirst, (overlaps_iff.mp h).1⟩

lemma overlaps_comm (s t : WidthSlice) : s.overlaps t = t.overlaps s := by
  rw [overlaps, overlaps, Bool.and_comm]

/-- Slices that are not empty and overlap share the first width of one of them. -/
lemma shared_of_overlaps (hs : s.contains s.first = true) (ht : t.contains t.first = true)
    (h : s.overlaps t = true) :
    ∃ width ∈ [s.first, t.first], s.contains width = true ∧ t.contains width = true := by
  rcases le_total s.first t.first with hfirst | hfirst
  · exact ⟨t.first, by simp, contains_first_of_overlaps h hfirst, ht⟩
  · rw [overlaps_comm] at h
    exact ⟨s.first, by simp, hs, contains_first_of_overlaps h hfirst⟩

lemma overlaps_eq_false_iff (hs : s.contains s.first = true) (ht : t.contains t.first = true) :
    s.overlaps t = false ↔ s.Apart t := by
  constructor
  · rintro h width ⟨hsw, htw⟩
    rw [overlaps_of_contains hsw htw] at h
    cases h
  · intro h
    by_contra hoverlaps
    obtain ⟨width, -, hshared⟩ := shared_of_overlaps hs ht (Bool.eq_true_of_not_eq_false hoverlaps)
    exact h width hshared

/-! ### The check of the slices -/

lemma faultIf_eq_nil_iff {condition : Bool} {fault : ConfigurationFault} :
    faultIf condition fault = [] ↔ condition = false := by
  cases condition <;> simp [faultIf]

lemma faults_eq_nil_iff {function : String} {earlier : List WidthSlice} :
    s.faults function earlier = [] ↔
      s.isEmpty = false ∧ 0 ≤ s.delay ∧ ∀ t ∈ earlier, t.overlaps s = false := by
  simp [faults, faultIf_eq_nil_iff]

/-- Slices pass the check after earlier ones if each passes it on its own and none overlaps another
one before it. -/
lemma allFaults_eq_nil_iff {function : String} {earlier slices : List WidthSlice} :
    allFaults function earlier slices = [] ↔
      (∀ s ∈ slices, s.isEmpty = false ∧ 0 ≤ s.delay) ∧
        (slices.Pairwise fun s t => s.overlaps t = false) ∧
          ∀ s ∈ earlier, ∀ t ∈ slices, s.overlaps t = false := by
  induction slices generalizing earlier with
  | nil => simp [allFaults]
  | cons s rest ih =>
    rw [allFaults, List.append_eq_nil_iff, faults_eq_nil_iff, ih]
    simp only [List.mem_append, List.mem_singleton, List.forall_mem_cons, List.pairwise_cons]
    constructor
    · rintro ⟨⟨hempty, hdelay, hbefore⟩, hrest, hpairwise, hafter⟩
      exact ⟨⟨⟨hempty, hdelay⟩, hrest⟩, ⟨hafter s (.inr rfl), hpairwise⟩,
        fun t ht => ⟨hbefore t ht, hafter t (.inl ht)⟩⟩
    · rintro ⟨⟨⟨hempty, hdelay⟩, hrest⟩, ⟨hfirst, hpairwise⟩, hbefore⟩
      refine ⟨⟨hempty, hdelay, fun t ht => (hbefore t ht).1⟩, hrest, hpairwise, ?_⟩
      rintro t (ht | rfl)
      · exact (hbefore t ht).2
      · exact hfirst

end WidthSlice

/-! ### Valid delays -/

namespace FunctionDelay

variable {d d' : FunctionDelay}

structure NonNegative (d : FunctionDelay) : Prop where
  default : ∀ n ∈ d.default, 0 ≤ n
  slices : ∀ s ∈ d.widths, 0 ≤ s.delay

/-- Every slice covers a width, and no two of them cover the same one. -/
structure WellSliced (d : FunctionDelay) : Prop where
  covers : ∀ s ∈ d.widths, ∃ width, s.contains width = true
  apart : d.widths.Pairwise WidthSlice.Apart

/-- The same delays with the slices in another order. -/
structure Reorders (d d' : FunctionDelay) : Prop where
  default : d'.default = d.default
  slices : d'.widths.Perm d.widths

lemma any_neg_eq_false_iff {default : Option Int} :
    (default.any fun n => n < 0) = false ↔ ∀ n ∈ default, 0 ≤ n := by
  cases default <;> simp

lemma faults_eq_nil_iff {function : String} :
    d.faults function = [] ↔ d.NonNegative ∧ d.WellSliced := by
  rw [faults, List.append_eq_nil_iff, WidthSlice.faultIf_eq_nil_iff, any_neg_eq_false_iff,
    WidthSlice.allFaults_eq_nil_iff]
  constructor
  · rintro ⟨hdefault, hslices, hpairwise, -⟩
    have hfirst : ∀ s ∈ d.widths, s.contains s.first = true :=
      fun s hs => WidthSlice.isEmpty_eq_false_iff.mp (hslices s hs).1
    refine ⟨⟨hdefault, fun s hs => (hslices s hs).2⟩,
      fun s hs => ⟨s.first, hfirst s hs⟩, hpairwise.imp_of_mem ?_⟩
    intro s t hs ht hoverlaps
    exact (WidthSlice.overlaps_eq_false_iff (hfirst s hs) (hfirst t ht)).mp hoverlaps
  · rintro ⟨⟨hdefault, hdelays⟩, hcovers, hapart⟩
    have hfirst : ∀ s ∈ d.widths, s.contains s.first = true :=
      fun s hs => WidthSlice.contains_first (hcovers s hs)
    refine ⟨hdefault, fun s hs => ⟨WidthSlice.isEmpty_eq_false_iff.mpr (hfirst s hs), hdelays s hs⟩,
      hapart.imp_of_mem ?_, by simp⟩
    intro s t hs ht hst
    exact (WidthSlice.overlaps_eq_false_iff (hfirst s hs) (hfirst t ht)).mpr hst

lemma NonNegative.reorders (hd : d.NonNegative) (h : d.Reorders d') : d'.NonNegative where
  default := h.default ▸ hd.default
  slices := fun s hs => hd.slices s (h.slices.mem_iff.mp hs)

lemma WellSliced.reorders (hd : d.WellSliced) (h : d.Reorders d') : d'.WellSliced where
  covers := fun s hs => hd.covers s (h.slices.mem_iff.mp hs)
  apart := (h.slices.pairwise_iff fun {_ _} => WidthSlice.Apart.symm).mpr hd.apart

/-- Two of the slices cover the first width of one of them. -/
def SharesWidth (d : FunctionDelay) : Prop :=
  ∃ (i j : Nat) (s t : WidthSlice), i < j ∧ d.widths[i]? = some s ∧ d.widths[j]? = some t ∧
    ∃ width ∈ [s.first, t.first], s.contains width = true ∧ t.contains width = true

lemma SharesWidth.not_apart (h : d.SharesWidth) : ¬d.widths.Pairwise WidthSlice.Apart := by
  obtain ⟨i, j, s, t, hij, hs, ht, width, -, hshared⟩ := h
  obtain ⟨hi, rfl⟩ := List.getElem?_eq_some_iff.mp hs
  obtain ⟨hj, rfl⟩ := List.getElem?_eq_some_iff.mp ht
  intro hapart
  exact List.pairwise_iff_getElem.mp hapart i j hi hj hij width hshared

lemma sharesWidth_of_not_apart (hcovers : ∀ s ∈ d.widths, ∃ width, s.contains width = true)
    (h : ¬d.widths.Pairwise WidthSlice.Apart) : d.SharesWidth := by
  have hfirst : ∀ s ∈ d.widths, s.contains s.first = true :=
    fun s hs => WidthSlice.contains_first (hcovers s hs)
  simp only [List.pairwise_iff_getElem, WidthSlice.Apart, not_forall, not_not] at h
  obtain ⟨i, j, hi, hj, hij, width, hs, ht⟩ := h
  exact ⟨i, j, _, _, hij, List.getElem?_eq_getElem hi, List.getElem?_eq_getElem hj,
    WidthSlice.shared_of_overlaps (hfirst _ (List.getElem_mem hi)) (hfirst _ (List.getElem_mem hj))
      (WidthSlice.overlaps_of_contains hs ht)⟩

lemma not_wellSliced_iff : ¬d.WellSliced ↔
    (∃ s ∈ d.widths, ∀ width, s.contains width = false) ∨ d.SharesWidth := by
  constructor
  · intro h
    by_cases hcovers : ∀ s ∈ d.widths, ∃ width, s.contains width = true
    · exact .inr (sharesWidth_of_not_apart hcovers fun hapart => h ⟨hcovers, hapart⟩)
    · refine .inl ?_
      simpa using hcovers
  · rintro (⟨s, hs, hnone⟩ | hshares) ⟨hcovers, hapart⟩
    · obtain ⟨width, hwidth⟩ := hcovers s hs
      simp [hnone width] at hwidth
    · exact hshares.not_apart hapart

/-- The slices that cover a width. -/
def slicesAt (d : FunctionDelay) (width : Nat) : List WidthSlice :=
  d.widths.filter fun s => s.contains width

lemma WellSliced.length_slicesAt_le (h : d.WellSliced) (width : Nat) :
    (d.slicesAt width).length ≤ 1 := by
  by_contra hlength
  obtain ⟨s, t, rest, hslices⟩ : ∃ s t rest, d.slicesAt width = s :: t :: rest := by
    match hcase : d.slicesAt width with
    | [] => simp [hcase] at hlength
    | [s] => simp [hcase] at hlength
    | s :: t :: rest => exact ⟨s, t, rest, rfl⟩
  have hapart : (d.slicesAt width).Pairwise WidthSlice.Apart := h.apart.filter _
  have hcontains : ∀ u ∈ d.slicesAt width, u.contains width = true :=
    fun u hu => (List.mem_filter.mp hu).2
  rw [hslices] at hapart hcontains
  exact (List.pairwise_cons.mp hapart).1 t (by simp) width
    ⟨hcontains s (by simp), hcontains t (by simp)⟩

/-- Where at most one slice covers a width, any order of the slices leads to it. -/
lemma Reorders.find?_eq (h : d.Reorders d') {width : Nat} (hd : (d.slicesAt width).length ≤ 1) :
    (d'.widths.find? fun s => s.contains width) = d.widths.find? fun s => s.contains width := by
  have hperm : (d'.slicesAt width).Perm (d.slicesAt width) := h.slices.filter _
  have heq : d'.slicesAt width = d.slicesAt width := by
    match hcase : d.slicesAt width with
    | [] => exact (hcase ▸ hperm).eq_nil
    | [s] => exact List.perm_singleton.mp (hcase ▸ hperm)
    | s :: t :: rest => simp [hcase] at hd
  rw [← List.head?_filter, ← List.head?_filter]
  exact congrArg List.head? heq

/-- The same functions in the same order, with the slices of each in any order. -/
def ReordersAll (fs fs' : List (String × FunctionDelay)) : Prop :=
  List.Forall₂ (fun f f' => f'.1 = f.1 ∧ f.2.Reorders f'.2) fs fs'

variable {fs fs' : List (String × FunctionDelay)}

lemma ReordersAll.forall_mem (h : ReordersAll fs fs') {P : FunctionDelay → Prop}
    (hP : ∀ d d', d.Reorders d' → P d → P d') (hfs : ∀ f ∈ fs, P f.2) : ∀ f ∈ fs', P f.2 := by
  induction h with
  | nil => simp
  | cons hff _ ih =>
    simp only [List.forall_mem_cons] at hfs ⊢
    exact ⟨hP _ _ hff.2 hfs.1, ih hfs.2⟩

lemma ReordersAll.rel_lookup (h : ReordersAll fs fs') (function : String) :
    Option.Rel Reorders (fs.lookup function) (fs'.lookup function) := by
  induction h generalizing function with
  | nil => exact .none
  | @cons f f' _ _ hff _ ih =>
    obtain ⟨name, d⟩ := f
    obtain ⟨name', d'⟩ := f'
    obtain ⟨rfl, hd⟩ := hff
    exact rel_lookup_cons ih hd _ _

end FunctionDelay

/-- The slices of a function that cover a width. -/
def DelayModel.slicesFor (m : DelayModel) (function : String) (width : Nat) : List WidthSlice :=
  match m.functions.lookup function with
  | none => []
  | some d => d.slicesAt width

namespace Configuration

variable {c c' : Configuration}

/-- The target is there only together with retiming, and no number is negative. -/
structure ValidNumbers (c : Configuration) : Prop where
  target : ∀ target ∈ c.retimeTarget, c.retime = true ∧ 0 ≤ target
  default : 0 ≤ c.delay.default
  functions : ∀ f ∈ c.delay.functions, f.2.NonNegative

/-- The same configuration, with the slices of every function in any order. -/
structure Reorders (c c' : Configuration) : Prop where
  options : c' = { c with delay := c'.delay }
  default : c'.delay.default = c.delay.default
  functions : FunctionDelay.ReordersAll c.delay.functions c'.delay.functions

lemma optionFaults_eq_nil_iff :
    c.optionFaults = [] ↔ ∀ target ∈ c.retimeTarget, c.retime = true ∧ 0 ≤ target := by
  unfold optionFaults
  cases c.retimeTarget <;> simp [WidthSlice.faultIf_eq_nil_iff]

/-- A configuration has no fault if and only if its numbers are valid and no function has an empty
slice or two slices for one width. -/
lemma faults_eq_nil_iff :
    c.faults = [] ↔ c.ValidNumbers ∧ ∀ f ∈ c.delay.functions, f.2.WellSliced := by
  rw [faults, List.append_eq_nil_iff, optionFaults_eq_nil_iff, DelayModel.faults,
    List.append_eq_nil_iff, WidthSlice.faultIf_eq_nil_iff, decide_eq_false_iff_not, not_lt,
    List.flatMap_eq_nil_iff]
  simp only [FunctionDelay.faults_eq_nil_iff]
  constructor
  · rintro ⟨htarget, hdefault, hfunctions⟩
    exact ⟨⟨htarget, hdefault, fun f hf => (hfunctions f hf).1⟩, fun f hf => (hfunctions f hf).2⟩
  · rintro ⟨⟨htarget, hdefault, hfunctions⟩, hslices⟩
    exact ⟨htarget, hdefault, fun f hf => ⟨hfunctions f hf, hslices f hf⟩⟩

lemma ValidNumbers.delayFor_nonneg (h : c.ValidNumbers) (function : String) (width : Nat) :
    0 ≤ c.delay.delayFor function width := by
  unfold DelayModel.delayFor
  split
  · exact h.default
  · next d hlookup =>
    have hd : d.NonNegative := h.functions (function, d) (mem_of_lookup_eq_some hlookup)
    split
    · next s hs => exact hd.slices s (List.mem_of_find?_eq_some hs)
    · cases hcase : d.default with
      | none => exact h.default
      | some n => exact hd.default n hcase

lemma length_slicesFor_le (h : ∀ f ∈ c.delay.functions, f.2.WellSliced) (function : String)
    (width : Nat) : (c.delay.slicesFor function width).length ≤ 1 := by
  unfold DelayModel.slicesFor
  split
  · simp
  · next d hlookup =>
    exact (h (function, d) (mem_of_lookup_eq_some hlookup)).length_slicesAt_le width

lemma Reorders.faults_eq_nil (h : c.Reorders c') (hc : c.faults = []) : c'.faults = [] := by
  obtain ⟨hnumbers, hslices⟩ := faults_eq_nil_iff.mp hc
  refine faults_eq_nil_iff.mpr ⟨⟨?_, ?_, ?_⟩, ?_⟩
  · rw [h.options]
    exact hnumbers.target
  · rw [h.default]
    exact hnumbers.default
  · exact h.functions.forall_mem (fun _ _ hdd' hd => hd.reorders hdd') hnumbers.functions
  · exact h.functions.forall_mem (fun _ _ hdd' hd => hd.reorders hdd') hslices

lemma Reorders.delayFor_eq (h : c.Reorders c')
    (hc : ∀ f ∈ c.delay.functions, f.2.WellSliced) (function : String) (width : Nat) :
    c'.delay.delayFor function width = c.delay.delayFor function width := by
  have hlookup := h.functions.rel_lookup function
  have hsliced : ∀ d, c.delay.functions.lookup function = some d → d.WellSliced :=
    fun d hd => hc (function, d) (mem_of_lookup_eq_some hd)
  unfold DelayModel.delayFor
  generalize c.delay.functions.lookup function = found at hlookup hsliced ⊢
  generalize c'.delay.functions.lookup function = found' at hlookup ⊢
  cases hlookup with
  | none => exact h.default
  | @some d d' hd =>
    have hfind := hd.find?_eq ((hsliced d rfl).length_slicesAt_le width)
    simp only [hfind, hd.default, h.default]

/-- The slices of an adder for words of up to eight wires and for longer ones. -/
def adderSlices : List WidthSlice :=
  [⟨1, some 9, 1⟩, ⟨9, none, 3⟩]

/-- A configuration with the delays of an adder. -/
def adderConfiguration (slices : List WidthSlice) : Configuration :=
  ⟨false, false, true, some 4, ⟨1, [("add", ⟨some 2, slices⟩)]⟩⟩

/-- In a configuration without faults no delay is negative and no width has two slices of a
function, and the order of the slices does not matter, for the faults or for the delays. Where all
numbers are valid, there are faults if and only if a slice covers no width or two slices of a
function share one. -/
theorem slices_unambiguous (c : Configuration) :
    (c.faults = [] →
      (∀ function width, 0 ≤ c.delay.delayFor function width ∧
        (c.delay.slicesFor function width).length ≤ 1) ∧
      ∀ c', c.Reorders c' → c'.faults = [] ∧
        ∀ function width, c'.delay.delayFor function width = c.delay.delayFor function width) ∧
    (c.ValidNumbers → (c.faults ≠ [] ↔ ∃ f ∈ c.delay.functions,
      (∃ s ∈ f.2.widths, ∀ width, s.contains width = false) ∨ f.2.SharesWidth)) := by
  constructor
  · intro hc
    obtain ⟨hnumbers, hsliced⟩ := faults_eq_nil_iff.mp hc
    refine ⟨fun function width => ⟨hnumbers.delayFor_nonneg function width,
      length_slicesFor_le hsliced function width⟩, ?_⟩
    intro c' h
    exact ⟨h.faults_eq_nil hc, h.delayFor_eq hsliced⟩
  · intro hnumbers
    rw [ne_eq, faults_eq_nil_iff, and_iff_right hnumbers]
    simp only [not_forall, exists_prop, FunctionDelay.not_wellSliced_iff]

theorem slices_unambiguous_adder :
    (adderConfiguration adderSlices).faults = [] ∧
    (adderConfiguration adderSlices).Reorders (adderConfiguration adderSlices.reverse) ∧
    (adderConfiguration adderSlices.reverse).faults = [] ∧
    (adderConfiguration adderSlices.reverse).delay.delayFor "add" 8 = 1 ∧
    (adderConfiguration (⟨4, some 5, 0⟩ :: adderSlices)).ValidNumbers ∧
    (adderConfiguration (⟨4, some 5, 0⟩ :: adderSlices)).faults ≠ [] := by
  have hfaults : (adderConfiguration adderSlices).faults = [] := by decide
  have hreorders :
      (adderConfiguration adderSlices).Reorders (adderConfiguration adderSlices.reverse) :=
    ⟨rfl, rfl, .cons ⟨rfl, rfl, adderSlices.reverse_perm⟩ .nil⟩
  obtain ⟨hfaults', hdelay⟩ := ((slices_unambiguous _).1 hfaults).2 _ hreorders
  have hnumbers : (adderConfiguration (⟨4, some 5, 0⟩ :: adderSlices)).ValidNumbers := by
    refine ⟨?_, by decide, ?_⟩
    · rintro target ⟨⟩
      exact ⟨rfl, by decide⟩
    · simp only [adderConfiguration, List.mem_singleton, forall_eq]
      exact ⟨by simp, by simp [adderSlices]⟩
  refine ⟨hfaults, hreorders, hfaults', (hdelay "add" 8).trans (by decide), hnumbers, ?_⟩
  refine ((slices_unambiguous _).2 hnumbers).mpr ⟨_, List.mem_singleton_self _, .inr ?_⟩
  exact ⟨0, 1, ⟨4, some 5, 0⟩, ⟨1, some 9, 1⟩, by decide, rfl, rfl, 4, by decide⟩

end Configuration

end NetlistCompiler
