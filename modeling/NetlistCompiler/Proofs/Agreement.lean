import Mathlib
import NetlistCompiler.Invocation

/-!
# Agreement of shapes and invocations

Two shapes agree if they are the same up to the order of record fields. Among shapes whose records
have distinct field names this is equality of normal forms, where the normal form of a shape has
the fields of every record in the order of their names. So agreement is an equivalence relation
there, and what does not depend on the order of fields can be computed on normal forms.
-/

namespace NetlistCompiler

/-! ### Fields by name -/

lemma lookup_eq_some_of_mem {α : Type} {l : List (String × α)} (h : (l.map Prod.fst).Nodup)
    {name : String} {a : α} (ha : (name, a) ∈ l) : l.lookup name = some a := by
  induction l with
  | nil => simp at ha
  | cons f l ih =>
    obtain ⟨hf, hl⟩ := List.nodup_cons.mp h
    rcases List.mem_cons.mp ha with rfl | ha
    · simp
    · have hne : (name == f.1) = false := by
        rw [beq_eq_false_iff_ne]
        rintro rfl
        exact hf (List.mem_map.mpr ⟨_, ha, rfl⟩)
      rw [List.lookup_cons, hne]
      exact ih hl ha

lemma mem_of_lookup_eq_some {α : Type} {l : List (String × α)} {name : String} {a : α}
    (h : l.lookup name = some a) : (name, a) ∈ l := by
  obtain ⟨l₁, l₂, rfl, -⟩ := List.lookup_eq_some_iff.mp h
  simp

lemma rel_lookup_cons {α β : Type} {R : α → β → Prop} {as : List (String × α)}
    {bs : List (String × β)} (h : ∀ name, Option.Rel R (as.lookup name) (bs.lookup name)) {a : α}
    {b : β} (hab : R a b) (key name : String) :
    Option.Rel R (((key, a) :: as).lookup name) (((key, b) :: bs).lookup name) := by
  rw [List.lookup_cons, List.lookup_cons]
  cases name == key with
  | true => exact .some hab
  | false => exact h name

/-- Named values in the order of their names. -/
def sortByName {α : Type} (l : List (String × α)) : List (String × α) :=
  l.mergeSort fun a b => a.1 ≤ b.1

section

variable {α : Type} {l l' : List (String × α)}

lemma sortByName_perm (l : List (String × α)) : (sortByName l).Perm l :=
  List.mergeSort_perm l _

lemma sortByName_sorted (l : List (String × α)) :
    (sortByName l).Pairwise fun a b => a.1 ≤ b.1 := by
  unfold sortByName
  refine (List.pairwise_mergeSort ?_ ?_ l).imp of_decide_eq_true
  · intro a b c hab hbc
    rw [decide_eq_true_eq] at hab hbc ⊢
    exact hab.trans hbc
  · intro a b
    rw [Bool.or_eq_true, decide_eq_true_eq, decide_eq_true_eq]
    exact le_total a.1 b.1

/-- Distinct names leave only one way to sort. -/
lemma sortByName_eq_of_perm (h : l.Perm l') (hnames : (l.map Prod.fst).Nodup) :
    sortByName l = sortByName l' := by
  have hperm : (sortByName l).Perm (sortByName l') :=
    (sortByName_perm l).trans (h.trans (sortByName_perm l').symm)
  refine hperm.eq_of_pairwise ?_ (sortByName_sorted l) (sortByName_sorted l')
  intro a b ha hb hab hba
  have hname : a.1 = b.1 := le_antisymm hab hba
  have ha' : a ∈ l := (sortByName_perm l).subset ha
  have hb' : b ∈ l := h.symm.subset ((sortByName_perm l').subset hb)
  exact List.inj_on_of_nodup_map hnames ha' hb' hname

end

namespace Shape

lemma sizeOf_lt_of_mem {fields : List (String × Shape)} {f : String × Shape} (hf : f ∈ fields) :
    sizeOf f.2 < 1 + sizeOf fields := by
  have hlt := List.sizeOf_lt_of_mem hf
  obtain ⟨name, s⟩ := f
  rw [Prod.mk.sizeOf_spec] at hlt
  dsimp only
  omega

/-- Induction on shapes, with the claim known of all fields of a record. -/
theorem induction {P : Shape → Prop} (wire : P .wire)
    (vector : ∀ element size, P element → P (.vector element size))
    (record : ∀ fields, (∀ f ∈ fields, P f.2) → P (.record fields)) : ∀ s, P s
  | .wire => wire
  | .vector element size => vector element size (induction wire vector record element)
  | .record fields => record fields fun f hf =>
      have := sizeOf_lt_of_mem hf
      induction wire vector record f.2
termination_by s => sizeOf s

/-! ### Distinct field names -/

mutual

/-- Every record has distinct field names. -/
def Distinct : Shape → Prop
  | .wire => True
  | .vector element _ => element.Distinct
  | .record fields => (fields.map Prod.fst).Nodup ∧ FieldsDistinct fields

def FieldsDistinct : List (String × Shape) → Prop
  | [] => True
  | (_, s) :: rest => s.Distinct ∧ FieldsDistinct rest

end

lemma fieldsDistinct_iff {fields : List (String × Shape)} :
    FieldsDistinct fields ↔ ∀ f ∈ fields, f.2.Distinct := by
  induction fields with
  | nil => simp [FieldsDistinct]
  | cons f rest ih => simp [FieldsDistinct, ih]

lemma distinct_record {fields : List (String × Shape)} :
    (record fields).Distinct ↔
      (fields.map Prod.fst).Nodup ∧ ∀ f ∈ fields, f.2.Distinct := by
  rw [Distinct, fieldsDistinct_iff]

/-! ### Normal forms -/

mutual

/-- The shape with the fields of every record in the order of their names. -/
def normal : Shape → Shape
  | .wire => .wire
  | .vector element size => .vector element.normal size
  | .record fields => .record (sortByName (normalFields fields))

def normalFields : List (String × Shape) → List (String × Shape)
  | [] => []
  | (name, s) :: rest => (name, s.normal) :: normalFields rest

end

lemma normalFields_eq_map (fields : List (String × Shape)) :
    normalFields fields = fields.map fun f => (f.1, f.2.normal) := by
  induction fields with
  | nil => rfl
  | cons f rest ih => simp [normalFields, ih]

lemma normal_record (fields : List (String × Shape)) :
    (record fields).normal = .record (sortByName (fields.map fun f => (f.1, f.2.normal))) := by
  rw [normal, normalFields_eq_map]

lemma fieldsAgree_iff {fs gs : List (String × Shape)} :
    fieldsAgree fs gs = true ↔
      ∀ f ∈ fs, ∃ t, gs.lookup f.1 = some t ∧ f.2.agrees t = true := by
  induction fs with
  | nil => simp [fieldsAgree]
  | cons f rest ih =>
    rw [fieldsAgree, Bool.and_eq_true, ih, List.forall_mem_cons]
    apply and_congr_left
    intro _
    cases gs.lookup f.1 with
    | none => simp
    | some t => simp

section

variable {fs gs : List (String × Shape)}

lemma map_fst_normal (fs : List (String × Shape)) :
    (fs.map fun f => (f.1, f.2.normal)).map Prod.fst = fs.map Prod.fst := by
  simp [Function.comp_def]

/-- Records of distinct names that have as many fields, each with a counterpart, have the same
normal form. -/
lemma normal_record_eq (hfs : (fs.map Prod.fst).Nodup) (hlength : fs.length = gs.length)
    (hfields : ∀ f ∈ fs, ∃ t, gs.lookup f.1 = some t ∧ f.2.normal = t.normal) :
    (record fs).normal = (record gs).normal := by
  have hnames : ((fs.map fun f => (f.1, f.2.normal)).map Prod.fst).Nodup := by
    rwa [map_fst_normal]
  have hsubset : (fs.map fun f => (f.1, f.2.normal)) ⊆ gs.map fun f => (f.1, f.2.normal) := by
    intro x hx
    obtain ⟨f, hf, rfl⟩ := List.mem_map.mp hx
    obtain ⟨t, ht, hnormal⟩ := hfields f hf
    rw [hnormal]
    exact List.mem_map_of_mem (f := fun f => (f.1, f.2.normal)) (mem_of_lookup_eq_some ht)
  have hperm := (List.subperm_of_subset hnames.of_map hsubset).perm_of_length_le (by simp [hlength])
  rw [normal_record, normal_record, sortByName_eq_of_perm hperm hnames]

lemma perm_of_normal_record_eq (h : (record fs).normal = (record gs).normal) :
    (fs.map fun f => (f.1, f.2.normal)).Perm (gs.map fun f => (f.1, f.2.normal)) := by
  rw [normal_record, normal_record, record.injEq] at h
  have hsorted := sortByName_perm (fs.map fun f => (f.1, f.2.normal))
  rw [h] at hsorted
  exact hsorted.symm.trans (sortByName_perm _)

end

/-- Shapes with distinct field names agree if and only if they have the same normal form. -/
theorem agrees_iff {s t : Shape} (hs : s.Distinct) (ht : t.Distinct) :
    s.agrees t = true ↔ s.normal = t.normal := by
  induction s using induction generalizing t with
  | wire => cases t <;> simp [agrees, normal]
  | vector e m ih =>
    cases t with
    | wire => simp [agrees, normal]
    | record gs => simp [agrees, normal]
    | vector f n =>
      have helement : e.agrees f = true ↔ e.normal = f.normal := ih hs ht
      rw [agrees, Bool.and_eq_true, helement, normal, normal, vector.injEq, beq_iff_eq]
      exact and_comm
  | record fs ih =>
    cases t with
    | wire => simp [agrees, normal]
    | vector f n => simp [agrees, normal]
    | record gs =>
      obtain ⟨hfs, hfs'⟩ := distinct_record.mp hs
      obtain ⟨hgs, hgs'⟩ := distinct_record.mp ht
      rw [agrees, Bool.and_eq_true, beq_iff_eq, fieldsAgree_iff]
      constructor
      · rintro ⟨hlength, hfields⟩
        apply normal_record_eq hfs hlength
        intro f hf
        obtain ⟨t, ht, hagrees⟩ := hfields f hf
        exact ⟨t, ht, (ih f hf (hfs' f hf) (hgs' _ (mem_of_lookup_eq_some ht))).mp hagrees⟩
      · intro hnormal
        have hperm := perm_of_normal_record_eq hnormal
        refine ⟨by simpa using hperm.length_eq, ?_⟩
        intro f hf
        have hmem : (f.1, f.2.normal) ∈ gs.map fun g => (g.1, g.2.normal) :=
          hperm.subset (List.mem_map_of_mem (f := fun g => (g.1, g.2.normal)) hf)
        obtain ⟨⟨name, t⟩, hg, heq⟩ := List.mem_map.mp hmem
        obtain ⟨rfl, hft⟩ := Prod.mk.inj heq
        exact ⟨t, lookup_eq_some_of_mem hgs hg, (ih f hf (hfs' f hf) (hgs' _ hg)).mpr hft.symm⟩

/-- What agrees with a shape of distinct field names has distinct field names itself: it has as
many fields, and each of the names. -/
lemma distinct_of_agrees {s t : Shape} (hs : s.Distinct) (h : s.agrees t = true) :
    t.Distinct := by
  induction s using induction generalizing t with
  | wire => cases t <;> simp [agrees, Distinct] at h ⊢
  | vector e m ih =>
    cases t with
    | wire => trivial
    | record gs => simp [agrees] at h
    | vector f n =>
      rw [agrees, Bool.and_eq_true] at h
      have helement : f.Distinct := ih hs h.2
      exact helement
  | record fs ih =>
    cases t with
    | wire => trivial
    | vector f n => simp [agrees] at h
    | record gs =>
      obtain ⟨hfs, hfs'⟩ := distinct_record.mp hs
      rw [agrees, Bool.and_eq_true, beq_iff_eq, fieldsAgree_iff] at h
      obtain ⟨hlength, hfields⟩ := h
      have hsubset : fs.map Prod.fst ⊆ gs.map Prod.fst := by
        intro name hname
        obtain ⟨f, hf, rfl⟩ := List.mem_map.mp hname
        obtain ⟨t, ht, -⟩ := hfields f hf
        exact List.mem_map.mpr ⟨_, mem_of_lookup_eq_some ht, rfl⟩
      have hperm : (fs.map Prod.fst).Perm (gs.map Prod.fst) :=
        (List.subperm_of_subset hfs hsubset).perm_of_length_le (by simp [hlength])
      have hgs : (gs.map Prod.fst).Nodup := hperm.nodup_iff.mp hfs
      refine distinct_record.mpr ⟨hgs, ?_⟩
      rintro ⟨name, t⟩ hg
      have hname : name ∈ fs.map Prod.fst := hperm.symm.subset (List.mem_map_of_mem (f := Prod.fst) hg)
      obtain ⟨f, hf, rfl⟩ := List.mem_map.mp hname
      obtain ⟨t', ht', hagrees⟩ := hfields f hf
      rw [lookup_eq_some_of_mem hgs hg, Option.some.injEq] at ht'
      rw [← ht'] at hagrees
      exact ih f hf (hfs' f hf) hagrees

lemma wireCount_record (fields : List (String × Shape)) :
    (record fields).wireCount = (fields.map fun f => f.2.wireCount).sum := by
  rw [wireCount]
  induction fields with
  | nil => rfl
  | cons f rest ih => simp [fieldsWireCount, ih]

/-- The number of wires does not depend on the order of fields. -/
lemma wireCount_normal (s : Shape) : s.normal.wireCount = s.wireCount := by
  induction s using induction with
  | wire => rfl
  | vector e n ih => simp [normal, wireCount, ih]
  | record fields ih =>
    have hperm := (sortByName_perm (fields.map fun f => (f.1, f.2.normal))).map
      fun f => f.2.wireCount
    rw [normal_record, wireCount_record, wireCount_record, hperm.sum_eq, List.map_map]
    exact congrArg List.sum (List.map_congr_left ih)

lemma wireCount_congr {s t : Shape} (h : s.normal = t.normal) : s.wireCount = t.wireCount := by
  rw [← wireCount_normal s, h, wireCount_normal]

lemma listAgrees_iff {ss ts : List Shape} (hs : ∀ s ∈ ss, s.Distinct) (ht : ∀ t ∈ ts, t.Distinct) :
    listAgrees ss ts = true ↔ ss.map normal = ts.map normal := by
  induction ss generalizing ts with
  | nil => cases ts <;> simp [listAgrees]
  | cons s ss ih =>
    cases ts with
    | nil => simp [listAgrees]
    | cons t ts =>
      rw [List.forall_mem_cons] at hs ht
      rw [listAgrees, Bool.and_eq_true, agrees_iff hs.1 ht.1, ih hs.2 ht.2]
      simp

lemma forall_distinct_of_listAgrees {ss ts : List Shape} (hs : ∀ s ∈ ss, s.Distinct)
    (h : listAgrees ss ts = true) : ∀ t ∈ ts, t.Distinct := by
  induction ss generalizing ts with
  | nil => cases ts <;> simp [listAgrees] at h ⊢
  | cons s ss ih =>
    cases ts with
    | nil => simp
    | cons t ts =>
      rw [listAgrees, Bool.and_eq_true] at h
      rw [List.forall_mem_cons] at hs ⊢
      exact ⟨distinct_of_agrees hs.1 h.1, ih hs.2 h.2⟩

end Shape

/-! ### Invocations -/

namespace Invocation

mutual

/-- All records in the generic values have distinct field names. -/
def Distinct : Invocation → Prop
  | ⟨_, interfaces, parameters⟩ =>
    (∀ s ∈ interfaces, s.Distinct) ∧ ArgumentsDistinct parameters

def ArgumentDistinct : Argument → Prop
  | .integer _ => True
  | .function i => i.Distinct

def ArgumentsDistinct : List Argument → Prop
  | [] => True
  | a :: rest => ArgumentDistinct a ∧ ArgumentsDistinct rest

end

mutual

/-- The invocation with normal forms as generic values. -/
def normal : Invocation → Invocation
  | ⟨function, interfaces, parameters⟩ =>
    ⟨function, interfaces.map Shape.normal, normalArguments parameters⟩

def normalArgument : Argument → Argument
  | .integer value => .integer value
  | .function i => .function i.normal

def normalArguments : List Argument → List Argument
  | [] => []
  | a :: rest => normalArgument a :: normalArguments rest

end

lemma normalArguments_eq_map (as : List Argument) : normalArguments as = as.map normalArgument := by
  induction as with
  | nil => rfl
  | cons a as ih => rw [normalArguments, ih, List.map_cons]

mutual

theorem agrees_iff : ∀ {i j : Invocation}, i.Distinct → j.Distinct →
    (i.agrees j = true ↔ i.normal = j.normal)
  | ⟨f, is, ps⟩, ⟨g, js, qs⟩, hi, hj => by
    rw [Distinct] at hi hj
    rw [agrees, Bool.and_eq_true, Bool.and_eq_true, Shape.listAgrees_iff hi.1 hj.1,
      argumentsAgree_iff hi.2 hj.2, beq_iff_eq]
    simp only [normal, mk.injEq]
    exact and_assoc

theorem argumentAgrees_iff : ∀ {a b : Argument}, ArgumentDistinct a → ArgumentDistinct b →
    (argumentAgrees a b = true ↔ normalArgument a = normalArgument b)
  | .integer a, .integer b, _, _ => by simp [argumentAgrees, normalArgument]
  | .integer a, .function j, _, _ => by simp [argumentAgrees, normalArgument]
  | .function i, .integer b, _, _ => by simp [argumentAgrees, normalArgument]
  | .function i, .function j, hi, hj => by
    rw [argumentAgrees, agrees_iff hi hj, normalArgument, normalArgument, Argument.function.injEq]

theorem argumentsAgree_iff : ∀ {as bs : List Argument}, ArgumentsDistinct as →
    ArgumentsDistinct bs →
    (argumentsAgree as bs = true ↔ normalArguments as = normalArguments bs)
  | [], [], _, _ => by simp [argumentsAgree]
  | [], _ :: _, _, _ => by simp [argumentsAgree, normalArguments]
  | _ :: _, [], _, _ => by simp [argumentsAgree, normalArguments]
  | a :: as, b :: bs, ha, hb => by
    rw [argumentsAgree, Bool.and_eq_true, argumentAgrees_iff ha.1 hb.1,
      argumentsAgree_iff ha.2 hb.2, normalArguments, normalArguments, List.cons.injEq]

end

mutual

theorem distinct_of_agrees : ∀ {i j : Invocation}, i.Distinct → i.agrees j = true → j.Distinct
  | ⟨f, is, ps⟩, ⟨g, js, qs⟩, hi, h => by
    rw [Distinct] at hi ⊢
    rw [agrees, Bool.and_eq_true, Bool.and_eq_true] at h
    exact ⟨Shape.forall_distinct_of_listAgrees hi.1 h.1.2, argumentsDistinct_of_agree hi.2 h.2⟩

theorem argumentDistinct_of_agrees : ∀ {a b : Argument}, ArgumentDistinct a →
    argumentAgrees a b = true → ArgumentDistinct b
  | _, .integer b, _, _ => trivial
  | .integer a, .function j, _, h => by simp [argumentAgrees] at h
  | .function i, .function j, hi, h => by
    rw [argumentAgrees] at h
    exact distinct_of_agrees hi h

theorem argumentsDistinct_of_agree : ∀ {as bs : List Argument}, ArgumentsDistinct as →
    argumentsAgree as bs = true → ArgumentsDistinct bs
  | _, [], _, _ => trivial
  | [], _ :: _, _, h => by simp [argumentsAgree] at h
  | a :: as, b :: bs, ha, h => by
    rw [argumentsAgree, Bool.and_eq_true] at h
    exact ⟨argumentDistinct_of_agrees ha.1 h.1, argumentsDistinct_of_agree ha.2 h.2⟩

end

lemma distinct_plain (function : String) : (plain function).Distinct := by
  simp [plain, Distinct, ArgumentsDistinct]

end Invocation

end NetlistCompiler
