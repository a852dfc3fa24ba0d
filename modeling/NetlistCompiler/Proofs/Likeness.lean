import NetlistCompiler.Bindings
import NetlistCompiler.Expansion
import NetlistCompiler.Proofs.Agreement
import NetlistCompiler.Proofs.Traversals

/-!
# Likeness

Shapes with distinct field names are alike if they agree. The relation carries over to everything
that holds shapes: arguments, invocations, ports, primitives and bindings. Alike invocations of a
primitive give alike primitives, with alike ports.
-/

namespace NetlistCompiler

/-- The shapes have distinct field names and agree. -/
structure Shape.Like (s t : Shape) : Prop where
  left : s.Distinct
  right : t.Distinct
  normal : s.normal = t.normal

structure Invocation.ArgumentLike (a b : Argument) : Prop where
  left : ArgumentDistinct a
  right : ArgumentDistinct b
  normal : normalArgument a = normalArgument b

structure Invocation.Like (i j : Invocation) : Prop where
  left : i.Distinct
  right : j.Distinct
  normal : i.normal = j.normal

namespace Shape

variable {s t u : Shape}

lemma like_self (h : s.Distinct) : s.Like s :=
  ⟨h, h, rfl⟩

lemma Like.symm (h : s.Like t) : t.Like s :=
  ⟨h.right, h.left, h.normal.symm⟩

lemma Like.trans (h : s.Like t) (h' : t.Like u) : s.Like u :=
  ⟨h.left, h'.right, h.normal.trans h'.normal⟩

lemma Like.wireCount (h : s.Like t) : s.wireCount = t.wireCount :=
  wireCount_congr h.normal

lemma Like.agrees (h : s.Like t) : s.agrees t = true :=
  (agrees_iff h.left h.right).mpr h.normal

lemma like_wire : wire.Like wire :=
  like_self trivial

lemma Like.vector (h : s.Like t) (size : Nat) : (vector s size).Like (vector t size) :=
  ⟨h.left, h.right, by rw [Shape.normal, Shape.normal, h.normal]⟩

lemma like_bus (size : Nat) : (bus size).Like (bus size) :=
  like_wire.vector size

lemma map_normal_of_like {ss ts : List Shape} (h : List.Forall₂ Like ss ts) :
    ss.map normal = ts.map normal := by
  induction h with
  | nil => rfl
  | cons hst _ ih => rw [List.map_cons, List.map_cons, hst.normal, ih]

lemma forall_distinct_of_like {ss ts : List Shape} (h : List.Forall₂ Like ss ts) :
    (∀ s ∈ ss, s.Distinct) ∧ ∀ t ∈ ts, t.Distinct := by
  induction h with
  | nil => simp
  | cons hst _ ih =>
    rw [List.forall_mem_cons, List.forall_mem_cons]
    exact ⟨⟨hst.left, ih.1⟩, hst.right, ih.2⟩

/-- Agreement of lists carries over to alike lists. -/
lemma listAgrees_congr {ss ss' ts ts' : List Shape} (hs : List.Forall₂ Like ss ss')
    (ht : List.Forall₂ Like ts ts') (h : listAgrees ss ts = true) : listAgrees ss' ts' = true := by
  obtain ⟨hss, hss'⟩ := forall_distinct_of_like hs
  obtain ⟨hts, hts'⟩ := forall_distinct_of_like ht
  rw [listAgrees_iff hss hts] at h
  rw [listAgrees_iff hss' hts', ← map_normal_of_like hs, ← map_normal_of_like ht, h]

lemma map_fst_zip_subset {α : Type} (names : List String) (values : List α) :
    ((names.zip values).map Prod.fst).Sublist names := by
  induction names generalizing values with
  | nil => simp
  | cons n names ih =>
    cases values with
    | nil => simp
    | cons v values => simpa using ih values

/-- Records with the same names and alike fields in the same order are alike. -/
lemma like_record_zip {names : List String} (hnames : names.Nodup) {ss ts : List Shape}
    (h : List.Forall₂ Like ss ts) : (record (names.zip ss)).Like (record (names.zip ts)) := by
  obtain ⟨hss, hts⟩ := forall_distinct_of_like h
  have hfields : ∀ us : List Shape, (names.zip us).map (fun f => (f.1, f.2.normal)) =
      names.zip (us.map normal) := by
    intro us
    rw [List.zip_map_right]
    rfl
  have hdistinct : ∀ us : List Shape, (∀ u ∈ us, u.Distinct) →
      (record (names.zip us)).Distinct := by
    intro us hus
    refine distinct_record.mpr ⟨hnames.sublist (map_fst_zip_subset names us), ?_⟩
    intro f hf
    exact hus f.2 (List.of_mem_zip hf).2
  refine ⟨hdistinct ss hss, hdistinct ts hts, ?_⟩
  rw [normal_record, normal_record, hfields, hfields, map_normal_of_like h]

end Shape

namespace Invocation

variable {i j k : Invocation} {a b : Argument}

lemma like_self (h : i.Distinct) : i.Like i :=
  ⟨h, h, rfl⟩

lemma Like.symm (h : i.Like j) : j.Like i :=
  ⟨h.right, h.left, h.normal.symm⟩

lemma Like.trans (h : i.Like j) (h' : j.Like k) : i.Like k :=
  ⟨h.left, h'.right, h.normal.trans h'.normal⟩

lemma like_iff_agrees (hi : i.Distinct) (hj : j.Distinct) : i.Like j ↔ i.agrees j = true := by
  rw [agrees_iff hi hj]
  exact ⟨fun h => h.normal, fun h => ⟨hi, hj, h⟩⟩

lemma Like.agrees (h : i.Like j) : i.agrees j = true :=
  (like_iff_agrees h.left h.right).mp h

lemma forall₂_like_of_map_eq {ss ts : List Shape} (hs : ∀ s ∈ ss, s.Distinct)
    (ht : ∀ t ∈ ts, t.Distinct) (h : ss.map Shape.normal = ts.map Shape.normal) :
    List.Forall₂ Shape.Like ss ts := by
  induction ss generalizing ts with
  | nil =>
    cases ts with
    | nil => exact .nil
    | cons t ts => simp at h
  | cons s ss ih =>
    cases ts with
    | nil => simp at h
    | cons t ts =>
      rw [List.forall_mem_cons] at hs ht
      obtain ⟨hhead, htail⟩ := List.cons.inj h
      exact .cons ⟨hs.1, ht.1, hhead⟩ (ih hs.2 ht.2 htail)

lemma forall₂_argumentLike_of_eq {as bs : List Argument} (ha : ArgumentsDistinct as)
    (hb : ArgumentsDistinct bs) (h : normalArguments as = normalArguments bs) :
    List.Forall₂ ArgumentLike as bs := by
  induction as generalizing bs with
  | nil =>
    cases bs with
    | nil => exact .nil
    | cons b bs => simp [normalArguments] at h
  | cons a as ih =>
    cases bs with
    | nil => simp [normalArguments] at h
    | cons b bs =>
      rw [ArgumentsDistinct] at ha hb
      obtain ⟨hhead, htail⟩ := List.cons.inj h
      exact .cons ⟨ha.1, hb.1, hhead⟩ (ih ha.2 hb.2 htail)

/-- Alike invocations call the same function with alike values. -/
lemma Like.values (h : i.Like j) : i.function = j.function ∧
    List.Forall₂ Shape.Like i.interfaces j.interfaces ∧
    List.Forall₂ ArgumentLike i.parameters j.parameters := by
  obtain ⟨f, is, ps⟩ := i
  obtain ⟨g, js, qs⟩ := j
  obtain ⟨hi, hj, hnormal⟩ := h
  rw [Distinct] at hi hj
  simp only [Invocation.normal, mk.injEq] at hnormal
  exact ⟨hnormal.1, forall₂_like_of_map_eq hi.1 hj.1 hnormal.2.1,
    forall₂_argumentLike_of_eq hi.2 hj.2 hnormal.2.2⟩

lemma like_mk {f : String} {is js : List Shape} {ps qs : List Argument}
    (his : List.Forall₂ Shape.Like is js) (hps : List.Forall₂ ArgumentLike ps qs) :
    (mk f is ps).Like (mk f js qs) := by
  obtain ⟨hi, hj⟩ := Shape.forall_distinct_of_like his
  have hnormal : normalArguments ps = normalArguments qs := by
    induction hps with
    | nil => rfl
    | cons hab _ ih => rw [normalArguments, normalArguments, hab.normal, ih]
  have hdistinct : ArgumentsDistinct ps ∧ ArgumentsDistinct qs := by
    induction hps with
    | nil => exact ⟨trivial, trivial⟩
    | cons hab _ ih =>
      rw [normalArguments, normalArguments, List.cons.injEq] at hnormal
      exact ⟨⟨hab.left, (ih hnormal.2).1⟩, hab.right, (ih hnormal.2).2⟩
  exact ⟨⟨hi, hdistinct.1⟩, ⟨hj, hdistinct.2⟩, by
    rw [normal, normal, Shape.map_normal_of_like his, hnormal]⟩

lemma argumentLike_integer (value : Int64) : ArgumentLike (.integer value) (.integer value) :=
  ⟨trivial, trivial, rfl⟩

lemma argumentLike_function (h : i.Like j) : ArgumentLike (.function i) (.function j) :=
  ⟨h.left, h.right, by rw [normalArgument, normalArgument, h.normal]⟩

/-- Alike arguments are the same integer or alike invocations. -/
lemma ArgumentLike.cases (h : ArgumentLike a b) :
    (∃ value, a = .integer value ∧ b = .integer value) ∨
      ∃ i j, a = .function i ∧ b = .function j ∧ i.Like j := by
  obtain ⟨ha, hb, hnormal⟩ := h
  cases a with
  | integer m =>
    cases b with
    | integer n =>
      obtain rfl := Argument.integer.inj hnormal
      exact .inl ⟨m, rfl, rfl⟩
    | function j => cases hnormal
  | function i =>
    cases b with
    | integer n => cases hnormal
    | function j => exact .inr ⟨i, j, rfl, rfl, ha, hb, Argument.function.inj hnormal⟩

end Invocation

/-! ### Ports -/

/-- The ports have the same name and kind and alike shapes. -/
structure Port.Like (p q : Port) : Prop where
  name : p.name = q.name
  kind : p.kind = q.kind
  shape : p.shape.Like q.shape

structure Signature.Like (σ τ : Signature) : Prop where
  inputs : List.Forall₂ Port.Like σ.inputs τ.inputs
  outputs : List.Forall₂ Port.Like σ.outputs τ.outputs

lemma Port.like_signal (name : String) {s t : Shape} (h : s.Like t) :
    (signal name s).Like (signal name t) :=
  ⟨rfl, rfl, h⟩

lemma Port.map_shape_like {ps qs : List Port} (h : List.Forall₂ Port.Like ps qs) :
    List.Forall₂ Shape.Like (ps.map Port.shape) (qs.map Port.shape) := by
  induction h with
  | nil => exact .nil
  | cons hpq _ ih => exact .cons hpq.shape ih

/-! ### Primitives -/

namespace Primitive

/-- The primitives are the same up to the order of fields in their shapes. -/
inductive Like : Primitive → Primitive → Prop where
  | binary (op size) : Like (.binary op size) (.binary op size)
  | logical (op) : Like (.logical op) (.logical op)
  | not : Like .not .not
  | bitwiseNot (size) : Like (.bitwiseNot size) (.bitwiseNot size)
  | register {s t} : s.Like t → Like (.register s) (.register t)
  | literal (size value) : Like (.literal size value) (.literal size value)
  | selection (op count) {s t} : s.Like t → Like (.selection op s count) (.selection op t count)

lemma like_priorityEntry {s t : Shape} (h : s.Like t) : (priorityEntry s).Like (priorityEntry t) := by
  have hnames : ["condition", "value"].Nodup := by decide
  exact Shape.like_record_zip hnames (.cons Shape.like_wire (.cons h .nil))

lemma Like.signature {p q : Primitive} (h : Like p q) : p.signature.Like q.signature := by
  cases h with
  | binary op size =>
    have hresult : (if op.isComparison then Shape.wire else .bus size).Like
        (if op.isComparison then Shape.wire else .bus size) := by
      split
      · exact Shape.like_wire
      · exact Shape.like_bus size
    exact ⟨.cons (Port.like_signal _ (Shape.like_bus size))
      (.cons (Port.like_signal _ (Shape.like_bus size)) .nil),
      .cons (Port.like_signal _ hresult) .nil⟩
  | logical op =>
    exact ⟨.cons (Port.like_signal _ Shape.like_wire)
      (.cons (Port.like_signal _ Shape.like_wire) .nil),
      .cons (Port.like_signal _ Shape.like_wire) .nil⟩
  | not =>
    exact ⟨.cons (Port.like_signal _ Shape.like_wire) .nil,
      .cons (Port.like_signal _ Shape.like_wire) .nil⟩
  | bitwiseNot size =>
    exact ⟨.cons (Port.like_signal _ (Shape.like_bus size)) .nil,
      .cons (Port.like_signal _ (Shape.like_bus size)) .nil⟩
  | register hs =>
    exact ⟨.cons (Port.like_signal _ hs) .nil, .cons (Port.like_signal _ hs) .nil⟩
  | literal size value =>
    exact ⟨.nil, .cons (Port.like_signal _ (Shape.like_bus size)) .nil⟩
  | selection op count hs =>
    have hselector := Port.like_signal "selector" (Shape.like_bus (selectorWidth count))
    have hconditions := Port.like_signal "conditions" ((like_priorityEntry hs).vector count)
    cases op with
    | mux =>
      exact ⟨.cons hselector (.cons (Port.like_signal _ (hs.vector count)) .nil),
        .cons (Port.like_signal _ hs) .nil⟩
    | demux =>
      exact ⟨.cons hselector (.cons (Port.like_signal _ hs) .nil),
        .cons (Port.like_signal _ (hs.vector count)) .nil⟩
    | _ =>
      exact ⟨.cons hconditions (.cons (Port.like_signal _ hs) .nil),
        .cons (Port.like_signal _ hs) .nil⟩

lemma integerAt_congr {as bs : List Argument} (h : List.Forall₂ Invocation.ArgumentLike as bs)
    (op : PrimitiveOp) (index : Nat) : integerAt op as index = integerAt op bs index := by
  have hget := forall₂_getElem? h index
  unfold integerAt
  generalize as[index]? = x at hget
  generalize bs[index]? = y at hget
  cases hget with
  | none => rfl
  | some hab =>
    rcases hab.cases with ⟨value, rfl, rfl⟩ | ⟨i, j, rfl, rfl, -⟩
    · rfl
    · rfl

lemma sizeAt_congr {as bs : List Argument} (h : List.Forall₂ Invocation.ArgumentLike as bs)
    (op : PrimitiveOp) (index : Nat) : sizeAt op as index = sizeAt op bs index := by
  unfold sizeAt
  rw [integerAt_congr h]

lemma headD_like {ss ts : List Shape} (h : List.Forall₂ Shape.Like ss ts) :
    (ss.headD .wire).Like (ts.headD .wire) := by
  cases h with
  | nil => exact Shape.like_wire
  | cons hst _ => exact hst

/-- Alike invocations give alike primitives. -/
lemma ofInvocation_like {i j : Invocation} (h : i.Like j) {op : PrimitiveOp} {p : Primitive}
    (hp : ofInvocation op i = .ok p) : ∃ q, ofInvocation op j = .ok q ∧ Like p q := by
  obtain ⟨-, hinterfaces, hparameters⟩ := h.values
  have helement := headD_like hinterfaces
  have hwidth : ∀ count, (Shape.vector (i.interfaces.headD .wire) count).checkedWidth? =
      (Shape.vector (j.interfaces.headD .wire) count).checkedWidth? := by
    intro count
    rw [Shape.checkedWidth?_eq, Shape.checkedWidth?_eq, (helement.vector count).wireCount]
  unfold ofInvocation at hp ⊢
  rw [hinterfaces.length_eq, hparameters.length_eq] at hp
  simp only [sizeAt_congr hparameters, integerAt_congr hparameters, hwidth] at hp
  split at hp
  · cases hp
  · next hlengths =>
    rw [if_neg hlengths]
    cases op
    case register =>
      cases hp
      exact ⟨_, rfl, .register helement⟩
    case mux | demux | priority =>
      obtain ⟨count, hcount, hrest⟩ := exists_of_bind_eq_ok hp
      dsimp only
      rw [hcount]
      split at hrest
      · cases hrest
      · next hfits =>
        cases hrest
        exact ⟨_, if_neg hfits, .selection _ count helement⟩
    case and | or =>
      cases hp
      exact ⟨_, rfl, .logical _⟩
    case not =>
      cases hp
      exact ⟨_, rfl, .not⟩
    case literal =>
      obtain ⟨size, hsize, hrest⟩ := exists_of_bind_eq_ok hp
      obtain ⟨value, hvalue, hend⟩ := exists_of_bind_eq_ok hrest
      cases hend
      exact ⟨_, hp, .literal size value⟩
    case bitwiseNot =>
      obtain ⟨size, hsize, hrest⟩ := exists_of_bind_eq_ok hp
      cases hrest
      exact ⟨_, hp, .bitwiseNot size⟩
    all_goals
      obtain ⟨size, hsize, hrest⟩ := exists_of_bind_eq_ok hp
      cases hrest
      exact ⟨_, hp, .binary _ size⟩

lemma ofCall_like {i j : Invocation} (h : i.Like j) {op : PrimitiveOp} {p : Primitive}
    (hp : ofCall op i = .ok p) : ∃ q, ofCall op j = .ok q ∧ Like p q := by
  unfold ofCall at hp ⊢
  cases hi : ofInvocation op i with
  | error e =>
    rw [hi] at hp
    cases hp
  | ok p' =>
    rw [hi] at hp
    cases hp
    obtain ⟨q, hq, hlike⟩ := ofInvocation_like h hi
    exact ⟨q, by rw [hq]; rfl, hlike⟩

end Primitive

end NetlistCompiler
