import NetlistCompiler.Proofs.JsonText
import NetlistCompiler.Proofs.Traversals
import NetlistCompiler.Surface.Json

/-!
# Programs as documents

A written program is read back field by field. A reader refuses every document in which a known
field is garbled, so the text of a program is read exactly if nothing in it nests too deep.
-/

namespace NetlistCompiler

namespace Json

variable {α β : Type}

/-- The value describes `a`: reading it gives `a`, and reading what is left of it below a limit
fails if anything is garbled. -/
structure Describes (read : Json → Option α) (j : Json) (a : α) : Prop where
  plain : j.Plain
  read_cut : ∀ depth, read (j.cut depth) = if j.nesting ≤ depth then some a else none

section

variable {read : Json → Option α} {j : Json} {a : α}

lemma Describes.read_eq (h : Describes read j a) : read j = some a := by
  have hcut := h.read_cut j.nesting
  rwa [cut_of_nesting_le j le_rfl, if_pos le_rfl] at hcut

lemma Describes.read_text (h : Describes read j a) :
    (parse? j.render).bind read = if j.nesting ≤ nestingLimit then some a else none := by
  rw [parse?_render h.plain]
  exact h.read_cut nestingLimit

end

/-! ### Leaves -/

lemma describes_word {read : Json → Option α} {word : String} {a : α}
    (h : read (.string word) = some a) : Describes read (.string word) a :=
  ⟨trivial, fun _ => h⟩

lemma describes_string (s : String) : Describes string? (.string s) s :=
  describes_word rfl

lemma describes_int64 (value : Int64) : Describes int64? (.int value.toInt) value := by
  have hfits : fitsInt64 value.toInt := by
    have hlow := value.minValue_le_toInt
    have hhigh := value.toInt_le
    exact Bool.and_eq_true_iff.2 ⟨decide_eq_true hlow, decide_eq_true hhigh⟩
  refine ⟨trivial, fun depth => ?_⟩
  change (if fitsInt64 value.toInt then some (Int64.ofInt value.toInt) else none) = some value
  rw [if_pos hfits, Int64.ofInt_toInt]

/-! ### Arrays and objects -/

/-- The list that an array describes item by item. -/
def listOf? (read : Json → Option α) : Json → Option (List α)
  | .array items => items.mapM read
  | _ => none

lemma ite_some_bind (p : Prop) [Decidable p] (a : α) (f : α → Option β) :
    (if p then some a else none).bind f = if p then f a else none := by
  split <;> rfl

section

variable {read : Json → Option α}

lemma mapM_cutItems {write : α → Json} {as : List α}
    (h : ∀ a ∈ as, Describes read (write a) a) (depth : Nat) :
    (cutItems depth (as.map write)).mapM read =
      if itemsNesting (as.map write) ≤ depth then some as else none := by
  induction as with
  | nil => rfl
  | cons a as ih =>
    have hfirst := (h a List.mem_cons_self).read_cut depth
    have hrest := ih fun a' ha' => h a' (List.mem_cons_of_mem a ha')
    rw [List.map_cons, cutItems, List.mapM_cons, hfirst, hrest, itemsNesting]
    simp only [Option.bind_eq_bind, Option.pure_def, ite_some_bind, max_le_iff, ite_and]

lemma plainItems_map {write : α → Json} {as : List α}
    (h : ∀ a ∈ as, Describes read (write a) a) : PlainItems (as.map write) := by
  induction as with
  | nil => trivial
  | cons a as ih =>
    exact ⟨(h a List.mem_cons_self).plain, ih fun a' ha' => h a' (List.mem_cons_of_mem a ha')⟩

/-- An array describes the list of what its items describe. -/
lemma describes_ofList {write : α → Json} {as : List α}
    (h : ∀ a ∈ as, Describes read (write a) a) : Describes (listOf? read) (.ofList write as) as := by
  refine ⟨plainItems_map h, fun depth => ?_⟩
  rw [ofList, cut, nesting]
  by_cases hdepth : depth = 0
  · rw [if_pos hdepth, if_neg (by omega)]
    rfl
  · have hle : itemsNesting (as.map write) + 1 ≤ depth ↔
        itemsNesting (as.map write) ≤ depth - 1 := by omega
    rw [if_neg hdepth, listOf?, mapM_cutItems h, if_congr hle rfl rfl]

variable {a : α} {members : List (String × Json)}

lemma describes_object (hplain : PlainMembers members) (hgarbled : read .garbled = none)
    (h : ∀ depth, read (.object (cutMembers depth members)) =
      if membersNesting members ≤ depth then some a else none) :
    Describes read (.object members) a := by
  refine ⟨hplain, fun depth => ?_⟩
  rw [cut, nesting]
  by_cases hdepth : depth = 0
  · rw [if_pos hdepth, if_neg (by omega), hgarbled]
  · have hle : membersNesting members + 1 ≤ depth ↔ membersNesting members ≤ depth - 1 := by omega
    rw [if_neg hdepth, h, if_congr hle rfl rfl]

lemma describes_tagged {tag : String} {body : Json} (hplain : body.Plain)
    (hgarbled : read .garbled = none)
    (h : ∀ depth, read (.tagged tag (body.cut depth)) =
      if body.nesting ≤ depth then some a else none) :
    Describes read (.tagged tag body) a := by
  refine describes_object ⟨hplain, trivial⟩ hgarbled fun depth => ?_
  rw [cutMembers, cutMembers, membersNesting, membersNesting, max_eq_left (Nat.zero_le _)]
  exact h depth

/-- An alternative whose body is a record. -/
lemma describes_variant {tag : String} (hplain : PlainMembers members)
    (hgarbled : read .garbled = none) (hbody : read (.tagged tag .garbled) = none)
    (h : ∀ depth, read (.tagged tag (.object (cutMembers depth members))) =
      if membersNesting members ≤ depth then some a else none) :
    Describes read (.tagged tag (.object members)) a :=
  have hrecord : Describes (fun j => read (.tagged tag j)) (.object members) a :=
    describes_object hplain hbody h
  describes_tagged hrecord.plain hgarbled hrecord.read_cut

end

@[simp] lemma membersNesting_nil_le (depth : Nat) : membersNesting [] ≤ depth :=
  Nat.zero_le _

@[simp] lemma membersNesting_cons_le (m : String × Json) (rest : List (String × Json))
    (depth : Nat) : membersNesting (m :: rest) ≤ depth ↔
      m.2.nesting ≤ depth ∧ membersNesting rest ≤ depth := by
  rw [membersNesting, max_le_iff]

/-! ### Parts of a value -/

@[simp] lemma items?_bind_mapM {j : Json} (read : Json → Option α) (p : Part j)
    (f : List α → Option β) :
    (p.items?.bind fun items => (items.unattach.mapM read).bind f) = (listOf? read p.1).bind f := by
  obtain ⟨j', hj'⟩ := p
  cases j' with
  | array items =>
    simp only [Part.items?, items?, Option.map_some, Option.bind_some, listOf?]
    rw [List.unattach, List.map_map, List.map_map]
    exact congrArg (fun l => (List.mapM read l).bind f) items.attach_map_subtype_val
  | _ => rfl

lemma variant?_tagged_bind (tag : String) (body : Json)
    (f : String × Part (tagged tag body) → Option β) :
    (tagged tag body).variant? >>= f =
      f (tag, ⟨body, sizeOf_lt_of_mem_members (List.mem_singleton_self (tag, body))⟩) :=
  rfl

end Json

namespace Surface

open Json

lemma listOfJson?_eq {α : Type} {j : Json} (read : Json → Option α) (p : Part j) :
    listOfJson? read p = listOf? read p.1 := by
  have h := items?_bind_mapM read p some
  simpa [listOfJson?] using h

lemma listOr_some {α : Type} {j : Json} (read : Json → Option α) (p : Part j) :
    listOr read (some p) = listOf? read p.1 :=
  listOfJson?_eq read p

/-! ### Expressions -/

lemma Expr.listToJson_eq (es : List Expr) : .array (Expr.listToJson es) = ofList Expr.toJson es := by
  have h : Expr.listToJson es = es.map Expr.toJson := by
    induction es with
    | nil => rfl
    | cons e es ih => rw [Expr.listToJson, ih, List.map_cons]
  rw [h, ofList]

lemma BinaryOp.ofWord?_word (op : BinaryOp) : BinaryOp.ofWord? op.word = some op := by
  cases op <;> rfl

lemma Expr.ofJson?_garbled : Expr.ofJson? .garbled = none := by
  rw [Expr.ofJson?]
  rfl

lemma Expr.ofJson?_tagged_garbled {tag : String} (h : tag ∈ ["atom", "accessor", "binary"]) :
    Expr.ofJson? (.tagged tag .garbled) = none := by
  simp only [List.mem_cons, List.not_mem_nil, or_false] at h
  rw [Expr.ofJson?]
  rcases h with rfl | rfl | rfl <;> rfl

lemma Expr.ofJson?_atom (name arguments : Json) :
    Expr.ofJson? (.tagged "atom"
      (.object [("identifier", name), ("parameter_values", arguments)])) = do
      let name ← name.string?
      let arguments ← listOf? Expr.ofJson? arguments
      return .atom name arguments := by
  rw [Expr.ofJson?, variant?_tagged_bind]
  simp [Part.record?, record?, List.lookup, Part.below, itemsOr]

lemma Expr.ofJson?_literal (value : Json) :
    Expr.ofJson? (.tagged "int_literal" value) = do return .literal (← value.int64?) := by
  rw [Expr.ofJson?, variant?_tagged_bind]
  simp

lemma Expr.ofJson?_access (accessed accessor : Json) :
    Expr.ofJson? (.tagged "accessor"
      (.object [("accessed", accessed), ("accessor", accessor)])) = do
      return .access (← Expr.ofJson? accessed) (← Accessor.ofJson? accessor) := by
  rw [Expr.ofJson?, variant?_tagged_bind]
  simp [Part.record?, record?, List.lookup, Part.below]

lemma Expr.ofJson?_parenthesized (inner : Json) :
    Expr.ofJson? (.tagged "parenthesized" inner) = do
      return .parenthesized (← Expr.ofJson? inner) := by
  rw [Expr.ofJson?, variant?_tagged_bind]
  simp

lemma Expr.ofJson?_binary (op : String) (lhs rhs : Json) :
    Expr.ofJson? (.tagged "binary"
      (.object [("op", .string op), ("lhs", lhs), ("rhs", rhs)])) = do
      return .binary (← BinaryOp.ofWord? op) (← Expr.ofJson? lhs) (← Expr.ofJson? rhs) := by
  rw [Expr.ofJson?, variant?_tagged_bind]
  simp [variant?, Part.record?, record?, List.lookup, Part.below]

lemma Accessor.ofJson?_garbled : Accessor.ofJson? .garbled = none := by
  rw [Accessor.ofJson?]
  rfl

lemma Accessor.ofJson?_tagged_garbled {tag : String}
    (h : tag ∈ ["vector_item", "vector_slice", "member"]) :
    Accessor.ofJson? (.tagged tag .garbled) = none := by
  simp only [List.mem_cons, List.not_mem_nil, or_false] at h
  rw [Accessor.ofJson?]
  rcases h with rfl | rfl | rfl <;> rfl

lemma Accessor.ofJson?_item (index : Json) :
    Accessor.ofJson? (.tagged "vector_item" (.object [("index", index)])) = do
      return .item (← Expr.ofJson? index) := by
  rw [Accessor.ofJson?, variant?_tagged_bind]
  simp [Part.record?, record?, List.lookup, Part.below]

lemma Accessor.ofJson?_slice (first last : Json) :
    Accessor.ofJson? (.tagged "vector_slice" (.object [("start", first), ("end", last)])) = do
      return .slice (← Expr.ofJson? first) (← Expr.ofJson? last) := by
  rw [Accessor.ofJson?, variant?_tagged_bind]
  simp [Part.record?, record?, List.lookup, Part.below]

lemma Accessor.ofJson?_member (name : Json) :
    Accessor.ofJson? (.tagged "member" (.object [("port_identifier", name)])) = do
      return .member (← name.string?) := by
  rw [Accessor.ofJson?, variant?_tagged_bind]
  simp [Part.record?, record?, List.lookup, Part.below]

mutual

theorem Expr.describes : ∀ e : Expr, Describes Expr.ofJson? e.toJson e
  | .atom name arguments => by
    have harguments : Describes (listOf? Expr.ofJson?) (ofList Expr.toJson arguments) arguments :=
      describes_ofList fun e _ => Expr.describes e
    rw [Expr.toJson, Expr.listToJson_eq]
    refine describes_variant ⟨(describes_string name).plain, harguments.plain, trivial⟩
      Expr.ofJson?_garbled (Expr.ofJson?_tagged_garbled (by simp)) fun depth => ?_
    simp [cutMembers, Expr.ofJson?_atom, (describes_string name).read_cut, harguments.read_cut,
      ite_some_bind, ite_and]
  | .wire => describes_word (by rw [Expr.ofJson?]; rfl)
  | .truth true => describes_word (by rw [Expr.ofJson?]; rfl)
  | .truth false => describes_word (by rw [Expr.ofJson?]; rfl)
  | .literal value => by
    have hvalue := describes_int64 value
    refine describes_tagged hvalue.plain Expr.ofJson?_garbled fun depth => ?_
    simp [Expr.ofJson?_literal, hvalue.read_cut, ite_some_bind]
  | .access accessed accessor => by
    have haccessed := Expr.describes accessed
    have haccessor := Accessor.describes accessor
    refine describes_variant ⟨haccessed.plain, haccessor.plain, trivial⟩ Expr.ofJson?_garbled
      (Expr.ofJson?_tagged_garbled (by simp)) fun depth => ?_
    simp [cutMembers, Expr.ofJson?_access, haccessed.read_cut, haccessor.read_cut, ite_some_bind,
      ite_and]
  | .parenthesized inner => by
    have hinner := Expr.describes inner
    refine describes_tagged hinner.plain Expr.ofJson?_garbled fun depth => ?_
    simp [Expr.ofJson?_parenthesized, hinner.read_cut, ite_some_bind]
  | .binary op lhs rhs => by
    have hlhs := Expr.describes lhs
    have hrhs := Expr.describes rhs
    refine describes_variant ⟨trivial, hlhs.plain, hrhs.plain, trivial⟩ Expr.ofJson?_garbled
      (Expr.ofJson?_tagged_garbled (by simp)) fun depth => ?_
    simp [cutMembers, cut, nesting, Expr.ofJson?_binary, BinaryOp.ofWord?_word, hlhs.read_cut,
      hrhs.read_cut, ite_some_bind, ite_and]
termination_by e => sizeOf e

theorem Accessor.describes : ∀ a : Accessor, Describes Accessor.ofJson? a.toJson a
  | .item index => by
    have hindex := Expr.describes index
    refine describes_variant ⟨hindex.plain, trivial⟩ Accessor.ofJson?_garbled
      (Accessor.ofJson?_tagged_garbled (by simp)) fun depth => ?_
    simp [cutMembers, Accessor.ofJson?_item, hindex.read_cut, ite_some_bind]
  | .slice first last => by
    have hfirst := Expr.describes first
    have hlast := Expr.describes last
    refine describes_variant ⟨hfirst.plain, hlast.plain, trivial⟩ Accessor.ofJson?_garbled
      (Accessor.ofJson?_tagged_garbled (by simp)) fun depth => ?_
    simp [cutMembers, Accessor.ofJson?_slice, hfirst.read_cut, hlast.read_cut, ite_some_bind,
      ite_and]
  | .member name => by
    have hname := describes_string name
    refine describes_variant ⟨hname.plain, trivial⟩ Accessor.ofJson?_garbled
      (Accessor.ofJson?_tagged_garbled (by simp)) fun depth => ?_
    simp [cutMembers, Accessor.ofJson?_member, hname.read_cut, ite_some_bind]
termination_by a => sizeOf a

end

/-! ### Chains and statements -/

/-- The nodes that the value of a stage describes. -/
def Chain.group? (j : Json) : Option (List Node) := do
  let parts ← j.record? ["grouped_nodes"]
  listOfJson? Node.ofJson? (← parts.lookup "grouped_nodes")

lemma Chain.group?_garbled : Chain.group? .garbled = none :=
  rfl

lemma Chain.group?_object (nodes : Json) :
    Chain.group? (.object [("grouped_nodes", nodes)]) = listOf? Node.ofJson? nodes := by
  simp [Chain.group?, record?, List.lookup, listOfJson?_eq]

/-- A stage is read the same way as a part of a larger value. -/
lemma Chain.group?_part {j : Json} (p : Part j) :
    (do
      let parts ← p.record? ["grouped_nodes"]
      let nodes ← (← parts.lookup "grouped_nodes").items?
      nodes.mapM fun q => Node.ofJson? q.1) = Chain.group? p.1 := by
  change (p.record? _ >>= fun parts => parts.lookup _ >>= listOfJson? Node.ofJson?) = _
  simp only [Part.record?, Chain.group?, Option.bind_map, Option.bind_eq_bind, Function.comp_def,
    lookup_map_snd p.below, listOfJson?_eq]
  rfl

/-- Reading all stages and then all nodes is reading stage by stage. -/
lemma mapM_bind_mapM {α β γ : Type} (f : α → Option β) (g : β → Option γ) (as : List α) :
    (as.mapM f).bind (fun bs => bs.mapM g) = as.mapM fun a => (f a).bind g := by
  induction as with
  | nil => rfl
  | cons a as ih =>
    simp only [List.mapM_cons, Option.bind_eq_bind, Option.pure_def, ← ih]
    cases f a <;> cases as.mapM f <;> simp

lemma Chain.ofPart?_object {j groups : Json}
    (h : sizeOf (Json.object [("connected_groups", groups)]) < sizeOf j) :
    Chain.ofPart? ⟨.object [("connected_groups", groups)], h⟩ = listOf? Chain.group? groups := by
  have hgroups (p : Part j) : (do
      let groups ← (← p.items?).mapM fun group => do
        let parts ← group.record? ["grouped_nodes"]
        (← parts.lookup "grouped_nodes").items?
      groups.mapM fun group => group.mapM fun q => Node.ofJson? q.1) =
      listOf? Chain.group? p.1 := by
    simp only [mapM_bind_mapM, ← listOfJson?_eq, ← Chain.group?_part, listOfJson?,
      Option.bind_eq_bind, Option.bind_assoc]
  have hsize : sizeOf groups < sizeOf j :=
    lt_trans (sizeOf_lt_of_mem_members (List.mem_singleton_self ("connected_groups", groups))) h
  exact (Option.bind_assoc _ _ _).trans (hgroups ⟨groups, hsize⟩)

lemma Node.ofJson?_garbled : Node.ofJson? .garbled = none := by
  rw [Node.ofJson?]
  rfl

lemma Node.ofJson?_tagged_garbled {tag : String} (h : tag ∈ ["declared", "parentheses"]) :
    Node.ofJson? (.tagged tag .garbled) = none := by
  simp only [List.mem_cons, List.not_mem_nil, or_false] at h
  rw [Node.ofJson?]
  rcases h with rfl | rfl <;> rfl

lemma Node.ofJson?_lone (expr : Json) :
    Node.ofJson? (.tagged "lone" expr) = do return .lone (← Expr.ofJson? expr) := by
  rw [Node.ofJson?, variant?_tagged_bind]
  simp

lemma Node.ofJson?_declared (name type : Json) :
    Node.ofJson? (.tagged "declared"
      (.object [("declared_identifier", name), ("type", type)])) = do
      return .declared (← name.string?) (← Expr.ofJson? type) := by
  rw [Node.ofJson?, variant?_tagged_bind]
  simp [Part.record?, record?, List.lookup, Part.below]

lemma Node.ofJson?_parentheses (groups : Json) :
    Node.ofJson? (.tagged "parentheses" (.object [("connected_groups", groups)])) = do
      return .parentheses (← listOf? Chain.group? groups) := by
  have hsize := sizeOf_lt_of_mem_members
    (List.mem_singleton_self ("parentheses", Json.object [("connected_groups", groups)]))
  rw [← Chain.ofPart?_object hsize, Node.ofJson?]
  simp [tagged, variant?, Chain.ofPart?, Option.bind_assoc]

lemma describes_group {group : List Node} (h : ∀ n ∈ group, Describes Node.ofJson? n.toJson n) :
    Describes Chain.group? (.object [("grouped_nodes", ofList Node.toJson group)]) group := by
  have hnodes := describes_ofList h
  refine describes_object ⟨hnodes.plain, trivial⟩ Chain.group?_garbled fun depth => ?_
  simp [cutMembers, Chain.group?_object, hnodes.read_cut]

lemma Node.listToJson_eq (group : List Node) :
    .array (Node.listToJson group) = ofList Node.toJson group := by
  have h : Node.listToJson group = group.map Node.toJson := by
    induction group with
    | nil => rfl
    | cons node group ih => rw [Node.listToJson, ih, List.map_cons]
  rw [h, ofList]

lemma Node.groupsToJson_eq (chain : Chain) :
    .array (Node.groupsToJson chain) =
      ofList (fun group => .object [("grouped_nodes", ofList Node.toJson group)]) chain := by
  have h : Node.groupsToJson chain =
      chain.map fun group => .object [("grouped_nodes", ofList Node.toJson group)] := by
    induction chain with
    | nil => rfl
    | cons group chain ih => rw [Node.groupsToJson, ih, List.map_cons, Node.listToJson_eq]
  rw [h, ofList]

theorem Node.describes (n : Node) : Describes Node.ofJson? n.toJson n := by
  cases n with
  | lone expr =>
    have hexpr := Expr.describes expr
    refine describes_tagged hexpr.plain Node.ofJson?_garbled fun depth => ?_
    simp [Node.ofJson?_lone, hexpr.read_cut, ite_some_bind]
  | declared name type =>
    have hname := describes_string name
    have htype := Expr.describes type
    refine describes_variant ⟨hname.plain, htype.plain, trivial⟩ Node.ofJson?_garbled
      (Node.ofJson?_tagged_garbled (by simp)) fun depth => ?_
    simp [cutMembers, Node.ofJson?_declared, hname.read_cut, htype.read_cut, ite_some_bind, ite_and]
  | parentheses chain =>
    have hgroups := describes_ofList fun group (_ : group ∈ chain) =>
      describes_group fun n (_ : n ∈ group) => Node.describes n
    rw [Node.toJson, Node.groupsToJson_eq]
    refine describes_variant ⟨hgroups.plain, trivial⟩ Node.ofJson?_garbled
      (Node.ofJson?_tagged_garbled (by simp)) fun depth => ?_
    simp [cutMembers, Node.ofJson?_parentheses, hgroups.read_cut, ite_some_bind]
termination_by sizeOf n
decreasing_by
  have hnode := List.sizeOf_lt_of_mem ‹n ∈ group›
  have hgroup := List.sizeOf_lt_of_mem ‹group ∈ chain›
  simp only [Node.parentheses.sizeOf_spec]
  omega

lemma Statement.ofJson?_garbled : Statement.ofJson? .garbled = none := by
  rw [Statement.ofJson?]
  rfl

lemma Statement.ofJson?_tagged_garbled {tag : String} (h : tag ∈ ["conditional", "non_conditional"]) :
    Statement.ofJson? (.tagged tag .garbled) = none := by
  simp only [List.mem_cons, List.not_mem_nil, or_false] at h
  rw [Statement.ofJson?]
  rcases h with rfl | rfl <;> rfl

lemma Statement.ofJson?_conditional (predicate thenBody elseBody : Json) :
    Statement.ofJson? (.tagged "conditional" (.object [("predicate", predicate),
      ("if_body", thenBody), ("else_body", elseBody)])) = do
      let predicate ← Expr.ofJson? predicate
      let thenBody ← listOf? Statement.ofJson? thenBody
      let elseBody ← listOf? Statement.ofJson? elseBody
      return .conditional predicate thenBody elseBody := by
  rw [Statement.ofJson?, variant?_tagged_bind]
  simp [Part.record?, record?, List.lookup, Part.below, itemsOr]

lemma Statement.ofJson?_connection (groups : Json) :
    Statement.ofJson? (.tagged "non_conditional" (.object [("connected_groups", groups)])) = do
      return .connection (← listOf? Chain.group? groups) := by
  have hsize := sizeOf_lt_of_mem_members
    (List.mem_singleton_self ("non_conditional", Json.object [("connected_groups", groups)]))
  rw [← Chain.ofPart?_object hsize, Statement.ofJson?]
  simp [tagged, variant?]

lemma Statement.listToJson_eq (body : List Statement) :
    .array (Statement.listToJson body) = ofList Statement.toJson body := by
  have h : Statement.listToJson body = body.map Statement.toJson := by
    induction body with
    | nil => rfl
    | cons s body ih => rw [Statement.listToJson, ih, List.map_cons]
  rw [h, ofList]

theorem Statement.describes : ∀ s : Statement, Describes Statement.ofJson? s.toJson s
  | .conditional predicate thenBody elseBody => by
    have hpredicate := Expr.describes predicate
    have hthen := describes_ofList fun s (_ : s ∈ thenBody) => Statement.describes s
    have helse := describes_ofList fun s (_ : s ∈ elseBody) => Statement.describes s
    rw [Statement.toJson, Statement.listToJson_eq, Statement.listToJson_eq]
    refine describes_variant ⟨hpredicate.plain, hthen.plain, helse.plain, trivial⟩
      Statement.ofJson?_garbled (Statement.ofJson?_tagged_garbled (by simp)) fun depth => ?_
    simp [cutMembers, Statement.ofJson?_conditional, hpredicate.read_cut, hthen.read_cut,
      helse.read_cut, ite_some_bind, ite_and]
  | .connection chain => by
    have hgroups := describes_ofList fun group (_ : group ∈ chain) =>
      describes_group fun n (_ : n ∈ group) => Node.describes n
    rw [Statement.toJson, Chain.toJson, Node.groupsToJson_eq]
    refine describes_variant ⟨hgroups.plain, trivial⟩ Statement.ofJson?_garbled
      (Statement.ofJson?_tagged_garbled (by simp)) fun depth => ?_
    simp [cutMembers, Statement.ofJson?_connection, hgroups.read_cut, ite_some_bind]
termination_by s => sizeOf s

/-! ### Definitions -/

lemma ParameterType.ofJson?_function (inputs outputs : Json) :
    ParameterType.ofJson? (.tagged "function"
      (.object [("inputs", inputs), ("outputs", outputs)])) = do
      return .function (← listOf? Expr.ofJson? inputs) (← listOf? Expr.ofJson? outputs) := by
  rw [ParameterType.ofJson?, variant?_tagged_bind]
  simp [Part.record?, record?, List.lookup, Part.below, listOfJson?_eq]

theorem ParameterType.describes (t : ParameterType) :
    Describes ParameterType.ofJson? t.toJson t := by
  cases t with
  | integer => exact describes_word rfl
  | interface => exact describes_word rfl
  | function inputs outputs =>
    have hinputs := describes_ofList fun e (_ : e ∈ inputs) => Expr.describes e
    have houtputs := describes_ofList fun e (_ : e ∈ outputs) => Expr.describes e
    refine describes_variant ⟨hinputs.plain, houtputs.plain, trivial⟩ rfl rfl fun depth => ?_
    simp [cutMembers, ParameterType.ofJson?_function, hinputs.read_cut, houtputs.read_cut,
      ite_some_bind, ite_and]

lemma Parameter.ofJson?_object (name type : Json) :
    Parameter.ofJson? (.object [("declared_identifier", name), ("type", type)]) = do
      return ⟨← name.string?, ← ParameterType.ofJson? type⟩ := by
  simp [Parameter.ofJson?, record?, List.lookup]

theorem Parameter.describes (p : Parameter) : Describes Parameter.ofJson? p.toJson p := by
  have hname := describes_string p.name
  have htype := p.type.describes
  refine describes_object ⟨hname.plain, htype.plain, trivial⟩ rfl fun depth => ?_
  simp [cutMembers, Parameter.ofJson?_object, hname.read_cut, htype.read_cut, ite_some_bind, ite_and]

lemma Member.ofJson?_object (name type : Json) :
    Member.ofJson? (.object [("declared_identifier", name), ("interface_type", type)]) = do
      return ⟨← name.string?, ← Expr.ofJson? type⟩ := by
  simp [Member.ofJson?, record?, List.lookup]

theorem Member.describes (m : Member) : Describes Member.ofJson? m.toJson m := by
  have hname := describes_string m.name
  have htype := m.type.describes
  refine describes_object ⟨hname.plain, htype.plain, trivial⟩ rfl fun depth => ?_
  simp [cutMembers, Member.ofJson?_object, hname.read_cut, htype.read_cut, ite_some_bind, ite_and]

lemma InterfaceDefinition.ofJson?_alias (name parameters interface : Json) :
    InterfaceDefinition.ofJson? (.tagged "alias" (.object [("declared_identifier", name),
      ("parameter_definitions", parameters), ("aliased_interface", interface)])) = do
      let name ← name.string?
      let parameters ← listOf? Parameter.ofJson? parameters
      return ⟨name, parameters, .alias (← Expr.ofJson? interface)⟩ := by
  rw [InterfaceDefinition.ofJson?, variant?_tagged_bind]
  simp [Part.record?, record?, List.lookup,
    Part.below, listOr_some]

lemma InterfaceDefinition.ofJson?_record (name parameters members : Json) :
    InterfaceDefinition.ofJson? (.tagged "record" (.object [("declared_identifier", name),
      ("parameter_definitions", parameters), ("ports", members)])) = do
      let name ← name.string?
      let parameters ← listOf? Parameter.ofJson? parameters
      return ⟨name, parameters, .record (← listOf? Member.ofJson? members)⟩ := by
  rw [InterfaceDefinition.ofJson?, variant?_tagged_bind]
  simp [Part.record?, record?, List.lookup,
    Part.below, listOr_some, listOfJson?_eq]

theorem InterfaceDefinition.describes (d : InterfaceDefinition) :
    Describes InterfaceDefinition.ofJson? d.toJson d := by
  obtain ⟨name, parameters, body⟩ := d
  have hname := describes_string name
  have hparameters := describes_ofList fun p (_ : p ∈ parameters) => p.describes
  rcases body with interface | members
  · have hinterface := interface.describes
    refine describes_variant ⟨hname.plain, hparameters.plain, hinterface.plain, trivial⟩ rfl rfl
      fun depth => ?_
    simp [cutMembers, InterfaceDefinition.ofJson?_alias, hname.read_cut, hparameters.read_cut,
      hinterface.read_cut, ite_some_bind, ite_and]
  · have hmembers := describes_ofList fun m (_ : m ∈ members) => m.describes
    refine describes_variant ⟨hname.plain, hparameters.plain, hmembers.plain, trivial⟩ rfl rfl
      fun depth => ?_
    simp [cutMembers, InterfaceDefinition.ofJson?_record, hname.read_cut, hparameters.read_cut,
      hmembers.read_cut, ite_some_bind, ite_and]

lemma describes_portKind (kind : PortKind) : Describes portKindOfJson? (.string kind.word) kind := by
  cases kind <;> exact describes_word rfl

lemma FunctionPort.ofJson?_object (name type kind : Json) :
    FunctionPort.ofJson? (.object [("declared_identifier", name), ("interface_type", type),
      ("kind", kind)]) = do
      return ⟨← name.string?, ← Expr.ofJson? type, ← portKindOfJson? kind⟩ := by
  simp [FunctionPort.ofJson?, record?, List.lookup]

theorem FunctionPort.describes (p : FunctionPort) : Describes FunctionPort.ofJson? p.toJson p := by
  have hname := describes_string p.name
  have htype := p.type.describes
  have hkind := describes_portKind p.kind
  refine describes_object ⟨hname.plain, htype.plain, hkind.plain, trivial⟩ rfl fun depth => ?_
  simp [cutMembers, FunctionPort.ofJson?_object, hname.read_cut, htype.read_cut, hkind.read_cut,
    ite_some_bind, ite_and]

lemma FunctionDefinition.ofJson?_object (name parameters inputs outputs statements : Json) :
    FunctionDefinition.ofJson? (.object [("declared_identifier", name),
      ("parameter_definitions", parameters), ("inputs", inputs), ("outputs", outputs),
      ("statements", statements)]) = do
      let name ← name.string?
      let parameters ← listOf? Parameter.ofJson? parameters
      let inputs ← listOf? FunctionPort.ofJson? inputs
      let outputs ← listOf? FunctionPort.ofJson? outputs
      return ⟨name, parameters, inputs, outputs, ← listOf? Statement.ofJson? statements⟩ := by
  simp [FunctionDefinition.ofJson?, record?, List.lookup, listOr_some]

theorem FunctionDefinition.describes (d : FunctionDefinition) :
    Describes FunctionDefinition.ofJson? d.toJson d := by
  have hname := describes_string d.name
  have hparameters := describes_ofList fun p (_ : p ∈ d.parameters) => p.describes
  have hinputs := describes_ofList fun p (_ : p ∈ d.inputs) => p.describes
  have houtputs := describes_ofList fun p (_ : p ∈ d.outputs) => p.describes
  have hstatements := describes_ofList fun s (_ : s ∈ d.statements) => s.describes
  refine describes_object ⟨hname.plain, hparameters.plain, hinputs.plain, houtputs.plain,
    hstatements.plain, trivial⟩ rfl fun depth => ?_
  simp [cutMembers, FunctionDefinition.ofJson?_object, hname.read_cut, hparameters.read_cut,
    hinputs.read_cut, houtputs.read_cut, hstatements.read_cut, ite_some_bind, ite_and]

/-! ### Programs -/

lemma Program.ofJson?_object (interfaces functions : Json) :
    Program.ofJson? (.object [("interface_definitions", interfaces),
      ("function_definitions", functions)]) = do
      return ⟨← listOf? InterfaceDefinition.ofJson? interfaces,
        ← listOf? FunctionDefinition.ofJson? functions⟩ := by
  simp [Program.ofJson?, record?, List.lookup, listOr_some]

theorem Program.describes (p : Program) : Describes Program.ofJson? p.toJson p := by
  have hinterfaces := describes_ofList fun d (_ : d ∈ p.interfaces) => d.describes
  have hfunctions := describes_ofList fun d (_ : d ∈ p.functions) => d.describes
  refine describes_object ⟨hinterfaces.plain, hfunctions.plain, trivial⟩ rfl fun depth => ?_
  simp [cutMembers, Program.ofJson?_object, hinterfaces.read_cut, hfunctions.read_cut,
    ite_some_bind, ite_and]

/-- Different programs have different texts, those that nest too deep to be read included. -/
lemma Program.render_toJson_injective : Function.Injective fun p : Program => p.toJson.render := by
  intro p p' heq
  have hvalue : p.toJson = p'.toJson := render_injective p.describes.plain p'.describes.plain heq
  have hread : some p = some p' := by
    rw [← p.describes.read_eq, ← p'.describes.read_eq, hvalue]
  exact Option.some_injective _ hread

/-- Reading what was written gives the program back. On the text this is limited by how deep a
document may nest: a program whose document nests deeper is refused, never misread. -/
theorem Program.written_reads_back :
    (∀ p : Program, Program.ofJson? p.toJson = some p) ∧
    (Function.Injective fun p : Program => p.toJson.render) ∧
    ∀ p : Program, (parse? p.toJson.render).bind Program.ofJson? =
      if p.toJson.nesting ≤ nestingLimit then some p else none :=
  ⟨fun p => p.describes.read_eq, Program.render_toJson_injective, fun p => p.describes.read_text⟩

/-- An alias of a wire in parentheses: a document that nests 128 deep. -/
def Program.deepAlias : Program :=
  ⟨[⟨"x", [], .alias (Expr.parenthesized^[124] .wire)⟩], []⟩

theorem Program.deepAlias_text_refused : Program.ofJson? Program.deepAlias.toJson =
    some Program.deepAlias ∧ (parse? Program.deepAlias.toJson.render).bind Program.ofJson? = none := by
  have hdeep : ¬ Program.deepAlias.toJson.nesting ≤ nestingLimit := by decide +kernel
  refine ⟨Program.deepAlias.describes.read_eq, ?_⟩
  rw [Program.deepAlias.describes.read_text, if_neg hdeep]

end Surface

end NetlistCompiler
