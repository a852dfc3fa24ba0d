import NetlistCompiler.Proofs.RenumberedDesigns

/-!
# Reordered programs

The statements of a block may stand in any order. Since the nodes of a block are visible in all of
it, names refer to the same things in either order, and a name that is declared twice is declared
twice in either order. So a program in another order is resolved to the same program in another
order.
-/

namespace NetlistCompiler

namespace Surface

/-- The statements are the same up to the order of statements in their blocks. -/
inductive Statement.Shuffled : Statement → Statement → Prop where
  | connection (chain : Chain) : Shuffled (.connection chain) (.connection chain)
  | conditional (predicate : Expr) {thens thens₁ thens' elses elses₁ elses' : List Statement} :
    List.Forall₂ Shuffled thens thens₁ → thens₁.Perm thens' →
    List.Forall₂ Shuffled elses elses₁ → elses₁.Perm elses' →
    Shuffled (.conditional predicate thens elses) (.conditional predicate thens' elses')

structure FunctionDefinition.Shuffled (d d' : FunctionDefinition) : Prop where
  name : d'.name = d.name
  parameters : d'.parameters = d.parameters
  inputs : d'.inputs = d.inputs
  outputs : d'.outputs = d.outputs
  statements : PermRel Statement.Shuffled d.statements d'.statements

/-- The programs are the same up to the order of statements in the blocks of their functions: in
the bodies and in the branches of conditionals, at any depth. -/
structure Program.Reordered (source source' : Program) : Prop where
  interfaces : source'.interfaces = source.interfaces
  functions : List.Forall₂ FunctionDefinition.Shuffled source.functions source'.functions

mutual

lemma Statement.Shuffled.symm : ∀ (s : Statement) {s' : Statement}, s.Shuffled s' → s'.Shuffled s
  | .connection _, _, .connection _ => .connection _
  | .conditional predicate thens elses, _, .conditional _ hthens hthens' helses helses' => by
    obtain ⟨_, hthens₁, hthens₂⟩ :=
      List.perm_comp_forall₂ hthens'.symm (Statement.Shuffled.all_symm thens hthens)
    obtain ⟨_, helses₁, helses₂⟩ :=
      List.perm_comp_forall₂ helses'.symm (Statement.Shuffled.all_symm elses helses)
    exact .conditional predicate hthens₁ hthens₂ helses₁ helses₂

lemma Statement.Shuffled.all_symm : ∀ (block : List Statement) {block' : List Statement},
    List.Forall₂ Statement.Shuffled block block' → List.Forall₂ Statement.Shuffled block' block
  | [], _, .nil => .nil
  | s :: rest, _, .cons hs hrest =>
    .cons (Statement.Shuffled.symm s hs) (Statement.Shuffled.all_symm rest hrest)

end

lemma Program.Reordered.symm {source source' : Program} (h : source.Reordered source') :
    source'.Reordered source := by
  refine ⟨h.interfaces.symm, List.Forall₂.flip (h.functions.imp ?_)⟩
  intro d d' hd
  obtain ⟨block, hblock, hperm⟩ := hd.statements
  exact ⟨hd.name.symm, hd.parameters.symm, hd.inputs.symm, hd.outputs.symm,
    List.perm_comp_forall₂ hperm.symm (Statement.Shuffled.all_symm _ hblock)⟩

end Surface

/-! ### Scopes -/

/-- The first declaration of every name is the only one, and no primitive is declared. -/
lemma Frame.redeclared?_eq_none_iff {seen : List String} {symbols : List (String × Declaration)} :
    redeclared? seen symbols = none ↔ (symbols.map Prod.fst).Nodup ∧
      ∀ name ∈ symbols.map Prod.fst, name ∉ seen ∧ (PrimitiveOp.ofName? name).isSome = false := by
  induction symbols generalizing seen with
  | nil => simp [redeclared?]
  | cons f rest ih =>
    obtain ⟨name, declaration⟩ := f
    rw [redeclared?]
    split
    · next hold =>
      rw [Bool.or_eq_true, List.contains_iff_mem] at hold
      simp only [List.map_cons, List.forall_mem_cons, reduceCtorEq, false_iff]
      rintro ⟨-, ⟨hseen, hprimitive⟩, -⟩
      rcases hold with hold | hold
      · exact hseen hold
      · rw [hprimitive] at hold
        cases hold
    · next hnew =>
      rw [Bool.or_eq_true, List.contains_iff_mem, not_or, Bool.not_eq_true] at hnew
      rw [ih, List.map_cons, List.nodup_cons, List.forall_mem_cons]
      constructor
      · rintro ⟨hnodup, hrest⟩
        refine ⟨⟨?_, hnodup⟩, hnew, ?_⟩
        · exact fun hmem => (hrest name hmem).1 (List.mem_cons_self ..)
        · exact fun other hmem => ⟨fun h => (hrest other hmem).1 (List.mem_cons_of_mem _ h),
            (hrest other hmem).2⟩
      · rintro ⟨⟨hname, hnodup⟩, -, hrest⟩
        refine ⟨hnodup, ?_⟩
        intro other hmem
        refine ⟨?_, (hrest other hmem).2⟩
        rw [List.mem_cons, not_or]
        exact ⟨fun heq => hname (heq ▸ hmem), (hrest other hmem).1⟩

namespace Scope

/-- Names refer to the same things in the two scopes. -/
def Alike (scope scope' : Scope) : Prop :=
  ∀ name, scope.resolve name = scope'.resolve name

lemma alike_self (scope : Scope) : scope.Alike scope :=
  fun _ => rfl

variable {outer outer' scope : Scope} {kind : FrameKind} {symbols symbols' : List (String × Declaration)}

lemma redeclared?_of_enter (h : outer.enter kind symbols = .ok scope) :
    Frame.redeclared? [] symbols = none := by
  unfold enter at h
  dsimp only at h
  split at h
  · cases h
  · next hnone => exact hnone

/-- A frame may declare its names in any order. -/
lemma exists_enter_of_perm (houter : outer.Alike outer') (hperm : symbols.Perm symbols')
    (h : outer.enter kind symbols = .ok scope) :
    ∃ scope', outer'.enter kind symbols' = .ok scope' ∧ scope.Alike scope' := by
  have hnone := redeclared?_of_enter h
  have hnone' : Frame.redeclared? [] symbols' = none := by
    rw [Frame.redeclared?_eq_none_iff] at hnone ⊢
    refine ⟨(hperm.map Prod.fst).nodup_iff.mp hnone.1, ?_⟩
    exact fun name hname => hnone.2 name ((hperm.map Prod.fst).mem_iff.mpr hname)
  refine ⟨⟨kind, symbols'⟩ :: outer', ?_, ?_⟩
  · unfold enter
    dsimp only
    rw [hnone']
  · intro name
    rw [eq_cons_of_enter h, resolve_cons, resolve_cons]
    dsimp only
    rw [lookup_perm hperm (Frame.redeclared?_eq_none_iff.mp hnone').1, houter name]

end Scope

namespace Resolution

section

variable {scope scope' : Scope}

lemma staticExpr_congr (h : scope.Alike scope') :
    ∀ e : Surface.Expr, staticExpr scope e = staticExpr scope' e
  | .literal _ => by rw [staticExpr, staticExpr]
  | .truth _ => by rw [staticExpr, staticExpr]
  | .parenthesized inner => by
    rw [staticExpr, staticExpr]
    exact staticExpr_congr h inner
  | .binary op lhs rhs => by
    rw [staticExpr, staticExpr, staticExpr_congr h lhs, staticExpr_congr h rhs]
  | .atom name arguments => by rw [staticExpr, staticExpr, h name]
  | .wire => by rw [staticExpr, staticExpr]
  | .access _ _ => by rw [staticExpr, staticExpr]

mutual

lemma interface_congr (h : scope.Alike scope') :
    ∀ e : Surface.Expr, interface scope e = interface scope' e
  | .wire => by rw [interface, interface]
  | .atom name arguments => by
    rw [interface, interface, h name, genericValues_congr h arguments]
  | .access accessed (.item «index») => by
    rw [interface, interface, interface_congr h accessed, staticExpr_congr h «index»]
  | .access _ (.slice _ _) => by simp only [interface]
  | .access _ (.member _) => by simp only [interface]
  | .parenthesized inner => by
    rw [interface, interface]
    exact interface_congr h inner
  | .truth _ => by rw [interface, interface]
  | .literal _ => by rw [interface, interface]
  | .binary _ _ _ => by rw [interface, interface]

lemma genericValue_congr (h : scope.Alike scope') :
    ∀ e : Surface.Expr, genericValue scope e = genericValue scope' e
  | .literal _ => by rw [genericValue, genericValue]
  | .truth _ => by rw [genericValue, genericValue]
  | .binary op lhs rhs => by rw [genericValue, genericValue, staticExpr_congr h]
  | .parenthesized inner => by
    rw [genericValue, genericValue]
    exact genericValue_congr h inner
  | .wire => by rw [genericValue, genericValue]
  | .access accessed (.item «index») => by
    rw [genericValue, genericValue, interface_congr h accessed, staticExpr_congr h «index»]
  | .access _ (.slice _ _) => by simp only [genericValue]
  | .access _ (.member _) => by simp only [genericValue]
  | .atom name arguments => by
    rw [genericValue, genericValue, h name, genericValues_congr h arguments]

lemma genericValues_congr (h : scope.Alike scope') :
    ∀ es : List Surface.Expr, genericValues scope es = genericValues scope' es
  | [] => by rw [genericValues, genericValues]
  | e :: rest => by
    rw [genericValues, genericValues, genericValue_congr h e, genericValues_congr h rest]

end

lemma accessor_congr (h : scope.Alike scope') (a : Surface.Accessor) :
    accessor scope a = accessor scope' a := by
  cases a with
  | item e => rw [accessor, accessor, staticExpr_congr h]
  | slice first last => rw [accessor, accessor, staticExpr_congr h first, staticExpr_congr h last]
  | member name => rfl

lemma lone_congr (h : scope.Alike scope') : ∀ e : Surface.Expr, lone scope e = lone scope' e
  | .atom name arguments => by
    rw [lone, lone, h name, interface_congr h, instantiation, instantiation,
      genericValues_congr h arguments]
  | .access accessed step => by
    rw [lone, lone, lone_congr h accessed, accessor_congr h step, funext (staticExpr_congr h)]
  | .wire => by rw [lone, lone]
  | .parenthesized inner => by
    rw [lone, lone]
    exact lone_congr h inner
  | .truth _ => by rw [lone, lone]
  | .literal _ => by rw [lone, lone]
  | .binary _ _ _ => by rw [lone, lone]

mutual

lemma node_congr (h : scope.Alike scope') : ∀ n : Surface.Node, node scope n = node scope' n
  | .lone e => by
    rw [node, node]
    exact lone_congr h e
  | .declared name type => by rw [node, node, lone_congr h type]
  | .parentheses groups => by rw [node, node, chain_congr h groups]

lemma chain_congr (h : scope.Alike scope') :
    ∀ groups : List (List Surface.Node), chain scope groups = chain scope' groups
  | [] => by rw [chain, chain]
  | group :: rest => by rw [chain, chain, nodes_congr h group, chain_congr h rest]

lemma nodes_congr (h : scope.Alike scope') :
    ∀ ns : List Surface.Node, nodes scope ns = nodes scope' ns
  | [] => by rw [nodes, nodes]
  | n :: rest => by rw [nodes, nodes, node_congr h n, nodes_congr h rest]

end

lemma generics_congr (h : scope.Alike scope') (ps : List Surface.Parameter) :
    generics scope ps = generics scope' ps := by
  induction ps with
  | nil => rfl
  | cons q rest ih => rw [generics, generics, ih, funext (interface_congr h)]

lemma functionPort_congr (h : scope.Alike scope') : functionPort scope = functionPort scope' := by
  funext q
  rw [functionPort, functionPort, interface_congr h]

end

/-! ### Statements -/

lemma ok_bind {ε α β : Type} (a : α) (f : α → Except ε β) : (Except.ok a >>= f) = f a :=
  rfl

/-- The names that a statement declares in the block around it. -/
def statementNames : Surface.Statement → List String
  | .connection groups => chainNames groups
  | .conditional _ _ _ => []

lemma blockNames_eq_flatMap (block : List Surface.Statement) :
    blockNames block = block.flatMap statementNames := by
  induction block with
  | nil => rfl
  | cons s rest ih => cases s <;> simp [blockNames, statementNames, ih]

lemma blockSymbols_perm {block block₁ block' : List Surface.Statement}
    (h : List.Forall₂ Surface.Statement.Shuffled block block₁) (hperm : block₁.Perm block') :
    (blockSymbols block).Perm (blockSymbols block') := by
  apply List.Perm.map
  have hsame : block.flatMap statementNames = block₁.flatMap statementNames := by
    clear hperm
    induction h with
    | nil => rfl
    | cons hs _ ih =>
      rw [List.flatMap_cons, List.flatMap_cons, ih]
      cases hs <;> rfl
  rw [blockNames_eq_flatMap, blockNames_eq_flatMap, hsame]
  exact hperm.flatMap_right _

lemma statements_eq_mapM (scope : Scope) (block : List Surface.Statement) :
    statements scope block = block.mapM (statement scope) := by
  induction block with
  | nil => rw [statements]; rfl
  | cons s rest ih =>
    rw [statements, List.mapM_cons, ih]

/-- A block whose statements are resolved one by one, in any order. -/
lemma exists_statements {scope scope' : Scope} {block block₁ block' : List Surface.Statement}
    {r : List Statement} (hr : statements scope block = .ok r)
    (h : List.Forall₂ (fun s s' => ∀ t, statement scope s = .ok t →
      ∃ t', statement scope' s' = .ok t' ∧ t.Shuffled t') block block₁)
    (hperm : block₁.Perm block') :
    ∃ r', statements scope' block' = .ok r' ∧ PermRel Statement.Shuffled r r' := by
  rw [statements_eq_mapM] at hr
  obtain ⟨r₁, hr₁, hshuffled⟩ := exists_mapM_of_forall₂ (fun _ _ hs => hs) h hr
  obtain ⟨r', hr', hperm'⟩ := List.perm_comp_forall₂ hperm.symm (forall₂_of_mapM_eq_ok hr₁)
  refine ⟨r', ?_, r₁, hshuffled, hperm'.symm⟩
  rw [statements_eq_mapM]
  exact mapM_eq_ok_of_forall₂ hr'

mutual

lemma exists_statement {scope scope' : Scope} (hscope : scope.Alike scope') :
    ∀ (s : Surface.Statement) {s' : Surface.Statement}, s.Shuffled s' → ∀ t, statement scope s = .ok t →
      ∃ t', statement scope' s' = .ok t' ∧ t.Shuffled t'
  | .connection groups, _, .connection _, t, ht => by
    rw [statement] at ht ⊢
    obtain ⟨chain, hchain, hend⟩ := exists_of_bind_eq_ok ht
    cases hend
    rw [← chain_congr hscope, hchain]
    exact ⟨_, rfl, .connection chain⟩
  | .conditional predicate thens elses, _, .conditional _ hthens hthens' helses helses', t, ht => by
    rw [statement] at ht ⊢
    obtain ⟨e, he, ht⟩ := exists_of_bind_eq_ok ht
    obtain ⟨inner, hinner, ht⟩ := exists_of_bind_eq_ok ht
    obtain ⟨ts, hts, ht⟩ := exists_of_bind_eq_ok ht
    obtain ⟨inner₁, hinner₁, ht⟩ := exists_of_bind_eq_ok ht
    obtain ⟨us, hus, ht⟩ := exists_of_bind_eq_ok ht
    cases ht
    obtain ⟨inner', hinner', halike⟩ :=
      Scope.exists_enter_of_perm hscope (blockSymbols_perm hthens hthens') hinner
    obtain ⟨inner₁', hinner₁', halike₁⟩ :=
      Scope.exists_enter_of_perm hscope (blockSymbols_perm helses helses') hinner₁
    obtain ⟨ts', hts', ts₁, hts₁, htsPerm⟩ :=
      exists_statements hts (exists_all halike thens hthens) hthens'
    obtain ⟨us', hus', us₁, hus₁, husPerm⟩ :=
      exists_statements hus (exists_all halike₁ elses helses) helses'
    rw [← staticExpr_congr hscope, he]
    refine ⟨.conditional e ts' us', ?_, .conditional e hts₁ htsPerm hus₁ husPerm⟩
    rw [ok_bind, hinner', ok_bind, hts', ok_bind, hinner₁', ok_bind, hus']
    rfl

lemma exists_all {scope scope' : Scope} (hscope : scope.Alike scope') :
    ∀ (block : List Surface.Statement) {block₁ : List Surface.Statement},
      List.Forall₂ Surface.Statement.Shuffled block block₁ →
      List.Forall₂ (fun s s' => ∀ t, statement scope s = .ok t →
        ∃ t', statement scope' s' = .ok t' ∧ t.Shuffled t') block block₁
  | [], _, .nil => .nil
  | s :: rest, _, .cons hs hrest =>
    .cons (exists_statement hscope s hs) (exists_all hscope rest hrest)

end

lemma functionSymbols_perm {d d' : Surface.FunctionDefinition} (h : d.Shuffled d') :
    (functionSymbols d).Perm (functionSymbols d') := by
  obtain ⟨block, hblock, hperm⟩ := h.statements
  unfold functionSymbols
  rw [h.parameters, h.inputs, h.outputs]
  exact (blockSymbols_perm hblock hperm).append_left _

lemma exists_functionDefinition {outer : Scope} {d d' : Surface.FunctionDefinition}
    (h : d.Shuffled d') {r : FunctionDefinition} (hr : functionDefinition outer d = .ok r) :
    ∃ r', functionDefinition outer d' = .ok r' ∧ r.Shuffled r' := by
  obtain ⟨scope, hscope, hrest⟩ := exists_of_bind_eq_ok hr
  obtain ⟨g, hg, hrest⟩ := exists_of_bind_eq_ok hrest
  obtain ⟨inputs, hinputs, hrest⟩ := exists_of_bind_eq_ok hrest
  obtain ⟨outputs, houtputs, hrest⟩ := exists_of_bind_eq_ok hrest
  obtain ⟨ss, hss, hend⟩ := exists_of_bind_eq_ok hrest
  cases hend
  obtain ⟨scope', hscope', halike⟩ :=
    Scope.exists_enter_of_perm outer.alike_self (functionSymbols_perm h) hscope
  obtain ⟨block, hblock, hperm⟩ := h.statements
  obtain ⟨ss', hss', hshuffled⟩ := exists_statements hss (exists_all halike _ hblock) hperm
  rw [generics_congr halike] at hg
  rw [functionPort_congr halike] at hinputs houtputs
  refine ⟨⟨d.name, g, inputs, outputs, ss'⟩, ?_, ⟨rfl, rfl, rfl, rfl⟩, hshuffled⟩
  unfold functionDefinition
  rw [h.name, h.parameters, h.inputs, h.outputs, hscope', ok_bind, hg, ok_bind, hinputs, ok_bind,
    houtputs, ok_bind, hss']
  rfl

/-- Programs whose functions have the same names. -/
lemma programSymbols_congr {source source' : Surface.Program}
    (hinterfaces : source'.interfaces = source.interfaces)
    (h : List.Forall₂ (fun d d' => d'.name = d.name) source.functions source'.functions) :
    programSymbols source' = programSymbols source := by
  have hnames : source'.functions.map (fun d => (d.name, Declaration.function)) =
      source.functions.map (fun d => (d.name, Declaration.function)) := by
    rw [← List.forall₂_eq_eq_eq, List.forall₂_map_left_iff, List.forall₂_map_right_iff]
    refine List.Forall₂.flip (h.imp ?_)
    intro d d' hd
    exact congrArg (fun name => (name, Declaration.function)) hd
  rw [programSymbols, programSymbols, hinterfaces, hnames]

/-- A reordered program is resolved to a reordered program. -/
theorem exists_resolve {source source' : Surface.Program} (h : source.Reordered source')
    {p : Program} (hp : source.resolve = .ok p) :
    ∃ p', source'.resolve = .ok p' ∧ p.Shuffled p' := by
  obtain ⟨scope, hscope, hrest⟩ := exists_of_bind_eq_ok hp
  obtain ⟨interfaces, hinterfaces, hrest⟩ := exists_of_bind_eq_ok hrest
  obtain ⟨functions, hfunctions, hend⟩ := exists_of_bind_eq_ok hrest
  cases hend
  have hsymbols := programSymbols_congr h.interfaces (h.functions.imp fun _ _ hd => hd.name)
  have hstep : ∀ d d' : Surface.FunctionDefinition, d.Shuffled d' → ∀ r,
      functionDefinition scope d = .ok r → ∃ r', functionDefinition scope d' = .ok r' ∧ r.Shuffled r' :=
    fun _ _ hd _ hr => exists_functionDefinition hd hr
  obtain ⟨functions', hfunctions', hshuffled⟩ := exists_mapM_of_forall₂ hstep h.functions hfunctions
  refine ⟨⟨interfaces, functions'⟩, ?_, rfl, hshuffled⟩
  unfold Surface.Program.resolve
  rw [hsymbols, hscope, ok_bind, h.interfaces, hinterfaces, ok_bind, hfunctions']
  rfl

/-! ### Declarations -/

lemma nodup_of_enter {outer scope : Scope} {kind : FrameKind} {symbols : List (String × Declaration)}
    (h : outer.enter kind symbols = .ok scope) : (symbols.map Prod.fst).Nodup :=
  (Frame.redeclared?_eq_none_iff.mp (Scope.redeclared?_of_enter h)).1

lemma map_fst_blockSymbols (block : List Surface.Statement) :
    (blockSymbols block).map Prod.fst = blockNames block := by
  simp [blockSymbols, Function.comp_def]

section

variable {p : Program} {g : Generics}

mutual

lemma unambiguous_statement {visible : List String} {scope : Scope} (h : scope.Sound p g visible) :
    ∀ (s : Surface.Statement) {r : Statement}, statement scope s = .ok r → r.Unambiguous
  | .connection groups, r, hr => by
    rw [statement] at hr
    obtain ⟨ns, -, hend⟩ := exists_of_bind_eq_ok hr
    cases hend
    rw [Statement.Unambiguous]
    trivial
  | .conditional predicate thens elses, r, hr => by
    rw [statement] at hr
    obtain ⟨e, -, hr⟩ := exists_of_bind_eq_ok hr
    obtain ⟨inner, hinner, hr⟩ := exists_of_bind_eq_ok hr
    obtain ⟨ts, hts, hr⟩ := exists_of_bind_eq_ok hr
    obtain ⟨inner', hinner', hr⟩ := exists_of_bind_eq_ok hr
    obtain ⟨us, hus, hr⟩ := exists_of_bind_eq_ok hr
    cases hr
    have hsound := sound_conditional h hinner
    have hsound' := sound_conditional h hinner'
    rw [Statement.Unambiguous, names_statements hsound thens hts, names_statements hsound' elses hus,
      ← map_fst_blockSymbols, ← map_fst_blockSymbols]
    exact ⟨⟨nodup_of_enter hinner, unambiguous_statements hsound thens hts⟩,
      nodup_of_enter hinner', unambiguous_statements hsound' elses hus⟩

lemma unambiguous_statements {visible : List String} {scope : Scope} (h : scope.Sound p g visible) :
    ∀ (block : List Surface.Statement) {r : List Statement}, statements scope block = .ok r →
      Statement.AllUnambiguous r
  | [], r, hr => by
    rw [statements] at hr
    cases hr
    rw [Statement.AllUnambiguous]
    trivial
  | s :: rest, r, hr => by
    rw [statements] at hr
    obtain ⟨s', hs', hrest⟩ := exists_of_bind_eq_ok hr
    obtain ⟨rest', hrest', hend⟩ := exists_of_bind_eq_ok hrest
    cases hend
    rw [Statement.AllUnambiguous]
    exact ⟨unambiguous_statement h s hs', unambiguous_statements h rest hrest'⟩

end

lemma unambiguous_functionDefinition {outer : Scope} (houter : ∀ g, outer.Sound p g [])
    {d : Surface.FunctionDefinition} {r : FunctionDefinition}
    (hr : functionDefinition outer d = .ok r) : r.Unambiguous := by
  obtain ⟨scope, hscope, hrest⟩ := exists_of_bind_eq_ok hr
  obtain ⟨g, hg, hrest⟩ := exists_of_bind_eq_ok hrest
  obtain ⟨inputs, hinputs, hrest⟩ := exists_of_bind_eq_ok hrest
  obtain ⟨outputs, houtputs, hrest⟩ := exists_of_bind_eq_ok hrest
  obtain ⟨ss, hss, hend⟩ := exists_of_bind_eq_ok hrest
  cases hend
  have hsound := sound_function houter hscope hg
  have hnodup := nodup_of_enter hscope
  unfold functionSymbols at hnodup
  simp only [List.map_append, List.map_map, Function.comp_def, List.nodup_append] at hnodup
  obtain ⟨⟨⟨-, hinputNames, -⟩, houtputNames, -⟩, hblockNames, -⟩ := hnodup
  rw [map_fst_blockSymbols] at hblockNames
  refine ⟨?_, ?_, ?_, unambiguous_statements hsound _ hss⟩
  · rw [(ports_scoped hsound hinputs).1]
    exact hinputNames
  · rw [(ports_scoped hsound houtputs).1]
    exact houtputNames
  · rw [names_statements hsound _ hss]
    exact hblockNames

end

lemma unambiguous_of_resolve {source : Surface.Program} {p : Program}
    (h : source.resolve = .ok p) : p.Unambiguous := by
  obtain ⟨scope, hscope, hinterfaces, hfunctions⟩ := exists_of_resolve h
  refine ⟨?_, distinctMembers_of_resolve h, ?_⟩
  · have hnames : p.functions.map FunctionDefinition.name =
        source.functions.map Surface.FunctionDefinition.name := by
      rw [← List.forall₂_eq_eq_eq, List.forall₂_map_left_iff, List.forall₂_map_right_iff]
      exact (hfunctions.imp fun _ _ hd => name_of_functionDefinition hd).flip
    have hnodup := nodup_of_enter hscope
    unfold programSymbols at hnodup
    simp only [List.map_append, List.map_map, Function.comp_def, List.nodup_append] at hnodup
    rw [hnames]
    exact hnodup.2.1
  · intro d hd
    obtain ⟨d', -, hd'⟩ := exists_mem_of_forall₂ hfunctions hd
    exact unambiguous_functionDefinition (sound_program hscope hinterfaces hfunctions) hd'

end Resolution

/-! ### Statement order -/

namespace Surface.Program

/-- The program can be resolved and built, with this design as the result. -/
def CompilesTo (source : Surface.Program) (d : Design) : Prop :=
  ∃ p depth s, source.resolve = .ok p ∧ (p.buildAll depth).run .empty = some (.ok (), s) ∧
    s.design = d

lemma Reordered.exists_compilesTo {source source' : Surface.Program} (h : source.Reordered source')
    {d : Design} (hd : source.CompilesTo d) : ∃ d', source'.CompilesTo d' := by
  obtain ⟨p, depth, s, hp, hrun, rfl⟩ := hd
  obtain ⟨p', hp', hshuffled⟩ := Resolution.exists_resolve h hp
  obtain ⟨depth', r, hrun'⟩ := hshuffled.exists_run
    (Resolution.unambiguous_of_resolve hp) (Resolution.unambiguous_of_resolve hp') hrun
  exact ⟨r.design, p', depth', r, hp', hrun', rfl⟩

/-- The order of statements does not matter. A program in another order compiles if the program
does, and to the same design up to the numbers of modules and nodes, the names of nodes without a
name of their own, and the order of connections and fields. -/
theorem compilesTo_reordered {source source' : Surface.Program} (h : source.Reordered source') :
    ((∃ d, source.CompilesTo d) ↔ ∃ d', source'.CompilesTo d') ∧
      ∀ d d', source.CompilesTo d → source'.CompilesTo d' → d.Same d' := by
  refine ⟨⟨?_, ?_⟩, ?_⟩
  · rintro ⟨d, hd⟩
    exact h.exists_compilesTo hd
  · rintro ⟨d', hd'⟩
    exact h.symm.exists_compilesTo hd'
  · rintro _ _ ⟨p, depth, s, hp, hrun, rfl⟩ ⟨p', depth', r, hp', hrun', rfl⟩
    obtain ⟨q', hq', hshuffled⟩ := Resolution.exists_resolve h hp
    obtain ⟨q, hq, hshuffled'⟩ := Resolution.exists_resolve h.symm hp'
    rw [hp'] at hq'
    cases hq'
    rw [hp] at hq
    cases hq
    exact hshuffled.same_of_runs hshuffled' (Resolution.unambiguous_of_resolve hp)
      (Resolution.unambiguous_of_resolve hp') hrun hrun'

/-- A function with a conditional block, and two functions that the block may instantiate. -/
def twoInstances (block : List Statement) : Surface.Program :=
  let wire (name : String) : FunctionPort := ⟨name, .wire, .signal⟩
  let through (name : String) : FunctionDefinition :=
    ⟨name, [], [wire "a"], [wire "b"], [.connect [.lone (.name "a"), .lone (.name "b")]]⟩
  ⟨[], [⟨"outer", [], [wire "a", wire "b"], [wire "c", wire "d"],
    [.conditional (.truth true) block []]⟩, through "left", through "right"]⟩

def leftFirst : List Statement :=
  [.connect [.lone (.name "a"), .lone (.name "left"), .lone (.name "c")],
    .connect [.lone (.name "b"), .lone (.name "right"), .lone (.name "d")]]

lemma reordered_twoInstances :
    (twoInstances leftFirst).Reordered (twoInstances leftFirst.reverse) := by
  have hsame : ∀ nodes, (Statement.connect nodes).Shuffled (.connect nodes) :=
    fun nodes => .connection _
  have hblock : List.Forall₂ Statement.Shuffled leftFirst leftFirst :=
    .cons (hsame _) (.cons (hsame _) .nil)
  have hthrough : ∀ name inputs outputs nodes, FunctionDefinition.Shuffled
      ⟨name, [], inputs, outputs, [.connect nodes]⟩ ⟨name, [], inputs, outputs, [.connect nodes]⟩ :=
    fun name inputs outputs nodes => ⟨rfl, rfl, rfl, rfl, _, .cons (hsame nodes) .nil, .refl _⟩
  refine ⟨rfl, .cons ⟨rfl, rfl, rfl, rfl, _, .cons ?_ .nil, .refl _⟩
    (.cons (hthrough ..) (.cons (hthrough ..) .nil))⟩
  exact .conditional _ hblock (List.reverse_perm _).symm .nil (.refl _)

/-- The functions of the modules of a design, in the order in which they were finished. -/
def moduleFunctions (d : Design) : List String :=
  d.modules.toList.map fun m => m.invocation.function

lemma exists_compilesTo_of_run {source : Surface.Program} {p : NetlistCompiler.Program}
    {x : List String} (hp : source.resolve = .ok p)
    (hrun : ((p.buildAll 4).run .empty).map (fun r => (r.1.toOption, moduleFunctions r.2.design)) =
      some (some (), x)) : ∃ d, source.CompilesTo d ∧ moduleFunctions d = x := by
  obtain ⟨⟨r, s⟩, hr, heq⟩ := Option.map_eq_some_iff.mp hrun
  obtain ⟨hok, hx⟩ := Prod.mk.inj heq
  cases r with
  | error e => cases hok
  | ok a => exact ⟨s.design, ⟨p, 4, s, hp, hr, rfl⟩, hx⟩

/-- The modules of the instances are finished in the order of the statements, so that the designs
differ, but only in the ways allowed. -/
theorem compilesTo_reordered_twoInstances :
    (twoInstances leftFirst).Reordered (twoInstances leftFirst.reverse) ∧
      ∃ d d', (twoInstances leftFirst).CompilesTo d ∧
        (twoInstances leftFirst.reverse).CompilesTo d' ∧
        moduleFunctions d = ["left", "right", "outer"] ∧
        moduleFunctions d' = ["right", "left", "outer"] ∧ d.Same d' := by
  refine ⟨reordered_twoInstances, ?_⟩
  let p := (twoInstances leftFirst).resolve.toOption.getD ⟨[], []⟩
  let p' := (twoInstances leftFirst.reverse).resolve.toOption.getD ⟨[], []⟩
  have hp : (twoInstances leftFirst).resolve = .ok p := rfl
  have hp' : (twoInstances leftFirst.reverse).resolve = .ok p' := rfl
  obtain ⟨d, hd, hmodules⟩ := exists_compilesTo_of_run (x := ["left", "right", "outer"]) hp
    (by decide +kernel)
  obtain ⟨d', hd', hmodules'⟩ := exists_compilesTo_of_run (x := ["right", "left", "outer"]) hp'
    (by decide +kernel)
  exact ⟨d, d', hd, hd', hmodules, hmodules', (compilesTo_reordered reordered_twoInstances).2 d d' hd hd'⟩

end Surface.Program

end NetlistCompiler
