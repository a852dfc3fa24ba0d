import NetlistCompiler.Proofs.NumberedLists

/-!
# Adjacency tables

Whatever is done to a graph with tables, it is the graph of its vertices and edges with the tables
that belong to it. So numbers are places, and the tables list for every vertex the edges that leave
and enter it. A subgraph has the kept vertices and the kept edges between them, whose ends are
renumbered in order.
-/

namespace NetlistCompiler

/-! ### Edges of a vertex -/

namespace WeightedGraph

variable {ν ε : Type} {w w' : WeightedGraph ν ε} {p : Edge ε → Bool}

lemma edgesWhere_eq (w : WeightedGraph ν ε) (p : Edge ε → Bool) :
    w.edgesWhere p =
      ((numbered w.edges.toList).filter fun e => p e.item).map Numbered.id := by
  rw [edgesWhere, ← Array.length_toList, ← map_id_numbered, List.filter_map]
  congr 1
  refine List.filter_congr fun e he => ?_
  have hplace : w.edges[e.id]? = some e.item := by
    have hid := getElem?_id_of_mem_numbered he
    rw [getElem?_numbered, Array.getElem?_toList, Option.map_eq_some_iff] at hid
    obtain ⟨item, hitem, heq⟩ := hid
    rw [hitem, ← heq]
  simp [hplace]

lemma edgesWhere_eq_nil (h : ∀ e ∈ w.edges, p e = false) : w.edgesWhere p = [] := by
  have hnone : (numbered w.edges.toList).filter (fun e => p e.item) = [] := by
    rw [List.filter_eq_nil_iff]
    intro e he hp
    rw [h _ (Array.mem_toList_iff.mp (item_mem_of_mem_numbered he))] at hp
    cases hp
  rw [edgesWhere_eq, hnone, List.map_nil]

lemma edgesWhere_push {e : Edge ε} (h : w'.edges = w.edges.push e) (p : Edge ε → Bool) :
    w'.edgesWhere p =
      if p e then w.edgesWhere p ++ [w.edges.size] else w.edgesWhere p := by
  rw [edgesWhere_eq, edgesWhere_eq, h, Array.toList_push, numbered_concat, List.filter_append,
    List.map_append]
  cases hp : p e with
  | true => simp [hp]
  | false => simp [hp]

/-- What leaves numbers alone and is not seen by a condition does not change where it holds. -/
lemma edgesWhere_of_map {f : Numbered (Edge ε) → Numbered (Edge ε)}
    (h : numbered w'.edges.toList = (numbered w.edges.toList).map f) (hid : ∀ e, (f e).id = e.id)
    (hp : ∀ e, p (f e).item = p e.item) : w'.edgesWhere p = w.edgesWhere p := by
  rw [edgesWhere_eq, edgesWhere_eq, h, List.filter_map, List.map_map]
  simp only [Function.comp_def, hid, hp]

lemma exists_addEdge? {source sink : Nat} (hsource : source < w.order) (hsink : sink < w.order)
    (weight : Int) (value : ε) :
    ∃ w', w.addEdge? source sink weight value = some w' ∧ w'.vertices = w.vertices ∧
      w'.edges = w.edges.push ⟨source, sink, weight, value⟩ := by
  rw [addEdge?, dif_pos ⟨hsource, hsink⟩]
  exact ⟨_, rfl, rfl, rfl⟩

lemma addEdge?_eq_none {source sink : Nat} (h : ¬(source < w.order ∧ sink < w.order))
    {weight : Int} {value : ε} : w.addEdge? source sink weight value = none :=
  dif_neg h

lemma ext_toList (hvertices : w.vertices.toList = w'.vertices.toList)
    (hedges : w.edges.toList = w'.edges.toList) : w = w' := by
  cases w
  cases w'
  cases Array.toList_inj.mp hvertices
  cases Array.toList_inj.mp hedges
  rfl

end WeightedGraph

namespace AdjacencyGraph

variable {ν ε : Type} {w : WeightedGraph ν ε}

/-! ### Tables -/

section

variable {n : Nat} {row row' : Nat → List Nat}

lemma getElem?_tableOf (v : Nat) :
    (tableOf n row)[v]? = if v < n then some (row v).toArray else none := by
  rw [tableOf, Array.getElem?_map, Array.getElem?_range]
  split <;> rfl

lemma size_tableOf : (tableOf n row).size = n := by
  rw [tableOf, Array.size_map, Array.size_range]

lemma tableOf_succ : tableOf (n + 1) row = (tableOf n row).push (row n).toArray := by
  rw [tableOf, Array.range_succ, Array.map_append, Array.map_singleton, Array.append_singleton]
  rfl

lemma modify_tableOf (v id : Nat) :
    (tableOf n row).modify v (·.push id) =
      tableOf n fun u => if u = v then row u ++ [id] else row u := by
  apply Array.ext_getElem?
  intro u
  rw [Array.getElem?_modify, getElem?_tableOf, getElem?_tableOf]
  by_cases hvu : v = u
  · subst hvu
    rw [if_pos rfl, if_pos rfl]
    split
    · simp
    · rfl
  · rw [if_neg hvu, if_neg (Ne.symm hvu)]

end

/-- A new edge is entered at one of its ends. -/
lemma modify_tableOf_edgesWhere {w' : WeightedGraph ν ε} {e : Edge ε}
    (h : w'.edges = w.edges.push e) (endOf : Edge ε → Nat) (n : Nat) :
    (tableOf n fun v => w.edgesWhere fun e => endOf e == v).modify (endOf e)
        (·.push w.edges.size) =
      tableOf n fun v => w'.edgesWhere fun e => endOf e == v := by
  rw [modify_tableOf]
  congr 1
  funext v
  rw [WeightedGraph.edgesWhere_push h]
  by_cases hv : v = endOf e
  · rw [if_pos hv, if_pos (by simp [hv])]
  · rw [if_neg hv, if_neg (by simpa using Ne.symm hv)]

/-- No edge is entered at a new vertex. -/
lemma tableOf_edgesWhere_succ (endOf : Edge ε → Nat)
    (h : ∀ e ∈ w.edges, endOf e < w.order) :
    tableOf (w.order + 1) (fun v => w.edgesWhere fun e => endOf e == v) =
      (tableOf w.order fun v => w.edgesWhere fun e => endOf e == v).push #[] := by
  rw [tableOf_succ, WeightedGraph.edgesWhere_eq_nil]
  intro e he
  exact beq_eq_false_iff_ne.mpr (Nat.ne_of_lt (h e he))

/-! ### Steps -/

lemma toList_vertices_ofGraph (w : WeightedGraph ν ε) :
    (ofGraph w).vertices.toList = numbered w.vertices.toList :=
  Array.toList_mapIdx

lemma toList_edges_ofGraph (w : WeightedGraph ν ε) :
    (ofGraph w).edges.toList = numbered w.edges.toList :=
  Array.toList_mapIdx

lemma size_vertices_ofGraph (w : WeightedGraph ν ε) : (ofGraph w).vertices.size = w.order :=
  Array.size_mapIdx

lemma size_edges_ofGraph (w : WeightedGraph ν ε) : (ofGraph w).edges.size = w.edges.size :=
  Array.size_mapIdx

lemma ofGraph_empty : ofGraph (.empty : WeightedGraph ν ε) = empty := by
  simp [ofGraph, empty, WeightedGraph.empty, WeightedGraph.order, tableOf]

lemma addVertex_ofGraph (weight : Int) (value : ν) :
    (ofGraph w).addVertex weight value = (w.order, ofGraph (w.addVertex weight value)) := by
  have hout := tableOf_edgesWhere_succ Edge.source fun e he => (w.edges_inRange e he).1
  have hin := tableOf_edgesWhere_succ Edge.sink fun e he => (w.edges_inRange e he).2
  have hvertices : (ofGraph w).vertices.push ⟨w.order, weight, value⟩ =
      (ofGraph (w.addVertex weight value)).vertices := Array.mapIdx_push.symm
  have horder : (w.addVertex weight value).order = w.order + 1 := Array.size_push ..
  rw [addVertex, size_vertices_ofGraph, hvertices]
  congr 1
  rw [ofGraph, ofGraph, mk.injEq, horder]
  exact ⟨rfl, rfl, hout.symm, hin.symm⟩

lemma addEdge?_ofGraph (source sink : Nat) (weight : Int) (value : ε) :
    (ofGraph w).addEdge? source sink weight value =
      (w.addEdge? source sink weight value).map fun w' => (w.edges.size, ofGraph w') := by
  have hsizes : (ofGraph w).outgoing.size = w.order ∧ (ofGraph w).incoming.size = w.order :=
    ⟨size_tableOf, size_tableOf⟩
  rw [addEdge?, hsizes.1, hsizes.2, size_edges_ofGraph]
  by_cases h : source < w.order ∧ sink < w.order
  · obtain ⟨w', hw', hvertices, hedges⟩ := WeightedGraph.exists_addEdge? h.1 h.2 weight value
    have hout := modify_tableOf_edgesWhere hedges Edge.source w.order
    have hin := modify_tableOf_edgesWhere hedges Edge.sink w.order
    have horder : w'.order = w.order := congrArg Array.size hvertices
    have hedges' : (ofGraph w).edges.push ⟨w.edges.size, source, sink, weight, value⟩ =
        (ofGraph w').edges := by
      rw [ofGraph, ofGraph, hedges, Array.mapIdx_push]
    rw [if_pos h, hw', Option.map_some, hedges']
    congr 2
    rw [ofGraph, ofGraph, mk.injEq, horder, hvertices]
    exact ⟨rfl, rfl, hout, hin⟩
  · rw [if_neg h, WeightedGraph.addEdge?_eq_none h, Option.map_none]

/-- Other weights change neither the numbers nor the ends of edges, whatever they depend on. -/
lemma reweight_ofGraph (w : WeightedGraph ν ε) (weight : Numbered (Edge ε) → Int) :
    ∃ w', (ofGraph w).reweight weight = ofGraph w' ∧ w'.vertices = w.vertices ∧
      w'.edges.toList =
        (numbered w.edges.toList).map fun e => { e.item with weight := weight e } := by
  let reweighted : Numbered (Edge ε) → Numbered (Edge ε) :=
    fun e => { e with item.weight := weight e }
  let items := ((numbered w.edges.toList).map reweighted).map Numbered.item
  have hnumbered : numbered items = (numbered w.edges.toList).map reweighted := by
    refine (eq_numbered_of_id ?_).symm
    rw [List.map_map, List.length_map, length_numbered, ← map_id_numbered]
    rfl
  have hrange : ∀ e ∈ items.toArray,
      e.source < w.vertices.size ∧ e.sink < w.vertices.size := by
    intro e he
    simp only [items, List.mem_toArray, List.mem_map] at he
    obtain ⟨_, ⟨x, hx, rfl⟩, rfl⟩ := he
    exact w.edges_inRange x.item (Array.mem_toList_iff.mp (item_mem_of_mem_numbered hx))
  let w' : WeightedGraph ν ε := ⟨w.vertices, items.toArray, hrange⟩
  have hedges : (ofGraph w).edges.map reweighted = (ofGraph w').edges := by
    rw [← Array.toList_inj, Array.toList_map, toList_edges_ofGraph, toList_edges_ofGraph]
    exact hnumbered.symm
  have hout : w'.outgoing = w.outgoing := funext fun v =>
    WeightedGraph.edgesWhere_of_map (f := reweighted) hnumbered (fun _ => rfl) fun _ => rfl
  have hin : w'.incoming = w.incoming := funext fun v =>
    WeightedGraph.edgesWhere_of_map (f := reweighted) hnumbered (fun _ => rfl) fun _ => rfl
  refine ⟨w', ?_, rfl, List.map_map⟩
  rw [reweight, hedges, ofGraph, ofGraph, hout, hin]
  rfl

/-! ### Subgraphs -/

/-- The kept ones of the vertices `vs` have been copied, and their new numbers are noted. -/
structure Copied (keep : Numbered (Vertex ν) → Bool) (n : Nat) (vs : List (Vertex ν))
    (renumbered : Array (Option Nat)) (w : WeightedGraph ν ε) : Prop where
  vertices : w.vertices.toList = ((numbered vs).filter keep).map Numbered.item
  edges : w.edges = #[]
  numbers : ∀ i < n, renumbered[i]? = some (newNumber? keep (numbered vs) i)

section

variable {keep : Numbered (Vertex ν) → Bool} {n : Nat} {vs : List (Vertex ν)} {v : Vertex ν}
  {renumbered : Array (Option Nat)}

lemma copied_nil (keep : Numbered (Vertex ν) → Bool) (n : Nat) :
    Copied keep n [] (Array.replicate n none) (.empty : WeightedGraph ν ε) where
  vertices := rfl
  edges := rfl
  numbers i hi := by
    rw [Array.getElem?_replicate, if_pos hi]
    rfl

lemma Copied.order (h : Copied keep n vs renumbered w) : w.order = (numbered vs).countP keep := by
  rw [WeightedGraph.order, ← Array.length_toList, h.vertices, List.length_map,
    List.countP_eq_length_filter]

lemma newNumber?_numbered_concat (i : Nat) :
    newNumber? keep (numbered (vs ++ [v])) i =
      if i = vs.length then
        if keep ⟨vs.length, v⟩ then some ((numbered vs).countP keep) else none
      else newNumber? keep (numbered vs) i := by
  rw [numbered_concat]
  split
  · next hi => rw [hi, ← newNumber?_concat_length, length_numbered]
  · next hi => exact newNumber?_concat_of_ne (by rwa [length_numbered])

lemma Copied.skip (h : Copied keep n vs renumbered w) (hv : keep ⟨vs.length, v⟩ = false) :
    Copied keep n (vs ++ [v]) renumbered w where
  vertices := by
    rw [h.vertices, numbered_concat, List.filter_append, List.filter_singleton, hv]
    exact congrArg _ (List.append_nil _).symm
  edges := h.edges
  numbers i hi := by
    rw [h.numbers i hi, newNumber?_numbered_concat, hv]
    split
    · next hi' => rw [hi', ← length_numbered vs, newNumber?_length]; rfl
    · rfl

lemma Copied.copy (h : Copied keep n vs renumbered w) (hv : keep ⟨vs.length, v⟩ = true)
    (hn : vs.length < n) :
    copyVertex (renumbered, ofGraph w) ⟨vs.length, v⟩ =
        some (renumbered.set! vs.length (some w.order), ofGraph (w.addVertex v.weight v.value)) ∧
      Copied keep n (vs ++ [v]) (renumbered.set! vs.length (some w.order))
        (w.addVertex v.weight v.value) := by
  have hsize : vs.length < renumbered.size :=
    (Array.getElem?_eq_some_iff.mp (h.numbers vs.length hn)).1
  refine ⟨?_, ?_, h.edges, ?_⟩
  · rw [copyVertex]
    simp only [if_pos hsize, addVertex_ofGraph]
  · rw [numbered_concat, List.filter_append, List.filter_singleton, hv, List.map_append,
      ← h.vertices]
    exact Array.toList_push
  · intro i hi
    rw [Array.set!_eq_setIfInBounds, Array.getElem?_setIfInBounds, newNumber?_numbered_concat, hv,
      h.order]
    by_cases hi' : vs.length = i
    · rw [if_pos hi', if_pos hsize, if_pos hi'.symm]
      rfl
    · rw [if_neg hi', if_neg (Ne.symm hi'), h.numbers i hi]

lemma foldlM_copyVertex (keep : Numbered (Vertex ν) → Bool) (vs : List (Vertex ν))
    (hn : vs.length ≤ n) :
    ∃ renumbered, ∃ w : WeightedGraph ν ε,
      ((numbered vs).filter keep).foldlM copyVertex (Array.replicate n none, empty) =
        some (renumbered, ofGraph w) ∧ Copied keep n vs renumbered w := by
  -- vertices are taken from the end, so that the places of those before do not change
  induction vs using List.reverseRecOn with
  | nil =>
    refine ⟨_, .empty, ?_, copied_nil keep n⟩
    rw [ofGraph_empty]
    rfl
  | append_singleton vs v ih =>
    rw [List.length_append, List.length_singleton] at hn
    obtain ⟨renumbered, w, hfold, hcopied⟩ := ih (by omega)
    rw [numbered_concat, List.filter_append, List.foldlM_append, hfold, List.filter_singleton]
    cases hv : keep ⟨vs.length, v⟩ with
    | false => exact ⟨renumbered, w, rfl, hcopied.skip hv⟩
    | true =>
      obtain ⟨hstep, hcopied'⟩ := hcopied.copy hv hn
      refine ⟨_, _, ?_, hcopied'⟩
      change copyVertex (renumbered, ofGraph w) ⟨vs.length, v⟩ >>= pure = _
      rw [hstep]
      rfl

end

/-- An edge with new ends, if both of its ends have a new number. -/
def renumberEnds? (new? : Nat → Option Nat) (e : Edge ε) : Option (Edge ε) := do
  let source ← new? e.source
  let sink ← new? e.sink
  return { e with source := source, sink := sink }

section

variable {renumbered : Array (Option Nat)} {new? : Nat → Option Nat} {n : Nat}

lemma copyEdge_ofGraph (hnew : ∀ i < n, renumbered[i]? = some (new? i)) {e : Numbered (Edge ε)}
    (he : e.item.source < n ∧ e.item.sink < n) (hw : ∀ i k, new? i = some k → k < w.order) :
    ∃ w', copyEdge renumbered (ofGraph w) e = some (ofGraph w') ∧ w'.vertices = w.vertices ∧
      w'.edges.toList = w.edges.toList ++ (renumberEnds? new? e.item).toList := by
  unfold copyEdge renumberEnds?
  rw [hnew _ he.1, hnew _ he.2]
  cases hsource : new? e.item.source with
  | none => exact ⟨w, rfl, rfl, (List.append_nil _).symm⟩
  | some source =>
    cases hsink : new? e.item.sink with
    | none => exact ⟨w, rfl, rfl, (List.append_nil _).symm⟩
    | some sink =>
      obtain ⟨w', hw', hvertices, hedges⟩ := WeightedGraph.exists_addEdge?
        (hw _ _ hsource) (hw _ _ hsink) e.item.weight e.item.value
      refine ⟨w', ?_, hvertices, ?_⟩
      · simp [addEdge?_ofGraph, hw']
      · rw [hedges, Array.toList_push]
        rfl

lemma foldlM_copyEdge (hnew : ∀ i < n, renumbered[i]? = some (new? i))
    {es : List (Numbered (Edge ε))} (hes : ∀ e ∈ es, e.item.source < n ∧ e.item.sink < n)
    (hw : ∀ i k, new? i = some k → k < w.order) :
    ∃ w', es.foldlM (copyEdge renumbered) (ofGraph w) = some (ofGraph w') ∧
      w'.vertices = w.vertices ∧
      w'.edges.toList = w.edges.toList ++ es.filterMap fun e => renumberEnds? new? e.item := by
  induction es generalizing w with
  | nil => exact ⟨w, rfl, rfl, (List.append_nil _).symm⟩
  | cons e es ih =>
    obtain ⟨he, hrest⟩ := List.forall_mem_cons.mp hes
    obtain ⟨w₁, hstep, hvertices₁, hedges₁⟩ := copyEdge_ofGraph hnew he hw
    have horder : w₁.order = w.order := congrArg Array.size hvertices₁
    obtain ⟨w', hfold, hvertices, hedges⟩ := ih hrest fun i k hk => horder ▸ hw i k hk
    refine ⟨w', ?_, hvertices.trans hvertices₁, ?_⟩
    · rw [List.foldlM_cons, hstep]
      exact hfold
    · rw [hedges, hedges₁, List.append_assoc, List.filterMap_cons]
      cases renumberEnds? new? e.item <;> rfl

end

/-- Whether there is a vertex with this number that is kept. -/
def keeps (g : AdjacencyGraph ν ε) (keep : Numbered (Vertex ν) → Bool) (v : Nat) : Bool :=
  g.vertices[v]?.any keep

/-- The number of kept vertices before a vertex. -/
def rank (g : AdjacencyGraph ν ε) (keep : Numbered (Vertex ν) → Bool) (v : Nat) : Nat :=
  rankIn keep g.vertices.toList v

lemma renumberEnds?_newNumber? (g : AdjacencyGraph ν ε) (keep : Numbered (Vertex ν) → Bool)
    (e : Edge ε) :
    renumberEnds? (newNumber? keep g.vertices.toList) e =
      if g.keeps keep e.source && g.keeps keep e.sink then
        some { e with source := g.rank keep e.source, sink := g.rank keep e.sink }
      else none := by
  have hnew : ∀ v, newNumber? keep g.vertices.toList v =
      if g.keeps keep v then some (g.rank keep v) else none := by
    intro v
    rw [newNumber?, Array.getElem?_toList]
    rfl
  rw [renumberEnds?, hnew, hnew]
  cases g.keeps keep e.source <;> cases g.keeps keep e.sink <;> rfl

/-- The subgraph exists, and its vertices and edges are the kept ones. -/
lemma subgraph?_ofGraph (w : WeightedGraph ν ε) (keepVertex : Numbered (Vertex ν) → Bool)
    (keepEdge : Numbered (Edge ε) → Bool) :
    let g := ofGraph w
    ∃ w', g.subgraph? keepVertex keepEdge = some (ofGraph w') ∧
      w'.vertices.toList = (g.vertices.toList.filter keepVertex).map Numbered.item ∧
      w'.edges.toList = (g.edges.toList.filter fun e => keepEdge e &&
          (g.keeps keepVertex e.item.source && g.keeps keepVertex e.item.sink)).map fun e =>
        { e.item with
          source := g.rank keepVertex e.item.source, sink := g.rank keepVertex e.item.sink } := by
  intro g
  have hvs : g.vertices.toList = numbered w.vertices.toList := toList_vertices_ofGraph w
  have hes : g.edges.toList = numbered w.edges.toList := toList_edges_ofGraph w
  have hn : w.vertices.toList.length ≤ g.vertices.size := by
    rw [Array.length_toList, size_vertices_ofGraph]
    exact le_rfl
  obtain ⟨renumbered, w₀, hfold, hcopied⟩ :=
    foldlM_copyVertex (ε := ε) keepVertex w.vertices.toList hn
  obtain ⟨hvertices₀, hedges₀, hnew⟩ := hcopied
  rw [← hvs] at hfold hvertices₀ hnew
  have hrange : ∀ e ∈ g.edges.toList.filter keepEdge,
      e.item.source < g.vertices.size ∧ e.item.sink < g.vertices.size := by
    intro e he
    have hmem : e ∈ numbered w.edges.toList := hes ▸ List.mem_of_mem_filter he
    rw [size_vertices_ofGraph]
    exact w.edges_inRange _ (Array.mem_toList_iff.mp (item_mem_of_mem_numbered hmem))
  have horder : ∀ i k, newNumber? keepVertex g.vertices.toList i = some k → k < w₀.order := by
    intro i k hk
    rw [WeightedGraph.order, ← Array.length_toList, hvertices₀, List.length_map]
    exact lt_of_newNumber? hk
  obtain ⟨w', hlinked, hvertices, hedges⟩ := foldlM_copyEdge hnew hrange horder
  refine ⟨w', ?_, ?_, ?_⟩
  · rw [subgraph?, hfold]
    exact hlinked
  · rw [hvertices, hvertices₀]
  · rw [hedges, hedges₀, List.nil_append]
    -- an end has a new number just where it is kept
    simp only [renumberEnds?_newNumber?]
    rw [List.filterMap_filter, ← List.filterMap_eq_map, List.filterMap_filter]
    refine List.filterMap_congr fun e _ => ?_
    cases keepEdge e <;> rfl

/-! ### Graphs that are made -/

/-- The graphs that adding vertices and edges, other weights and subgraphs make of the empty one. -/
inductive Made : AdjacencyGraph ν ε → Prop
  | empty : Made empty
  | addVertex {g : AdjacencyGraph ν ε} (hg : Made g) (weight : Int) (value : ν) :
      Made (g.addVertex weight value).2
  | addEdge {g g' : AdjacencyGraph ν ε} {source sink id : Nat} {weight : Int} {value : ε}
      (hg : Made g) (hg' : g.addEdge? source sink weight value = some (id, g')) : Made g'
  | reweight {g : AdjacencyGraph ν ε} (hg : Made g) (weight : Numbered (Edge ε) → Int) :
      Made (g.reweight weight)
  | subgraph {g g' : AdjacencyGraph ν ε} {keepVertex : Numbered (Vertex ν) → Bool}
      {keepEdge : Numbered (Edge ε) → Bool} (hg : Made g)
      (hg' : g.subgraph? keepVertex keepEdge = some g') : Made g'

/-- Every step keeps the tables of the graph. -/
lemma Made.exists_ofGraph {g : AdjacencyGraph ν ε} (h : Made g) : ∃ w, g = ofGraph w := by
  induction h with
  | empty => exact ⟨.empty, ofGraph_empty.symm⟩
  | addVertex _ weight value ih =>
    obtain ⟨w, rfl⟩ := ih
    exact ⟨w.addVertex weight value, by rw [addVertex_ofGraph]⟩
  | addEdge _ hg' ih =>
    obtain ⟨w, rfl⟩ := ih
    rw [addEdge?_ofGraph, Option.map_eq_some_iff] at hg'
    obtain ⟨w', -, heq⟩ := hg'
    exact ⟨w', (Prod.ext_iff.mp heq).2.symm⟩
  | reweight _ weight ih =>
    obtain ⟨w, rfl⟩ := ih
    obtain ⟨w', hw', -⟩ := reweight_ofGraph w weight
    exact ⟨w', hw'⟩
  | subgraph _ hg' ih =>
    obtain ⟨w, rfl⟩ := ih
    obtain ⟨w', hw', -⟩ := subgraph?_ofGraph w _ _
    exact ⟨w', Option.some.inj (hg'.symm.trans hw')⟩

/-- The edges with this end, each of them once, in the order of their numbers. -/
structure Lists (g : AdjacencyGraph ν ε) (endOf : Edge ε → Nat) (v : Nat)
    (es : List (Numbered (Edge ε))) : Prop where
  mem : ∀ e, e ∈ es ↔ e ∈ g.edges ∧ endOf e.item = v
  ascending : es.Pairwise fun a b => a.id < b.id

/-- Numbers are places, the ends of edges are vertices, and the tables list the edges of each
vertex. -/
structure WellLinked (g : AdjacencyGraph ν ε) : Prop where
  vertexIds : ∀ (i : Nat) (v : Numbered (Vertex ν)), g.vertices[i]? = some v → v.id = i
  edgeIds : ∀ (i : Nat) (e : Numbered (Edge ε)), g.edges[i]? = some e → e.id = i
  inRange : ∀ e ∈ g.edges, e.item.source < g.vertices.size ∧ e.item.sink < g.vertices.size
  outgoing : ∀ v < g.vertices.size, ∃ es, g.outgoingEdges? v = some es ∧ g.Lists Edge.source v es
  incoming : ∀ v < g.vertices.size, ∃ es, g.incomingEdges? v = some es ∧ g.Lists Edge.sink v es

/-- Edges are found again under their numbers. -/
lemma mapM_getElem?_id {es : List (Numbered (Edge ε))} (h : es ⊆ numbered w.edges.toList) :
    (es.map Numbered.id).mapM (fun id => (ofGraph w).edges[id]?) = some es := by
  induction es with
  | nil => rfl
  | cons e es ih =>
    obtain ⟨he, hes⟩ := List.cons_subset.mp h
    have hplace : (ofGraph w).edges[e.id]? = some e := by
      rw [← Array.getElem?_toList, toList_edges_ofGraph]
      exact getElem?_id_of_mem_numbered he
    rw [List.map_cons, List.mapM_cons, hplace, ih hes]
    rfl

lemma listed?_ofGraph (endOf : Edge ε → Nat) {v : Nat} (hv : v < w.order) :
    ∃ es, (ofGraph w).listed?
        (tableOf w.order fun v => w.edgesWhere fun e => endOf e == v) v = some es ∧
      (ofGraph w).Lists endOf v es := by
  refine ⟨(numbered w.edges.toList).filter fun e => endOf e.item == v, ?_, ?_, ?_⟩
  · rw [listed?, getElem?_tableOf, if_pos hv, WeightedGraph.edgesWhere_eq]
    exact mapM_getElem?_id (List.filter_subset_self _)
  · intro e
    rw [List.mem_filter, beq_iff_eq, ← toList_edges_ofGraph, Array.mem_toList_iff]
  · exact (pairwise_id_numbered _).filter _

lemma wellLinked_ofGraph (w : WeightedGraph ν ε) : (ofGraph w).WellLinked where
  vertexIds i v h := by
    rw [← Array.getElem?_toList, toList_vertices_ofGraph] at h
    exact id_of_getElem?_numbered h
  edgeIds i e h := by
    rw [← Array.getElem?_toList, toList_edges_ofGraph] at h
    exact id_of_getElem?_numbered h
  inRange e he := by
    rw [← Array.mem_toList_iff, toList_edges_ofGraph] at he
    rw [size_vertices_ofGraph]
    exact w.edges_inRange _ (Array.mem_toList_iff.mp (item_mem_of_mem_numbered he))
  outgoing v hv := by
    rw [size_vertices_ofGraph] at hv
    exact listed?_ofGraph Edge.source hv
  incoming v hv := by
    rw [size_vertices_ofGraph] at hv
    exact listed?_ofGraph Edge.sink hv

/-- A graph has the kept vertices and the kept edges between them, in order, with weights and
values as before, and the ends of the edges are the vertices under their new numbers. -/
structure Restricts (g : AdjacencyGraph ν ε) (keepVertex : Numbered (Vertex ν) → Bool)
    (keepEdge : Numbered (Edge ε) → Bool) (renumber : Nat → Nat) (g' : AdjacencyGraph ν ε) :
    Prop where
  vertices : g'.vertices.toList.map Numbered.item =
    (g.vertices.toList.filter keepVertex).map Numbered.item
  edges : g'.edges.toList.map Numbered.item =
    (g.edges.toList.filter fun e => keepEdge e &&
      (g.keeps keepVertex e.item.source && g.keeps keepVertex e.item.sink)).map fun e =>
        { e.item with source := renumber e.item.source, sink := renumber e.item.sink }
  renumbered : ∀ v ∈ g.vertices, keepVertex v = true →
    ∃ v', g'.vertices[renumber v.id]? = some v' ∧ v'.item = v.item
  ascending : ∀ u ∈ g.vertices, ∀ v ∈ g.vertices, keepVertex u = true → keepVertex v = true →
    u.id < v.id → renumber u.id < renumber v.id

lemma restricts_subgraph? (w : WeightedGraph ν ε) (keepVertex : Numbered (Vertex ν) → Bool)
    (keepEdge : Numbered (Edge ε) → Bool) :
    ∃ g', (ofGraph w).subgraph? keepVertex keepEdge = some g' ∧
      (ofGraph w).Restricts keepVertex keepEdge ((ofGraph w).rank keepVertex) g' := by
  obtain ⟨w', hw', hvertices, hedges⟩ := subgraph?_ofGraph w keepVertex keepEdge
  have hplace : ∀ v ∈ (ofGraph w).vertices, (ofGraph w).vertices.toList[v.id]? = some v := by
    intro v hv
    rw [← Array.mem_toList_iff, toList_vertices_ofGraph] at hv
    rw [toList_vertices_ofGraph]
    exact getElem?_id_of_mem_numbered hv
  refine ⟨ofGraph w', hw', ?_, ?_, ?_, ?_⟩
  · rw [toList_vertices_ofGraph, map_item_numbered, hvertices]
  · rw [toList_edges_ofGraph, map_item_numbered, hedges]
  · intro v hv hkeep
    have hitem : w'.vertices.toList[(ofGraph w).rank keepVertex v.id]? = some v.item := by
      rw [hvertices, List.getElem?_map, rank, getElem?_filter_rankIn (hplace v hv) hkeep]
      rfl
    rw [← Array.getElem?_toList, toList_vertices_ofGraph, getElem?_numbered, hitem]
    exact ⟨_, rfl, rfl⟩
  · intro u hu v _ hkeep _ hlt
    exact rankIn_lt_rankIn (hplace u hu) hkeep hlt

lemma graph?_ofGraph (w : WeightedGraph ν ε) : (ofGraph w).graph? = some w := by
  have hvertices : (ofGraph w).vertices.map Numbered.item = w.vertices := by
    rw [← Array.toList_inj, Array.toList_map, toList_vertices_ofGraph, map_item_numbered]
  have hedges : (ofGraph w).edges.map Numbered.item = w.edges := by
    rw [← Array.toList_inj, Array.toList_map, toList_edges_ofGraph, map_item_numbered]
  unfold graph?
  simp only [hvertices, hedges]
  exact dif_pos w.edges_inRange

/-- Whatever has been done to a graph, the numbers of its vertices and edges are their places, the
ends of its edges are vertices, and for each vertex the edges that leave it and those that enter it
are listed once, in order. An edge can be added if and only if its ends are vertices. A subgraph has
exactly the kept vertices and the kept edges between them, renumbered in order. Without its tables
it is a graph to which just these tables belong. -/
theorem made_wellLinked {g : AdjacencyGraph ν ε} (h : Made g) :
    g.WellLinked ∧
    (∀ source sink weight value, (g.addEdge? source sink weight value).isSome = true ↔
      source < g.vertices.size ∧ sink < g.vertices.size) ∧
    (∀ keepVertex keepEdge, ∃ g' renumber, g.subgraph? keepVertex keepEdge = some g' ∧
      g.Restricts keepVertex keepEdge renumber g') ∧
    ∃ w, g.graph? = some w ∧ g = ofGraph w := by
  obtain ⟨w, rfl⟩ := h.exists_ofGraph
  refine ⟨wellLinked_ofGraph w, ?_, ?_, w, graph?_ofGraph w, rfl⟩
  · intro source sink weight value
    rw [addEdge?_ofGraph, Option.isSome_map, size_vertices_ofGraph]
    constructor
    · intro hsome
      by_contra hends
      rw [WeightedGraph.addEdge?_eq_none hends] at hsome
      cases hsome
    · rintro ⟨hsource, hsink⟩
      obtain ⟨w', hw', -⟩ := WeightedGraph.exists_addEdge? hsource hsink weight value
      rw [hw']
      rfl
  · intro keepVertex keepEdge
    obtain ⟨g', hg', hrestricts⟩ := restricts_subgraph? w keepVertex keepEdge
    exact ⟨g', _, hg', hrestricts⟩

/-- A graph with two edges from the first to the last of three vertices, of which the one in the
middle is left out. -/
theorem made_wellLinked_parallel :
    let g := ((((empty.addVertex 5 "a").2.addVertex 1 "b").2.addVertex 5 "c").2 :
      AdjacencyGraph String String)
    ∃ g₁ g₂ g₃, g.addEdge? 0 2 0 "ac" = some (0, g₁) ∧ g₁.addEdge? 0 1 3 "ab" = some (1, g₂) ∧
      g₂.addEdge? 0 2 7 "ac" = some (2, g₃) ∧ Made g₃ ∧ g₃.WellLinked ∧
      (g₃.addEdge? 0 3 0 "ad").isSome = false ∧
      ∃ g' renumber, g₃.subgraph? (fun v => v.item.weight == 5) (fun _ => true) = some g' ∧
        g₃.Restricts (fun v => v.item.weight == 5) (fun _ => true) renumber g' ∧
        renumber 0 < renumber 2 := by
  intro g
  have hg : Made g := ((Made.empty.addVertex 5 "a").addVertex 1 "b").addVertex 5 "c"
  refine ⟨_, _, _, rfl, rfl, rfl, ?_⟩
  have hmade := ((hg.addEdge (show g.addEdge? 0 2 0 "ac" = some (0, _) from rfl)).addEdge
    (show addEdge? _ 0 1 3 "ab" = some (1, _) from rfl)).addEdge
    (show addEdge? _ 0 2 7 "ac" = some (2, _) from rfl)
  obtain ⟨hlinked, hadd, hsubgraph, -⟩ := made_wellLinked hmade
  obtain ⟨g', renumber, hg', hrestricts⟩ :=
    hsubgraph (fun v => v.item.weight == 5) fun _ => true
  refine ⟨hmade, hlinked, ?_, g', renumber, hg', hrestricts, ?_⟩
  · rw [← Bool.not_eq_true, hadd]
    decide
  · exact hrestricts.ascending ⟨0, 5, "a"⟩ (by simp [g, addVertex, empty]) ⟨2, 5, "c"⟩
      (by simp [g, addVertex, empty]) rfl rfl (by decide)

/-! ### Graphs without tables -/

lemma map_filter_item {α β : Type} (p : α → Bool) (f : α → β) (l : List α) :
    ((numbered l).filter fun x => p x.item).map (fun x => f x.item) = (l.filter p).map f := by
  conv_rhs => rw [← map_item_numbered l, List.filter_map, List.map_map]
  rfl

/-- Weights that do not depend on numbers change a graph with tables as they do without them. -/
theorem reweight_ofGraph_item (w : WeightedGraph ν ε) (weight : Edge ε → Int) :
    (ofGraph w).reweight (fun e => weight e.item) = ofGraph (w.reweight weight) := by
  obtain ⟨w', hw', hvertices, hedges⟩ := reweight_ofGraph w fun e => weight e.item
  have heq : w' = w.reweight weight := by
    apply WeightedGraph.ext_toList
    · rw [hvertices]
      rfl
    · rw [hedges, WeightedGraph.reweight, Array.toList_map]
      conv_rhs => rw [← map_item_numbered w.edges.toList, List.map_map]
      rfl
  rw [hw', heq]

/-- The same holds of subgraphs. -/
theorem subgraph?_ofGraph_item (w : WeightedGraph ν ε) (keepVertex : Vertex ν → Bool)
    (keepEdge : Edge ε → Bool) :
    (ofGraph w).subgraph? (fun v => keepVertex v.item) (fun e => keepEdge e.item) =
      some (ofGraph (w.subgraph keepVertex keepEdge)) := by
  obtain ⟨w', hw', hvertices, hedges⟩ :=
    subgraph?_ofGraph w (fun v => keepVertex v.item) fun e => keepEdge e.item
  have hkeeps : ∀ v, (ofGraph w).keeps (fun v => keepVertex v.item) v = w.keeps keepVertex v := by
    intro v
    rw [keeps, ← Array.getElem?_toList, toList_vertices_ofGraph, getElem?_numbered,
      Array.getElem?_toList, WeightedGraph.keeps]
    cases w.vertices[v]? <;> rfl
  have hrank : ∀ v, (ofGraph w).rank (fun v => keepVertex v.item) v = w.rank keepVertex v := by
    intro v
    rw [rank, rankIn, toList_vertices_ofGraph, WeightedGraph.rank]
    conv_rhs => rw [← map_item_numbered w.vertices.toList, ← List.map_take, List.countP_map]
    rfl
  have heq : w' = w.subgraph keepVertex keepEdge := by
    apply WeightedGraph.ext_toList
    · rw [hvertices, toList_vertices_ofGraph, WeightedGraph.subgraph, Array.toList_filter,
        map_filter_item keepVertex fun v => v, List.map_id']
    · simp only [hkeeps, hrank, toList_edges_ofGraph] at hedges
      rw [hedges, WeightedGraph.subgraph, Array.toList_map, Array.toList_filter]
      simp only [Bool.and_assoc]
      exact map_filter_item
        (fun e => keepEdge e && (w.keeps keepVertex e.source && w.keeps keepVertex e.sink))
        (fun e => { e with
          source := w.rank keepVertex e.source, sink := w.rank keepVertex e.sink }) _
  rw [hw', heq]

end AdjacencyGraph

end NetlistCompiler
