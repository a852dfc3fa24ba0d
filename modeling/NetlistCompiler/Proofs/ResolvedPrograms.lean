import NetlistCompiler.Proofs.ExpansionLikeness
import NetlistCompiler.Resolution

/-!
# Resolved programs

What name resolution guarantees of the programs that it accepts.
-/

namespace NetlistCompiler

namespace Resolution

/-- What a resolved program comes from: each definition is resolved in the scope of all names. -/
lemma exists_of_resolve {source : Surface.Program} {p : Program} (h : source.resolve = .ok p) :
    ∃ scope, Scope.enter [] .program (programSymbols source) = .ok scope ∧
      List.Forall₂ (fun d d' => interfaceDefinition scope d = .ok d') source.interfaces
        p.interfaces ∧
      List.Forall₂ (fun d d' => functionDefinition scope d = .ok d') source.functions
        p.functions := by
  obtain ⟨scope, hscope, hrest⟩ := exists_of_bind_eq_ok h
  obtain ⟨interfaces, hinterfaces, hrest⟩ := exists_of_bind_eq_ok hrest
  obtain ⟨functions, hfunctions, hend⟩ := exists_of_bind_eq_ok hrest
  cases hend
  exact ⟨scope, hscope, forall₂_of_mapM_eq_ok hinterfaces, forall₂_of_mapM_eq_ok hfunctions⟩

lemma nodup_of_members {scope : Scope} {owner : String} {seen : List String}
    {ms : List Surface.Member} {r : List (String × InterfaceExpr)}
    (h : members scope owner seen ms = .ok r) :
    (r.map Prod.fst).Nodup ∧ ∀ name ∈ r.map Prod.fst, name ∉ seen := by
  induction ms generalizing seen r with
  | nil =>
    cases h
    simp
  | cons m ms ih =>
    rw [members] at h
    split at h
    · cases h
    · next hnew =>
      obtain ⟨e, -, hrest⟩ := exists_of_bind_eq_ok h
      obtain ⟨r', hr', hend⟩ := exists_of_bind_eq_ok hrest
      cases hend
      obtain ⟨hnodup, hseen⟩ := ih hr'
      rw [List.map_cons, List.nodup_cons, List.forall_mem_cons]
      refine ⟨⟨?_, hnodup⟩, by simpa using hnew, ?_⟩
      · intro hmem
        exact hseen _ hmem (List.mem_cons_self ..)
      · intro name hname hold
        exact hseen name hname (List.mem_cons_of_mem _ hold)

lemma distinctMembers_of_resolve {source : Surface.Program} {p : Program}
    (h : source.resolve = .ok p) : p.DistinctMembers := by
  obtain ⟨scope, -, hinterfaces, -⟩ := exists_of_resolve h
  intro name d ms hd hbody
  have hmem : d ∈ p.interfaces := List.mem_of_find?_eq_some hd
  obtain ⟨d', -, hd'⟩ := exists_mem_of_forall₂ hinterfaces hmem
  obtain ⟨inner, -, hrest⟩ := exists_of_bind_eq_ok hd'
  obtain ⟨generics, -, hrest⟩ := exists_of_bind_eq_ok hrest
  dsimp only at hrest
  split at hrest
  · obtain ⟨e, -, hend⟩ := exists_of_bind_eq_ok hrest
    cases hend
    cases hbody
  · obtain ⟨r, hr, hend⟩ := exists_of_bind_eq_ok hrest
    cases hend
    cases hbody
    exact (nodup_of_members hr).1

end Resolution

end NetlistCompiler
