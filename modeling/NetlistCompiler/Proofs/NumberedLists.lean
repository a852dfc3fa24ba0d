import Mathlib
import NetlistCompiler.WeightedGraph.Adjacency

/-!
# Numbered lists

The members of a list are numbered by their places. Where only some of them are kept, the new number
of a member is the number of kept members before it.
-/

namespace NetlistCompiler

/-- A list with the place of each member. -/
def numbered {α : Type} (l : List α) : List (Numbered α) :=
  l.mapIdx Numbered.mk

section

variable {α : Type} {l : List α}

lemma numbered_concat (l : List α) (a : α) : numbered (l ++ [a]) = numbered l ++ [⟨l.length, a⟩] :=
  List.mapIdx_concat

lemma length_numbered (l : List α) : (numbered l).length = l.length :=
  List.length_mapIdx

lemma getElem?_numbered (l : List α) (i : Nat) : (numbered l)[i]? = l[i]?.map (Numbered.mk i) :=
  List.getElem?_mapIdx

lemma map_item_numbered (l : List α) : (numbered l).map Numbered.item = l := by
  apply List.ext_getElem?
  intro i
  rw [List.getElem?_map, getElem?_numbered, Option.map_map]
  exact Option.map_id'

lemma item_mem_of_mem_numbered {x : Numbered α} (h : x ∈ numbered l) : x.item ∈ l := by
  have hitem := List.mem_map_of_mem (f := Numbered.item) h
  rwa [map_item_numbered] at hitem

lemma map_id_numbered (l : List α) : (numbered l).map Numbered.id = List.range l.length := by
  induction l using List.reverseRecOn with
  | nil => rfl
  | append_singleton l a ih =>
    rw [numbered_concat, List.map_append, ih, List.length_append, List.length_singleton,
      List.range_succ, List.map_singleton]

lemma id_of_getElem?_numbered {i : Nat} {x : Numbered α} (h : (numbered l)[i]? = some x) :
    x.id = i := by
  rw [getElem?_numbered, Option.map_eq_some_iff] at h
  obtain ⟨a, -, rfl⟩ := h
  rfl

lemma getElem?_id_of_mem_numbered {x : Numbered α} (h : x ∈ numbered l) :
    (numbered l)[x.id]? = some x := by
  obtain ⟨i, hi⟩ := List.mem_iff_getElem?.mp h
  rwa [id_of_getElem?_numbered hi]

lemma pairwise_id_numbered (l : List α) : (numbered l).Pairwise fun a b => a.id < b.id := by
  rw [← List.pairwise_map (f := Numbered.id) (R := (· < ·)), map_id_numbered]
  exact List.pairwise_lt_range

/-- A list whose numbers are its places is the numbered list of its members. -/
lemma eq_numbered_of_id {l : List (Numbered α)} (h : l.map Numbered.id = List.range l.length) :
    l = numbered (l.map Numbered.item) := by
  apply List.ext_getElem?
  intro i
  rw [getElem?_numbered, List.getElem?_map, Option.map_map]
  cases hx : l[i]? with
  | none => rfl
  | some x =>
    have hid : (l.map Numbered.id)[i]? = some x.id := by rw [List.getElem?_map, hx]; rfl
    rw [h, List.getElem?_eq_some_iff] at hid
    obtain ⟨_, hid⟩ := hid
    rw [List.getElem_range] at hid
    rw [hid]
    rfl

end

/-! ### Kept members of a list -/

section

variable {α : Type} {p : α → Bool} {l : List α} {i j : Nat} {a : α}

/-- The number of kept members before a place. -/
def rankIn (p : α → Bool) (l : List α) (i : Nat) : Nat :=
  (l.take i).countP p

lemma getElem?_filter_rankIn (h : l[i]? = some a) (ha : p a = true) :
    (l.filter p)[rankIn p l i]? = some a := by
  unfold rankIn
  induction l generalizing i with
  | nil => cases h
  | cons b l ih =>
    cases i with
    | zero =>
      cases h
      rw [List.filter_cons_of_pos ha]
      rfl
    | succ i =>
      have hrest := ih h
      rw [List.take_succ_cons]
      cases hb : p b with
      | true => rwa [List.filter_cons_of_pos hb, List.countP_cons_of_pos hb]
      | false =>
        have hb : ¬p b = true := by rw [hb]; exact Bool.false_ne_true
        rwa [List.filter_cons_of_neg hb, List.countP_cons_of_neg hb]

lemma rankIn_lt (h : l[i]? = some a) (ha : p a = true) : rankIn p l i < (l.filter p).length :=
  (List.getElem?_eq_some_iff.mp (getElem?_filter_rankIn h ha)).1

lemma rankIn_lt_rankIn (h : l[i]? = some a) (ha : p a = true) (hij : i < j) :
    rankIn p l i < rankIn p l j := by
  have htaken : (l.take i ++ [a]).Sublist (l.take j) := by
    have htake : l.take (i + 1) = l.take i ++ [a] := by rw [List.take_add_one, h]; rfl
    rw [← htake]
    exact List.take_sublist_take_left hij
  calc rankIn p l i < (l.take i ++ [a]).countP p := by
        rw [List.countP_append, List.countP_singleton, if_pos ha]
        exact Nat.lt_succ_self _
    _ ≤ rankIn p l j := htaken.countP_le

/-- The number of kept members before a place whose member is kept. -/
def newNumber? (p : α → Bool) (l : List α) (i : Nat) : Option Nat :=
  if l[i]?.any p then some (rankIn p l i) else none

lemma newNumber?_concat_of_ne (h : i ≠ l.length) :
    newNumber? p (l ++ [a]) i = newNumber? p l i := by
  unfold newNumber? rankIn
  rcases lt_or_gt_of_ne h with hlt | hgt
  · rw [List.getElem?_append_left hlt, List.take_append_of_le_length hlt.le]
  · rw [List.getElem?_eq_none (by simpa using hgt), List.getElem?_eq_none hgt.le]
    rfl

lemma newNumber?_concat_length :
    newNumber? p (l ++ [a]) l.length = if p a then some (l.countP p) else none := by
  unfold newNumber? rankIn
  rw [List.getElem?_concat_length, List.take_left]
  rfl

lemma newNumber?_length : newNumber? p l l.length = none := by
  unfold newNumber?
  rw [List.getElem?_eq_none le_rfl]
  rfl

lemma lt_of_newNumber? {k : Nat} (h : newNumber? p l i = some k) : k < (l.filter p).length := by
  unfold newNumber? at h
  split at h
  · next hany =>
    cases h
    obtain ⟨a, ha, hp⟩ := (Option.any_eq_true _ _).mp hany
    exact rankIn_lt ha hp
  · cases h

end

end NetlistCompiler
