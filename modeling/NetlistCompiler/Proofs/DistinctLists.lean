import Mathlib

/-!
# Sorted lists without repetitions

Erasing repeated neighbours keeps the members of a list, and of a sorted list it leaves every
member once.
-/

namespace NetlistCompiler

variable {α : Type} [BEq α]

lemma eraseRepsBy_loop (a : α) (l acc : List α) :
    List.eraseRepsBy.loop (· == ·) a l acc =
      acc.reverse ++ List.eraseRepsBy.loop (· == ·) a l [] := by
  induction l generalizing a acc with
  | nil => simp [List.eraseRepsBy.loop]
  | cons b l ih =>
    cases h : a == b with
    | true =>
      simp only [List.eraseRepsBy.loop, h]
      exact ih a acc
    | false =>
      simp only [List.eraseRepsBy.loop, h]
      rw [ih b (a :: acc), ih b [a]]
      simp

variable [LawfulBEq α]

lemma eraseReps_cons_self (a : α) (l : List α) : (a :: a :: l).eraseReps = (a :: l).eraseReps := by
  simp [List.eraseReps, List.eraseRepsBy, List.eraseRepsBy.loop]

lemma eraseReps_cons_of_ne {a b : α} (h : a ≠ b) (l : List α) :
    (a :: b :: l).eraseReps = a :: (b :: l).eraseReps := by
  have hne : (a == b) = false := beq_eq_false_iff_ne.mpr h
  simp only [List.eraseReps, List.eraseRepsBy, List.eraseRepsBy.loop, hne]
  rw [eraseRepsBy_loop]
  rfl

lemma mem_eraseReps {x : α} {l : List α} : x ∈ l.eraseReps ↔ x ∈ l := by
  induction l with
  | nil => rfl
  | cons a l ih =>
    cases l with
    | nil => rfl
    | cons b l =>
      by_cases h : a = b
      · subst h
        rw [eraseReps_cons_self, ih]
        simp
      · rw [eraseReps_cons_of_ne h, List.mem_cons, ih]
        exact List.mem_cons.symm

/-- A sorted list in which repeated neighbours are erased is strictly sorted. -/
lemma pairwise_eraseReps {r : α → α → Prop} (hanti : ∀ a b, r a b → r b a → a = b) {l : List α}
    (h : l.Pairwise r) : l.eraseReps.Pairwise fun a b => r a b ∧ a ≠ b := by
  induction l with
  | nil => exact List.Pairwise.nil
  | cons a l ih =>
    cases l with
    | nil => exact List.pairwise_singleton _ a
    | cons b l =>
      obtain ⟨ha, hl⟩ := List.pairwise_cons.mp h
      by_cases hab : a = b
      · subst hab
        rw [eraseReps_cons_self]
        exact ih hl
      · rw [eraseReps_cons_of_ne hab, List.pairwise_cons]
        refine ⟨?_, ih hl⟩
        intro x hx
        rw [mem_eraseReps] at hx
        refine ⟨ha x hx, ?_⟩
        rintro rfl
        -- a later copy of the head would be equal to the neighbour between them
        rcases List.mem_cons.mp hx with hx | hx
        · exact hab hx
        · exact hab (hanti a b (ha b (by simp)) ((List.pairwise_cons.mp hl).1 a hx))

end NetlistCompiler
