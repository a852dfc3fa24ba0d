import Mathlib

/-!
# Steps over lists

Facts about lists that are gone through item by item: by steps that can fail, in a fold or a map, and
side by side with another list whose items are related to theirs.
-/

namespace NetlistCompiler

/-! ### Steps that can fail -/

lemma eq_ok_of_toOption {ε α : Type} {x : Except ε α} {a : α} (h : x.toOption = some a) :
    x = .ok a := by
  cases x with
  | error e => cases h
  | ok b =>
    cases h
    rfl

lemma bind_eq_ok_iff {ε α β : Type} {x : Except ε α} {f : α → Except ε β} {b : β} :
    x >>= f = .ok b ↔ ∃ a, x = .ok a ∧ f a = .ok b := by
  cases x <;> simp [bind, Except.bind]

lemma exists_of_bind_eq_ok {ε α β : Type} {x : Except ε α} {f : α → Except ε β} {b : β}
    (h : x >>= f = .ok b) : ∃ a, x = .ok a ∧ f a = .ok b :=
  bind_eq_ok_iff.mp h

lemma error_of_bind {ε α β : Type} {P : ε → Prop} {x : Except ε α} {f : α → Except ε β}
    (hx : ∀ e, x = .error e → P e) (hf : ∀ a e, f a = .error e → P e) :
    ∀ e, x >>= f = .error e → P e := by
  intro e h
  cases hfirst : x with
  | error e' =>
    rw [hfirst] at h
    cases h
    exact hx e hfirst
  | ok a =>
    rw [hfirst] at h
    exact hf a e h

/-- What every step of a fold keeps is kept by the whole fold. -/
lemma foldlM_keeps {α β ε : Type} {f : β → α → Except ε β} {P : β → Prop} {l : List α} {b b' : β}
    (hstep : ∀ b, ∀ a ∈ l, ∀ b', P b → f b a = .ok b' → P b') (hb : P b)
    (h : l.foldlM f b = .ok b') : P b' := by
  induction l generalizing b with
  | nil =>
    cases h
    exact hb
  | cons a l ih =>
    rw [List.foldlM_cons] at h
    obtain ⟨b₁, hfirst, hrest⟩ := exists_of_bind_eq_ok h
    exact ih (fun b a' ha' => hstep b a' (List.mem_cons_of_mem _ ha'))
      (hstep b a (List.mem_cons_self ..) b₁ hb hfirst) hrest

/-- In a fold that succeeds every step does. -/
lemma exists_step_of_foldlM {α β ε : Type} {f : β → α → Except ε β} {l : List α} {b b' : β}
    (h : l.foldlM f b = .ok b') {a : α} (ha : a ∈ l) : ∃ b₁ b₂, f b₁ a = .ok b₂ := by
  induction l generalizing b with
  | nil => simp at ha
  | cons x l ih =>
    rw [List.foldlM_cons] at h
    obtain ⟨b₁, hfirst, hrest⟩ := exists_of_bind_eq_ok h
    rcases List.mem_cons.mp ha with rfl | ha
    · exact ⟨b, b₁, hfirst⟩
    · exact ih hrest ha

lemma error_of_foldlM {ε α β : Type} {P : ε → Prop} {f : β → α → Except ε β} {l : List α}
    (hf : ∀ b, ∀ a ∈ l, ∀ e, f b a = .error e → P e) (b : β) :
    ∀ e, l.foldlM f b = .error e → P e := by
  induction l generalizing b with
  | nil => rintro e ⟨⟩
  | cons a l ih =>
    rw [List.foldlM_cons]
    exact error_of_bind (hf b a (by simp)) (ih fun b a' ha' => hf b a' (by simp [ha']))

/-! ### Maps that can fail -/

lemma mapM_eq_some_iff {α β : Type} {f : α → Option β} {as : List α} {bs : List β} :
    as.mapM f = some bs ↔ List.Forall₂ (fun a b => f a = some b) as bs := by
  induction as generalizing bs with
  | nil => simp [eq_comm]
  | cons a as ih =>
    rw [List.mapM_cons, List.forall₂_cons_left_iff]
    constructor
    · intro h
      obtain ⟨b, hb, h⟩ := Option.bind_eq_some_iff.mp h
      obtain ⟨bs', hbs, h⟩ := Option.bind_eq_some_iff.mp h
      exact ⟨b, bs', hb, ih.mp hbs, (Option.some_inj.mp h).symm⟩
    · rintro ⟨b, bs', hb, hbs, rfl⟩
      rw [hb, ih.mpr hbs]
      rfl

lemma mapM_eq_none_iff {α β : Type} {f : α → Option β} {as : List α} :
    as.mapM f = none ↔ ∃ a ∈ as, f a = none := by
  induction as with
  | nil => simp
  | cons a as ih =>
    rw [List.mapM_cons]
    cases ha : f a with
    | none => simp [ha]
    | some b =>
      cases has : as.mapM f with
      | none => simpa [ha] using ih.mp has
      | some bs =>
        rw [has] at ih
        simpa [ha] using ih

lemma mapM_eq_ok {α β ε : Type} {f : α → Except ε β} {g : α → β} {l : List α}
    (h : ∀ a ∈ l, f a = .ok (g a)) : l.mapM f = .ok (l.map g) := by
  induction l with
  | nil => rfl
  | cons a l ih =>
    rw [List.mapM_cons, h a (by simp), ih fun a ha => h a (by simp [ha])]
    rfl

lemma forall₂_of_mapM_eq_ok {α β ε : Type} {f : α → Except ε β} {as : List α} {bs : List β}
    (h : as.mapM f = .ok bs) : List.Forall₂ (fun a b => f a = .ok b) as bs := by
  induction as generalizing bs with
  | nil =>
    cases h
    exact .nil
  | cons a as ih =>
    rw [List.mapM_cons] at h
    obtain ⟨b, hb, hrest⟩ := exists_of_bind_eq_ok h
    obtain ⟨bs', hbs', hend⟩ := exists_of_bind_eq_ok hrest
    cases hend
    exact .cons hb (ih hbs')

lemma mapM_eq_ok_of_forall₂ {α β ε : Type} {f : α → Except ε β} {as : List α} {bs : List β}
    (h : List.Forall₂ (fun a b => f a = .ok b) as bs) : as.mapM f = .ok bs := by
  induction h with
  | nil => rfl
  | cons hab _ ih =>
    rw [List.mapM_cons, hab, ih]
    rfl

lemma error_of_mapM {ε α β : Type} {P : ε → Prop} {f : α → Except ε β}
    (hf : ∀ a e, f a = .error e → P e) (l : List α) : ∀ e, l.mapM f = .error e → P e := by
  induction l with
  | nil => rintro e ⟨⟩
  | cons a l ih =>
    rw [List.mapM_cons]
    refine error_of_bind (hf a) fun b => error_of_bind ih ?_
    rintro bs e ⟨⟩

/-! ### Related lists -/

lemma forall₂_getElem? {α β : Type} {R : α → β → Prop} {as : List α} {bs : List β}
    (h : List.Forall₂ R as bs) (index : Nat) : Option.Rel R as[index]? bs[index]? := by
  induction h generalizing index with
  | nil => exact .none
  | cons hab _ ih =>
    cases index with
    | zero => exact .some hab
    | succ index => exact ih index

lemma exists_mem_of_forall₂ {α β : Type} {R : α → β → Prop} {as : List α} {bs : List β}
    (h : List.Forall₂ R as bs) {b : β} (hb : b ∈ bs) : ∃ a ∈ as, R a b := by
  induction h with
  | nil => simp at hb
  | cons hab _ ih =>
    rcases List.mem_cons.mp hb with rfl | hb
    · exact ⟨_, List.mem_cons_self .., hab⟩
    · obtain ⟨a, ha, hR⟩ := ih hb
      exact ⟨a, List.mem_cons_of_mem _ ha, hR⟩

lemma exists_mem_right_of_forall₂ {α β : Type} {R : α → β → Prop} {as : List α} {bs : List β}
    (h : List.Forall₂ R as bs) {a : α} (ha : a ∈ as) : ∃ b ∈ bs, R a b :=
  exists_mem_of_forall₂ h.flip ha

lemma forall₂_comp {α β γ : Type} {r : α → β → Prop} {s : β → γ → Prop} {t : α → γ → Prop}
    (hrst : ∀ a b c, r a b → s b c → t a c) {as : List α} {bs : List β} {cs : List γ}
    (hr : List.Forall₂ r as bs) (hs : List.Forall₂ s bs cs) : List.Forall₂ t as cs := by
  induction hr generalizing cs with
  | nil =>
    cases hs
    exact .nil
  | cons hab _ ih =>
    cases hs with
    | cons hbc hs => exact .cons (hrst _ _ _ hab hbc) (ih hs)

lemma forall₂_mapIdx {α β γ δ : Type} {R : α → β → Prop} {S : γ → δ → Prop} {as : List α} {bs : List β}
    (h : List.Forall₂ R as bs) {f : Nat → α → γ} {g : Nat → β → δ}
    (hfg : ∀ (i : Nat) a b, as[i]? = some a → bs[i]? = some b → R a b → S (f i a) (g i b)) :
    List.Forall₂ S (as.mapIdx f) (bs.mapIdx g) := by
  rw [List.forall₂_iff_get] at h ⊢
  obtain ⟨hlength, hget⟩ := h
  refine ⟨by simp [hlength], ?_⟩
  intro i hi hi'
  simp only [List.length_mapIdx] at hi hi'
  simpa using hfg i _ _ (by simp [hi]) (by simp [hi']) (hget i hi hi')

lemma forall₂_zip {α β γ δ : Type} {R : α → β → Prop} {S : γ → δ → Prop} {as : List α} {bs : List β}
    {cs : List γ} {ds : List δ} (h : List.Forall₂ R as bs) (h' : List.Forall₂ S cs ds) :
    List.Forall₂ (fun x y => R x.1 y.1 ∧ S x.2 y.2) (as.zip cs) (bs.zip ds) := by
  induction h generalizing cs ds with
  | nil => exact .nil
  | cons hab _ ih =>
    cases h' with
    | nil => exact .nil
    | cons hcd hrest => exact .cons ⟨hab, hcd⟩ (ih hrest)

lemma forall₂_zip_map {α β γ δ : Type} {r : α → β → Prop} {s : γ → δ → Prop} {f : β × α → γ}
    {g : α → δ} {as : List α} {bs : List β} (h : List.Forall₂ r as bs)
    (hrs : ∀ a b, r a b → s (f (b, a)) (g a)) : List.Forall₂ s ((bs.zip as).map f) (as.map g) := by
  induction h with
  | nil => exact .nil
  | cons hab _ ih => exact .cons (hrs _ _ hab) ih

lemma exists_mapM_of_forall₂ {ε ε' α β γ δ : Type} {R : α → β → Prop} {S : γ → δ → Prop}
    {f : α → Except ε γ} {g : β → Except ε' δ}
    (hfg : ∀ a b, R a b → ∀ c, f a = .ok c → ∃ d, g b = .ok d ∧ S c d) {as : List α} {bs : List β}
    (h : List.Forall₂ R as bs) {cs : List γ} (hcs : as.mapM f = .ok cs) :
    ∃ ds, bs.mapM g = .ok ds ∧ List.Forall₂ S cs ds := by
  induction h generalizing cs with
  | nil =>
    cases hcs
    exact ⟨[], rfl, .nil⟩
  | cons hab _ ih =>
    rw [List.mapM_cons] at hcs
    obtain ⟨c, hc, hrest⟩ := exists_of_bind_eq_ok hcs
    obtain ⟨cs', hcs', hend⟩ := exists_of_bind_eq_ok hrest
    cases hend
    obtain ⟨d, hd, hS⟩ := hfg _ _ hab c hc
    obtain ⟨ds, hds, hSs⟩ := ih hcs'
    refine ⟨d :: ds, ?_, .cons hS hSs⟩
    rw [List.mapM_cons, hd, hds]
    rfl

section

variable {α β γ ε : Type} {R : α → β → Prop} {as : List α} {bs : List β}

lemma map_eq_of_forall₂ (h : List.Forall₂ R as bs) {f : α → γ} {g : β → γ}
    (hfg : ∀ a b, R a b → f a = g b) : as.map f = bs.map g := by
  induction h with
  | nil => rfl
  | cons hab _ ih => rw [List.map_cons, List.map_cons, hfg _ _ hab, ih]

lemma flatMap_eq_of_forall₂ (h : List.Forall₂ R as bs) {f : α → List γ} {g : β → List γ}
    (hfg : ∀ a b, R a b → f a = g b) : as.flatMap f = bs.flatMap g := by
  rw [List.flatMap_def, List.flatMap_def, map_eq_of_forall₂ h hfg]

lemma mapM_eq_of_forall₂ (h : List.Forall₂ R as bs) {f : α → Except ε γ} {g : β → Except ε γ}
    (hfg : ∀ a b, R a b → f a = g b) : as.mapM f = bs.mapM g := by
  induction h with
  | nil => rfl
  | cons hab _ ih => rw [List.mapM_cons, List.mapM_cons, hfg _ _ hab, ih]

lemma isEmpty_eq_of_forall₂ (h : List.Forall₂ R as bs) : as.isEmpty = bs.isEmpty := by
  cases h <;> rfl

end

/-! ### Lists of named items -/

lemma lookup_map_snd {α β : Type} (f : α → β) (l : List (String × α)) (name : String) :
    (l.map fun x => (x.1, f x.2)).lookup name = (l.lookup name).map f := by
  induction l with
  | nil => rfl
  | cons x l ih =>
    rw [List.map_cons, List.lookup_cons, List.lookup_cons, ih]
    cases name == x.1 <;> rfl

end NetlistCompiler
