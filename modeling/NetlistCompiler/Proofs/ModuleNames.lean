import NetlistCompiler.Invocation.Name
import NetlistCompiler.Proofs.Agreement

/-!
# Module names tell invocations apart

A module name can be read from left to right: every part of it ends where it has to, whatever
follows. Escaped source names end at the first `_` that is no escape, numbers at their `e`, and lists
at the marker of the next section. So two invocations have the same module name only if they have
the same normal form.
-/

namespace NetlistCompiler

namespace ModuleName

/-! ### Escaped names -/

lemma toNat_ofNat_byte (b : UInt8) : (Char.ofNat b.toNat).toNat = b.toNat := by
  have hb := b.toNat_lt
  have hvalid : b.toNat.isValidChar := Or.inl (by omega)
  rw [Char.ofNat, dif_pos hvalid]
  rfl

lemma byte_eq_of_ofNat {b b' : UInt8} (h : Char.ofNat b.toNat = Char.ofNat b'.toNat) : b = b' := by
  have htoNat := congrArg Char.toNat h
  rw [toNat_ofNat_byte, toNat_ofNat_byte] at htoNat
  exact UInt8.toNat_inj.mp htoNat

lemma digitChar_inj : ∀ m < 16, ∀ n < 16, m.digitChar = n.digitChar → m = n := by
  decide

/-- The three ways to write a byte. -/
lemma escapeByte_cases (b : UInt8) :
    (Char.ofNat b.toNat = '_' ∧ escapeByte b = ['_', 'u']) ∨
      (Char.ofNat b.toNat ≠ '_' ∧ escapeByte b = [Char.ofNat b.toNat]) ∨
      escapeByte b = ['_', 'x', (b.toNat / 16).digitChar, (b.toNat % 16).digitChar, '_'] := by
  unfold escapeByte
  dsimp only
  split
  · next h => exact .inl ⟨eq_of_beq h, rfl⟩
  · next h =>
    split
    · exact .inr (.inl ⟨fun heq => h (beq_iff_eq.mpr heq), rfl⟩)
    · exact .inr (.inr rfl)

lemma escapeByte_append_inj {b b' : UInt8} {r r' : List Char}
    (h : escapeByte b ++ r = escapeByte b' ++ r') : b = b' ∧ r = r' := by
  have hb := b.toNat_lt
  have hb' := b'.toNat_lt
  rcases escapeByte_cases b with ⟨hc, heq⟩ | ⟨hc, heq⟩ | heq <;>
    rcases escapeByte_cases b' with ⟨hc', heq'⟩ | ⟨hc', heq'⟩ | heq' <;>
    rw [heq, heq'] at h <;>
    simp only [List.cons_append, List.nil_append, List.cons.injEq] at h
  · exact ⟨byte_eq_of_ofNat (hc.trans hc'.symm), h.2.2⟩
  · exact absurd h.1.symm hc'
  · exact absurd h.2.1 (by decide)
  · exact absurd h.1 hc
  · exact ⟨byte_eq_of_ofNat h.1, h.2⟩
  · exact absurd h.1 hc
  · exact absurd h.2.1 (by decide)
  · exact absurd h.1.symm hc'
  · obtain ⟨-, -, hhigh, hlow, -, hr⟩ := h
    have hdiv := digitChar_inj _ (by omega) _ (by omega) hhigh
    have hmod := digitChar_inj _ (by omega) _ (by omega) hlow
    exact ⟨UInt8.toNat_inj.mp (by omega), hr⟩

/-- The text is over or goes on with a marker. -/
def Marked (r : List Char) : Prop :=
  r = [] ∨ ∃ c rest, r = '_' :: c :: rest ∧ c ≠ 'u' ∧ c ≠ 'x'

lemma not_marked_escapeByte (b : UInt8) (r : List Char) : ¬ Marked (escapeByte b ++ r) := by
  rcases escapeByte_cases b with ⟨-, heq⟩ | ⟨hc, heq⟩ | heq <;> rw [heq] <;>
    rintro (hnil | ⟨c, rest, hcons, hu, hx⟩)
  · cases hnil
  · cases hcons
    exact hu rfl
  · cases hnil
  · exact hc (List.cons.inj hcons).1
  · cases hnil
  · cases hcons
    exact hx rfl

lemma escapeBytes_append_inj {bs bs' : List UInt8} {r r' : List Char} (hr : Marked r)
    (hr' : Marked r') (h : bs.flatMap escapeByte ++ r = bs'.flatMap escapeByte ++ r') :
    bs = bs' ∧ r = r' := by
  induction bs generalizing bs' with
  | nil =>
    cases bs' with
    | nil => exact ⟨rfl, h⟩
    | cons b' bs' =>
      rw [List.flatMap_nil, List.nil_append, List.flatMap_cons, List.append_assoc] at h
      rw [h] at hr
      exact absurd hr (not_marked_escapeByte b' _)
  | cons b bs ih =>
    cases bs' with
    | nil =>
      rw [List.flatMap_nil, List.nil_append, List.flatMap_cons, List.append_assoc] at h
      rw [← h] at hr'
      exact absurd hr' (not_marked_escapeByte b _)
    | cons b' bs' =>
      rw [List.flatMap_cons, List.flatMap_cons, List.append_assoc, List.append_assoc] at h
      obtain ⟨rfl, hrest⟩ := escapeByte_append_inj h
      obtain ⟨rfl, hr⟩ := ih hrest
      exact ⟨rfl, hr⟩

/-- An escaped name is read up to the next marker. -/
lemma escape_append_inj {name name' : String} {r r' : List Char} (hr : Marked r) (hr' : Marked r')
    (h : escape name ++ r = escape name' ++ r') : name = name' ∧ r = r' := by
  obtain ⟨hbytes, hrest⟩ := escapeBytes_append_inj hr hr' h
  refine ⟨?_, hrest⟩
  have hdata : name.toUTF8.data = name'.toUTF8.data := Array.toList_inj.mp hbytes
  exact String.toByteArray_inj.mp (ByteArray.ext hdata)

/-! ### Numbers and shapes -/

lemma ne_e_of_mem_digits {n : Nat} {c : Char} (hc : c ∈ (toString n).toList) : c ≠ 'e' := by
  rw [Nat.toString_eq_ofList_toDigits, String.toList_ofList] at hc
  have hdigit := Nat.isDigit_of_mem_toDigits (by decide) (by decide) hc
  rintro rfl
  exact absurd hdigit (by decide)

lemma append_cons_inj {c : Char} {l l' r r' : List Char} (hl : c ∉ l) (hl' : c ∉ l')
    (h : l ++ c :: r = l' ++ c :: r') : l = l' ∧ r = r' := by
  induction l generalizing l' with
  | nil =>
    cases l' with
    | nil => exact ⟨rfl, (List.cons.inj h).2⟩
    | cons d l' =>
      obtain ⟨rfl, -⟩ := List.cons.inj h
      exact absurd List.mem_cons_self hl'
  | cons d l ih =>
    cases l' with
    | nil =>
      obtain ⟨rfl, -⟩ := List.cons.inj h
      exact absurd List.mem_cons_self hl
    | cons d' l' =>
      obtain ⟨rfl, hrest⟩ := List.cons.inj h
      obtain ⟨rfl, hr⟩ := ih (List.not_mem_of_not_mem_cons hl) (List.not_mem_of_not_mem_cons hl')
        hrest
      exact ⟨rfl, hr⟩

lemma number_append_inj {m n : Nat} {r r' : List Char} (h : number m ++ r = number n ++ r') :
    m = n ∧ r = r' := by
  simp only [number, List.append_assoc, List.singleton_append] at h
  obtain ⟨hdigits, hr⟩ := append_cons_inj (fun he => ne_e_of_mem_digits he rfl)
    (fun he => ne_e_of_mem_digits he rfl) h
  exact ⟨Nat.repr_inj.mp (String.toList_inj.mp hdigits), hr⟩

mutual

/-- A shape as in a module name, with the fields of a record as they come. -/
def plainShape : Shape → List Char
  | .wire => ['w']
  | .vector element size => 'v' :: number size ++ plainShape element
  | .record fields => 'r' :: number fields.length ++ plainFields fields

def plainFields : List (String × Shape) → List Char
  | [] => []
  | (name, s) :: rest => escape name ++ '_' :: 'c' :: (plainShape s ++ plainFields rest)

end

lemma plainFields_eq_flatMap (fields : List (String × Shape)) :
    plainFields fields =
      fields.flatMap fun f => escape f.1 ++ ['_', 'c'] ++ plainShape f.2 := by
  induction fields with
  | nil => rfl
  | cons f rest ih => simp [plainFields, ih]

lemma fieldShapes_eq_map (fields : List (String × Shape)) :
    fieldShapes fields = fields.map fun f => (f.1, shape f.2) := by
  induction fields with
  | nil => rfl
  | cons f rest ih => simp [fieldShapes, ih]

/-- The text of a shape is that of its normal form. -/
lemma shape_eq_plainShape (s : Shape) : shape s = plainShape s.normal := by
  induction s using Shape.induction with
  | wire => simp [shape, Shape.normal, plainShape]
  | vector e n ih => simp [shape, Shape.normal, plainShape, ih]
  | record fields ih =>
    have htexts : fieldShapes fields =
        (fields.map fun f => (f.1, f.2.normal)).map fun f => (f.1, plainShape f.2) := by
      rw [fieldShapes_eq_map, List.map_map]
      apply List.map_congr_left
      intro f hf
      rw [ih f hf]
      rfl
    have hsort : (fieldShapes fields).mergeSort (fun a b => a.1 ≤ b.1) =
        (sortByName (fields.map fun f => (f.1, f.2.normal))).map
          fun f => (f.1, plainShape f.2) := by
      rw [htexts, sortByName, List.map_mergeSort]
      intro a _ b _
      rfl
    rw [shape, hsort, Shape.normal_record, plainShape, plainFields_eq_flatMap,
      List.flatMap_map, (sortByName_perm _).length_eq, List.length_map]

lemma marked_field (r : List Char) : Marked ('_' :: 'c' :: r) :=
  .inr ⟨'c', r, rfl, by decide, by decide⟩

mutual

lemma plainShape_append_inj : ∀ {s t : Shape} {r r' : List Char},
    plainShape s ++ r = plainShape t ++ r' → s = t ∧ r = r'
  | .wire, .wire, _, _, h => by simpa [plainShape] using h
  | .wire, .vector _ _, _, _, h => by simp [plainShape] at h
  | .wire, .record _, _, _, h => by simp [plainShape] at h
  | .vector _ _, .wire, _, _, h => by simp [plainShape] at h
  | .vector _ _, .record _, _, _, h => by simp [plainShape] at h
  | .record _, .wire, _, _, h => by simp [plainShape] at h
  | .record _, .vector _ _, _, _, h => by simp [plainShape] at h
  | .vector e m, .vector f n, r, r', h => by
    simp only [plainShape, List.cons_append, List.append_assoc, List.cons.injEq, true_and] at h
    obtain ⟨rfl, helement⟩ := number_append_inj h
    obtain ⟨rfl, hr⟩ := plainShape_append_inj helement
    exact ⟨rfl, hr⟩
  | .record fs, .record gs, r, r', h => by
    simp only [plainShape, List.cons_append, List.append_assoc, List.cons.injEq, true_and] at h
    obtain ⟨hlength, hfields⟩ := number_append_inj h
    obtain ⟨rfl, hr⟩ := plainFields_append_inj hlength hfields
    exact ⟨rfl, hr⟩

lemma plainFields_append_inj : ∀ {fs gs : List (String × Shape)} {r r' : List Char},
    fs.length = gs.length → plainFields fs ++ r = plainFields gs ++ r' → fs = gs ∧ r = r'
  | [], [], _, _, _, h => ⟨rfl, h⟩
  | [], _ :: _, _, _, hlength, _ => by simp at hlength
  | _ :: _, [], _, _, hlength, _ => by simp at hlength
  | (name, s) :: fs, (name', t) :: gs, r, r', hlength, h => by
    simp only [plainFields, List.append_assoc, List.cons_append] at h
    obtain ⟨rfl, hshape⟩ := escape_append_inj (marked_field _) (marked_field _) h
    simp only [List.cons.injEq, true_and] at hshape
    obtain ⟨rfl, hrest⟩ := plainShape_append_inj hshape
    obtain ⟨rfl, hr⟩ := plainFields_append_inj (Nat.succ.inj hlength) hrest
    exact ⟨rfl, hr⟩

end

lemma shape_append_inj {s t : Shape} {r r' : List Char} (h : shape s ++ r = shape t ++ r') :
    s.normal = t.normal ∧ r = r' := by
  rw [shape_eq_plainShape, shape_eq_plainShape] at h
  exact plainShape_append_inj h

/-! ### Sections -/

/-- The text is over or goes on with one of the given markers. -/
def StopsAt (markers : List Char) (r : List Char) : Prop :=
  r = [] ∨ ∃ c ∈ markers, ∃ rest, r = '_' :: c :: rest

lemma StopsAt.marked {markers r : List Char} (h : StopsAt markers r)
    (hmarkers : ∀ c ∈ markers, c ≠ 'u' ∧ c ≠ 'x') : Marked r := by
  rcases h with rfl | ⟨c, hc, rest, rfl⟩
  · exact .inl rfl
  · exact .inr ⟨c, rest, rfl, hmarkers c hc⟩

lemma StopsAt.mono {markers markers' r : List Char} (h : StopsAt markers r)
    (hsubset : markers ⊆ markers') : StopsAt markers' r := by
  rcases h with rfl | ⟨c, hc, rest, rfl⟩
  · exact .inl rfl
  · exact .inr ⟨c, hsubset hc, rest, rfl⟩

lemma not_stopsAt_cons {markers r : List Char} {c : Char} (hc : c ≠ '_') :
    ¬ StopsAt markers (c :: r) := by
  rintro (hnil | ⟨d, -, rest, hcons⟩)
  · cases hnil
  · cases hcons
    exact hc rfl

lemma exists_shape_cons (s : Shape) : ∃ c text, shape s = c :: text ∧ c ≠ '_' := by
  cases s <;> simp [shape]

lemma shapes_append_inj {ss ts : List Shape} {markers r r' : List Char} (hr : StopsAt markers r)
    (hr' : StopsAt markers r') (h : ss.flatMap shape ++ r = ts.flatMap shape ++ r') :
    ss.map Shape.normal = ts.map Shape.normal ∧ r = r' := by
  induction ss generalizing ts with
  | nil =>
    cases ts with
    | nil => exact ⟨rfl, h⟩
    | cons t ts =>
      obtain ⟨c, text, htext, hc⟩ := exists_shape_cons t
      rw [List.flatMap_nil, List.nil_append, List.flatMap_cons, htext] at h
      rw [h] at hr
      exact absurd hr (not_stopsAt_cons hc)
  | cons s ss ih =>
    cases ts with
    | nil =>
      obtain ⟨c, text, htext, hc⟩ := exists_shape_cons s
      rw [List.flatMap_nil, List.nil_append, List.flatMap_cons, htext] at h
      rw [← h] at hr'
      exact absurd hr' (not_stopsAt_cons hc)
    | cons t ts =>
      rw [List.flatMap_cons, List.flatMap_cons, List.append_assoc, List.append_assoc] at h
      obtain ⟨hhead, hrest⟩ := shape_append_inj h
      obtain ⟨htail, hr⟩ := ih hrest
      exact ⟨by rw [List.map_cons, List.map_cons, hhead, htail], hr⟩

def interfaceSection (interfaces : List Shape) : List Char :=
  if interfaces.isEmpty then [] else '_' :: 'I' :: interfaces.flatMap shape

def parameterSection (parameters : List Argument) : List Char :=
  if parameters.isEmpty then [] else '_' :: 'P' :: arguments parameters

lemma invocation_eq (function : String) (interfaces : List Shape) (parameters : List Argument) :
    invocation ⟨function, interfaces, parameters⟩ =
      escape function ++ (interfaceSection interfaces ++ parameterSection parameters) := by
  rw [invocation, List.append_assoc]
  rfl

lemma stopsAt_parameterSection (parameters : List Argument) {r : List Char} (hr : StopsAt ['E'] r) :
    StopsAt ['P', 'E'] (parameterSection parameters ++ r) := by
  cases parameters with
  | nil => exact hr.mono (by decide)
  | cons a rest => exact .inr ⟨'P', by decide, _, rfl⟩

lemma stopsAt_interfaceSection (interfaces : List Shape) {r : List Char}
    (hr : StopsAt ['P', 'E'] r) : StopsAt ['I', 'P', 'E'] (interfaceSection interfaces ++ r) := by
  cases interfaces with
  | nil => exact hr.mono (by decide)
  | cons s rest => exact .inr ⟨'I', by decide, _, rfl⟩

lemma not_stopsAt_marker {markers r : List Char} {c : Char} (hc : c ∉ markers) :
    ¬ StopsAt markers ('_' :: c :: r) := by
  rintro (hnil | ⟨d, hd, rest, hcons⟩)
  · cases hnil
  · cases hcons
    exact hc hd

lemma interfaceSection_append_inj {ss ts : List Shape} {r r' : List Char}
    (hr : StopsAt ['P', 'E'] r) (hr' : StopsAt ['P', 'E'] r')
    (h : interfaceSection ss ++ r = interfaceSection ts ++ r') :
    ss.map Shape.normal = ts.map Shape.normal ∧ r = r' := by
  cases ss with
  | nil =>
    cases ts with
    | nil => exact ⟨rfl, h⟩
    | cons t ts =>
      have hsection : r = '_' :: 'I' :: ((t :: ts).flatMap shape ++ r') := h
      rw [hsection] at hr
      exact absurd hr (not_stopsAt_marker (by decide))
  | cons s ss =>
    cases ts with
    | nil =>
      have hsection : '_' :: 'I' :: ((s :: ss).flatMap shape ++ r) = r' := h
      rw [← hsection] at hr'
      exact absurd hr' (not_stopsAt_marker (by decide))
    | cons t ts =>
      have hshapes : (s :: ss).flatMap shape ++ r = (t :: ts).flatMap shape ++ r' :=
        (List.cons.inj (List.cons.inj h).2).2
      exact shapes_append_inj hr hr' hshapes

lemma integer_append_inj {m n : Int} {r r' : List Char} (h : integer m ++ r = integer n ++ r') :
    m = n ∧ r = r' := by
  simp only [integer, List.cons_append, List.cons.injEq] at h
  obtain ⟨hsign, hnumber⟩ := h
  obtain ⟨habs, hr⟩ := number_append_inj hnumber
  refine ⟨?_, hr⟩
  split at hsign <;> split at hsign
  · omega
  · exact absurd hsign (by decide)
  · exact absurd hsign (by decide)
  · omega

lemma integer_cons (n : Int) : ∃ c text, integer n = c :: text ∧ (c = 'n' ∨ c = 'i') := by
  refine ⟨_, _, rfl, ?_⟩
  split
  · exact .inl rfl
  · exact .inr rfl

lemma integer_append_ne {n : Int} {r r' : List Char} : integer n ++ r ≠ 'f' :: r' := by
  obtain ⟨c, text, htext, hc⟩ := integer_cons n
  rw [htext, List.cons_append]
  intro h
  obtain ⟨rfl, -⟩ := List.cons.inj h
  exact absurd hc (by decide)

lemma exists_argument_cons (a : Argument) : ∃ c text, argument a = c :: text ∧ c ≠ '_' := by
  cases a with
  | integer value =>
    obtain ⟨c, text, htext, hc⟩ := integer_cons value.toInt
    refine ⟨c, text, by rw [argument, htext], ?_⟩
    rcases hc with rfl | rfl <;> decide
  | function i => exact ⟨'f', _, by rw [argument]; rfl, by decide⟩

lemma parameterSection_append_inj {ps qs : List Argument} {r r' : List Char}
    (hr : StopsAt ['E'] r) (hr' : StopsAt ['E'] r')
    (harguments : arguments ps ++ r = arguments qs ++ r' →
      Invocation.normalArguments ps = Invocation.normalArguments qs ∧ r = r')
    (h : parameterSection ps ++ r = parameterSection qs ++ r') :
    Invocation.normalArguments ps = Invocation.normalArguments qs ∧ r = r' := by
  cases ps with
  | nil =>
    cases qs with
    | nil => exact ⟨rfl, h⟩
    | cons q qs =>
      have hsection : r = '_' :: 'P' :: (arguments (q :: qs) ++ r') := h
      rw [hsection] at hr
      exact absurd hr (not_stopsAt_marker (by decide))
  | cons p ps =>
    cases qs with
    | nil =>
      have hsection : '_' :: 'P' :: (arguments (p :: ps) ++ r) = r' := h
      rw [← hsection] at hr'
      exact absurd hr' (not_stopsAt_marker (by decide))
    | cons q qs => exact harguments (List.cons.inj (List.cons.inj h).2).2

mutual

/-- An invocation is read up to the end of its text or of the function that it is a value of. -/
lemma invocation_append_inj : ∀ {i j : Invocation} {r r' : List Char}, StopsAt ['E'] r →
    StopsAt ['E'] r' → invocation i ++ r = invocation j ++ r' → i.normal = j.normal ∧ r = r'
  | ⟨f, is, ps⟩, ⟨g, js, qs⟩, r, r', hr, hr', h => by
    rw [invocation_eq, invocation_eq, List.append_assoc, List.append_assoc, List.append_assoc,
      List.append_assoc] at h
    have hps := stopsAt_parameterSection ps hr
    have hqs := stopsAt_parameterSection qs hr'
    obtain ⟨rfl, hsections⟩ := escape_append_inj
      ((stopsAt_interfaceSection is hps).marked (by simp))
      ((stopsAt_interfaceSection js hqs).marked (by simp)) h
    obtain ⟨hinterfaces, hrest⟩ := interfaceSection_append_inj hps hqs hsections
    obtain ⟨hparameters, hend⟩ := parameterSection_append_inj hr hr'
      (arguments_append_inj hr hr') hrest
    refine ⟨?_, hend⟩
    rw [Invocation.normal, Invocation.normal, hinterfaces, hparameters]

lemma arguments_append_inj : ∀ {ps qs : List Argument} {r r' : List Char},
    StopsAt ['E'] r → StopsAt ['E'] r' → arguments ps ++ r = arguments qs ++ r' →
    Invocation.normalArguments ps = Invocation.normalArguments qs ∧ r = r'
  | [], [], _, _, _, _, h => ⟨rfl, h⟩
  | [], q :: qs, r, r', hr, _, h => by
    obtain ⟨c, text, htext, hc⟩ := exists_argument_cons q
    rw [arguments, arguments, htext, List.nil_append] at h
    rw [h] at hr
    exact absurd hr (not_stopsAt_cons hc)
  | p :: ps, [], r, r', _, hr', h => by
    obtain ⟨c, text, htext, hc⟩ := exists_argument_cons p
    rw [arguments, arguments, htext, List.nil_append] at h
    rw [← h] at hr'
    exact absurd hr' (not_stopsAt_cons hc)
  | p :: ps, q :: qs, r, r', hr, hr', h => by
    rw [arguments, arguments, List.append_assoc, List.append_assoc] at h
    obtain ⟨hhead, hrest⟩ := argument_append_inj h
    obtain ⟨htail, hend⟩ := arguments_append_inj hr hr' hrest
    exact ⟨by rw [Invocation.normalArguments, Invocation.normalArguments, hhead, htail], hend⟩

lemma argument_append_inj : ∀ {a b : Argument} {r r' : List Char},
    argument a ++ r = argument b ++ r' →
    Invocation.normalArgument a = Invocation.normalArgument b ∧ r = r'
  | .integer m, .integer n, r, r', h => by
    rw [argument, argument] at h
    obtain ⟨hvalue, hr⟩ := integer_append_inj h
    rw [Int64.toInt_inj] at hvalue
    exact ⟨by rw [hvalue], hr⟩
  | .integer m, .function j, r, r', h => by
    rw [argument, argument] at h
    exact absurd h integer_append_ne
  | .function i, .integer n, r, r', h => by
    rw [argument, argument] at h
    exact absurd h.symm integer_append_ne
  | .function i, .function j, r, r', h => by
    rw [argument, argument] at h
    simp only [List.cons_append, List.append_assoc, List.cons.injEq, true_and,
      List.nil_append] at h
    obtain ⟨hnormal, hend⟩ := invocation_append_inj (.inr ⟨'E', by decide, r, rfl⟩)
      (.inr ⟨'E', by decide, r', rfl⟩) h
    rw [Invocation.normalArgument, Invocation.normalArgument, hnormal]
    exact ⟨rfl, (List.cons.inj (List.cons.inj hend).2).2⟩

end

/-! ### Names of invocations that agree -/

lemma interfaceSection_normal (interfaces : List Shape) :
    interfaceSection interfaces =
      if (interfaces.map Shape.normal).isEmpty then []
      else '_' :: 'I' :: (interfaces.map Shape.normal).flatMap plainShape := by
  have htexts : (interfaces.map Shape.normal).flatMap plainShape = interfaces.flatMap shape := by
    rw [List.flatMap_map]
    exact List.flatMap_congr fun s _ => (shape_eq_plainShape s).symm
  rw [htexts, List.isEmpty_map]
  rfl

mutual

lemma invocation_congr : ∀ {i j : Invocation}, i.normal = j.normal → invocation i = invocation j
  | ⟨f, is, ps⟩, ⟨g, js, qs⟩, h => by
    simp only [Invocation.normal, Invocation.mk.injEq] at h
    obtain ⟨rfl, hinterfaces, hparameters⟩ := h
    have hempty : ps.isEmpty = qs.isEmpty := by
      rw [Invocation.normalArguments_eq_map, Invocation.normalArguments_eq_map] at hparameters
      rw [← List.isEmpty_map (f := Invocation.normalArgument), hparameters, List.isEmpty_map]
    rw [invocation_eq, invocation_eq, interfaceSection_normal, interfaceSection_normal, hinterfaces,
      parameterSection, parameterSection, hempty, arguments_congr hparameters]

lemma argument_congr : ∀ {a b : Argument},
    Invocation.normalArgument a = Invocation.normalArgument b → argument a = argument b
  | .integer m, .integer n, h => by
    simp only [Invocation.normalArgument, Argument.integer.injEq] at h
    rw [h]
  | .integer m, .function j, h => by simp [Invocation.normalArgument] at h
  | .function i, .integer n, h => by simp [Invocation.normalArgument] at h
  | .function i, .function j, h => by
    simp only [Invocation.normalArgument, Argument.function.injEq] at h
    rw [argument, argument, invocation_congr h]

lemma arguments_congr : ∀ {as bs : List Argument},
    Invocation.normalArguments as = Invocation.normalArguments bs → arguments as = arguments bs
  | [], [], _ => rfl
  | [], _ :: _, h => by simp [Invocation.normalArguments] at h
  | _ :: _, [], h => by simp [Invocation.normalArguments] at h
  | a :: as, b :: bs, h => by
    simp only [Invocation.normalArguments, List.cons.injEq] at h
    rw [arguments, arguments, argument_congr h.1, arguments_congr h.2]

end

end ModuleName

namespace Invocation

lemma moduleName_eq_iff {i j : Invocation} : i.moduleName = j.moduleName ↔ i.normal = j.normal := by
  unfold moduleName
  rw [String.ofList_inj]
  constructor
  · intro h
    have happend : ModuleName.invocation i ++ [] = ModuleName.invocation j ++ [] := by rw [h]
    exact (ModuleName.invocation_append_inj (.inl rfl) (.inl rfl) happend).1
  · exact ModuleName.invocation_congr

/-- Module names identify invocations: among invocations whose records have distinct field names,
two have the same module name exactly if they are the same up to the order of record fields. In
particular this sameness is an equivalence relation. -/
theorem moduleName_identifies :
    (∀ i j : Invocation, i.Distinct → j.Distinct →
      (i.moduleName = j.moduleName ↔ (i == j) = true)) ∧
    Equivalence fun i j : {i : Invocation // i.Distinct} => (i.1 == j.1) = true := by
  have hnames : ∀ i j : Invocation, i.Distinct → j.Distinct →
      (i.moduleName = j.moduleName ↔ (i == j) = true) := by
    intro i j hi hj
    rw [moduleName_eq_iff]
    exact (agrees_iff hi hj).symm
  refine ⟨hnames, ?_, ?_, ?_⟩
  · intro i
    exact (hnames i i i.2 i.2).mp rfl
  · intro i j hij
    have hname := (hnames i j i.2 j.2).mpr hij
    exact (hnames j i j.2 i.2).mp hname.symm
  · intro i j k hij hjk
    have hname := ((hnames i j i.2 j.2).mpr hij).trans ((hnames j k j.2 k.2).mpr hjk)
    exact (hnames i k i.2 k.2).mp hname

/-- An invocation with marker letters, an underscore and no name at all among its names. -/
def markedCall (fields : List (String × Shape)) : Invocation :=
  ⟨"f_I", [.record fields], [.integer (-1), .function ⟨"", [.bus 2], []⟩]⟩

lemma distinct_markedCall {fields : List (String × Shape)} (h : (Shape.record fields).Distinct) :
    (markedCall fields).Distinct := by
  have hbus : (Shape.bus 2).Distinct := trivial
  simp [markedCall, Distinct, ArgumentsDistinct, ArgumentDistinct, h, hbus]

theorem moduleName_identifies_markedCall :
    (markedCall [("ä", .wire), ("_c", .bus 1)]).Distinct ∧
    (markedCall [("_c", .bus 1), ("ä", .wire)]).Distinct ∧
    (markedCall [("_c", .bus 1), ("a", .wire)]).Distinct ∧
    (markedCall [("ä", .wire), ("_c", .bus 1)]).moduleName =
      (markedCall [("_c", .bus 1), ("ä", .wire)]).moduleName ∧
    (markedCall [("ä", .wire), ("_c", .bus 1)]).moduleName ≠
      (markedCall [("_c", .bus 1), ("a", .wire)]).moduleName := by
  have hi : (markedCall [("ä", .wire), ("_c", .bus 1)]).Distinct :=
    distinct_markedCall (by simp [Shape.bus, Shape.Distinct, Shape.FieldsDistinct])
  have hj : (markedCall [("_c", .bus 1), ("ä", .wire)]).Distinct :=
    distinct_markedCall (by simp [Shape.bus, Shape.Distinct, Shape.FieldsDistinct])
  have hk : (markedCall [("_c", .bus 1), ("a", .wire)]).Distinct :=
    distinct_markedCall (by simp [Shape.bus, Shape.Distinct, Shape.FieldsDistinct])
  refine ⟨hi, hj, hk, (moduleName_identifies.1 _ _ hi hj).mpr (by decide), ?_⟩
  intro hname
  exact absurd ((moduleName_identifies.1 _ _ hi hk).mp hname) (by decide)

end Invocation

end NetlistCompiler
