import Mathlib
import NetlistCompiler.Json.Printer
import NetlistCompiler.Json.Reader

/-!
# Rendered JSON is read back

A rendered value is read from left to right: strings end at the first quote that is not escaped,
numbers before the comma or bracket that follows them. What is read is the value, except that arrays
and objects that nest too deep are garbled.
-/

namespace NetlistCompiler

namespace Json

/-! ### Nesting -/

mutual

/-- How deep arrays and objects nest. -/
def nesting : Json → Nat
  | .array items => itemsNesting items + 1
  | .object members => membersNesting members + 1
  | _ => 0

def itemsNesting : List Json → Nat
  | [] => 0
  | j :: rest => max j.nesting (itemsNesting rest)

def membersNesting : List (String × Json) → Nat
  | [] => 0
  | (_, j) :: rest => max j.nesting (membersNesting rest)

end

mutual

/-- The value with arrays and objects garbled that nest more than `depth` deep. -/
def cut (depth : Nat) : Json → Json
  | .array items => if depth = 0 then .garbled else .array (cutItems (depth - 1) items)
  | .object members => if depth = 0 then .garbled else .object (cutMembers (depth - 1) members)
  | j => j

def cutItems (depth : Nat) : List Json → List Json
  | [] => []
  | j :: rest => j.cut depth :: cutItems depth rest

def cutMembers (depth : Nat) : List (String × Json) → List (String × Json)
  | [] => []
  | (name, j) :: rest => (name, j.cut depth) :: cutMembers depth rest

end

mutual

/-- All numbers in the value are integers, and nothing in it is garbled. -/
def Plain : Json → Prop
  | .real _ => False
  | .garbled => False
  | .array items => PlainItems items
  | .object members => PlainMembers members
  | _ => True

def PlainItems : List Json → Prop
  | [] => True
  | j :: rest => j.Plain ∧ PlainItems rest

def PlainMembers : List (String × Json) → Prop
  | [] => True
  | (_, j) :: rest => j.Plain ∧ PlainMembers rest

end

mutual

lemma cut_of_nesting_le : ∀ (j : Json) {depth : Nat}, j.nesting ≤ depth → j.cut depth = j
  | .array items, depth, h => by
    rw [nesting] at h
    rw [cut, if_neg (by omega), cutItems_of_nesting_le items (by omega)]
  | .object members, depth, h => by
    rw [nesting] at h
    rw [cut, if_neg (by omega), cutMembers_of_nesting_le members (by omega)]
  | .null, _, _ => rfl
  | .bool _, _, _ => rfl
  | .int _, _, _ => rfl
  | .real _, _, _ => rfl
  | .string _, _, _ => rfl
  | .garbled, _, _ => rfl

lemma cutItems_of_nesting_le : ∀ (items : List Json) {depth : Nat},
    itemsNesting items ≤ depth → cutItems depth items = items
  | [], _, _ => rfl
  | j :: rest, depth, h => by
    rw [itemsNesting, max_le_iff] at h
    rw [cutItems, cut_of_nesting_le j h.1, cutItems_of_nesting_le rest h.2]

lemma cutMembers_of_nesting_le : ∀ (members : List (String × Json)) {depth : Nat},
    membersNesting members ≤ depth → cutMembers depth members = members
  | [], _, _ => rfl
  | (name, j) :: rest, depth, h => by
    rw [membersNesting, max_le_iff] at h
    rw [cutMembers, cut_of_nesting_le j h.1, cutMembers_of_nesting_le rest h.2]

end

/-! ### Strings -/

lemma hexDigit?_digitChar : ∀ n < 16, hexDigit? n.digitChar = some n := by
  decide

lemma unit?_digitChars {n : Nat} (h : n < 0x20) :
    unit? '0' '0' (n / 16).digitChar (n % 16).digitChar = some n := by
  have hzero : hexDigit? '0' = some 0 := rfl
  simp only [unit?, hzero, hexDigit?_digitChar _ (show n / 16 < 16 by omega),
    hexDigit?_digitChar _ (show n % 16 < 16 by omega), Option.bind_eq_bind, Option.bind_some,
    Option.pure_def]
  congr 1
  omega

lemma addUnit_of_lt {n : Nat} (h : n < 0x20) (read : List Char) :
    addUnit true none read n = (true, none, Char.ofNat n :: read) := by
  have hlow : isLowSurrogate n = false := by simp [isLowSurrogate]; omega
  have hhigh : isHighSurrogate n = false := by simp [isHighSurrogate]; omega
  simp [addUnit, hlow, hhigh]

lemma readString_escapeChar (read : List Char) (c : Char) (rest : List Char) :
    readString true none read (escapeChar c ++ rest) = readString true none (c :: read) rest := by
  by_cases hshort : c ∈ ['"', '\\', '\x08', '\x0c', '\n', '\r', '\t']
  · simp only [List.mem_cons, List.not_mem_nil, or_false] at hshort
    rcases hshort with rfl | rfl | rfl | rfl | rfl | rfl | rfl <;> rfl
  · simp only [List.mem_cons, List.not_mem_nil, or_false, not_or] at hshort
    simp only [escapeChar, beq_iff_eq, hshort, if_false]
    split
    · next hlow =>
      simp only [List.cons_append, List.nil_append]
      rw [readString, unit?_digitChars hlow]
      simp only [addUnit_of_lt hlow, Char.ofNat_toNat]
    · rw [List.cons_append, List.nil_append, readString.eq_def]
      split <;> simp_all

lemma readString_quoted (s read rest : List Char) :
    readString true none read (s.flatMap escapeChar ++ '"' :: rest) =
      some (some (String.ofList (read.reverse ++ s)), rest) := by
  induction s generalizing read with
  | nil => simp [readString]
  | cons c s ih =>
    rw [List.flatMap_cons, List.append_assoc, readString_escapeChar, ih]
    simp

lemma toList_quote (s : String) : (quote s).toList = '"' :: s.toList.flatMap escapeChar ++ ['"'] := by
  simp [quote]

/-! ### Numbers -/

/-- What may follow a value in a text: nothing, a comma or a closing bracket. -/
def AfterValue (rest : List Char) : Prop :=
  ∀ c ∈ rest.head?, c = ',' ∨ c = ']' ∨ c = '}'

lemma natOfDigits_toDigits (n : Nat) : natOfDigits (Nat.toDigits 10 n) = n := by
  have hfold : ∀ ds, natOfDigits ds = Nat.ofDigitChars 10 ds 0 := by
    intro ds
    simp only [natOfDigits, Nat.ofDigitChars, Nat.mul_comm]
  rw [hfold, Nat.ofDigitChars_ten_toDigits]

/-- Only zero starts with the digit 0. -/
lemma head?_toDigits {n : Nat} (hn : n ≠ 0) : (Nat.toDigits 10 n).head? ≠ some '0' := by
  induction n using Nat.strong_induction_on with
  | _ n ih =>
    rw [Nat.toDigits_eq_if (by decide)]
    split
    · interval_cases n <;> first | contradiction | decide
    · rw [List.head?_append_of_ne_nil _ Nat.toDigits_ne_nil]
      exact ih (n / 10) (by omega) (by omega)

lemma span_digits {ds rest : List Char} (hds : ∀ d ∈ ds, d.isDigit = true)
    (hrest : AfterValue rest) : (ds ++ rest).span Char.isDigit = (ds, rest) := by
  have hstop : rest.takeWhile Char.isDigit = [] ∧ rest.dropWhile Char.isDigit = rest := by
    rcases rest with _ | ⟨c, rest⟩
    · exact ⟨rfl, rfl⟩
    · rcases hrest c rfl with rfl | rfl | rfl <;> exact ⟨rfl, rfl⟩
  rw [List.span_eq_takeWhile_dropWhile, List.takeWhile_append_of_pos hds,
    List.dropWhile_append_of_pos hds, hstop.1, hstop.2, List.append_nil]

lemma readFraction_afterValue {rest : List Char} (h : AfterValue rest) :
    readFraction rest = some ([], rest) := by
  rcases rest with _ | ⟨c, rest⟩
  · rfl
  · rcases h c rfl with rfl | rfl | rfl <;> rfl

lemma readExponent_afterValue {rest : List Char} (h : AfterValue rest) :
    readExponent rest = some ([], rest) := by
  rcases rest with _ | ⟨c, rest⟩
  · rfl
  · rcases h c rfl with rfl | rfl | rfl <;> rfl

/-- The digits of a number have no leading zero. -/
lemma wellFormed_toDigits (n : Nat) : ((Nat.toDigits 10 n).isEmpty ||
    ((Nat.toDigits 10 n).head? == some '0' && (Nat.toDigits 10 n).length != 1)) = false := by
  rcases eq_or_ne n 0 with rfl | hn
  · decide
  · simp [Nat.toDigits_ne_nil, head?_toDigits hn]

lemma toDigits_append_ne (n : Nat) (rest cs : List Char) :
    Nat.toDigits 10 n ++ rest ≠ '-' :: cs := by
  intro heq
  obtain ⟨d, ds, hd⟩ := List.exists_cons_of_ne_nil (Nat.toDigits_ne_nil (n := n) (b := 10))
  have hdigit : d.isDigit = true :=
    Nat.isDigit_of_mem_toDigits (by decide) (by decide) (hd ▸ List.mem_cons_self ..)
  rw [hd, List.cons_append, List.cons.injEq] at heq
  rw [heq.1] at hdigit
  exact absurd hdigit (by decide)

/-- The sign of an integer. -/
def sign (n : Int) : List Char :=
  if n < 0 then ['-'] else []

lemma toList_intText (n : Int) : (intText n).toList = sign n ++ Nat.toDigits 10 n.natAbs := by
  unfold intText sign
  split <;> simp

lemma readNumber_intText (n : Int) {rest : List Char} (h : AfterValue rest) :
    readNumber ((intText n).toList ++ rest) = some (.int n, rest) := by
  have hdigits : ∀ d ∈ Nat.toDigits 10 n.natAbs, d.isDigit = true :=
    fun d hd => Nat.isDigit_of_mem_toDigits (by decide) (by decide) hd
  have hnegative : (sign n == ['-'] && n.natAbs == 0) = false := by
    unfold sign
    split
    · simp; omega
    · rfl
  have hvalue : (if (sign n).isEmpty then (n.natAbs : Int) else -n.natAbs) = n := by
    unfold sign
    split
    · rw [if_neg (by simp)]
      omega
    · rw [if_pos List.isEmpty_nil]
      omega
  rw [toList_intText, List.append_assoc]
  unfold readNumber
  split
  next s cs heq =>
  have hsplit : s = sign n ∧ cs = Nat.toDigits 10 n.natAbs ++ rest := by
    unfold sign at heq ⊢
    split_ifs at heq ⊢
    · cases heq
      exact ⟨rfl, rfl⟩
    · rw [List.nil_append] at heq
      split at heq
      · next cs' hminus => exact absurd hminus (toDigits_append_ne _ _ _)
      · cases heq
        exact ⟨rfl, rfl⟩
  obtain ⟨rfl, rfl⟩ := hsplit
  simp only [span_digits hdigits h, wellFormed_toDigits, readFraction_afterValue h,
    readExponent_afterValue h, natOfDigits_toDigits, Bool.false_eq_true, if_false,
    Option.bind_eq_bind, Option.bind_some, List.isEmpty_nil, hnegative, Bool.not_false,
    Bool.and_self, if_true, hvalue, Option.pure_def]

/-! ### Values -/

/-- A character that a rendered value starts with. -/
def Starts (c : Char) : Prop :=
  c ∈ ['n', 't', 'f', '"', '[', '\x7b', '-'] ∨ c.isDigit = true

lemma Starts.not_blank {c : Char} (h : Starts c) : isBlank c = false := by
  rw [Bool.eq_false_iff]
  intro hblank
  simp only [isBlank, Bool.or_eq_true, beq_iff_eq] at hblank
  rcases hblank with ((rfl | rfl) | rfl) | rfl <;> simp [Starts] at h

lemma Starts.ne_close {c : Char} (h : Starts c) : c ≠ ']' := by
  rintro rfl
  simp [Starts] at h

lemma skipBlanks_cons {c : Char} (h : isBlank c = false) (cs : List Char) :
    skipBlanks (c :: cs) = c :: cs := by
  simp [skipBlanks, h]

lemma starts_toDigits (n : Nat) : ∃ c cs, Nat.toDigits 10 n = c :: cs ∧ c.isDigit = true := by
  obtain ⟨d, ds, hd⟩ := List.exists_cons_of_ne_nil (Nat.toDigits_ne_nil (n := n) (b := 10))
  exact ⟨d, ds, hd, Nat.isDigit_of_mem_toDigits (by decide) (by decide) (hd ▸ List.mem_cons_self ..)⟩

lemma exists_starts {j : Json} (h : j.Plain) :
    ∃ c cs, j.render.toList = c :: cs ∧ Starts c := by
  cases j with
  | null => exact ⟨'n', _, rfl, by simp [Starts]⟩
  | bool b =>
    cases b with
    | false => exact ⟨'f', _, rfl, by simp [Starts]⟩
    | true => exact ⟨'t', _, rfl, by simp [Starts]⟩
  | int n =>
    rw [render, toList_intText, sign]
    split
    · exact ⟨'-', _, rfl, by simp [Starts]⟩
    · obtain ⟨c, cs, hcs, hdigit⟩ := starts_toDigits n.natAbs
      exact ⟨c, cs, hcs, .inr hdigit⟩
  | real literal => exact h.elim
  | string s => exact ⟨'"', _, by rw [render, toList_quote]; rfl, by simp [Starts]⟩
  | array items => exact ⟨'[', _, by rw [render]; simp; rfl, by simp [Starts]⟩
  | object members => exact ⟨'\x7b', _, by rw [render]; simp; rfl, by simp [Starts]⟩
  | garbled => exact h.elim

lemma readValue_number {c : Char} (hc : c = '-' ∨ c.isDigit = true) (fuel depth : Nat)
    (cs : List Char) : readValue (fuel + 1) depth (c :: cs) = readNumber (c :: cs) := by
  have hblank : isBlank c = false := by
    apply Starts.not_blank
    rcases hc with rfl | hc
    · simp [Starts]
    · exact .inr hc
  rw [readValue, skipBlanks_cons hblank]
  split
  all_goals first
    | rfl
    | next heq =>
      rw [List.cons.injEq] at heq
      rw [heq.1] at hc
      simp at hc

lemma readValue_int (n : Int) (fuel depth : Nat) {rest : List Char} (h : AfterValue rest) :
    readValue (fuel + 1) depth ((intText n).toList ++ rest) = some (.int n, rest) := by
  rw [← readNumber_intText n h, toList_intText, sign]
  split
  · exact readValue_number (.inl rfl) fuel depth _
  · obtain ⟨c, cs, hcs, hdigit⟩ := starts_toDigits n.natAbs
    rw [hcs]
    exact readValue_number (.inr hdigit) fuel depth _

lemma afterValue_cons {c : Char} (hc : c = ',' ∨ c = ']' ∨ c = '}') (rest : List Char) :
    AfterValue (c :: rest) := by
  intro d hd
  rw [List.head?_cons, Option.mem_some_iff] at hd
  exact hd ▸ hc

/-- The rendered items of an array up to its closing bracket. -/
def itemsText (items : List Json) : List Char :=
  (",".intercalate (renderItems items)).toList ++ [']']

/-- The rendered members of an object up to its closing brace. -/
def membersText (members : List (String × Json)) : List Char :=
  (",".intercalate (renderMembers members)).toList ++ ['\x7d']

lemma toList_render_array (items : List Json) :
    (render (.array items)).toList = '[' :: itemsText items := by
  simp [render, itemsText]

lemma toList_render_object (members : List (String × Json)) :
    (render (.object members)).toList = '\x7b' :: membersText members := by
  simp [render, membersText]

lemma itemsText_singleton (j : Json) : itemsText [j] = j.render.toList ++ [']'] := by
  simp [itemsText, renderItems]

lemma itemsText_cons_cons (i j : Json) (rest : List Json) :
    itemsText (i :: j :: rest) = i.render.toList ++ ',' :: itemsText (j :: rest) := by
  simp only [itemsText, renderItems, String.intercalate_cons_cons, String.toList_append,
    List.append_assoc]
  rfl

/-- A rendered member without what follows it. -/
lemma membersText_singleton (name : String) (j : Json) :
    membersText [(name, j)] = (quote name).toList ++ ':' :: j.render.toList ++ ['\x7d'] := by
  simp [membersText, renderMembers]

lemma membersText_cons_cons (name : String) (j : Json) (m : String × Json)
    (rest : List (String × Json)) : membersText ((name, j) :: m :: rest) =
      (quote name).toList ++ ':' :: j.render.toList ++ ',' :: membersText (m :: rest) := by
  simp only [membersText, renderMembers, String.intercalate_cons_cons, String.toList_append,
    List.append_assoc]
  rfl

lemma exists_starts_items {i : Json} (h : i.Plain) (tail : List Json) :
    ∃ c cs, itemsText (i :: tail) = c :: cs ∧ Starts c := by
  obtain ⟨c, cs, hcs, hstarts⟩ := exists_starts h
  cases tail with
  | nil => exact ⟨c, _, by rw [itemsText_singleton, hcs]; rfl, hstarts⟩
  | cons j rest => exact ⟨c, _, by rw [itemsText_cons_cons, hcs]; rfl, hstarts⟩

lemma exists_quote_members (name : String) (j : Json) (tail : List (String × Json)) :
    ∃ cs, membersText ((name, j) :: tail) = '"' :: cs := by
  cases tail with
  | nil => exact ⟨_, by rw [membersText_singleton, toList_quote]; rfl⟩
  | cons m rest => exact ⟨_, by rw [membersText_cons_cons, toList_quote]; rfl⟩

/-- The name of a member and the colon after it. -/
lemma readString_name (name : String) (cs : List Char) :
    readString true none [] (name.toList.flatMap escapeChar ++ '"' :: ':' :: cs) =
      some (some name, ':' :: cs) := by
  rw [readString_quoted]
  simp

lemma readValue_array {c : Char} (h : Starts c) (fuel depth : Nat) (cs : List Char) :
    readValue (fuel + 1) depth ('[' :: c :: cs) =
      withinDepth depth (readItems fuel (depth - 1) [] (c :: cs)) := by
  have hblanks : skipBlanks (c :: cs) = c :: cs := skipBlanks_cons h.not_blank cs
  have hclose : c ≠ ']' := h.ne_close
  rw [readValue, skipBlanks_cons rfl]
  simp [hblanks, hclose]

lemma readValue_object (fuel depth : Nat) (cs : List Char) :
    readValue (fuel + 1) depth ('\x7b' :: '"' :: cs) =
      withinDepth depth (readMembers fuel (depth - 1) true [] ('"' :: cs)) := by
  rw [readValue, skipBlanks_cons rfl]
  rfl

lemma withinDepth_some (depth : Nat) (j : Json) (rest : List Char) :
    withinDepth depth (some (j, rest)) = some (if depth = 0 then .garbled else j, rest) := by
  unfold withinDepth
  split <;> rfl

mutual

lemma readValue_render : ∀ (j : Json), j.Plain → ∀ (fuel depth : Nat) (rest : List Char),
    j.render.toList.length ≤ fuel → AfterValue rest →
    readValue (fuel + 1) depth (j.render.toList ++ rest) = some (j.cut depth, rest)
  | .null => by
    intro _ fuel depth rest _ _
    rw [readValue]
    rfl
  | .bool true => by
    intro _ fuel depth rest _ _
    rw [readValue]
    rfl
  | .bool false => by
    intro _ fuel depth rest _ _
    rw [readValue]
    rfl
  | .int n => by
    intro _ fuel depth rest _ hrest
    rw [render, readValue_int n fuel depth hrest]
    rfl
  | .real _ => fun h => h.elim
  | .garbled => fun h => h.elim
  | .string s => by
    intro _ fuel depth rest _ _
    rw [render, toList_quote, readValue]
    simp [skipBlanks_cons, isBlank, readString_quoted, cut]
  | .array [] => by
    intro _ fuel depth rest _ _
    rw [toList_render_array, readValue]
    cases depth <;> rfl
  | .array (i :: tail) => by
    intro h fuel depth rest hfuel _
    rw [toList_render_array, List.length_cons] at hfuel
    obtain ⟨c, cs, hcs, hstarts⟩ := exists_starts_items h.1 tail
    obtain ⟨fuel, rfl⟩ : ∃ k, fuel = k + 1 := ⟨fuel - 1, by omega⟩
    have hread := readItems_render i tail h fuel (depth - 1) [] rest (by omega)
    rw [toList_render_array, List.cons_append]
    rw [hcs, List.cons_append] at hread ⊢
    rw [readValue_array hstarts, hread, withinDepth_some, cut]
    rfl
  | .object [] => by
    intro _ fuel depth rest _ _
    rw [toList_render_object, readValue]
    cases depth <;> rfl
  | .object ((name, j) :: tail) => by
    intro h fuel depth rest hfuel _
    rw [toList_render_object, List.length_cons] at hfuel
    obtain ⟨cs, hcs⟩ := exists_quote_members name j tail
    obtain ⟨fuel, rfl⟩ : ∃ k, fuel = k + 1 := ⟨fuel - 1, by omega⟩
    have hread := readMembers_render name j tail h fuel (depth - 1) [] rest (by omega)
    rw [toList_render_object, List.cons_append]
    rw [hcs, List.cons_append] at hread ⊢
    rw [readValue_object, hread, withinDepth_some, cut]
    rfl
termination_by j => sizeOf j

lemma readItems_render : ∀ (i : Json) (tail : List Json), PlainItems (i :: tail) →
    ∀ (fuel depth : Nat) (read : List Json) (rest : List Char),
    (itemsText (i :: tail)).length ≤ fuel →
    readItems (fuel + 1) depth read (itemsText (i :: tail) ++ rest) =
      some (.array (read.reverse ++ cutItems depth (i :: tail)), rest)
  | i, [] => by
    intro h fuel depth read rest hfuel
    rw [itemsText_singleton] at hfuel ⊢
    rw [List.length_append, List.length_singleton] at hfuel
    obtain ⟨fuel, rfl⟩ : ∃ k, fuel = k + 1 := ⟨fuel - 1, by omega⟩
    have hvalue := readValue_render i h.1 fuel depth (']' :: rest) (by omega)
      (afterValue_cons (by simp) _)
    rw [readItems, List.append_assoc, List.singleton_append, hvalue]
    simp [skipBlanks_cons, isBlank, cutItems]
  | i, j :: tail => by
    intro h fuel depth read rest hfuel
    rw [itemsText_cons_cons] at hfuel ⊢
    rw [List.length_append, List.length_cons] at hfuel
    obtain ⟨fuel, rfl⟩ : ∃ k, fuel = k + 1 := ⟨fuel - 1, by omega⟩
    have hvalue := readValue_render i h.1 fuel depth (',' :: (itemsText (j :: tail) ++ rest))
      (by omega) (afterValue_cons (by simp) _)
    have hread := readItems_render j tail h.2 fuel depth (i.cut depth :: read) rest (by omega)
    rw [readItems, List.append_assoc, List.cons_append, hvalue]
    simp [skipBlanks_cons, isBlank, hread, cutItems]
termination_by i tail => sizeOf i + sizeOf tail

lemma readMembers_render : ∀ (name : String) (j : Json) (tail : List (String × Json)),
    PlainMembers ((name, j) :: tail) →
    ∀ (fuel depth : Nat) (read : List (String × Json)) (rest : List Char),
    (membersText ((name, j) :: tail)).length ≤ fuel →
    readMembers (fuel + 1) depth true read (membersText ((name, j) :: tail) ++ rest) =
      some (.object (read.reverse ++ cutMembers depth ((name, j) :: tail)), rest)
  | name, j, [] => by
    intro h fuel depth read rest hfuel
    rw [membersText_singleton] at hfuel ⊢
    simp only [List.length_append, List.length_cons] at hfuel
    obtain ⟨fuel, rfl⟩ : ∃ k, fuel = k + 1 := ⟨fuel - 1, by omega⟩
    have hvalue := readValue_render j h.1 fuel depth ('\x7d' :: rest) (by omega)
      (afterValue_cons (by simp) _)
    rw [readMembers, toList_quote]
    simp [skipBlanks_cons, isBlank, readString_name, hvalue, cutMembers]
  | name, j, (name', j') :: tail => by
    intro h fuel depth read rest hfuel
    rw [membersText_cons_cons] at hfuel ⊢
    simp only [List.length_append, List.length_cons] at hfuel
    obtain ⟨fuel, rfl⟩ : ∃ k, fuel = k + 1 := ⟨fuel - 1, by omega⟩
    have hvalue := readValue_render j h.1 fuel depth
      (',' :: (membersText ((name', j') :: tail) ++ rest)) (by omega)
      (afterValue_cons (by simp) _)
    have hread := readMembers_render name' j' tail h.2 fuel depth ((name, j.cut depth) :: read) rest
      (by omega)
    rw [readMembers, toList_quote]
    simp [skipBlanks_cons, isBlank, readString_name, hvalue, hread, cutMembers]
termination_by _ j tail => sizeOf j + sizeOf tail

end

/-- The text of a plain value is read, and everything that nests too deep is garbled. -/
theorem parse?_render {j : Json} (h : j.Plain) : parse? j.render = some (j.cut nestingLimit) := by
  have hread := readValue_render j h (2 * j.render.toList.length + 1) nestingLimit [] (by omega)
    nofun
  rw [List.append_nil] at hread
  unfold parse?
  simp only [hread]
  rfl

/-- Plain values have different texts, however deep they nest. -/
theorem render_injective {j j' : Json} (h : j.Plain) (h' : j'.Plain)
    (heq : j.render = j'.render) : j = j' := by
  let depth := max j.nesting j'.nesting
  have hread := readValue_render j h j.render.toList.length depth [] le_rfl nofun
  have hread' := readValue_render j' h' j'.render.toList.length depth [] le_rfl nofun
  rw [heq, hread', cut_of_nesting_le j (le_max_left _ _),
    cut_of_nesting_le j' (le_max_right _ _)] at hread
  cases hread
  rfl

end Json

end NetlistCompiler
