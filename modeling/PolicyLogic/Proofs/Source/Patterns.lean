import PolicyLogic.Proofs.Source.Positions

/-!
# The patterns of tokens

Which texts are tokens can be said without saying how they are found: `Spells kind text` has one rule
for each pattern of the language. A text can match the pattern of one token and begin like a longer
one that does not come about, such as a number before a point without digits, a name before two
colons without a letter, or a word before a question mark.

* `lexeme_spells`: what is cut off at the head of a text matches the pattern of its kind.
* `Spells.reaches`: where a text matches a pattern, no less than that text is cut off. Each part of a
  number or a name has an equation for that, which says how its cut goes on from a text of its shape.
* `Consumes kind text rest` puts the two together: of all texts that match a pattern at the head of
  `text ++ rest`, `text` is the longest.
* `tokenize_eq_single` says that the texts that are one token are those that match a pattern.
-/

namespace PolicyLogic.Source

/-! ## Patterns -/

/-- One digit or more. -/
def IsDigits (cs : List Char) : Prop := cs ≠ [] ∧ ∀ c ∈ cs, c.isDigit = true

/-- `e`, perhaps a sign, and digits. -/
inductive IsExponent : List Char → Prop
  | mk {e : Char} {sign digits : List Char} : e ∈ ['e', 'E'] → sign ∈ [[], ['+'], ['-']] →
    IsDigits digits → IsExponent (e :: (sign ++ digits))

/-- A point and digits. -/
inductive IsFraction : List Char → Prop
  | mk {digits : List Char} : IsDigits digits → IsFraction ('.' :: digits)

/-- What can follow the first letter of a name: further letters, and further segments. -/
inductive Continues : List Char → Prop
  | nil : Continues []
  | char {c : Char} {cs : List Char} : isNameChar c = true → Continues cs → Continues (c :: cs)
  | segment {c : Char} {cs : List Char} :
    isNameStart c = true → Continues cs → Continues (':' :: ':' :: c :: cs)

/-- What can stand between the quotes of a string literal. -/
inductive IsInside : List Char → Prop
  | nil : IsInside []
  | plain {c : Char} {cs : List Char} :
    c ≠ '"' → c ≠ '\\' → c ≠ '\n' → IsInside cs → IsInside (c :: cs)
  | escaped {c : Char} {cs : List Char} : c ≠ '\n' → IsInside cs → IsInside ('\\' :: c :: cs)

/-- The marks that begin no longer mark, and those of two characters. -/
def closedMarks : List (List Char × TokenKind) :=
  [([':', '='], .assign), (['=', '='], .eqEq), (['!', '='], .notEq), (['<', '='], .lessEq),
    (['>', '='], .greaterEq), (['?', '='], .query), ([','], .comma), (['['], .lbracket),
    ([']'], .rbracket), (['('], .lparen), ([')'], .rparen), (['\x7b'], .lbrace),
    (['\x7d'], .rbrace), (['.'], .dot), (['*'], .star), (['/'], .slash), (['+'], .plus),
    (['-'], .minus), (['|'], .pipe), ([';'], .semicolon)]

/-- The marks that an equals sign makes another mark of. -/
def openMarks : List (Char × TokenKind) :=
  [(':', .colon), ('=', .equals), ('!', .bang), ('<', .less), ('>', .greater)]

/-- The text matches the pattern of a kind of token. A word of the language is of its own kind and
not a name. -/
inductive Spells : TokenKind → List Char → Prop
  | integer {digits : List Char} : IsDigits digits → Spells .integer digits
  | fraction {whole part : List Char} :
    IsDigits whole → IsFraction part → Spells .float (whole ++ part)
  | scaled {whole exponent : List Char} :
    IsDigits whole → IsExponent exponent → Spells .float (whole ++ exponent)
  | both {whole part exponent : List Char} :
    IsDigits whole → IsFraction part → IsExponent exponent → Spells .float (whole ++ (part ++ exponent))
  | string {inside : List Char} : IsInside inside → Spells .string ('"' :: (inside ++ ['"']))
  | word {c : Char} {name : List Char} : isNameStart c = true → Continues name →
    Spells (.ofWord (String.ofList (c :: name))) (c :: name)
  | asking {c : Char} {name : List Char} : isNameStart c = true → Continues name →
    Spells .symbol (c :: (name ++ ['?']))
  | closed {text : List Char} {kind : TokenKind} : (text, kind) ∈ closedMarks → Spells kind text
  | opened {c : Char} {kind : TokenKind} : (c, kind) ∈ openMarks → Spells kind [c]

/-- Of the texts at the head of `text ++ rest` that match a pattern, `text` is the longest. -/
structure Consumes (kind : TokenKind) (text rest : List Char) : Prop where
  spelled : Spells kind text
  longest : ∀ kind' text', Spells kind' text' → text' <+: text ++ rest → text'.length ≤ text.length

/-! ## What is cut off matches -/

theorem isDigits_takeWhile {cs : List Char} (nonempty : cs.takeWhile Char.isDigit ≠ []) :
    IsDigits (cs.takeWhile Char.isDigit) :=
  ⟨nonempty, List.all_eq_true.mp List.all_takeWhile⟩

/-- What is cut off as a fraction is one, or nothing. -/
theorem fractionCut_matches (cs : List Char) :
    (fractionCut cs).1 = [] ∨ IsFraction (fractionCut cs).1 := by
  unfold fractionCut
  split
  · split
    · exact .inl rfl
    · rename_i digits rest nonempty cut
      obtain ⟨rfl, -⟩ := Prod.mk.inj cut
      exact .inr ⟨isDigits_takeWhile nonempty⟩
  · exact .inl rfl

/-- What is cut off as an exponent is one, or nothing. -/
theorem exponentCut_matches (cs : List Char) :
    (exponentCut cs).1 = [] ∨ IsExponent (exponentCut cs).1 := by
  unfold exponentCut
  split
  · rename_i e rest
    split
    · rename_i begins
      split
      rename_i sign back signed
      have allowed : sign ∈ [[], ['+'], ['-']] := by
        split at signed <;> (cases signed; simp)
      split
      · exact .inl rfl
      · rename_i digits after nonempty cut
        obtain ⟨rfl, -⟩ := Prod.mk.inj cut
        exact .inr (.mk (by simpa using begins) allowed (isDigits_takeWhile nonempty))
    · exact .inl rfl
  · exact .inl rfl

/-- A number is of the kind that its fraction and its exponent say. -/
theorem spells_number {whole part exponent : List Char} (digits : IsDigits whole)
    (fractional : part = [] ∨ IsFraction part) (scaled : exponent = [] ∨ IsExponent exponent) :
    Spells (if part.isEmpty && exponent.isEmpty then .integer else .float)
      (whole ++ part ++ exponent) := by
  rcases fractional with rfl | ⟨⟨fraction⟩⟩ <;> rcases scaled with rfl | ⟨begins, signed, power⟩
  · simpa using Spells.integer digits
  · simpa using Spells.scaled digits (.mk begins signed power)
  · simpa using Spells.fraction digits ⟨fraction⟩
  · simpa using Spells.both digits ⟨fraction⟩ (.mk begins signed power)

/-- A number that is cut off is spelled as a number of its kind. -/
theorem numberCut_spells {c : Char} (cs : List Char) (digit : c.isDigit = true) :
    Spells (numberCut (c :: cs)).1 (numberCut (c :: cs)).2.1 :=
  spells_number (isDigits_takeWhile (by simp [digit])) (fractionCut_matches _) (exponentCut_matches _)

theorem isNameChar_of_isNameStart {c : Char} (starts : isNameStart c = true) :
    isNameChar c = true := by
  rw [isNameStart, Bool.or_eq_true] at starts
  rw [isNameChar, Char.isAlphanum, Bool.or_eq_true, Bool.or_eq_true]
  exact starts.imp .inl id

/-- What is cut off after the start of a name continues a name. -/
theorem segmentsCut_continues (cs : List Char) : Continues (segmentsCut cs).1 := by
  induction cs using segmentsCut.induct with
  | case1 c cs begins more after found ih =>
      rw [segmentsCut, if_pos begins]
      exact .segment begins ih
  | case2 c cs begins =>
      rw [segmentsCut, if_neg begins]
      exact .nil
  | case3 c cs single continues more after found ih =>
      rw [segmentsCut.eq_2 _ _ single, if_pos continues]
      exact .char continues ih
  | case4 c cs single continues =>
      rw [segmentsCut.eq_2 _ _ single, if_neg continues]
      exact .nil
  | case5 => exact .nil

theorem segmentsCut_letter {c : Char} (cs : List Char) (starts : isNameStart c = true) :
    segmentsCut (c :: cs) = (c :: (segmentsCut cs).1, (segmentsCut cs).2) := by
  have noColon : c ≠ ':' := by
    rintro rfl
    cases starts
  rw [segmentsCut.eq_2 _ _ (fun _ _ colon _ => noColon colon),
    if_pos (isNameChar_of_isNameStart starts)]

/-- Where a name ends, with its question mark or without one. -/
theorem nameCut_cases (cs : List Char) :
    (∃ rest, (segmentsCut cs).2 = '?' :: rest ∧ nameCut cs = ((segmentsCut cs).1 ++ ['?'], rest)) ∨
      (segmentsCut cs).2.head? ≠ some '?' ∧ nameCut cs = segmentsCut cs := by
  rw [nameCut]
  rcases segmentsCut cs with ⟨name, rest⟩
  cases rest with
  | nil => exact .inr ⟨by simp, rfl⟩
  | cons c rest =>
      by_cases mark : c = '?'
      · subst mark
        exact .inl ⟨rest, rfl, rfl⟩
      · exact .inr ⟨by simpa using mark, by simp [mark]⟩

/-- No word of the language has a question mark. -/
theorem ofWord_asking (name : List Char) :
    TokenKind.ofWord (String.ofList (name ++ ['?'])) = .symbol := by
  have asks : (String.ofList (name ++ ['?'])).toList.getLast? = some '?' := by simp
  unfold TokenKind.ofWord
  split <;> first | rfl | (rename_i same; rw [same] at asks; simp at asks)

/-- A name that is cut off is a keyword or a symbol. -/
theorem nameCut_spells {c : Char} {cs name rest : List Char} (starts : isNameStart c = true)
    (cut : nameCut (c :: cs) = (name, rest)) : Spells (.ofWord (String.ofList name)) name := by
  have continues := segmentsCut_continues cs
  rcases nameCut_cases (c :: cs) with ⟨rest', -, asks⟩ | ⟨-, plain⟩
  · rw [segmentsCut_letter cs starts, cut] at asks
    obtain ⟨rfl, -⟩ := Prod.mk.inj asks
    rw [ofWord_asking]
    exact .asking starts continues
  · rw [segmentsCut_letter cs starts, cut] at plain
    obtain ⟨rfl, -⟩ := Prod.mk.inj plain
    exact .word starts continues

/-- A string is cut off before a quote that is not escaped. -/
theorem stringCut_inside (cs : List Char) : IsInside (stringCut cs).1 := by
  induction cs using stringCut.induct with
  | case1 => exact .nil
  | case2 => exact .nil
  | case3 => exact .nil
  | case4 => exact .nil
  | case5 => exact .nil
  | case6 c cs noLine inside rest cut ih =>
      rw [stringCut.eq_6 _ _ noLine]
      exact .escaped noLine ih
  | case7 c cs noQuote noLine single noEscapedLine noEscape inside rest cut ih =>
      rw [stringCut.eq_7 _ _ noQuote noLine single noEscapedLine noEscape]
      refine .plain noQuote ?_ noLine ih
      rintro rfl
      cases cs with
      | nil => exact single rfl rfl
      | cons d cs => exact noEscape d cs rfl rfl

/-- A mark that is found is spelled like that. -/
theorem mark?_spells {cs text rest : List Char} {kind : TokenKind}
    (found : mark? cs = some (kind, text, rest)) : Spells kind text := by
  unfold mark? at found
  split at found <;> cases found <;>
  first
  | exact .closed (by decide)
  | exact .opened (by decide)

/-- What is cut off at the head of a text matches the pattern of its kind. -/
theorem lexeme_spells {start : Nat} {cs text rest : List Char} {kind : TokenKind}
    (found : lexeme start cs = .ok (kind, text, rest)) : Spells kind text := by
  cases cs with
  | nil => cases found
  | cons c cs =>
      rw [lexeme] at found
      split at found
      · rename_i digit
        have spelled := numberCut_spells cs digit
        rwa [Except.ok.inj found] at spelled
      split at found
      · rename_i starts
        split at found
        rename_i name back cut
        cases found
        exact nameCut_spells starts cut
      split at found
      · split at found
        · rename_i inside back cut
          have spelled := stringCut_inside cs
          rw [cut] at spelled
          cases found
          exact .string spelled
        · cases found
      split at found
      · rename_i mark
        cases found
        exact mark?_spells mark
      · cases found

/-! ## What matches is cut off -/

/-- At the head of `text ++ rest` no less than `text` is cut off, and nothing more only for a token of
that kind. -/
def Reaches (kind : TokenKind) (text rest : List Char) : Prop :=
  ∃ kind' more after, (∀ start, lexeme start (text ++ rest) = .ok (kind', text ++ more, after)) ∧
    (more = [] → kind' = kind)

section Numbers

variable {whole digits part exponent : List Char}

/-- All digits are taken, and those that follow. -/
theorem IsDigits.span (all : IsDigits digits) (rest : List Char) :
    span Char.isDigit (digits ++ rest) =
      (digits ++ (span Char.isDigit rest).1, (span Char.isDigit rest).2) := by
  rw [Source.span, List.takeWhile_append_of_pos all.2, List.dropWhile_append_of_pos all.2]
  rfl

/-- A fraction is taken whole, and the digits that follow. -/
theorem IsFraction.cut (fraction : IsFraction part) (rest : List Char) : fractionCut (part ++ rest) =
    (part ++ (span Char.isDigit rest).1, (span Char.isDigit rest).2) := by
  obtain ⟨all⟩ := fraction
  rw [List.cons_append, fractionCut, all.span]
  simp [all.1]

/-- Neither a fraction nor an exponent begins with a digit. -/
theorem IsFraction.noDigit (fraction : IsFraction part) (rest : List Char) :
    ∀ c ∈ (part ++ rest).head?, c.isDigit = false := by
  obtain ⟨_⟩ := fraction
  simp

/-- An exponent is taken whole, and the digits that follow. -/
theorem IsExponent.cut (power : IsExponent exponent) (rest : List Char) :
    exponentCut (exponent ++ rest) =
      (exponent ++ (span Char.isDigit rest).1, (span Char.isDigit rest).2) := by
  obtain ⟨begins, signed, all⟩ := power
  have begins := List.mem_pair.mp begins
  have cut := all.span rest
  obtain ⟨d, ds, rfl⟩ := List.exists_cons_of_ne_nil all.1
  have digit := all.2 d List.mem_cons_self
  have noPlus : d ≠ '+' := by
    rintro rfl
    cases digit
  have noMinus : d ≠ '-' := by
    rintro rfl
    cases digit
  rw [List.cons_append] at cut
  simp only [List.mem_cons, List.not_mem_nil, or_false] at signed
  rcases signed with rfl | rfl | rfl
  · simp [exponentCut, begins, noPlus, noMinus, cut]
  · simp [exponentCut, begins, cut]
  · simp [exponentCut, begins, cut]

/-- An exponent does not begin with a digit. -/
theorem IsExponent.noDigit (power : IsExponent exponent) (rest : List Char) :
    ∀ c ∈ (exponent ++ rest).head?, c.isDigit = false := by
  obtain ⟨begins, _, _⟩ := power
  rcases List.mem_pair.mp begins with rfl | rfl <;> simp

/-- An exponent is no fraction. -/
theorem IsExponent.fractionCut (power : IsExponent exponent) (rest : List Char) :
    fractionCut (exponent ++ rest) = ([], exponent ++ rest) := by
  obtain ⟨begins, _, _⟩ := power
  rcases List.mem_pair.mp begins with rfl | rfl <;> rfl

/-- What begins with a digit is read as a number. -/
theorem lexeme_number (all : IsDigits whole) (start : Nat) (rest : List Char) :
    lexeme start (whole ++ rest) = .ok (numberCut (whole ++ rest)) := by
  obtain ⟨d, ds, rfl⟩ := List.exists_cons_of_ne_nil all.1
  rw [List.cons_append, lexeme, if_pos (all.2 d List.mem_cons_self)]

/-- The lexer reads at least the digits of an integer. -/
theorem reaches_integer (all : IsDigits digits) (rest : List Char) :
    Reaches .integer digits rest := by
  rcases fractional : fractionCut (span Char.isDigit rest).2 with ⟨part, back⟩
  rcases scaled : exponentCut back with ⟨exponent, after⟩
  refine ⟨if part.isEmpty && exponent.isEmpty then .integer else .float,
    (span Char.isDigit rest).1 ++ (part ++ exponent), after, fun start => ?_, fun nothing => ?_⟩
  · rw [lexeme_number all, numberCut, all.span]
    simp [fractional, scaled]
  · simp only [List.append_eq_nil_iff] at nothing
    simp [nothing]

/-- It reads at least a number with its fraction. -/
theorem reaches_fraction (all : IsDigits whole) (fraction : IsFraction part) (rest : List Char) :
    Reaches .float (whole ++ part) rest := by
  rcases scaled : exponentCut (span Char.isDigit rest).2 with ⟨exponent, after⟩
  refine ⟨.float, (span Char.isDigit rest).1 ++ exponent, after, fun start => ?_, fun _ => rfl⟩
  rw [List.append_assoc, lexeme_number all, numberCut,
    takeWhile_append all.2 (fraction.noDigit rest)]
  have nonempty : part ≠ [] := by
    obtain ⟨_⟩ := fraction
    simp
  simp [fraction.cut, scaled, nonempty]

/-- It reads at least a number with its exponent. -/
theorem reaches_scaled (all : IsDigits whole) (power : IsExponent exponent) (rest : List Char) :
    Reaches .float (whole ++ exponent) rest := by
  refine ⟨.float, (span Char.isDigit rest).1, (span Char.isDigit rest).2, fun start => ?_,
    fun _ => rfl⟩
  rw [List.append_assoc, lexeme_number all, numberCut, takeWhile_append all.2 (power.noDigit rest)]
  have nonempty : exponent ≠ [] := by
    obtain ⟨_, _, _⟩ := power
    simp
  simp [power.fractionCut, power.cut, nonempty]

/-- It reads at least a number with both. -/
theorem reaches_both (all : IsDigits whole) (fraction : IsFraction part)
    (power : IsExponent exponent) (rest : List Char) :
    Reaches .float (whole ++ (part ++ exponent)) rest := by
  refine ⟨.float, (span Char.isDigit rest).1, (span Char.isDigit rest).2, fun start => ?_,
    fun _ => rfl⟩
  have stops : span Char.isDigit (exponent ++ rest) = ([], exponent ++ rest) :=
    takeWhile_append (List.forall_mem_nil _) (power.noDigit rest)
  rw [List.append_assoc, List.append_assoc, lexeme_number all, numberCut,
    takeWhile_append all.2 (fraction.noDigit _)]
  have nonempty : exponent ≠ [] := by
    obtain ⟨_, _, _⟩ := power
    simp
  simp [fraction.cut, stops, power.cut, nonempty]

end Numbers

section Names

variable {c : Char} {name : List Char}

/-- What continues a name is taken whole, with the rest of the name. -/
theorem Continues.cut (continues : Continues name) (rest : List Char) :
    segmentsCut (name ++ rest) = (name ++ (segmentsCut rest).1, (segmentsCut rest).2) := by
  induction continues with
  | nil => rfl
  | @char c name letter _ ih =>
      have noColon : c ≠ ':' := by
        rintro rfl
        cases letter
      rw [List.cons_append, segmentsCut.eq_2 _ _ (fun _ _ colon _ => noColon colon), if_pos letter,
        ih]
      rfl
  | @segment c name starts _ ih =>
      rw [List.cons_append, List.cons_append, List.cons_append, segmentsCut.eq_1, if_pos starts, ih]
      rfl

/-- A name at the head of a text, which may be longer there. -/
theorem reaches_name {more rest after : List Char} (starts : isNameStart c = true)
    (cut : nameCut (c :: (name ++ rest)) = (c :: (name ++ more), after)) :
    Reaches (.ofWord (String.ofList (c :: name))) (c :: name) rest := by
  refine ⟨.ofWord (String.ofList (c :: (name ++ more))), more, after, fun start => ?_,
    fun nothing => by rw [nothing, List.append_nil]⟩
  rw [List.cons_append, lexeme, if_neg (by simp [isDigit_of_isNameStart starts]), if_pos starts, cut]
  rfl

/-- The lexer reads at least a word. -/
theorem reaches_word (starts : isNameStart c = true) (continues : Continues name)
    (rest : List Char) : Reaches (.ofWord (String.ofList (c :: name))) (c :: name) rest := by
  have cut : segmentsCut (c :: (name ++ rest)) =
      (c :: (name ++ (segmentsCut rest).1), (segmentsCut rest).2) := by
    rw [segmentsCut_letter _ starts, continues.cut]
  rcases nameCut_cases (c :: (name ++ rest)) with ⟨after, -, asks⟩ | ⟨-, plain⟩
  · rw [cut, List.cons_append, List.append_assoc] at asks
    exact reaches_name starts asks
  · exact reaches_name starts (plain.trans cut)

/-- It reads at least a name that ends with a question mark. -/
theorem reaches_asking (starts : isNameStart c = true) (continues : Continues name)
    (rest : List Char) : Reaches .symbol (c :: (name ++ ['?'])) rest := by
  have stops : segmentsCut ('?' :: rest) = ([], '?' :: rest) := by
    rw [segmentsCut.eq_2 _ _ (by simp), if_neg (by decide)]
  have cut : nameCut (c :: (name ++ ['?'] ++ rest)) = (c :: (name ++ ['?'] ++ []), rest) := by
    rw [List.append_assoc, List.singleton_append, nameCut, segmentsCut_letter _ starts,
      continues.cut, stops, List.append_nil, List.append_nil]
    rfl
  rw [← ofWord_asking (c :: name)]
  exact reaches_name starts cut

end Names

/-- What may stand inside a string is taken up to the quote. -/
theorem IsInside.cut {inside : List Char} (shape : IsInside inside) (rest : List Char) :
    stringCut (inside ++ '"' :: rest) = (inside, '"' :: rest) := by
  induction shape with
  | nil => rfl
  | plain noQuote noBackslash noLine _ ih =>
      rw [List.cons_append, stringCut.eq_7 _ _ noQuote noLine
        (fun same => absurd same noBackslash) (fun _ same => absurd same noBackslash)
        (fun _ _ same => absurd same noBackslash), ih]
  | escaped noLine _ ih =>
      rw [List.cons_append, List.cons_append, stringCut.eq_6 _ _ noLine, ih]

/-- It reads at least a string. -/
theorem reaches_string {inside : List Char} (shape : IsInside inside) (rest : List Char) :
    Reaches .string ('"' :: (inside ++ ['"'])) rest := by
  refine ⟨.string, [], rest, fun start => ?_, fun _ => rfl⟩
  have cut := shape.cut rest
  rw [List.cons_append, List.append_assoc, List.singleton_append, lexeme, if_neg (by decide),
    if_neg (by decide), if_pos (by decide), cut, List.append_nil]
  rfl

/-- It reads at least a mark that is in its table. -/
theorem reaches_mark {text more rest after : List Char} {kind kind' : TokenKind}
    (mark : ∃ c cs, text = c :: cs ∧ (c.isDigit || isNameStart c || c == '"') = false)
    (found : mark? (text ++ rest) = some (kind', text ++ more, after))
    (same : more = [] → kind' = kind) : Reaches kind text rest := by
  obtain ⟨c, cs, rfl, other⟩ := mark
  refine ⟨kind', more, after, fun start => ?_, same⟩
  simp only [Bool.or_eq_false_iff] at other
  obtain ⟨⟨noDigit, noLetter⟩, noQuote⟩ := other
  rw [List.cons_append] at found ⊢
  rw [lexeme, if_neg (by simp [noDigit]), if_neg (by simp [noLetter]), if_neg (by simp [noQuote]),
    found]

theorem reaches_closed {text : List Char} {kind : TokenKind} (mark : (text, kind) ∈ closedMarks)
    (rest : List Char) : Reaches kind text rest := by
  have heads : ∀ p ∈ closedMarks,
      ∃ c cs, p.1 = c :: cs ∧ (c.isDigit || isNameStart c || c == '"') = false := by
    simp [closedMarks, isNameStart]
  have found : ∀ p ∈ closedMarks, mark? (p.1 ++ rest) = some (p.2, p.1 ++ [], rest) := by
    simp only [closedMarks, List.forall_mem_cons]
    and_intros
    all_goals first | rfl | exact List.forall_mem_nil _
  exact reaches_mark (heads _ mark) (found _ mark) fun _ => rfl

theorem reaches_opened {c : Char} {kind : TokenKind} (mark : (c, kind) ∈ openMarks)
    (rest : List Char) : Reaches kind [c] rest := by
  have heads : ∀ p ∈ openMarks, (p.1.isDigit || isNameStart p.1 || p.1 == '"') = false := by
    decide
  have head : ∃ d cs, [c] = d :: cs ∧ (d.isDigit || isNameStart d || d == '"') = false :=
    ⟨c, [], rfl, heads _ mark⟩
  by_cases longer : ∃ after, rest = '=' :: after
  · obtain ⟨after, rfl⟩ := longer
    have found : ∀ p ∈ openMarks,
        ∃ kind', mark? ([p.1] ++ '=' :: after) = some (kind', [p.1] ++ ['='], after) := by
      simp only [openMarks, List.forall_mem_cons]
      exact ⟨⟨_, rfl⟩, ⟨_, rfl⟩, ⟨_, rfl⟩, ⟨_, rfl⟩, ⟨_, rfl⟩, List.forall_mem_nil _⟩
    obtain ⟨kind', found⟩ := found _ mark
    exact reaches_mark head found (by simp)
  · have other : ∀ after, rest ≠ '=' :: after := fun after same => longer ⟨after, same⟩
    have found : ∀ p ∈ openMarks, mark? ([p.1] ++ rest) = some (p.2, [p.1] ++ [], rest) := by
      simp [openMarks, mark?, other]
    exact reaches_mark head (found _ mark) fun _ => rfl

/-- Where a text matches a pattern, no less than the text is cut off. -/
theorem Spells.reaches {kind : TokenKind} {text : List Char} (spelled : Spells kind text)
    (rest : List Char) : Reaches kind text rest := by
  cases spelled with
  | integer all => exact reaches_integer all rest
  | fraction all fraction => exact reaches_fraction all fraction rest
  | scaled all power => exact reaches_scaled all power rest
  | both all fraction power => exact reaches_both all fraction power rest
  | string shape => exact reaches_string shape rest
  | word starts continues => exact reaches_word starts continues rest
  | asking starts continues => exact reaches_asking starts continues rest
  | closed mark => exact reaches_closed mark rest
  | opened mark => exact reaches_opened mark rest

/-- A text that matches a pattern is cut off whole where nothing comes after it. -/
theorem Spells.alone {kind : TokenKind} {text : List Char} (spelled : Spells kind text)
    (start : Nat) : lexeme start text = .ok (kind, text, []) := by
  obtain ⟨kind', more, after, cut, same⟩ := spelled.reaches []
  have cut := cut start
  have whole := lexeme_append cut
  rw [List.append_nil] at cut
  rw [List.append_assoc, List.append_cancel_left_eq, List.append_eq_nil_iff] at whole
  obtain ⟨rfl, rfl⟩ := whole
  rw [cut, same rfl, List.append_nil]

/-- No token is spelled by nothing. -/
theorem Spells.ne_nil {kind : TokenKind} {text : List Char} (spelled : Spells kind text) :
    text ≠ [] := by
  rintro rfl
  cases spelled.alone 0

/-- The token at the head of a text is the longest text there that matches a pattern. -/
theorem lexeme_consumes {start : Nat} {cs text rest : List Char} {kind : TokenKind}
    (found : lexeme start cs = .ok (kind, text, rest)) : Consumes kind text rest where
  spelled := lexeme_spells found
  longest kind' text' spelled candidate := by
    rw [lexeme_append found] at candidate
    obtain ⟨others, rfl⟩ := candidate
    obtain ⟨kind'', more, after, cut, -⟩ := spelled.reaches others
    have same := Except.ok.inj (found.symm.trans (cut start))
    rw [(Prod.mk.inj (Prod.mk.inj same).2).1, List.length_append]
    exact Nat.le_add_right _ _

/-! ## Words of the language -/

/-- Only a word can be one that cannot be used as a name. -/
theorem Spells.reserved {kind : TokenKind} {text : List Char} (spelled : Spells kind text)
    (reserved : kind.isKeyword = true) :
    ∃ c name, text = c :: name ∧ isNameStart c = true ∧ Continues name := by
  cases spelled with
  | integer _ => cases reserved
  | fraction _ _ => cases reserved
  | scaled _ _ => cases reserved
  | both _ _ _ => cases reserved
  | string _ => cases reserved
  | word starts continues => exact ⟨_, _, rfl, starts, continues⟩
  | asking _ _ => cases reserved
  | closed mark =>
      have others : ∀ p ∈ closedMarks, p.2.isKeyword = false := by decide
      rw [others _ mark] at reserved
      cases reserved
  | opened mark =>
      have others : ∀ p ∈ openMarks, p.2.isKeyword = false := by decide
      rw [others _ mark] at reserved
      cases reserved

/-- A word of the language is not the beginning of a longer name. -/
theorem Consumes.endsName {kind : TokenKind} {text rest : List Char}
    (consumes : Consumes kind text rest) (reserved : kind.isKeyword = true) : EndsName rest := by
  obtain ⟨c, name, rfl, starts, continues⟩ := consumes.spelled.reserved reserved
  -- Whatever went on with the word, letters, segments or a question mark, would make a longer name.
  refine ⟨?_, fun asks => ?_⟩
  · rcases more : segmentsCut rest with ⟨front, back⟩
    have longer := segmentsCut_continues (name ++ rest)
    rw [continues.cut, more] at longer
    have short := consumes.longest _ _ (.word starts longer)
      ⟨back, by rw [List.cons_append, List.append_assoc, segmentsCut_eq more, List.cons_append]⟩
    have nothing : front = [] := by
      simp only [List.length_cons, List.length_append] at short
      exact List.eq_nil_of_length_eq_zero (by omega)
    rw [← segmentsCut_eq more, nothing, List.nil_append]
  · obtain ⟨after, rfl⟩ := List.head?_eq_some_iff.mp asks
    have short := consumes.longest _ _ (.asking starts continues) ⟨after, by simp⟩
    simp only [List.length_cons, List.length_append] at short
    omega

/-! ## Texts that are one token -/

/-- The texts that are one token are those that match its pattern. -/
theorem tokenize_eq_single {text : String} {kind : TokenKind} :
    tokenize text = .ok [⟨kind, text, 0⟩] ↔ Spells kind text.toList := by
  refine ⟨fun single => ?_, fun spelled => ?_⟩
  · obtain ⟨rest, found⟩ := lexeme_of_tokenize single
    exact lexeme_spells found
  · have found := spelled.alone 0
    rw [tokenize]
    cases letters : text.toList with
    | nil => rw [letters] at found; cases found
    | cons c cs =>
        rw [letters] at found
        have solid : (isSpace c || c == '#') = false := by
          refine Bool.eq_false_iff.mpr fun gap => ?_
          rw [lexeme_gap gap] at found
          cases found
        have ended : ∀ n start, tokensFrom n start [] = .ok [] := fun n start => by
          cases n <;> rfl
        rw [List.length_cons, tokensFrom, if_neg (by simp [solid]), found]
        simp only [ended, ← letters, String.ofList_toList]

end PolicyLogic.Source
