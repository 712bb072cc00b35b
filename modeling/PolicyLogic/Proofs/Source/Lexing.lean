import PolicyLogic.Source.Lexer
import PolicyLogic.Source.Literal
import PolicyLogic.Text.Quoted
import Mathlib.Tactic

/-!
# Where tokens end

A text is cut into tokens from the left, each as long as possible, so a token ends where the
characters after it cannot belong to it.

* `Lexes text kind rest` says that the token at the head of `text ++ rest` is exactly `text`. There
  is one lemma for each class of tokens, with what has to come next: `lexes_word` for names and
  words, `lexes_digits` for integers, `lexes_quoted` for string literals.
* `Cuts chars lexemes` says that a text is a row of such tokens with blanks between them, and
  `Cuts.tokensFrom` that `tokensFrom` then finds these tokens and no others.
* `Source.IsName` are the texts that are one name.
* A quoted text is read as `reread` says (`unquote_quote`): its escapes are those of the reader, except
  that a reader does not know code points.
-/

namespace PolicyLogic.Source

/-- A token apart from its place. -/
abbrev Lexeme := TokenKind × String

/-- The kind and the text of a token. -/
def Token.lexeme (t : Token) : Lexeme := (t.kind, t.text)

/-- The token at the head of `text ++ rest` is `text`, wherever it starts. -/
def Lexes (text : List Char) (kind : TokenKind) (rest : List Char) : Prop :=
  text ≠ [] ∧ ∀ start, lexeme start (text ++ rest) = .ok (kind, text, rest)

/-- A text that is cut into the given tokens, each perhaps after blanks. -/
inductive Cuts : List Char → List Lexeme → Prop
  | nil : Cuts [] []
  | token {text rest : List Char} {kind : TokenKind} {lexemes : List Lexeme} :
    Lexes text kind rest → Cuts rest lexemes →
      Cuts (text ++ rest) ((kind, String.ofList text) :: lexemes)
  | blank {c : Char} {rest : List Char} {lexemes : List Lexeme} :
    isSpace c = true → Cuts rest lexemes → Cuts (c :: rest) lexemes

/-! ## The tokens of a text -/

/-- Neither white space nor a comment begins a token. -/
theorem lexeme_gap {start : Nat} {c : Char} {cs : List Char}
    (gap : (isSpace c || c == '#') = true) : lexeme start (c :: cs) = .error (.invalidToken start) := by
  simp only [isSpace, Bool.or_eq_true, beq_iff_eq] at gap
  rcases gap with ((((rfl | rfl) | rfl) | rfl) | rfl) | rfl <;> rfl

theorem Lexes.head {text rest : List Char} {kind : TokenKind} (found : Lexes text kind rest) :
    ∃ c cs, text = c :: cs ∧ (isSpace c || c == '#') = false := by
  obtain ⟨nonempty, found⟩ := found
  obtain ⟨c, cs, rfl⟩ := List.exists_cons_of_ne_nil nonempty
  refine ⟨c, cs, rfl, Bool.eq_false_iff.mpr fun gap => ?_⟩
  have token := found 0
  rw [List.cons_append, lexeme_gap gap] at token
  cases token

/-- Blanks at the head of a text do not matter to its tokens. -/
theorem Cuts.dropWhile {cs : List Char} {lexemes : List Lexeme} (cuts : Cuts cs lexemes) :
    Cuts (cs.dropWhile isSpace) lexemes := by
  induction cuts with
  | nil => exact .nil
  | @token text rest kind lexemes found cuts _ =>
      obtain ⟨c, tail, rfl, solid⟩ := found.head
      rw [Bool.or_eq_false_iff] at solid
      rw [List.cons_append, List.dropWhile_cons_of_neg (by simp [solid.1])]
      exact .token found cuts
  | blank space _ ih => rwa [List.dropWhile_cons_of_pos space]

/-- A text that can be cut into tokens has these tokens. -/
theorem Cuts.tokensFrom {n : Nat} {cs : List Char} {lexemes : List Lexeme}
    (cuts : Cuts cs lexemes) (enough : cs.length ≤ n) (start : Nat) :
    ∃ tokens, tokensFrom n start cs = .ok tokens ∧ tokens.map Token.lexeme = lexemes := by
  induction n generalizing start cs lexemes with
  | zero =>
      cases cuts with
      | nil => exact ⟨[], rfl, rfl⟩
      | token found _ =>
          have := List.length_pos_iff.mpr found.1
          simp only [List.length_append] at enough
          omega
      | blank _ _ => simp at enough
  | succ n ih =>
      cases cuts with
      | nil => exact ⟨[], rfl, rfl⟩
      | @token text rest kind lexemes found cuts =>
          obtain ⟨c, tail, rfl, solid⟩ := found.head
          simp only [List.cons_append, List.length_cons, List.length_append] at enough
          obtain ⟨tokens, run, shown⟩ := ih cuts (by omega) (start + byteLength (c :: tail))
          refine ⟨⟨kind, String.ofList (c :: tail), start⟩ :: tokens, ?_, by
            simp [shown, Token.lexeme]⟩
          have token := found.2 start
          rw [List.cons_append] at token ⊢
          rw [Source.tokensFrom, if_neg (by simp [solid]), token]
          simp only [run]
      | @blank c rest _ space cuts =>
          have shorter := (List.dropWhile_sublist isSpace (l := rest)).length_le
          simp only [List.length_cons] at enough
          have gap : gapCut (c :: rest) = (c :: rest.takeWhile isSpace, rest.dropWhile isSpace) := by
            simp only [isSpace, Bool.or_eq_true, beq_iff_eq] at space
            rcases space with (((rfl | rfl) | rfl) | rfl) | rfl <;> rfl
          rw [Source.tokensFrom, if_pos (by simp [space]), gap]
          exact ih cuts.dropWhile (by omega) _

/-- The tokens of a source that can be cut into them. -/
theorem Cuts.tokenize {source : String} {lexemes : List Lexeme} (cuts : Cuts source.toList lexemes) :
    ∃ tokens, tokenize source = .ok tokens ∧ tokens.map Token.lexeme = lexemes :=
  cuts.tokensFrom (Nat.le_refl _) 0

/-! ## Names and words -/

/-- What comes after a name does not continue it. -/
def EndsName (rest : List Char) : Prop :=
  segmentsCut rest = ([], rest) ∧ rest.head? ≠ some '?'

theorem segmentsCut_append {cs name tail rest : List Char} (cut : segmentsCut cs = (name, tail))
    (ends : segmentsCut (tail ++ rest) = ([], tail ++ rest)) :
    segmentsCut (cs ++ rest) = (name, tail ++ rest) := by
  induction cs using segmentsCut.induct generalizing name with
  | case1 c cs begins more after found ih =>
      rw [segmentsCut, if_pos begins, found] at cut
      obtain ⟨rfl, rfl⟩ := Prod.mk.inj cut
      rw [List.cons_append, List.cons_append, List.cons_append, segmentsCut, if_pos begins,
        ih found]
  | case2 c cs begins =>
      rw [segmentsCut, if_neg begins] at cut
      obtain ⟨rfl, rfl⟩ := Prod.mk.inj cut
      exact ends
  | case3 c cs single continues more after found ih =>
      have plain : c ≠ ':' := fun colon => by subst colon; cases continues
      rw [segmentsCut.eq_2 _ _ single, if_pos continues, found] at cut
      obtain ⟨rfl, rfl⟩ := Prod.mk.inj cut
      rw [List.cons_append, segmentsCut.eq_2 _ _ (by
        rintro d ds rfl
        exact fun _ => plain rfl), if_pos continues, ih found]
  | case4 c cs single continues =>
      rw [segmentsCut.eq_2 _ _ single, if_neg continues] at cut
      obtain ⟨rfl, rfl⟩ := Prod.mk.inj cut
      exact ends
  | case5 =>
      obtain ⟨rfl, rfl⟩ := Prod.mk.inj cut
      exact ends

theorem segmentsCut_eq {cs name tail : List Char} (cut : segmentsCut cs = (name, tail)) :
    name ++ tail = cs := by
  induction cs using segmentsCut.induct generalizing name with
  | case1 c cs begins more after found ih =>
      rw [segmentsCut, if_pos begins, found] at cut
      obtain ⟨rfl, rfl⟩ := Prod.mk.inj cut
      simp [ih found]
  | case2 c cs begins =>
      rw [segmentsCut, if_neg begins] at cut
      obtain ⟨rfl, rfl⟩ := Prod.mk.inj cut
      rfl
  | case3 c cs single continues more after found ih =>
      rw [segmentsCut.eq_2 _ _ single, if_pos continues, found] at cut
      obtain ⟨rfl, rfl⟩ := Prod.mk.inj cut
      simp [ih found]
  | case4 c cs single continues =>
      rw [segmentsCut.eq_2 _ _ single, if_neg continues] at cut
      obtain ⟨rfl, rfl⟩ := Prod.mk.inj cut
      rfl
  | case5 =>
      obtain ⟨rfl, rfl⟩ := Prod.mk.inj cut
      rfl

theorem nameCut_eq {cs name tail : List Char} (cut : nameCut cs = (name, tail)) :
    name ++ tail = cs := by
  rcases segments : segmentsCut cs with ⟨front, back⟩
  have whole := segmentsCut_eq segments
  rw [nameCut, segments] at cut
  cases back with
  | nil =>
      obtain ⟨rfl, rfl⟩ := Prod.mk.inj cut
      exact whole
  | cons c back =>
      by_cases mark : c = '?'
      · subst mark
        obtain ⟨rfl, rfl⟩ := Prod.mk.inj cut
        simpa using whole
      · obtain ⟨rfl, rfl⟩ : front = name ∧ c :: back = tail := by simpa [mark] using cut
        exact whole

/-- A name or a word that is cut off whole stays so before a text that does not continue it. -/
theorem nameCut_append {word rest : List Char} (cut : nameCut word = (word, []))
    (ends : EndsName rest) : nameCut (word ++ rest) = (word, rest) := by
  obtain ⟨stops, noMark⟩ := ends
  rcases segments : segmentsCut word with ⟨name, tail⟩
  rw [nameCut, segments] at cut
  rw [nameCut]
  cases tail with
  | nil =>
      obtain ⟨rfl, -⟩ := Prod.mk.inj cut
      rw [segmentsCut_append segments stops, List.nil_append]
      cases rest with
      | nil => rfl
      | cons c rest =>
          have other : c ≠ '?' := fun mark => noMark (by rw [mark]; rfl)
          simp [other]
  | cons c tail =>
      by_cases mark : c = '?'
      · subst mark
        obtain ⟨rfl, rfl⟩ := Prod.mk.inj cut
        rw [segmentsCut_append segments (by rfl)]
        rfl
      · simp [mark] at cut

theorem isDigit_of_isNameStart {c : Char} (starts : isNameStart c = true) : c.isDigit = false := by
  delta isNameStart Char.isAlpha Char.isUpper Char.isLower at starts
  simp only [Bool.or_eq_true, Bool.and_eq_true, decide_eq_true_eq, beq_iff_eq] at starts
  rcases starts with (upper | lower) | rfl
  · grind [Char.isDigit]
  · grind [Char.isDigit]
  · rfl

/-- A word at the head of a text that does not continue it. -/
theorem lexes_word {word : String} {rest : List Char}
    (starts : ∃ c cs, word.toList = c :: cs ∧ isNameStart c = true)
    (cut : nameCut word.toList = (word.toList, [])) (ends : EndsName rest) :
    Lexes word.toList (.ofWord word) rest := by
  obtain ⟨c, cs, letters, first⟩ := starts
  refine ⟨by simp [letters], fun start => ?_⟩
  have whole := nameCut_append cut ends
  rw [letters, List.cons_append] at whole ⊢
  rw [lexeme, if_neg (by simp [isDigit_of_isNameStart first]), if_pos first, whole, ← letters]
  simp only [String.ofList_toList]

theorem numberCut_kind (cs : List Char) :
    (numberCut cs).1 = .integer ∨ (numberCut cs).1 = .float := by
  simp only [numberCut]
  split
  · exact .inl rfl
  · exact .inr rfl

theorem mark?_kind {cs : List Char} {kind : TokenKind} {cut : Cut}
    (found : mark? cs = some (kind, cut)) : kind ≠ .symbol := by
  unfold mark? at found
  split at found <;> simp at found <;> simp [← found.1]

/-- The token at the head of a text is a name only where a name is cut off. -/
theorem lexeme_symbol {start : Nat} {c : Char} {cs text rest : List Char}
    (found : lexeme start (c :: cs) = .ok (.symbol, text, rest)) :
    isNameStart c = true ∧ nameCut (c :: cs) = (text, rest) ∧
      TokenKind.ofWord (String.ofList text) = .symbol := by
  rw [lexeme] at found
  split at found
  · have kinds := numberCut_kind (c :: cs)
    rw [Except.ok.inj found] at kinds
    rcases kinds with kind | kind <;> cases kind
  split at found
  · rename_i starts
    rcases cut : nameCut (c :: cs) with ⟨name, tail⟩
    rw [cut] at found
    obtain ⟨kind, rfl, rfl⟩ : TokenKind.ofWord (String.ofList name) = .symbol ∧ name = text ∧
      tail = rest := by simpa using found
    exact ⟨starts, rfl, kind⟩
  split at found
  · split at found <;> cases found
  split at found
  · rename_i mark
    rw [Except.ok.inj found] at mark
    exact absurd rfl (mark?_kind mark)
  · cases found

/-! ### Texts that are one name -/

theorem le_start_of_mem_tokensFrom {n start : Nat} {cs : List Char} {tokens : List Token}
    (run : tokensFrom n start cs = .ok tokens) : ∀ t ∈ tokens, start ≤ t.start := by
  induction n generalizing start cs tokens with
  | zero => cases cs <;> cases run <;> simp
  | succ n ih =>
      cases cs with
      | nil => cases run; simp
      | cons c cs =>
          rw [tokensFrom] at run
          split at run
          · exact fun t member => Nat.le_trans (Nat.le_add_right _ _) (ih run t member)
          split at run
          · cases run
          split at run
          · cases run
          · rename_i tokens' rest
            cases run
            intro t member
            rcases List.mem_cons.mp member with rfl | later
            · exact Nat.le_refl _
            · exact Nat.le_trans (Nat.le_add_right _ _) (ih rest t later)

theorem byteLength_gapCut_pos {c : Char} (cs : List Char) (gap : (isSpace c || c == '#') = true) :
    0 < byteLength (gapCut (c :: cs)).1 := by
  have size := c.utf8Size_pos
  unfold gapCut
  split
  · rename_i tail same
    obtain ⟨rfl, rfl⟩ := List.cons.inj same
    rw [span, List.takeWhile_cons_of_pos (by decide), byteLength]
    omega
  · rename_i other
    have space : isSpace c = true := by
      rcases Bool.or_eq_true _ _ |>.mp gap with space | hash
      · exact space
      · exact absurd (by rw [eq_of_beq hash]) (other cs)
    rw [span, List.takeWhile_cons_of_pos space, byteLength]
    omega

/-- A text that is one token has that token at its head. -/
theorem lexeme_of_tokenize {text : String} {kind : TokenKind}
    (single : tokenize text = .ok [⟨kind, text, 0⟩]) :
    ∃ rest, lexeme 0 text.toList = .ok (kind, text.toList, rest) := by
  rw [tokenize] at single
  cases letters : text.toList with
  | nil => rw [letters] at single; cases single
  | cons c cs =>
      rw [letters, List.length_cons, tokensFrom] at single
      split at single
      · rename_i space
        have positive := byteLength_gapCut_pos cs space
        have late := le_start_of_mem_tokensFrom single _ List.mem_cons_self
        exact absurd late (by show ¬ 0 + byteLength (gapCut (c :: cs)).1 ≤ 0; omega)
      split at single
      · cases single
      split at single
      · cases single
      · rename_i kind' front rest found _ tokens run
        obtain ⟨⟨rfl, spelled⟩, -⟩ : (kind' = kind ∧ String.ofList front = text) ∧ tokens = [] := by
          simpa using single
        obtain rfl : front = c :: cs := by rw [← letters, ← spelled, String.toList_ofList]
        exact ⟨rest, found⟩

/-- The text is one token, and that token is a name. -/
def IsName (name : String) : Prop := tokenize name = .ok [⟨.symbol, name, 0⟩]

/-- A name is cut off whole by the rule for names. -/
theorem IsName.cut {name : String} (isName : IsName name) :
    (∃ c cs, name.toList = c :: cs ∧ isNameStart c = true) ∧
      nameCut name.toList = (name.toList, []) ∧ TokenKind.ofWord name = .symbol := by
  obtain ⟨rest, found⟩ := lexeme_of_tokenize isName
  cases letters : name.toList with
  | nil => rw [letters] at found; cases found
  | cons c cs =>
      rw [letters] at found
      obtain ⟨starts, cut, word⟩ := lexeme_symbol found
      obtain rfl : rest = [] := List.append_right_eq_self.mp (nameCut_eq cut)
      rw [← letters, String.ofList_toList] at word
      exact ⟨⟨c, cs, rfl, starts⟩, cut, word⟩

/-- A name at the head of a text that does not continue it. -/
theorem IsName.lexes {name : String} {rest : List Char} (isName : IsName name)
    (ends : EndsName rest) : Lexes name.toList .symbol rest := by
  obtain ⟨starts, cut, word⟩ := isName.cut
  exact word ▸ lexes_word starts cut ends

/-! ## Numbers -/

theorem takeWhile_append {p : Char → Bool} {front rest : List Char} (all : ∀ c ∈ front, p c = true)
    (stop : ∀ c ∈ rest.head?, p c = false) : span p (front ++ rest) = (front, rest) := by
  rw [span, List.takeWhile_append_of_pos all, List.dropWhile_append_of_pos all]
  cases rest with
  | nil => simp
  | cons c rest => simp [stop c rfl]

/-- What comes after an integer does not continue it. -/
structure EndsInteger (rest : List Char) : Prop where
  noDigit : ∀ c ∈ rest.head?, c.isDigit = false
  noFraction : fractionCut rest = ([], rest)
  noExponent : exponentCut rest = ([], rest)

/-- The digits of an integer at the head of a text that does not continue them. -/
theorem lexes_digits {digits rest : List Char} (nonempty : digits ≠ [])
    (all : ∀ c ∈ digits, c.isDigit = true) (ends : EndsInteger rest) :
    Lexes digits .integer rest := by
  obtain ⟨c, cs, rfl⟩ := List.exists_cons_of_ne_nil nonempty
  refine ⟨nonempty, fun start => ?_⟩
  have whole : numberCut (c :: cs ++ rest) = (.integer, c :: cs, rest) := by
    rw [numberCut, takeWhile_append all ends.noDigit]
    simp [ends.noFraction, ends.noExponent]
  rw [List.cons_append] at whole ⊢
  rw [lexeme, if_pos (all c List.mem_cons_self), whole]

/-- The text of an integer that is not negative is its digits. -/
theorem lexes_natural {n : Nat} {rest : List Char} (ends : EndsInteger rest) :
    Lexes (toString n).toList .integer rest := by
  rw [Nat.toString_eq_ofList_toDigits, String.toList_ofList]
  exact lexes_digits Nat.toDigits_ne_nil
    (fun c member => Nat.isDigit_of_mem_toDigits (by decide) (by decide) member) ends

/-- Reading the digits of a number gives the number. -/
theorem digitsValue_toString (n : Nat) : Text.digitsValue (toString n).toList = n := by
  rw [Nat.toString_eq_ofList_toDigits, String.toList_ofList]
  exact Nat.ofDigitChars_ten_toDigits

theorem integerLiteral?_toString {n : Int64} (natural : 0 ≤ n.toInt) :
    integerLiteral? (toString n.toInt) = some n := by
  obtain ⟨m, value⟩ := Int.eq_ofNat_of_zero_le natural
  have small : (m : Int) < 2 ^ 63 := value ▸ n.toInt_lt
  have shown : toString n.toInt = toString m := by rw [value]; rfl
  have back : Int64.ofNat m = n := by rw [← Int64.ofInt_eq_ofNat, ← value, Int64.ofInt_toInt]
  rw [shown, integerLiteral?, digitsValue_toString, if_pos (by norm_cast at small), back]

/-! ## String literals -/

/-- A quoted text has the code point of the character in its place: it cannot be printed or attaches
to its neighbour, and has no short escape. -/
def isSpelledOut (c : Char) : Bool :=
  c ∉ ['\x00', '\t', '\r', '\n', '\\', '"'] && (Text.isExtending c || !Text.isPrintable c)

/-- What a character of a quoted text is read as. Of a code point only the backslash is dropped. -/
def rereadChar (c : Char) : List Char :=
  if isSpelledOut c then (Text.codeEscape c).tail else [c]

/-- The text that is read where a text was quoted. -/
def reread (s : String) : String := String.ofList (s.toList.flatMap rereadChar)

/-- How a character is written between the quotes: as it is, or as a backslash and a letter from
which the reader gets it back. -/
inductive Written (c : Char) : List Char → Prop
  | plain : c ≠ '"' → c ≠ '\\' → c ≠ '\n' → Written c [c]
  | escaped {d : Char} : d ≠ '\n' →
    (∀ rest, Text.unescapeChars ('\\' :: d :: rest) = c :: Text.unescapeChars rest) →
      Written c ['\\', d]

theorem Written.stringCut {c : Char} {shown rest inside after : List Char} (written : Written c shown)
    (cut : stringCut rest = (inside, after)) : stringCut (shown ++ rest) = (shown ++ inside, after) := by
  cases written with
  | plain noQuote noBackslash noLine =>
      rw [List.cons_append, List.nil_append, Source.stringCut.eq_7 _ _ noQuote noLine
        (fun same => absurd same noBackslash) (fun _ same => absurd same noBackslash)
        (fun _ _ same => absurd same noBackslash), cut]
      rfl
  | escaped noLine _ =>
      rw [List.cons_append, List.cons_append, List.nil_append, Source.stringCut.eq_6 _ _ noLine, cut]
      rfl

theorem Written.unescape {c : Char} {shown rest : List Char} (written : Written c shown) :
    Text.unescapeChars (shown ++ rest) = c :: Text.unescapeChars rest := by
  cases written with
  | plain _ noBackslash _ =>
      rw [List.cons_append, List.nil_append, Text.unescapeChars.eq_8] <;> simp [noBackslash]
  | escaped _ resolves => exact resolves rest

/-- How characters are written one after the other. -/
inductive WrittenAll : List Char → List Char → Prop
  | nil : WrittenAll [] []
  | cons {c : Char} {cs shown more : List Char} :
    Written c shown → WrittenAll cs more → WrittenAll (c :: cs) (shown ++ more)

section WrittenAll

variable {cs ds shown more : List Char}

theorem WrittenAll.append (written : WrittenAll cs shown) (others : WrittenAll ds more) :
    WrittenAll (cs ++ ds) (shown ++ more) := by
  induction written with
  | nil => exact others
  | cons first _ ih =>
      rw [List.append_assoc]
      exact .cons first ih

theorem WrittenAll.stringCut (written : WrittenAll cs shown) (rest : List Char) :
    stringCut (shown ++ '"' :: rest) = (shown, '"' :: rest) := by
  induction written with
  | nil => rfl
  | cons first _ ih =>
      rw [List.append_assoc]
      exact first.stringCut ih

theorem WrittenAll.unescape (written : WrittenAll cs shown) : Text.unescapeChars shown = cs := by
  induction written with
  | nil => rfl
  | cons first _ ih => rw [first.unescape, ih]

/-- Characters that need no escape stand for themselves. -/
theorem writtenAll_plain (plain : ∀ c ∈ cs, c ≠ '"' ∧ c ≠ '\\' ∧ c ≠ '\n') : WrittenAll cs cs := by
  induction cs with
  | nil => exact .nil
  | cons c cs ih =>
      obtain ⟨first, rest⟩ := List.forall_mem_cons.mp plain
      exact .cons (.plain first.1 first.2.1 first.2.2) (ih rest)

end WrittenAll

theorem isAlphanum_of_mem_toDigits {n : Nat} {c : Char} (member : c ∈ Nat.toDigits 16 n) :
    c.isAlphanum = true := by
  have digit : ∀ m < 16, (Nat.digitChar m).isAlphanum = true := by decide
  induction n using Nat.strongRecOn with
  | ind n ih =>
      rw [Nat.toDigits_eq_if (by decide)] at member
      split at member
      · rename_i small
        rw [List.mem_singleton.mp member]
        exact digit n small
      · rename_i large
        rcases List.mem_append.mp member with front | last
        · exact ih (n / 16) (by omega) front
        · rw [List.mem_singleton.mp last]
          exact digit (n % 16) (Nat.mod_lt n (by decide))

/-- Of a code point the reader drops the backslash and keeps the rest. -/
theorem writtenAll_codeEscape (c : Char) :
    WrittenAll (Text.codeEscape c).tail (Text.codeEscape c) := by
  have point : WrittenAll ('\x7b' :: Nat.toDigits 16 c.toNat ++ ['\x7d'])
      ('\x7b' :: Nat.toDigits 16 c.toNat ++ ['\x7d']) := by
    refine writtenAll_plain fun d member => ?_
    rw [List.cons_append, List.mem_cons, List.mem_append, List.mem_singleton] at member
    rcases member with rfl | digit | rfl
    · decide
    · have shown := isAlphanum_of_mem_toDigits digit
      refine ⟨?_, ?_, ?_⟩ <;> rintro rfl <;> cases shown
    · decide
  show WrittenAll ('u' :: _) (['\\', 'u'] ++ _)
  exact .cons (.escaped (by decide) fun _ => rfl) point

theorem writtenAll_escapeChar (c : Char) :
    WrittenAll (rereadChar c) (Text.escapeChar '"' c) := by
  by_cases short : c ∈ ['\x00', '\t', '\r', '\n', '\\', '"']
  · rw [rereadChar, isSpelledOut, if_neg (by simp [short])]
    simp only [List.mem_cons, List.not_mem_nil, or_false] at short
    rcases short with rfl | rfl | rfl | rfl | rfl | rfl <;>
    exact .cons (.escaped (by decide) fun _ => rfl) .nil
  rw [rereadChar, isSpelledOut, decide_eq_true short, Bool.true_and]
  simp only [List.mem_cons, List.not_mem_nil, or_false, not_or] at short
  obtain ⟨zero, tab, turn, line, backslash, mark⟩ := short
  rw [Text.escapeChar, if_neg zero, if_neg tab, if_neg turn, if_neg line, if_neg backslash,
    if_neg mark]
  by_cases attached : Text.isExtending c = true
  · simpa [attached] using writtenAll_codeEscape c
  by_cases printed : Text.isPrintable c = true
  · simpa [attached, printed] using .cons (.plain mark backslash line) .nil
  · simpa [attached, printed] using writtenAll_codeEscape c

theorem writtenAll_escaped (cs : List Char) :
    WrittenAll (cs.flatMap rereadChar) (cs.flatMap (Text.escapeChar '"')) := by
  induction cs with
  | nil => exact .nil
  | cons c cs ih =>
      rw [List.flatMap_cons, List.flatMap_cons]
      exact (writtenAll_escapeChar c).append ih

/-- A quoted text is one string literal, whatever comes after it. -/
theorem lexes_quoted (s : String) (rest : List Char) : Lexes (Text.quote s).toList .string rest := by
  rw [Text.quote, String.toList_ofList]
  refine ⟨by simp [Text.quoteChars], fun start => ?_⟩
  have shape : Text.quoteChars s.toList ++ rest =
      '"' :: (s.toList.flatMap (Text.escapeChar '"') ++ '"' :: rest) := by simp [Text.quoteChars]
  rw [shape, lexeme, if_neg (by decide), if_neg (by decide), if_pos (by decide),
    (writtenAll_escaped s.toList).stringCut]
  rfl

theorem unquote_quote (s : String) : Text.unquote (Text.quote s) = reread s := by
  have inner : ((Text.quoteChars s.toList).tail).dropLast =
      s.toList.flatMap (Text.escapeChar '"') := by
    simp [Text.quoteChars]
  rw [Text.unquote, Text.quote, String.toList_ofList, inner, (writtenAll_escaped s.toList).unescape,
    reread]

/-! ### Texts that are read back -/

/-- The characters that the escapes of a string literal can write: what ASCII prints, and the four
control characters that have a short escape. -/
def IsWritable (c : Char) : Prop :=
  c = '\n' ∨ c = '\t' ∨ c = '\r' ∨ c = '\x00' ∨ 32 ≤ c.toNat ∧ c.toNat ≤ 126

instance (c : Char) : Decidable (IsWritable c) :=
  inferInstanceAs (Decidable (c = '\n' ∨ c = '\t' ∨ c = '\r' ∨ c = '\x00' ∨
    32 ≤ c.toNat ∧ c.toNat ≤ 126))

theorem IsWritable.kept {c : Char} (writable : IsWritable c) : isSpelledOut c = false := by
  rcases writable with rfl | rfl | rfl | rfl | ⟨low, high⟩
  · rfl
  · rfl
  · rfl
  · rfl
  have alone : Text.isExtending c = false := by
    simp only [Text.isExtending, Bool.and_eq_false_iff, decide_eq_false_iff_not]
    exact .inl (by omega)
  have printed : Text.isPrintable c = true := by
    rw [Text.isPrintable, if_neg (by omega), if_pos (by omega)]
  simp [isSpelledOut, alone, printed]

/-- The text has only characters that a string literal can write. -/
def IsWritableText (s : String) : Prop := ∀ c ∈ s.toList, IsWritable c

instance (s : String) : Decidable (IsWritableText s) :=
  inferInstanceAs (Decidable (∀ c ∈ s.toList, IsWritable c))

theorem flatMap_reread {cs : List Char} (kept : ∀ c ∈ cs, isSpelledOut c = false) :
    cs.flatMap rereadChar = cs := by
  induction cs with
  | nil => rfl
  | cons c cs ih =>
      obtain ⟨first, rest⟩ := List.forall_mem_cons.mp kept
      rw [List.flatMap_cons, ih rest, rereadChar, if_neg (by simp [first])]
      rfl

theorem IsWritableText.reread {s : String} (writable : IsWritableText s) : reread s = s := by
  rw [Source.reread, flatMap_reread fun c member => (writable c member).kept, String.ofList_toList]

/-! ## Marks -/

/-- The marks that are tokens of their own before any text. -/
theorem lexes_mark {c : Char} {kind : TokenKind} {rest : List Char}
    (mark : (c, kind) ∈ [('[', TokenKind.lbracket), (']', .rbracket), ('(', .lparen),
      (')', .rparen), ('\x7b', .lbrace), ('\x7d', .rbrace), (',', .comma), ('.', .dot),
      ('*', .star), (';', .semicolon)]) :
    Lexes [c] kind rest := by
  simp only [List.mem_cons, Prod.mk.injEq, List.not_mem_nil, or_false] at mark
  rcases mark with ⟨rfl, rfl⟩ | ⟨rfl, rfl⟩ | ⟨rfl, rfl⟩ | ⟨rfl, rfl⟩ | ⟨rfl, rfl⟩ | ⟨rfl, rfl⟩ |
    ⟨rfl, rfl⟩ | ⟨rfl, rfl⟩ | ⟨rfl, rfl⟩ | ⟨rfl, rfl⟩ <;>
  exact ⟨by simp, fun _ => rfl⟩

theorem Cuts.mark {c : Char} {kind : TokenKind} {rest : List Char} {lexemes : List Lexeme}
    (cuts : Cuts rest lexemes) (lexes : Lexes [c] kind rest) :
    Cuts (c :: rest) ((kind, String.ofList [c]) :: lexemes) :=
  .token lexes cuts

/-- A colon before a blank is a token of its own. -/
theorem lexes_colon {rest : List Char} : Lexes [':'] .colon (' ' :: rest) :=
  ⟨by simp, fun _ => rfl⟩

/-! ## The end of an expression -/

/-- What comes after an expression in a rendered text: nothing, a blank, a comma, a closing mark, a
lookup or the colon before a specializer. -/
inductive Ends : List Char → Prop
  | nothing : Ends []
  | mark {c : Char} {rest : List Char} :
    c ∈ [' ', ',', ')', ']', '\x7d', ';'] → Ends (c :: rest)
  | lookup {c : Char} {rest : List Char} : isNameStart c = true → Ends ('.' :: c :: rest)
  | colon {rest : List Char} : Ends (':' :: ' ' :: rest)

/-- A text whose first character continues no name. -/
theorem endsName_of_head {c : Char} {rest : List Char} (stop : isNameChar c = false)
    (noColon : c ≠ ':') (noMark : c ≠ '?') : EndsName (c :: rest) := by
  refine ⟨?_, by simpa using noMark⟩
  rw [segmentsCut.eq_2 _ _ (fun _ _ colon _ => noColon colon), if_neg (by simp [stop])]

theorem Ends.name {rest : List Char} (ends : Ends rest) : EndsName rest := by
  cases ends with
  | nothing => exact ⟨rfl, by simp⟩
  | mark member =>
      simp only [List.mem_cons, List.not_mem_nil, or_false] at member
      rcases member with rfl | rfl | rfl | rfl | rfl | rfl <;>
      exact endsName_of_head (by decide) (by decide) (by decide)
  | lookup _ => exact endsName_of_head (by decide) (by decide) (by decide)
  | colon => exact ⟨rfl, by simp⟩

/-- A text whose first character continues no integer. -/
theorem endsInteger_of_head {c : Char} {rest : List Char} (noDigit : c.isDigit = false)
    (noPoint : c ≠ '.') (noExponent : (c == 'e' || c == 'E') = false) : EndsInteger (c :: rest) where
  noDigit d member := by
    obtain rfl : c = d := by simpa using member
    exact noDigit
  noFraction := by
    unfold fractionCut
    split
    · rename_i same
      exact absurd (List.cons.inj same).1 noPoint
    · rfl
  noExponent := by
    unfold exponentCut
    simp only [noExponent, Bool.false_eq_true, if_false]

theorem Ends.integer {rest : List Char} (ends : Ends rest) : EndsInteger rest := by
  cases ends with
  | nothing => exact ⟨by simp, rfl, rfl⟩
  | mark member =>
      simp only [List.mem_cons, List.not_mem_nil, or_false] at member
      rcases member with rfl | rfl | rfl | rfl | rfl | rfl <;>
      exact endsInteger_of_head (by decide) (by decide) (by decide)
  | @lookup c rest starts =>
      refine ⟨by simp, ?_, rfl⟩
      have none : List.takeWhile Char.isDigit (c :: rest) = [] :=
        List.takeWhile_cons_of_neg (by simp [isDigit_of_isNameStart starts])
      rw [fractionCut, span, none]
  | colon => exact endsInteger_of_head (by decide) (by decide) (by decide)

end PolicyLogic.Source
