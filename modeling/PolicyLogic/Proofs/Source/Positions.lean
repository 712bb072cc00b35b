import PolicyLogic.Error
import PolicyLogic.Proofs.Rule.Read
import PolicyLogic.Proofs.Source.Lexing

/-!
# Where errors are reported

An error has a byte offset, and is reported with a row and a column counted in characters.

* `tokensFrom_places` and `tokensFrom_rejects` say where tokens stand and where a text is no token.
  With what the parsers guarantee, every error is at one of these places or at the end of the source
  (`FailsWith.isPlace`), and each of them is a boundary between characters (`IsPlace.isBoundary`).
* The position of a boundary is the one just after the text before it (`positionOf_byteLength`), and
  every character moves it on (`Position.before_concat`). So no two boundaries have one position.
-/

namespace PolicyLogic

namespace Source

/-! ## Boundaries between characters -/

/-- Bytes of texts add up. -/
@[simp] theorem byteLength_append (cs ds : List Char) :
    byteLength (cs ++ ds) = byteLength cs + byteLength ds := by
  induction cs with
  | nil => simp [byteLength]
  | cons c cs ih => simp [byteLength, ih, Nat.add_assoc]

/-- The offset is the size of some text at the head of the source, so no character is cut in two. -/
def IsBoundary (source : String) (loc : Nat) : Prop :=
  ∃ before rest, source.toList = before ++ rest ∧ byteLength before = loc

/-- The text before an offset has as many bytes. -/
theorem before?_byteLength (before rest : List Char) :
    before? (byteLength before) (before ++ rest) = some before := by
  induction before with
  | nil => rw [byteLength, before?]
  | cons c before ih =>
      obtain ⟨n, size⟩ := Nat.exists_eq_succ_of_ne_zero (Nat.ne_of_gt c.utf8Size_pos)
      have total : byteLength (c :: before) = (n + byteLength before) + 1 := by
        rw [byteLength, size]
        omega
      have left : n + byteLength before + 1 - c.utf8Size = byteLength before := by omega
      rw [total, List.cons_append, before?, if_pos (by omega), left, ih]
      rfl

/-- The position of an offset is counted on the text before it. -/
theorem positionOf_byteLength {source : String} {before rest : List Char}
    (split : source.toList = before ++ rest) :
    positionOf source (byteLength before) = .after before := by
  rw [positionOf, split, before?_byteLength, Option.getD_some]

/-- What stands before the lower of two boundaries stands before the other one. -/
theorem exists_between {source : String} {before rest before' rest' : List Char}
    (split : source.toList = before ++ rest) (split' : source.toList = before' ++ rest')
    (less : byteLength before < byteLength before') :
    ∃ c more, before' = before ++ c :: more := by
  have front : before <+: source.toList := ⟨rest, split.symm⟩
  have front' : before' <+: source.toList := ⟨rest', split'.symm⟩
  rcases List.prefix_or_prefix_of_prefix front front' with ⟨more, whole⟩ | ⟨more, whole⟩
  · cases more with
    | nil =>
        rw [← whole, List.append_nil] at less
        exact absurd less (Nat.lt_irrefl _)
    | cons c more => exact ⟨c, more, whole.symm⟩
  · rw [← whole, byteLength_append] at less
    omega

/-! ## Rows and columns -/

namespace Position

/-- The order of reading: by rows, and in a row by columns. -/
def Before (p q : Position) : Prop := p.row < q.row ∨ p.row = q.row ∧ p.column < q.column

theorem Before.trans {p q r : Position} (first : p.Before q) (second : q.Before r) : p.Before r := by
  unfold Before at first second ⊢
  omega

theorem Before.ne {p q : Position} (before : p.Before q) : p ≠ q := by
  rintro rfl
  unfold Before at before
  omega

/-- A new line begins at column zero. -/
theorem after_newline (text : List Char) : after (text ++ ['\n']) = ⟨(after text).row + 1, 0⟩ := by
  simp [after]

/-- Any other character moves on by one column. -/
theorem after_character {c : Char} (text : List Char) (other : c ≠ '\n') :
    after (text ++ [c]) = ⟨(after text).row, (after text).column + 1⟩ := by
  simp [after, other]

/-- Each character moves the position on. -/
theorem before_concat (text : List Char) (c : Char) : (after text).Before (after (text ++ [c])) := by
  by_cases newline : c = '\n'
  · rw [newline, after_newline]
    exact .inl (Nat.lt_succ_self _)
  · rw [after_character text newline]
    exact .inr ⟨rfl, Nat.lt_succ_self _⟩

/-- Every character moves the position on. -/
theorem before_append (text : List Char) (c : Char) (more : List Char) :
    (after text).Before (after (text ++ c :: more)) := by
  induction more generalizing text c with
  | nil => exact before_concat text c
  | cons d more ih =>
      have further := ih (text ++ [c]) d
      rw [List.append_assoc, List.singleton_append] at further
      exact (before_concat text c).trans further

/-- The row counts the line ends of a text, and the column the characters after the last of them. -/
theorem exists_line (text : List Char) :
    ∃ earlier line, text = earlier ++ line ∧ '\n' ∉ line ∧
      (earlier = [] ∨ earlier.getLast? = some '\n') ∧
        after text = ⟨text.count '\n', line.length⟩ := by
  induction text using List.reverseRecOn with
  | nil => exact ⟨[], [], rfl, List.not_mem_nil, .inl rfl, rfl⟩
  | append_singleton text c ih =>
      obtain ⟨earlier, line, whole, single, ends, known⟩ := ih
      by_cases newline : c = '\n'
      · refine ⟨text ++ [c], [], by simp, List.not_mem_nil, .inr (by simp [newline]), ?_⟩
        rw [newline, after_newline, known]
        simp
      · refine ⟨earlier, line ++ [c], by rw [whole, List.append_assoc], ?_, ends, ?_⟩
        · simpa [single] using Ne.symm newline
        · rw [after_character text newline, known]
          simp [newline]

end Position

/-- Of two boundaries the lower one has the earlier position. -/
theorem positionOf_before {source : String} {l l' : Nat} (boundary : IsBoundary source l)
    (boundary' : IsBoundary source l') (less : l < l') :
    (positionOf source l).Before (positionOf source l') := by
  obtain ⟨before, rest, split, rfl⟩ := boundary
  obtain ⟨before', rest', split', rfl⟩ := boundary'
  obtain ⟨c, more, rfl⟩ := exists_between split split' less
  rw [positionOf_byteLength split, positionOf_byteLength split']
  exact Position.before_append before c more

theorem eq_of_positionOf {source : String} {l l' : Nat} (boundary : IsBoundary source l)
    (boundary' : IsBoundary source l') (same : positionOf source l = positionOf source l') :
    l = l' := by
  rcases Nat.lt_trichotomy l l' with less | equal | greater
  · exact absurd same (positionOf_before boundary boundary' less).ne
  · exact equal
  · exact absurd same.symm (positionOf_before boundary' boundary greater).ne

/-! ## Where tokens stand -/

/-- What is cut off and what is left make up the text. -/
theorem span_append {p : Char → Bool} {cs front back : List Char} (cut : span p cs = (front, back)) :
    front ++ back = cs := by
  obtain ⟨rfl, rfl⟩ := Prod.mk.inj cut
  exact List.takeWhile_append_dropWhile

theorem fractionCut_append (cs : List Char) : (fractionCut cs).1 ++ (fractionCut cs).2 = cs := by
  unfold fractionCut
  split
  · split
    · rfl
    · rename_i cut
      rw [List.cons_append, span_append cut]
  · rfl

theorem exponentCut_append (cs : List Char) : (exponentCut cs).1 ++ (exponentCut cs).2 = cs := by
  unfold exponentCut
  split
  · rename_i e rest
    split
    · split
      rename_i sign back signed
      have whole : sign ++ back = rest := by split at signed <;> (cases signed; rfl)
      split
      · rfl
      · rename_i cut
        rw [List.append_assoc, span_append cut, List.cons_append, whole]
    · rfl
  · rfl

theorem numberCut_append (cs : List Char) : (numberCut cs).2.1 ++ (numberCut cs).2.2 = cs := by
  unfold numberCut
  split
  rename_i whole rest digits
  split
  rename_i fraction rest' fractional
  split
  rename_i exponent rest'' scaled
  have inner := fractionCut_append rest
  have outer := exponentCut_append rest'
  rw [fractional] at inner
  rw [scaled] at outer
  rw [List.append_assoc, List.append_assoc, outer, inner, span_append digits]

theorem stringCut_append (cs : List Char) : (stringCut cs).1 ++ (stringCut cs).2 = cs := by
  induction cs using stringCut.induct <;> simp_all [stringCut]

theorem mark?_append {cs text rest : List Char} {kind : TokenKind}
    (found : mark? cs = some (kind, text, rest)) : text ++ rest = cs := by
  unfold mark? at found
  split at found <;> cases found <;> rfl

/-- A token and what comes after it are the text that it was read from. -/
theorem lexeme_append {start : Nat} {cs text rest : List Char} {kind : TokenKind}
    (found : lexeme start cs = .ok (kind, text, rest)) : text ++ rest = cs := by
  cases cs with
  | nil => cases found
  | cons c cs =>
      rw [lexeme] at found
      split at found
      · have whole := numberCut_append (c :: cs)
        rwa [Except.ok.inj found] at whole
      split at found
      · split at found
        rename_i name back cut
        cases found
        exact nameCut_eq cut
      split at found
      · rename_i quote
        split at found
        · rename_i inside back cut
          have whole := stringCut_append cs
          rw [cut] at whole
          cases found
          rw [eq_of_beq quote, ← whole]
          simp
        · cases found
      split at found
      · rename_i mark
        cases found
        exact mark?_append mark
      · cases found

/-- A text that is no token is refused where it starts. -/
theorem lexeme_loc {start : Nat} {cs : List Char} {e : SyntaxError}
    (refused : lexeme start cs = .error e) : e.loc = start := by
  cases cs with
  | nil => cases refused; rfl
  | cons c cs =>
      rw [lexeme] at refused
      split at refused
      · cases refused
      split at refused
      · cases refused
      split at refused
      · split at refused
        · cases refused
        · cases refused
          rfl
      split at refused
      · cases refused
      · cases refused
        rfl

theorem gapCut_append (cs : List Char) : (gapCut cs).1 ++ (gapCut cs).2 = cs := by
  unfold gapCut
  split <;> exact List.takeWhile_append_dropWhile

/-- At some place of a text that starts at byte `start` the predicate holds of the offset and of what
stands there. -/
def FoundIn (start : Nat) (cs : List Char) (p : Nat → List Char → Prop) : Prop :=
  ∃ before rest, cs = before ++ rest ∧ p (start + byteLength before) rest

/-- What is found after some text is found in the whole. -/
theorem FoundIn.after {start : Nat} {cs text rest : List Char} {p : Nat → List Char → Prop}
    (whole : text ++ rest = cs) (found : FoundIn (start + byteLength text) rest p) :
    FoundIn start cs p := by
  obtain ⟨before, back, split, holds⟩ := found
  refine ⟨text ++ before, back, by rw [← whole, split, List.append_assoc], ?_⟩
  rwa [byteLength_append, ← Nat.add_assoc]

/-- Tokens stand where they say. -/
theorem tokensFrom_places {n start : Nat} {cs : List Char} {tokens : List Token}
    (run : tokensFrom n start cs = .ok tokens) :
    ∀ t ∈ tokens, FoundIn start cs fun loc rest => loc = t.start ∧ t.text.toList <+: rest := by
  induction n generalizing start cs tokens with
  | zero => cases cs <;> cases run <;> exact List.forall_mem_nil _
  | succ n ih =>
      cases cs with
      | nil => cases run; exact List.forall_mem_nil _
      | cons c cs =>
          rw [tokensFrom] at run
          split at run
          · exact fun t member => (ih run t member).after (gapCut_append (c :: cs))
          split at run
          · cases run
          split at run
          · cases run
          · rename_i kind text rest found _ tokens' others
            cases run
            have whole := lexeme_append found
            refine List.forall_mem_cons.mpr ⟨⟨[], c :: cs, rfl, rfl, rest, ?_⟩,
              fun t member => (ih others t member).after whole⟩
            rw [String.toList_ofList, whole]

/-- A source is refused where a text stands that is no token. -/
theorem tokensFrom_rejects {n start : Nat} {cs : List Char} {e : SyntaxError}
    (refused : tokensFrom n start cs = .error e) :
    FoundIn start cs fun loc rest => lexeme loc rest = .error e := by
  induction n generalizing start cs with
  | zero => cases cs <;> cases refused
  | succ n ih =>
      cases cs with
      | nil => cases refused
      | cons c cs =>
          rw [tokensFrom] at refused
          split at refused
          · exact (ih refused).after (gapCut_append (c :: cs))
          split at refused
          · rename_i found
            cases refused
            exact ⟨[], c :: cs, rfl, found⟩
          split at refused
          · rename_i found _ _ others
            cases refused
            exact (ih others).after (lexeme_append found)
          · cases refused

/-! ## Where errors are -/

/-- Where an error of a source can be: at its end, at the start of a token, or at the start of a text
that is no token. -/
inductive IsPlace (source : String) : Nat → Prop
  | stop : IsPlace source (byteLength source.toList)
  | token {tokens : List Token} {t : Token} :
    tokenize source = .ok tokens → t ∈ tokens → IsPlace source t.start
  | rejected {before rest : List Char} {e : SyntaxError} : tokenize source = .error e →
    source.toList = before ++ rest → lexeme (byteLength before) rest = .error e →
      IsPlace source (byteLength before)

/-- Places of errors are boundaries of characters. -/
theorem IsPlace.isBoundary {source : String} {loc : Nat} (isPlace : IsPlace source loc) :
    IsBoundary source loc := by
  cases isPlace with
  | stop => exact ⟨source.toList, [], (List.append_nil _).symm, rfl⟩
  | token run member =>
      obtain ⟨before, rest, split, place, -⟩ := tokensFrom_places run _ member
      exact ⟨before, rest, split, by rw [← place, Nat.zero_add]⟩
  | @rejected before rest _ _ split _ => exact ⟨before, rest, split, rfl⟩

/-- The parser reports places only. -/
theorem places_isPlace (source : String) : Places source (IsPlace source) where
  stop := .stop
  starts _ run _ member := .token run member
  rejected e refused := by
    obtain ⟨before, rest, split, found⟩ := tokensFrom_rejects refused
    rw [Nat.zero_add] at found
    rw [lexeme_loc found]
    exact .rejected refused split found

/-- Reading the source as a policy or as a term fails with the error. -/
def FailsWith (source : String) (e : SyntaxError) : Prop :=
  parseLines source = .error e ∨ parseTerm source = .error e

/-- Every error is at a place of the source. -/
theorem FailsWith.isPlace {source : String} {e : SyntaxError} (fails : FailsWith source e) :
    IsPlace source e.loc := by
  rcases fails with failed | failed
  · exact (parseLines_yields (places_isPlace source)).1 e failed
  · exact (parseTerm_yields (places_isPlace source)).1 e failed

end Source

open Source

/-- Errors are at the end of the source, at a token or at a text that is no token, always between two
characters. The row of such an offset is the number of line ends before it, its column the number of
characters after the last of them, later offsets have later positions, and so the offset of an error
is the only one with the position that is reported. -/
theorem errors_located (source : String) :
    (∀ e, FailsWith source e → IsPlace source e.loc ∧ IsBoundary source e.loc) ∧
      (∀ before rest, source.toList = before ++ rest → ∃ earlier line, before = earlier ++ line ∧
        '\n' ∉ line ∧ (earlier = [] ∨ earlier.getLast? = some '\n') ∧
          positionOf source (byteLength before) = ⟨before.count '\n', line.length⟩) ∧
      (∀ l l', IsBoundary source l → IsBoundary source l' → l < l' →
        (positionOf source l).Before (positionOf source l')) ∧
      ∀ e filename, FailsWith source e → ∃ context,
        e.inSource source filename = .parse e (some context) ∧ context.filename = filename ∧
          ∀ l, IsBoundary source l → (positionOf source l = context.position ↔ l = e.loc) := by
  refine ⟨fun e fails => ⟨fails.isPlace, fails.isPlace.isBoundary⟩, fun before rest split => ?_,
    fun l l' boundary boundary' => positionOf_before boundary boundary',
    fun e filename fails => ⟨_, rfl, rfl, fun l boundary => ⟨?_, ?_⟩⟩⟩
  · rw [positionOf_byteLength split]
    exact Position.exists_line before
  · exact eq_of_positionOf boundary fails.isPlace.isBoundary
  · rintro rfl
    rfl

/-- The offset where reading a policy fails, if it does. -/
def refusedAt? (source : String) : Option Nat :=
  match parseLines source with
  | .error e => some e.loc
  | .ok _ => none

theorem failsWith_of_refusedAt? {source : String} {loc : Nat} (refused : refusedAt? source = some loc) :
    ∃ e, FailsWith source e ∧ e.loc = loc := by
  unfold refusedAt? at refused
  split at refused
  · rename_i e failed
    exact ⟨e, .inl failed, Option.some.inj refused⟩
  · cases refused

/-- A letter of two bytes in the first line, and an element missing in the second. -/
def missingElement : String := "# é\nf(x) if x = [1, ];"

/-- What stands before the bracket that comes too early. -/
def beforeBracket : String := "# é\nf(x) if x = [1, "

theorem errors_located_missingElement :
    ∃ e context, FailsWith missingElement e ∧ IsPlace missingElement e.loc ∧
      IsBoundary missingElement e.loc ∧
      (∃ earlier line, beforeBracket.toList = earlier ++ line ∧ '\n' ∉ line ∧
        (earlier = [] ∨ earlier.getLast? = some '\n') ∧
          positionOf missingElement 21 = ⟨1, line.length⟩) ∧
      (positionOf missingElement 2).Before (positionOf missingElement 21) ∧
      e.inSource missingElement none = .parse e (some context) ∧
        ∀ l, IsBoundary missingElement l →
          (positionOf missingElement l = context.position ↔ l = 21) := by
  obtain ⟨e, fails, found⟩ : ∃ e, FailsWith missingElement e ∧ e.loc = 21 :=
    failsWith_of_refusedAt? (by decide +kernel)
  obtain ⟨located, lines, increasing, determined⟩ := errors_located missingElement
  obtain ⟨isPlace, boundary⟩ := located e fails
  obtain ⟨context, reported, -, unique⟩ := determined e none fails
  have start : IsBoundary missingElement 2 :=
    ⟨['#', ' '], "é\nf(x) if x = [1, ];".toList, by decide, by decide⟩
  have line := lines beforeBracket.toList "];".toList (by decide)
  have later := increasing 2 21 start (found ▸ boundary) (by decide)
  have size : byteLength beforeBracket.toList = 21 := by decide
  have rows : beforeBracket.toList.count '\n' = 1 := by decide
  rw [size, rows] at line
  rw [found] at unique
  exact ⟨e, context, fails, isPlace, boundary, line, later, reported, unique⟩

end PolicyLogic
