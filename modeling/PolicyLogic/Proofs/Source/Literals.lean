import PolicyLogic.Proofs.Source.RoundTrip

/-!
# Scalars and their texts

A text or an integer is written as a literal and read back from it. `scalars_read_back` says which
come back as they were: a text unless some character of it is spelled out by its code point, which
the reader takes for plain letters, and every integer but the least, whose digits without the sign do
not fit in 64 bits.

* `ReadsWhole` is a reading that uses up all lexemes. Nothing goes on after it, so it passes every
  looser level as it is (`ReadsWhole.disjunction`).
* `parseTerm_quote` and `parseTerm_integer` read the two kinds of literals.
-/

namespace PolicyLogic

open Source

/-! ## Phrases that are the whole source -/

/-- The parser reads all of the lexemes, and `Q` holds of the term it comes to. -/
def ReadsWhole (parser : Parser Term) (lexemes : List Lexeme) (Q : Term → Prop) : Prop :=
  Reads parser lexemes fun u left => Q u ∧ left = []

section Whole

variable {parser : Parser Term} {level : Level} {lexemes : List Lexeme} {Q : Term → Prop}

theorem ReadsWhole.leftGrouped (whole : ReadsWhole parser lexemes Q)
    (operator? : TokenKind → Option Operator) :
    ReadsWhole (Source.leftGrouped parser operator?) lexemes Q := by
  rw [ReadsWhole, Source.leftGrouped]
  refine runs_here fun start => whole.bind fun u left found => ?_
  obtain ⟨holds, rfl⟩ := found
  exact runs_bound fun fuel _ => reads_operandsOn_stop rfl ⟨holds, rfl⟩

theorem ReadsWhole.joined (whole : ReadsWhole parser lexemes Q) (word : TokenKind) (op : Operator) :
    ReadsWhole (Source.joined parser word op) lexemes Q := by
  rw [ReadsWhole, Source.joined]
  refine runs_here fun start => whole.bind fun u left found => ?_
  obtain ⟨holds, rfl⟩ := found
  exact runs_peek (reads_pure ⟨holds, rfl⟩)

/-- What is read with its minus signs is read as an expression. -/
theorem ReadsWhole.disjunction (whole : ReadsWhole (unary level) lexemes Q)
    (word : firstKind lexemes ≠ some .kwNot) : ReadsWhole (disjunction level) lexemes Q := by
  have sum : ReadsWhole (sum level) lexemes Q := (whole.leftGrouped _).leftGrouped _
  have comparison : ReadsWhole (comparison level) lexemes Q := by
    rw [ReadsWhole, Source.comparison]
    refine runs_here fun start => sum.bind fun u left found => ?_
    obtain ⟨holds, rfl⟩ := found
    exact runs_peek (reads_pure ⟨holds, rfl⟩)
  have negation : ReadsWhole (negation level) lexemes Q := by
    rw [ReadsWhole, Source.negation]
    exact runs_here fun start => runs_eat_other word comparison
  exact (negation.joined _ _).joined _ _

/-- What is read as an innermost expression is read with its minus signs, of which there are none. -/
theorem ReadsWhole.unary (whole : ReadsWhole (primary level) lexemes Q)
    (sign : firstKind lexemes ≠ some .minus) : ReadsWhole (unary level) lexemes Q := by
  rw [ReadsWhole, Source.unary]
  refine runs_here fun start => runs_eat_other sign ?_
  show Reads (lookups level) lexemes _
  rw [lookups]
  refine runs_here fun start => whole.bind fun u left found => ?_
  obtain ⟨holds, rfl⟩ := found
  exact runs_bound fun fuel _ => reads_lookupsOn_stop (by simp [firstKind]) ⟨holds, rfl⟩

/-- The whole of a source is read as a term. -/
theorem ReadsWhole.parseTerm {source : String} (cuts : Cuts source.toList lexemes)
    (whole : ReadsWhole Level.top.expr lexemes Q) : ∃ u, parseTerm source = .ok u ∧ Q u := by
  have ended : Reads (do
      let term ← Level.top.expr
      if (← peek).isSome then throw (.extraToken (← nextText) (← here))
      return term) lexemes fun u _ => Q u :=
    whole.bind fun u left found => found.2 ▸ runs_peek (reads_pure found.1)
  obtain ⟨u, -, found, holds⟩ := readWith_of_reads cuts ended
  exact ⟨u, found, holds⟩

end Whole

theorem Cuts.single {text : String} {kind : TokenKind} (lexes : Lexes text.toList kind []) :
    Cuts text.toList [(kind, text)] := by
  have cuts := Cuts.token lexes .nil
  rwa [List.append_nil, String.ofList_toList] at cuts

/-! ## Texts -/

/-- A quoted text is read as a text. -/
theorem parseTerm_quote (s : String) :
    ∃ u, parseTerm (Text.quote s) = .ok u ∧ u.value = .text (reread s) := by
  refine ReadsWhole.parseTerm (Cuts.single (lexes_quoted s [])) ?_
  refine ReadsWhole.disjunction (ReadsWhole.unary ?_ (by simp [firstKind])) (by simp [firstKind])
  rw [ReadsWhole, primary]
  refine runs_here fun loc => runs_nextText (runs_peek (runs_advance (reads_pure ⟨?_, rfl⟩)))
  exact congrArg Value.text (unquote_quote s)

theorem length_rereadChar (c : Char) :
    (rereadChar c).length = 1 ∧ isSpelledOut c = false ∨
      1 < (rereadChar c).length ∧ isSpelledOut c = true := by
  rw [rereadChar]
  cases isSpelledOut c with
  | true => exact .inr ⟨by simp [Text.codeEscape], rfl⟩
  | false => exact .inl ⟨rfl, rfl⟩

/-- A text with a character that is spelled out is read as a longer one. -/
theorem length_flatMap_reread (cs : List Char) :
    cs.length ≤ (cs.flatMap rereadChar).length ∧
      ((∃ c ∈ cs, isSpelledOut c = true) → cs.length < (cs.flatMap rereadChar).length) := by
  induction cs with
  | nil => simp
  | cons c cs ih =>
      obtain ⟨atLeast, longer⟩ := ih
      rw [List.flatMap_cons, List.length_append, List.length_cons]
      rcases length_rereadChar c with ⟨one, kept⟩ | ⟨more, -⟩
      · refine ⟨by omega, fun found => ?_⟩
        obtain ⟨d, member, spelled⟩ := found
        have later : d ∈ cs := (List.mem_cons.mp member).resolve_left fun same => by
          rw [same, kept] at spelled
          cases spelled
        have := longer ⟨d, later, spelled⟩
        omega
      · exact ⟨by omega, fun _ => by omega⟩

/-- The texts that come back as they were. -/
theorem reread_eq_iff (s : String) : reread s = s ↔ ∀ c ∈ s.toList, isSpelledOut c = false := by
  constructor
  · intro same c member
    by_contra spelled
    have longer := (length_flatMap_reread s.toList).2 ⟨c, member, by simpa using spelled⟩
    have letters : s.toList.flatMap rereadChar = s.toList := by
      have := congrArg String.toList same
      rwa [reread, String.toList_ofList] at this
    rw [letters] at longer
    exact Nat.lt_irrefl _ longer
  · intro kept
    rw [reread, flatMap_reread kept, String.ofList_toList]

/-! ## Integers -/

theorem integerLiteral?_digits (m : Nat) :
    integerLiteral? (toString m) = if m < Nat.pow 2 63 then some (Int64.ofNat m) else none := by
  rw [integerLiteral?, digitsValue_toString]

theorem reads_digits {level : Level} {text : String} {n : Int64}
    (fits : integerLiteral? text = some n) :
    ReadsWhole (unary level) [(.integer, text)] fun u => u.value = .number (.integer n) := by
  refine ReadsWhole.unary ?_ (by simp [firstKind])
  rw [ReadsWhole, primary]
  refine runs_here fun loc => runs_nextText (runs_peek (runs_advance ?_))
  simp only [fits]
  exact reads_pure ⟨rfl, rfl⟩

theorem refuses_digits {level : Level} {text : String} (large : integerLiteral? text = none) :
    Refuses (unary level) [(.integer, text)] := by
  refine refuses_unary ?_ (by simp [firstKind])
  rw [primary]
  refine runs_here fun loc => runs_nextText (runs_peek (runs_advance ?_))
  simp only [large]
  exact fun _ _ => ⟨_, rfl⟩

/-- The sign of a number belongs to the number. -/
theorem reads_negative {n : Nat} {lexemes : List Lexeme} {k : Int64} (other : k ≠ Int64.minValue)
    (whole : ReadsWhole (unary (.withDepth n)) lexemes fun u => u.value = .number (.integer k)) :
    ReadsWhole (unary (.withDepth (n + 1))) ((.minus, "-") :: lexemes) fun u =>
      u.value = .number (.integer (-k)) := by
  rw [ReadsWhole, unary]
  refine runs_here fun start => runs_eat ?_
  refine Reads.bind whole fun u left found => ?_
  obtain ⟨shown, nothing⟩ := found
  simp only [shown, if_neg other]
  exact reads_pure ⟨rfl, nothing⟩

/-- An integer below zero is written with a sign, and its digits are those of its opposite. -/
theorem negative_cases {n : Int64} (negative : n.toInt < 0) :
    ∃ m : Nat, toString n.toInt = "-" ++ toString m ∧ -Int64.ofNat m = n ∧
      (m < Nat.pow 2 63 ↔ n ≠ Int64.minValue) := by
  obtain ⟨m, value⟩ := Int.eq_negSucc_of_lt_zero negative
  refine ⟨m + 1, by rw [value]; rfl, ?_, ?_⟩
  · rw [← Int64.ofInt_eq_ofNat, ← Int64.ofInt_neg, ← Int64.ofInt_toInt n, value]
    rfl
  · have least := n.le_toInt
    rw [Ne, ← Int64.toInt_inj, Int64.toInt_minValue, value, Int.negSucc_eq]
    rw [value, Int.negSucc_eq] at least
    have power : Nat.pow 2 63 = 9223372036854775808 := rfl
    omega

theorem cuts_negative (m : Nat) :
    Cuts ("-" ++ toString m).toList [(.minus, "-"), (.integer, toString m)] := by
  have minus : Lexes ['-'] .minus (toString m).toList := ⟨by simp, fun _ => rfl⟩
  have digits : Cuts (toString m).toList [(.integer, toString m)] :=
    Cuts.single (lexes_natural Ends.nothing.integer)
  rw [String.toList_append]
  exact .token minus digits

/-- An integer is read back from its text unless it is the least one. -/
theorem parseTerm_integer {n : Int64} (other : n ≠ Int64.minValue) :
    ∃ u, parseTerm (toString n.toInt) = .ok u ∧ u.value = .number (.integer n) := by
  rcases lt_or_ge n.toInt 0 with negative | natural
  · obtain ⟨m, shown, opposite, fits⟩ := negative_cases negative
    have literal := integerLiteral?_digits m
    rw [if_pos (fits.mpr other)] at literal
    rw [shown]
    refine ReadsWhole.parseTerm (cuts_negative m) (ReadsWhole.disjunction ?_ (by simp [firstKind]))
    rw [← opposite]
    refine reads_negative (fun least => other ?_) (reads_digits literal)
    rw [← opposite, least]
    rfl
  · obtain ⟨m, value⟩ := Int.eq_ofNat_of_zero_le natural
    have shown : toString n.toInt = toString m := by rw [value]; rfl
    have literal := integerLiteral?_toString natural
    rw [shown] at literal ⊢
    refine ReadsWhole.parseTerm (Cuts.single (lexes_natural Ends.nothing.integer)) ?_
    exact (reads_digits literal).disjunction (by simp [firstKind])

/-- The digits of the least integer do not fit in 64 bits. -/
theorem parseTerm_least : ∃ e, parseTerm (toString Int64.minValue.toInt) = .error e := by
  obtain ⟨m, shown, -, fits⟩ := negative_cases (n := Int64.minValue) (by decide)
  have literal := integerLiteral?_digits m
  rw [if_neg (fun small => fits.mp small rfl)] at literal
  have signed : Refuses (unary (.withDepth maxDepth.pred))
      [(.minus, "-"), (.integer, toString m)] := by
    rw [unary]
    exact runs_here fun start => runs_eat (refuses_digits literal).bind
  rw [shown]
  exact readWith_of_refuses (cuts_negative m) (refuses_of_unary signed (by simp [firstKind])).bind

/-! ## Which scalars come back -/

/-- Printing a text and reading it gives the text again unless one of its characters is spelled out by
its code point, whose escape the reader does not know; and printing an integer and reading it gives
the integer again unless it is the least one, whose digits are read before the sign is. -/
theorem scalars_read_back (s : String) (n : Int64) :
    (∃ u, parseTerm (Term.text s).render = .ok u ∧ u.value = .text (reread s)) ∧
      (reread s = s ↔ ∀ c ∈ s.toList, isSpelledOut c = false) ∧
      ((∃ u, parseTerm (Term.integer n).render = .ok u ∧ u.value = .number (.integer n)) ↔
        n ≠ Int64.minValue) := by
  refine ⟨parseTerm_quote s, reread_eq_iff s, ?_, parseTerm_integer⟩
  rintro ⟨u, found, -⟩ rfl
  obtain ⟨e, failed⟩ := parseTerm_least
  have refused : parseTerm (Term.integer Int64.minValue).render = .error e := failed
  rw [refused] at found
  cases found

/-- The control character DEL comes back as the five letters of its code point in braces, and the text
of the least integer is not read at all. -/
theorem delete_and_least_lost :
    (∃ u, parseTerm (Term.text "\x7f").render = .ok u ∧ u.value = .text "u\x7b7f\x7d") ∧
      ∃ e, parseTerm (Term.integer Int64.minValue).render = .error e := by
  have spelled : isSpelledOut '\x7f' = true := by
    have unprinted : Text.isPrintable '\x7f' = false := rfl
    simp [isSpelledOut, unprinted]
  have letters : reread "\x7f" = "u\x7b7f\x7d" := by
    have single : "\x7f".toList = ['\x7f'] := rfl
    rw [reread, single, List.flatMap_singleton, rereadChar, if_pos spelled]
    rfl
  rw [← letters]
  exact ⟨parseTerm_quote "\x7f", parseTerm_least⟩

end PolicyLogic
