import PolicyLogic.Proofs.Source.Expressions
import PolicyLogic.Proofs.Source.Places

/-!
# Reading back what was written

The text of a canonical term is cut into the lexemes that it is spelled with, and these are read as
the term: `parseTerm_render`. The one limit is how deep expressions may nest. `parseTerm_listed` is
the other side of it: inside as many lists as there are levels a term is written as before, and its
text is refused.
-/

namespace PolicyLogic

open Source

/-! ## From lexemes to sources -/

/-- What a parser reads of the lexemes of a source is what it reads of the source. -/
theorem readWith_of_reads {α : Type} {parser : Parser α} {source : String} {lexemes : List Lexeme}
    {Q : α → List Lexeme → Prop} (cuts : Cuts source.toList lexemes)
    (reads : Reads parser lexemes Q) : ∃ a left, readWith parser source = .ok a ∧ Q a left := by
  obtain ⟨tokens, found, shown⟩ := cuts.tokenize
  obtain ⟨a, after, left, run, -, holds⟩ := reads ⟨tokens, tokens.length, byteLength source.toList⟩
    ⟨shown, Nat.le_refl _⟩
  exact ⟨a, left, by rw [readWith_eq found, run]; rfl, holds⟩

/-- What a parser refuses is refused as a source. -/
theorem readWith_of_refuses {α : Type} {parser : Parser α} {source : String}
    {lexemes : List Lexeme} (cuts : Cuts source.toList lexemes) (refuses : Refuses parser lexemes) :
    ∃ e, readWith parser source = .error e := by
  obtain ⟨tokens, found, shown⟩ := cuts.tokenize
  obtain ⟨e, failed⟩ := refuses ⟨tokens, tokens.length, byteLength source.toList⟩
    ⟨shown, Nat.le_refl _⟩
  exact ⟨e, by rw [readWith_eq found, failed]; rfl⟩

theorem Canonical.cuts {t : Term} (canonical : Canonical t) : Cuts t.render.toList t.spell := by
  simpa using canonical.prints [] [] .nothing .nil

/-! ## Reading back -/

/-- The text of a canonical term is read back as the term, provided it nests no deeper than
expressions may. -/
theorem parseTerm_render {t : Term} (canonical : Canonical t) (shallow : t.depth ≤ maxDepth) :
    ∃ u, parseTerm t.render = .ok u ∧ u.same t = true := by
  have element := (canonical.parseable.element canonical shallow).reads
  have whole : Reads (do
      let term ← Level.top.expr
      if (← peek).isSome then throw (.extraToken (← nextText) (← here))
      return term) (t.spell ++ []) fun u _ => u.same t = true :=
    element.bind stops_nil fun u same => runs_peek (reads_pure same)
  rw [List.append_nil] at whole
  obtain ⟨u, -, found, same⟩ := readWith_of_reads canonical.cuts whole
  exact ⟨u, found, same⟩

/-- The goal `x.name = "a\n" and not (y in [1, *r] or z matches Foo{id: n - 1})`. -/
def sampleGoal : Term :=
  .operation .conj
    [.operation .unify [.operation .dot [.var "x", .text "name"], .text "a\n"],
      .operation .neg [.operation .disj
        [.operation .member [.var "y", .list [.integer 1, .rest "r"]],
          .operation .isa [.var "z",
            .pattern (.object "Foo" [("id", .operation .sub [.var "n", .integer 1])])]]]]

theorem sampleGoal_canonical : Canonical sampleGoal := by
  have name : ∀ x ∈ ["x", "y", "z", "n"], Canonical (.var x) := fun x member => .var none (by
    simp only [List.mem_cons, List.not_mem_nil, or_false] at member
    rcases member with rfl | rfl | rfl | rfl <;> rfl)
  have one : Canonical (.integer 1) := .integer none (by decide)
  have field : Canonical (.operation .sub [.var "n", .integer 1]) :=
    .arithmetic none rfl (name _ (by simp)) one (by simp [Term.operator?, Term.integer, Term.of,
      Term.value])
  have lookup : Canonical (.operation .dot [.var "x", .text "name"]) :=
    .lookup none none (name _ (by simp)) rfl (by simp [isNameChar])
  have text : Canonical (.text "a\n") := .text none (by simp [IsWritableText, IsWritable])
  have elements : Canonical (.list [.integer 1, .rest "r"]) :=
    @Canonical.openList none none [.integer 1] "r" (by simpa using one) rfl
  have first : Canonical (.operation .unify [.operation .dot [.var "x", .text "name"],
      .text "a\n"]) := .relation none rfl lookup text rfl rfl
  have second : Canonical (.operation .member [.var "y", .list [.integer 1, .rest "r"]]) :=
    .relation none rfl (name _ (by simp)) elements rfl rfl
  have third : Canonical (.operation .isa [.var "z",
      .pattern (.object "Foo" [("id", .operation .sub [.var "n", .integer 1])])]) :=
    .object none none (name _ (by simp)) rfl rfl ⟨by simp [InOrder], by simp; rfl⟩
      (by simpa using field)
  have either : Canonical (.operation .disj [.operation .member [.var "y",
      .list [.integer 1, .rest "r"]], .operation .isa [.var "z",
        .pattern (.object "Foo" [("id", .operation .sub [.var "n", .integer 1])])]]) :=
    .joined none (.inr rfl) (by simp) (by simpa using ⟨second, third⟩) (by simp [Term.operator?,
      Term.operation, Term.of, Term.value])
  exact .joined none (.inl rfl) (by simp) (by simpa using ⟨first, .negation none either⟩)
    (by simp [Term.operator?, Term.operation, Term.of, Term.value])

theorem parseTerm_render_sampleGoal :
    Canonical sampleGoal ∧ sampleGoal.depth ≤ maxDepth ∧
      ∃ u, parseTerm sampleGoal.render = .ok u ∧ u.same sampleGoal = true :=
  ⟨sampleGoal_canonical, by decide, parseTerm_render sampleGoal_canonical (by decide)⟩

/-! ## Texts that nest too deep -/

/-- A term in the given number of lists around one another. -/
def listed : Nat → Term → Term
  | 0, t => t
  | n + 1, t => .list [listed n t]

theorem Canonical.listed {t : Term} (canonical : Canonical t) (n : Nat) :
    Canonical (PolicyLogic.listed n t) := by
  induction n with
  | zero => exact canonical
  | succ n ih => exact .list none (by simpa using ih)

theorem spell_listed (n : Nat) (t : Term) : (listed n t).spell =
    List.replicate n (.lbracket, "[") ++ t.spell ++ List.replicate n (.rbracket, "]") := by
  induction n with
  | zero => simp [listed]
  | succ n ih =>
      rw [listed, Term.list, Term.of, Term.spell, spellAll, spellAll, commaLexemes_singleton, ih,
        List.replicate_succ, List.replicate_succ']
      simp

/-- A list is refused where its first element is. -/
theorem refuses_list {level : Level} {lexemes : List Lexeme} (inner : Refuses level.expr lexemes)
    (closing : firstKind lexemes ≠ some .rbracket) (tail : firstKind lexemes ≠ some .star) :
    Refuses (primary level) ((.lbracket, "[") :: lexemes) := by
  rw [primary]
  refine runs_here fun loc => runs_nextText (runs_peek ?_)
  show Runs (listValue _ >>= _) _ _
  rw [listValue, bind_assoc]
  refine runs_expect ?_
  rw [bind_assoc]
  refine runs_eat_other closing ?_
  simp only [Bool.false_eq_true, if_false, bind_assoc]
  refine runs_bound fun fuel _ => ?_
  rw [listElements, bind_assoc]
  refine runs_eat_other tail ?_
  rw [if_neg Bool.false_ne_true, bind_assoc]
  exact inner.bind

/-- What is refused with its minus signs is refused as an expression. -/
theorem refuses_of_unary {level : Level} {lexemes : List Lexeme}
    (unary : Refuses (unary level) lexemes) (word : firstKind lexemes ≠ some .kwNot) :
    Refuses (disjunction level) lexemes := by
  have sum : Refuses (sum level) lexemes :=
    runs_here fun _ => Refuses.bind (runs_here fun _ => unary.bind)
  have negation : Refuses (negation level) lexemes := by
    rw [Source.negation]
    exact runs_here fun _ => runs_eat_other word (runs_here fun _ => sum.bind)
  exact runs_here fun _ => Refuses.bind (runs_here fun _ => negation.bind)

/-- What is refused as an innermost expression is refused with its minus signs, of which there are
none. -/
theorem refuses_unary {level : Level} {lexemes : List Lexeme}
    (inner : Refuses (primary level) lexemes) (sign : firstKind lexemes ≠ some .minus) :
    Refuses (unary level) lexemes := by
  have lookups : Refuses (lookups level) lexemes := runs_here fun _ => inner.bind
  rw [Source.unary]
  exact runs_here fun _ => runs_eat_other sign lookups

theorem fronts_brackets {lexemes : List Lexeme} (fronts : Fronts 1 lexemes) (n : Nat) :
    Fronts 1 (List.replicate n (.lbracket, "[") ++ lexemes) := by
  cases n with
  | zero => exact fronts
  | succ n => exact fronts_cons (by simp [TokenKind.Opens]) (by simp)

/-- A bracket opens a level more, and no more levels can be opened than there are left. -/
theorem refuses_brackets {lexemes : List Lexeme} (fronts : Fronts 1 lexemes) (n : Nat) :
    Refuses (Level.withDepth n).expr (List.replicate n (.lbracket, "[") ++ lexemes) := by
  induction n with
  | zero =>
      obtain ⟨kind, text, more, rfl, -, -⟩ := fronts
      exact runs_nextText (runs_here fun _ => fun _ _ => ⟨_, rfl⟩)
  | succ n ih =>
      have opening := fun kind never => @Fronts.ne _ _ [] kind (fronts_brackets fronts n) never
      simp only [List.append_nil] at opening
      rw [List.replicate_succ, List.cons_append]
      have list := refuses_list ih (opening _ (by simp [TokenKind.Opens]))
        (opening _ (by simp [TokenKind.Opens]))
      exact refuses_of_unary (refuses_unary list (by simp [firstKind])) (by simp [firstKind])

/-- A canonical term inside as many lists as there are levels, or more, is not read back. -/
theorem parseTerm_listed {t : Term} (canonical : Canonical t) (n : Nat) :
    ∃ e, parseTerm (listed (maxDepth + n) t).render = .error e := by
  have inner : Fronts 1 (List.replicate n (.lbracket, "[") ++
      (t.spell ++ List.replicate (maxDepth + n) (.rbracket, "]"))) := by
    refine fronts_brackets ((canonical.fronts.mono t.rank_pos).append ?_) n
    rw [Nat.add_comm, List.replicate_add]
    cases n <;> simp [firstKind, List.replicate_succ, maxDepth]
  have shown : (listed (maxDepth + n) t).spell = List.replicate maxDepth (.lbracket, "[") ++
      (List.replicate n (.lbracket, "[") ++
        (t.spell ++ List.replicate (maxDepth + n) (.rbracket, "]"))) := by
    rw [spell_listed, List.replicate_add]
    simp only [List.append_assoc]
  have refuses := refuses_brackets inner maxDepth
  rw [← shown] at refuses
  exact readWith_of_refuses (canonical.listed (maxDepth + n)).cuts refuses.bind

/-- A list that nests as deep as there are levels is canonical, and yet its text is refused. -/
theorem deep_list_refused :
    Canonical (listed maxDepth (.var "x")) ∧
      ¬ ∃ u, parseTerm (listed maxDepth (.var "x")).render = .ok u ∧
        u.same (listed maxDepth (.var "x")) = true := by
  have canonical : Canonical (.var "x") := .var none rfl
  refine ⟨canonical.listed maxDepth, fun ⟨u, found, _⟩ => ?_⟩
  obtain ⟨e, failed⟩ := parseTerm_listed canonical 0
  rw [Nat.add_zero, found] at failed
  cases failed

end PolicyLogic
