import PolicyLogic.Proofs.Rule.Read
import PolicyLogic.Proofs.Source.RoundTrip
import PolicyLogic.Proofs.Term.Same
import PolicyLogic.Knowledge.Fingerprint

/-!
# Rules and their text

The text of a policy, one rule after the other, is read back as the rules, provided these are written
as the language writes them (`Rule.Canonical`): `parseLines_policyText`. Such rules are known by their
text, and so are knowledge bases with the same constants by the text whose digest is their
fingerprint: `rules_identified`.

Not every rule that can be read is written so. A key of a dictionary may be any string in a source and
stands without quotes in the text: `keys_unquoted` has two rules that differ and share their text.
-/

namespace PolicyLogic

open Source

/-! ## Equal rules -/

/-- The terms are equal, and so are the specializers if there are any. -/
structure Parameter.Same (p q : Parameter) : Prop where
  term : p.term.same q.term = true
  specializer : Option.Rel (fun s t : Pattern => s.same t = true) p.specializer q.specializer

/-- Rules that are equal apart from their places. -/
structure Rule.Same (r s : Rule) : Prop where
  name : r.name = s.name
  params : List.Forall₂ Parameter.Same r.params s.params
  body : r.body.same s.body = true

/-- What equals the same is equal, if there is anything. -/
theorem rel_of_rel {α β : Type} {R : α → β → Prop} {S : β → β → Prop} {a : Option α}
    {b c : Option β} (each : ∀ a b c, R a b → R a c → S b c) (left : Option.Rel R a b)
    (right : Option.Rel R a c) : Option.Rel S b c := by
  cases left with
  | none =>
      cases right
      exact .none
  | some first =>
      cases right with
      | some second => exact .some (each _ _ _ first second)

/-- What equals the same in two lists is equal, if it is so for each pair of elements. -/
theorem forall₂_of_forall₂ {α β : Type} {R : α → β → Prop} {S : β → β → Prop} {as : List α}
    {bs cs : List β} (each : ∀ a b c, R a b → R a c → S b c) (left : List.Forall₂ R as bs)
    (right : List.Forall₂ R as cs) : List.Forall₂ S bs cs := by
  induction left generalizing cs with
  | nil =>
      cases right
      exact .nil
  | cons first _ ih =>
      cases right with
      | cons second more => exact .cons (each _ _ _ first second) (ih more)

theorem Parameter.same_of_same (p q q' : Parameter) (left : p.Same q) (right : p.Same q') :
    q.Same q' where
  term := Term.same_of_same _ _ left.term right.term
  specializer := rel_of_rel (fun s t t' => @Term.same_of_same (.pattern s) (.pattern t) (.pattern t'))
    left.specializer right.specializer

theorem Rule.same_of_same (r s s' : Rule) (left : r.Same s) (right : r.Same s') : s.Same s' where
  name := left.name.symm.trans right.name
  params := forall₂_of_forall₂ Parameter.same_of_same left.params right.params
  body := Term.same_of_same _ _ left.body right.body

/-! ## Rules as they are written -/

/-- A pattern that is written as it is read: names are single tokens and the fields are in order. -/
structure Pattern.Canonical (shape : Pattern) : Prop where
  tag : ∀ tag fields, shape = .object tag fields → IsName tag
  fields : AreFields shape.fields
  each : ∀ field ∈ shape.fields, PolicyLogic.Canonical field.2
  shallow : depthFields shape.fields ≤ maxDepth

/-- A parameter that is written as it is read. It stands without parentheses, so its term may be a
sum or anything that binds tighter. -/
structure Parameter.Canonical (p : Parameter) : Prop where
  term : PolicyLogic.Canonical p.term
  tight : 5 ≤ p.term.rank
  shallow : p.term.depth ≤ maxDepth
  shape : ∀ shape ∈ p.specializer, shape.Canonical

/-- A rule that is written as it is read: its body is a conjunction of goals which are none. -/
structure Rule.Canonical (r : Rule) : Prop where
  name : IsName r.name
  params : ∀ p ∈ r.params, p.Canonical
  conjunction : r.body.operator? = some .conj
  goals : ∀ g ∈ r.goals, PolicyLogic.Canonical g
  single : ∀ g ∈ r.goals, g.operator? ≠ some .conj
  shallow : r.body.depth ≤ maxDepth

/-- The text of rules, each on a line of its own. -/
def policyText (rules : List Rule) : String := String.join (rules.map fun r => r.render ++ "\n")

/-! ## How they are spelled -/

/-- The tokens of a specializer. A class without fields is a name. -/
def Pattern.spell : Pattern → List Lexeme
  | .object tag [] => [(.symbol, tag)]
  | shape => (Term.pattern shape).spell

/-- The tokens of a parameter. -/
def Parameter.spell (p : Parameter) : List Lexeme :=
  match p.specializer with
  | none => p.term.spell
  | some shape => p.term.spell ++ [(.colon, ":")] ++ shape.spell

/-- The tokens of a rule up to the semicolon. -/
def Rule.spellBody (r : Rule) : List Lexeme :=
  if r.goals.isEmpty then [] else (.kwIf, "if") :: r.body.spell

/-- The tokens of a rule. -/
def Rule.spell (r : Rule) : List Lexeme :=
  (.symbol, r.name) :: (parenthesisedLexemes (commaLexemes (r.params.map Parameter.spell)) ++
    r.spellBody ++ [(.semicolon, ";")])

theorem separates_colon : Separates [':', ' '] [(.colon, ":")] where
  ends _ := .colon
  cuts cuts := .mark (.blank rfl cuts) lexes_colon

theorem separates_if : Separates (' ' :: "if".toList ++ [' ']) [(.kwIf, "if")] :=
  separates_sign fun rest => lexes_reserved "if" .kwIf (by decide) (endsName_blank rest)

theorem prints_pattern {shape : Pattern} (canonical : shape.Canonical) :
    Prints (Term.pattern shape).render.toList (Term.pattern shape).spell := by
  have each := fun field member => (canonical.each field member).prints
  cases shape with
  | record fields => exact prints_record none canonical.fields.names each
  | object tag fields =>
      exact prints_object none (canonical.tag tag fields rfl) canonical.fields.names each

theorem Parameter.Canonical.prints {p : Parameter} (canonical : p.Canonical) :
    Prints p.render.toList p.spell := by
  have term := canonical.term.prints
  obtain ⟨t, specializer⟩ := p
  cases specializer with
  | none => exact term
  | some shape =>
      have pattern := prints_pattern (canonical.shape shape rfl)
      have shown : ∀ {text : String} {lexemes : List Lexeme}, Prints text.toList lexemes →
          Prints (t.render ++ ": " ++ text).toList (t.spell ++ [(.colon, ":")] ++ lexemes) :=
        fun inner => by simpa using term.append separates_colon inner
      match shape with
      | .object tag [] =>
          have name := Prints.token fun rest ends =>
            ((canonical.shape _ rfl).tag tag [] rfl).lexes (Ends.name ends)
          rw [String.ofList_toList] at name
          exact shown name
      | .object tag (field :: fields) => exact shown pattern
      | .record fields => exact shown pattern

theorem exists_of_operator? {t : Term} {op : Operator} (head : t.operator? = some op) :
    ∃ o args, t = .mk o (.operation op args) := by
  obtain ⟨o, value⟩ := t
  cases value with
  | operation op' args =>
      obtain rfl : op' = op := by simpa [Term.operator?, Term.value] using head
      exact ⟨o, args, rfl⟩
  | _ => simp [Term.operator?, Term.value] at head

theorem Rule.Canonical.body_eq {r : Rule} (canonical : r.Canonical) :
    ∃ o, r.body = .mk o (.operation .conj r.goals) := by
  obtain ⟨o, args, shape⟩ := exists_of_operator? canonical.conjunction
  rw [Rule.goals, conjuncts, shape]
  exact ⟨o, rfl⟩

/-- The text of a rule is cut into its tokens, whatever comes after it. -/
theorem Rule.Canonical.cuts {r : Rule} (canonical : r.Canonical) {rest : List Char}
    {after : List Lexeme} (cuts : Cuts rest after) :
    Cuts (r.render.toList ++ rest) (r.spell ++ after) := by
  have params : List.Forall₂ Prints ((r.params.map Parameter.render).map String.toList)
      (r.params.map Parameter.spell) := by
    rw [List.map_map, List.forall₂_map_left_iff, List.forall₂_map_right_iff, List.forall₂_same]
    exact fun p member => (canonical.params p member).prints
  have head := (prints_commas params).parenthesised.named canonical.name
    (endsName_parenthesised _)
  have stop : Cuts (';' :: rest) ((.semicolon, ";") :: after) := .mark cuts (lexes_mark (by simp))
  rw [Rule.render, Rule.spell, Rule.spellBody]
  by_cases fact : r.goals.isEmpty = true
  · rw [if_pos fact, if_pos fact]
    have whole := head _ _ (.mark (by simp)) stop
    simpa [parenthesised] using whole
  · rw [if_neg fact, if_neg fact]
    obtain ⟨o, shape⟩ := canonical.body_eq
    have body : Prints r.body.render.toList r.body.spell := by
      rw [shape]
      exact prints_joined o (.inl rfl) (by simpa using fact) fun g member =>
        (canonical.goals g member).prints
    have whole := (head.append separates_if body) _ _ (.mark (by simp)) stop
    simpa [parenthesised] using whole

theorem cuts_policyText {rules : List Rule} (canonical : ∀ r ∈ rules, r.Canonical) :
    Cuts (policyText rules).toList (rules.flatMap Rule.spell) := by
  induction rules with
  | nil => exact .nil
  | cons r rules ih =>
      have line := (canonical r List.mem_cons_self).cuts (@Cuts.blank '\n' _ _ rfl
        (ih fun s member => canonical s (List.mem_cons_of_mem _ member)))
      simpa [policyText, String.join_cons] using line

/-! ## How they are read -/

/-- A class alone, or a pattern with its fields, is read as an equal pattern. -/
theorem reads_specializer {α : Type} {shape : Pattern} (canonical : shape.Canonical)
    {rest : List Lexeme} (after : firstKind rest = some .comma ∨ firstKind rest = some .rparen)
    {next : Value → Parser α} {Q : α → List Lexeme → Prop}
    (onward : ∀ us : Pattern, us.same shape = true → Reads (next (.pattern us)) rest Q) :
    Reads (patternValue .top >>= next) (shape.spell ++ rest) Q := by
  have whole : Reads (patternValue .top >>= next) ((Term.pattern shape).spell ++ rest) Q :=
    reads_patternValue canonical.fields.order
      (fun n room field member => ((canonical.each field member).parseable).element
        (canonical.each field member) (Nat.le_trans (depth_le_of_mem_fields member) room))
      canonical.shallow onward
  match shape with
  | .object tag (field :: fields) => exact whole
  | .record fields => exact whole
  | .object tag [] =>
      rw [Pattern.spell, List.singleton_append, patternValue, bind_assoc]
      refine runs_peekSecond ?_
      rw [bind_assoc]
      refine runs_peek ?_
      have apart : ∀ kind, kind ∈ [TokenKind.lparen, .dot, .lbrace] → firstKind rest ≠ some kind := by
        intro kind member same
        rw [same] at after
        simp only [List.mem_cons, List.not_mem_nil, or_false] at member
        rcases member with rfl | rfl | rfl <;> simp at after
      show Reads ((if (firstKind rest != some .lparen && firstKind rest != some .dot) = true
        then _ else _) >>= _) _ _
      rw [if_pos (by simp [apart]), bind_assoc]
      refine runs_expectName fun _ => ?_
      rw [bind_assoc]
      refine runs_peek ?_
      rw [if_neg (by simp [apart]), pure_bind, pure_bind]
      exact onward _ (by simp [Pattern.same, Term.pattern, Term.of, Term.same, sameFields])

theorem reads_parameter {p : Parameter} (canonical : p.Canonical) {rest : List Lexeme}
    (after : firstKind rest = some .comma ∨ firstKind rest = some .rparen) :
    Reads parameter (p.spell ++ rest) fun q left => q.Same p ∧ left = rest := by
  have term : ReadsAs (sum .top) p.term.spell p.term (Stops 5) :=
    ((canonical.term.parseable maxDepth (Nat.le_succ_of_le canonical.shallow)).at_looser
      canonical.term.fronts (by decide) canonical.tight p.term.rank_le).reads
  obtain ⟨t, specializer⟩ := p
  rw [parameter]
  cases specializer with
  | none =>
      have stops : Stops 5 rest := fun kind first => by
        rcases after with comma | closing
        · rw [comma] at first; cases first; decide
        · rw [closing] at first; cases first; decide
      refine term.bind stops fun u same => runs_eat_other ?_ ?_
      · rcases after with comma | closing
        · simp [comma]
        · simp [closing]
      · exact reads_pure ⟨⟨same, .none⟩, rfl⟩
  | some shape =>
      rw [Parameter.spell, List.append_assoc, List.append_assoc]
      refine term.bind (stops_cons (by decide)) fun u same => runs_eat (runs_here fun loc => ?_)
      exact reads_specializer (canonical.shape shape rfl) after fun us sameShape =>
        reads_pure ⟨⟨same, .some sameShape⟩, rfl⟩

theorem Parameter.spell_eq (p : Parameter) : ∃ tail, p.spell = p.term.spell ++ tail := by
  obtain ⟨t, specializer⟩ := p
  cases specializer with
  | none => exact ⟨[], (List.append_nil _).symm⟩
  | some shape => exact ⟨_, List.append_assoc _ _ _⟩

/-- What comes after a parameter: a further one, or the end. -/
theorem parameterLexemes_cons (p : Parameter) (params : List Parameter) (rest : List Lexeme) :
    commaLexemes ((p :: params).map Parameter.spell) ++ (.rparen, ")") :: rest = p.spell ++
      if params = [] then (.rparen, ")") :: rest
      else (.comma, ",") :: (commaLexemes (params.map Parameter.spell) ++ (.rparen, ")") :: rest) := by
  rw [List.map_cons]
  split
  · rename_i last
    rw [last, List.map_nil, commaLexemes_singleton]
  · rename_i more
    rw [commaLexemes_cons _ (by simpa using more), List.append_assoc]
    rfl

theorem reads_parameterItems {params : List Parameter} (nonempty : params ≠ [])
    (canonical : ∀ p ∈ params, p.Canonical) {fuel : Nat} (acc : List Parameter)
    {rest : List Lexeme} {Q : List Parameter → List Lexeme → Prop}
    (enough : (commaLexemes (params.map Parameter.spell) ++ (.rparen, ")") :: rest).length ≤ fuel)
    (holds : ∀ qs, List.Forall₂ Parameter.Same qs params → Q (acc ++ qs) rest) :
    Reads (parameterItems fuel acc)
      (commaLexemes (params.map Parameter.spell) ++ (.rparen, ")") :: rest) Q := by
  induction params generalizing fuel acc with
  | nil => exact absurd rfl nonempty
  | cons p params ih =>
      rw [parameterLexemes_cons] at enough ⊢
      obtain ⟨fuel, rfl⟩ : ∃ n, fuel = n + 1 := ⟨fuel - 1, by split at enough <;> simp at enough <;> omega⟩
      rw [parameterItems]
      have first := @reads_parameter p (canonical p List.mem_cons_self)
      by_cases last : params = []
      · subst last
        rw [if_pos rfl]
        refine (first (.inr rfl)).bind fun q left found => ?_
        obtain ⟨same, rfl⟩ := found
        refine runs_eat ?_
        rw [if_pos rfl]
        exact reads_pure (holds [q] (.cons same .nil))
      · rw [if_neg last] at enough ⊢
        refine (first (.inl rfl)).bind fun q left found => ?_
        obtain ⟨same, rfl⟩ := found
        refine runs_eat_other (by simp [firstKind]) ?_
        rw [if_neg Bool.false_ne_true]
        refine runs_expect (ih last (fun q member => canonical q (List.mem_cons_of_mem _ member)) _ ?_
          fun qs sames => ?_)
        · simp only [List.length_append, List.length_cons] at enough ⊢
          omega
        · rw [List.append_assoc]
          exact holds (q :: qs) (.cons same sames)

/-- The body of a rule is the goal itself if that is a conjunction. -/
theorem make_body (name : String) (params : List Parameter) (goal : Term) (start : Option Nat) :
    (Rule.make name params goal start).body =
      if goal.operator? = some .conj then goal else .operation .conj [goal] := by
  obtain ⟨o, value⟩ := goal
  cases value with
  | operation op args => cases op <;> rfl
  | _ => rfl

/-- Several goals are read as their conjunction; a single one becomes the conjunction of itself. -/
theorem reads_goals {o : Option Nat} {goals : List Term} (nonempty : goals ≠ [])
    (canonical : ∀ g ∈ goals, Canonical g) (single : ∀ g ∈ goals, g.operator? ≠ some .conj)
    (shallow : (Term.mk o (.operation .conj goals)).depth ≤ maxDepth) {rest : List Lexeme}
    (stops : Stops 1 rest) :
    Reads Level.top.expr ((Term.mk o (.operation .conj goals)).spell ++ rest) fun u left =>
      (∀ name params start, ((Rule.make name params u start).body).same
        (.mk o (.operation .conj goals)) = true) ∧ left = rest := by
  match goals with
  | [] => exact absurd rfl nonempty
  | [g] =>
      have member : g ∈ [g] := List.mem_cons_self
      have inner : ReadsAs Level.top.expr (operandLexemes .conj g g.spell) g (Stops 1) :=
        ((canonical g member).parseable.operand (canonical g member)
          (Nat.le_trans (operandDepth_le_of_mem member) shallow) (Nat.le_refl 1)
          (precedence_le_operandRank .conj g |>.trans' (by decide))).reads
      rw [spell_joined o (.inl rfl), followingLexemes, List.flatMap_nil, List.append_nil]
      refine (inner rest stops).mono fun u left found => ?_
      obtain ⟨same, rfl⟩ := found
      refine ⟨fun name params start => ?_, rfl⟩
      rw [make_body, if_neg (operator?_of_same same ▸ single g member)]
      exact same_operation (by simp [sameAll, same])
  | g :: g' :: more =>
      have joined : Canonical (Term.mk o (.operation .conj (g :: g' :: more))) :=
        .joined o (.inl rfl) (by simp) canonical single
      have inner := (joined.parseable.element joined shallow).reads
      refine (inner rest stops).mono fun u left found => ?_
      obtain ⟨same, rfl⟩ := found
      refine ⟨fun name params start => ?_, rfl⟩
      have head : u.operator? = some .conj := operator?_of_same same
      rwa [make_body, if_pos head]

/-- The rest of a rule after its parameters. -/
theorem reads_ruleBody {r : Rule} (canonical : r.Canonical) {params : List Parameter}
    (same : List.Forall₂ Parameter.Same params r.params) (start : Nat) (rest : List Lexeme) :
    Reads (do
        let body ← if ← eat .kwIf then Level.top.expr else pure (.operation .conj [])
        expect .semicolon
        return Rule.make r.name params body (some start))
      (r.spellBody ++ (.semicolon, ";") :: rest) fun s left => s.Same r ∧ left = rest := by
  obtain ⟨o, shape⟩ := canonical.body_eq
  rw [Rule.spellBody]
  by_cases fact : r.goals.isEmpty = true
  · rw [if_pos fact]
    refine runs_eat_other (by simp [firstKind]) ?_
    rw [if_neg Bool.false_ne_true, pure_bind]
    refine runs_expect (reads_pure ⟨⟨rfl, same, ?_⟩, rfl⟩)
    rw [List.isEmpty_iff.mp fact] at shape
    rw [shape]
    exact same_operation rfl
  · rw [if_neg fact]
    refine runs_eat ?_
    rw [if_pos rfl]
    have shallow := canonical.shallow
    rw [shape] at shallow ⊢
    have stops : Stops 1 ((.semicolon, ";") :: rest) := stops_cons (by decide)
    have body := reads_goals (by simpa using fact) canonical.goals canonical.single shallow stops
    refine body.bind fun goal left found => ?_
    obtain ⟨equal, rfl⟩ := found
    exact runs_expect (reads_pure ⟨⟨rfl, same, shape ▸ equal _ _ _⟩, rfl⟩)

theorem reads_rule {r : Rule} (canonical : r.Canonical) (rest : List Lexeme) :
    Reads rule (r.spell ++ rest) fun s left => s.Same r ∧ left = rest := by
  have shown : r.spell ++ rest = (.symbol, r.name) :: (.lparen, "(") ::
      (commaLexemes (r.params.map Parameter.spell) ++
        (.rparen, ")") :: (r.spellBody ++ (.semicolon, ";") :: rest)) := by
    simp [Rule.spell, parenthesisedLexemes]
  rw [rule, shown]
  refine runs_expectName fun start => runs_expect ?_
  by_cases none : r.params = []
  · have same : List.Forall₂ Parameter.Same [] r.params := by
      rw [none]
      exact .nil
    have onward := reads_ruleBody canonical same start rest
    rw [none]
    refine runs_eat ?_
    rw [if_pos rfl, pure_bind]
    exact onward
  · obtain ⟨p, params, more⟩ := List.exists_cons_of_ne_nil none
    have opening : firstKind (commaLexemes (r.params.map Parameter.spell) ++
        (.rparen, ")") :: (r.spellBody ++ (.semicolon, ";") :: rest)) ≠ some .rparen := by
      have first := (canonical.params p (by simp [more])).term.fronts
      obtain ⟨tail, shown⟩ := p.spell_eq
      rw [more, parameterLexemes_cons, shown, List.append_assoc]
      exact first.ne (by simp [TokenKind.Opens])
    refine runs_eat_other opening ?_
    rw [if_neg Bool.false_ne_true]
    refine runs_bound fun fuel enough => ?_
    have items := reads_parameterItems none canonical.params [] (Nat.le_succ_of_le enough)
      (Q := fun qs left => List.Forall₂ Parameter.Same qs r.params ∧
        left = r.spellBody ++ (.semicolon, ";") :: rest) fun qs same => ⟨same, rfl⟩
    refine items.bind fun qs left found => ?_
    obtain ⟨same, rfl⟩ := found
    exact reads_ruleBody canonical same start rest

/-- A rule is no query, so it is read as an item of its own. -/
theorem reads_line {r : Rule} (canonical : r.Canonical) (rest : List Lexeme) :
    Reads line (r.spell ++ rest) fun item left => (∃ s, item = .rule s ∧ s.Same r) ∧ left = rest := by
  rw [line]
  refine runs_eat_other (by simp [Rule.spell, firstKind]) ?_
  rw [if_neg Bool.false_ne_true]
  refine (reads_rule canonical rest).bind fun s left found => reads_pure ?_
  exact ⟨⟨s, rfl, found.1⟩, found.2⟩

theorem reads_lineItems {rules : List Rule} (canonical : ∀ r ∈ rules, r.Canonical) {fuel : Nat}
    (acc : List Rule) (enough : (rules.flatMap Rule.spell).length ≤ fuel) :
    Reads (lineItems fuel (acc.map .rule)) (rules.flatMap Rule.spell) fun items _ =>
      ∃ found, items = (acc ++ found).map .rule ∧ List.Forall₂ Rule.Same found rules := by
  induction rules generalizing fuel acc with
  | nil =>
      have done : ∃ found, acc.map Line.rule = (acc ++ found).map .rule ∧
          List.Forall₂ Rule.Same found [] := ⟨[], by rw [List.append_nil], .nil⟩
      cases fuel with
      | zero => exact reads_pure done
      | succ fuel =>
          rw [lineItems]
          refine runs_peek ?_
          rw [if_pos (by simp)]
          exact reads_pure done
  | cons r rules ih =>
      rw [List.flatMap_cons] at enough ⊢
      obtain ⟨fuel, rfl⟩ : ∃ n, fuel = n + 1 := ⟨fuel - 1, by simp [Rule.spell] at enough; omega⟩
      rw [lineItems]
      refine runs_peek ?_
      rw [if_neg (by simp [Rule.spell, firstKind])]
      refine (reads_line (canonical r List.mem_cons_self) _).bind fun item left found => ?_
      obtain ⟨⟨s, rfl, same⟩, rfl⟩ := found
      have more := ih (fun r member => canonical r (List.mem_cons_of_mem _ member)) (acc ++ [s])
        (show (rules.flatMap Rule.spell).length ≤ fuel by
          simp only [List.length_append, Rule.spell, List.length_cons] at enough
          omega)
      rw [List.map_append] at more
      refine more.mono fun items left found => ?_
      obtain ⟨others, shown, sames⟩ := found
      exact ⟨s :: others, by rw [shown, List.append_assoc]; rfl, .cons same sames⟩

/-- The text of rules that are written as they are read is read as these rules. -/
theorem parseLines_policyText {rules : List Rule} (canonical : ∀ r ∈ rules, r.Canonical) :
    ∃ found : List Rule, parseLines (policyText rules) = .ok (found.map .rule) ∧
      List.Forall₂ Rule.Same found rules := by
  have reads : Reads (do lineItems (← bound) []) (rules.flatMap Rule.spell) fun items _ =>
      ∃ found, items = found.map .rule ∧ List.Forall₂ Rule.Same found rules :=
    runs_bound fun n enough => reads_lineItems canonical [] enough
  obtain ⟨_, _, read, found, rfl, same⟩ := readWith_of_reads (cuts_policyText canonical) reads
  exact ⟨found, read, same⟩

/-! ## Rules are known by their text -/

/-- Rules that are written as they are read are equal if their texts are. -/
theorem same_of_policyText {rules others : List Rule} (canonical : ∀ r ∈ rules, r.Canonical)
    (canonical' : ∀ r ∈ others, r.Canonical) (text : policyText rules = policyText others) :
    List.Forall₂ Rule.Same rules others := by
  obtain ⟨found, read, same⟩ := parseLines_policyText canonical
  obtain ⟨found', read', same'⟩ := parseLines_policyText canonical'
  rw [text, read'] at read
  obtain rfl : found' = found :=
    List.map_injective_iff.mpr (fun r s => Line.rule.inj) (Except.ok.inj read)
  exact forall₂_of_forall₂ Rule.same_of_same same same'

/-! ## Fingerprints -/

/-- The rule with its temporaries numbered, as it counts for the fingerprint. -/
def Rule.numbered (r : Rule) : Rule := ((r.renameM numberTemporary).run []).1

/-- The rules in the order of their names and, for one name, of their numbers of parameters. -/
def KnowledgeBase.inOrder (kb : KnowledgeBase) : List Rule :=
  kb.ruleNames.flatMap fun name => KnowledgeBase.byArity (kb.named name)

/-- The text that is digested is that of the rules in order, followed by that of the constants. -/
theorem canonicalText_eq (kb : KnowledgeBase) :
    kb.canonicalText = policyText (kb.inOrder.map Rule.numbered) ++
      String.join (kb.constants.map fun constant =>
        constant.1 ++ "=" ++ constantText constant.2 ++ "\n") := by
  have rules : (kb.ruleNames.flatMap fun name => (KnowledgeBase.byArity (kb.named name)).map Rule.canonicalText) =
      (kb.inOrder.map Rule.numbered).map Rule.render := by
    rw [KnowledgeBase.inOrder, List.map_map, List.map_flatMap]
    rfl
  rw [KnowledgeBase.canonicalText, KnowledgeBase.canonicalLines, rules, policyText, List.map_append,
    String.join_append]
  simp only [List.map_map, Function.comp_def]

/-- Rules that are written as they are read are known by their text. So are the rules of two
knowledge bases with the same constants by the text whose digest is their fingerprint, up to the
naming of temporaries. -/
theorem rules_identified (r s : Rule) (kb kb' : KnowledgeBase) :
    (r.Canonical → s.Canonical → r.render = s.render → r.Same s) ∧
      (kb.constants = kb'.constants →
        (∀ r ∈ kb.inOrder, r.numbered.Canonical) → (∀ r ∈ kb'.inOrder, r.numbered.Canonical) →
          kb.canonicalText = kb'.canonicalText →
            List.Forall₂ (fun r s => r.numbered.Same s.numbered) kb.inOrder kb'.inOrder) := by
  refine ⟨fun canonical canonical' text => ?_, fun constants canonical canonical' text => ?_⟩
  · have both : List.Forall₂ Rule.Same [r] [s] :=
      same_of_policyText (by simpa using canonical) (by simpa using canonical')
        (by rw [policyText, policyText, List.map_singleton, List.map_singleton, text])
    cases both with
    | cons same _ => exact same
  · rw [canonicalText_eq, canonicalText_eq, constants] at text
    have rules : List.Forall₂ Rule.Same (kb.inOrder.map Rule.numbered)
        (kb'.inOrder.map Rule.numbered) :=
      same_of_policyText (by simpa using canonical) (by simpa using canonical')
        (String.append_left_inj _ |>.mp text)
    simpa [List.forall₂_map_left_iff, List.forall₂_map_right_iff] using rules

/-- The rule `allow(actor: User, t) if actor.group = t;` for a name of the second parameter. -/
def groupRule (t : String) : Rule where
  name := "allow"
  params := [⟨.var "actor", some (.object "User" [])⟩, ⟨.var t, none⟩]
  body := .operation .conj
    [.operation .unify [.operation .dot [.var "actor", .text "group"], .var t]]
  offset := none

theorem groupRule_canonical {t : String} (isName : IsName t) : (groupRule t).Canonical := by
  have actor : Canonical (.var "actor") := .var none (by rfl : tokenize "actor" = _)
  have second : Canonical (.var t) := .var none isName
  have group : Canonical (.operation .dot [.var "actor", .text "group"]) :=
    .lookup none none actor (by rfl : tokenize "group" = _) (by simp [isNameChar])
  have goal : Canonical (.operation .unify [.operation .dot [.var "actor", .text "group"], .var t]) :=
    .relation none rfl group second rfl rfl
  have user : (Pattern.object "User" []).Canonical :=
    ⟨fun _ _ same => (Pattern.object.inj same).1 ▸ (by rfl : tokenize "User" = _),
      ⟨List.Pairwise.nil, by simp [Pattern.fields]⟩, by simp [Pattern.fields], by decide⟩
  have depth : (groupRule t).body.depth = 1 := rfl
  refine ⟨(by rfl : tokenize "allow" = _), ?_, rfl, ?_, ?_, by rw [depth]; decide⟩
  · intro p member
    have each : p = ⟨.var "actor", some (.object "User" [])⟩ ∨ p = ⟨.var t, none⟩ := by
      simpa [groupRule] using member
    rcases each with rfl | rfl
    · exact ⟨actor, by decide, by decide, by simpa using user⟩
    · exact ⟨second, Nat.le_of_ble_eq_true rfl, Nat.le_of_ble_eq_true rfl, by simp⟩
  · intro g member
    rw [List.mem_singleton.mp member]
    exact goal
  · intro g member
    rw [List.mem_singleton.mp member]
    simp [Term.operator?, Term.operation, Term.of, Term.value]

theorem inOrder_singleton (r : Rule) : KnowledgeBase.inOrder { rules := [r] } = [r] := by
  simp [KnowledgeBase.inOrder, KnowledgeBase.ruleNames, distinct, KnowledgeBase.byArity,
    KnowledgeBase.named]

/-- Two knowledge bases whose one rule was loaded at different states of the counter. -/
theorem rules_identified_groupRule :
    let kb : KnowledgeBase := { rules := [groupRule "_value_1"] }
    let kb' : KnowledgeBase := { rules := [groupRule "_value_9"] }
    (groupRule "t").Canonical ∧ (groupRule "t").Same (groupRule "t") ∧ kb.constants = kb'.constants ∧
      (∀ r ∈ kb.inOrder, r.numbered.Canonical) ∧ (∀ r ∈ kb'.inOrder, r.numbered.Canonical) ∧
        kb.canonicalText = kb'.canonicalText ∧
          List.Forall₂ (fun r s => r.numbered.Same s.numbered) kb.inOrder kb'.inOrder := by
  intro kb kb'
  have canonical : (groupRule "t").Canonical := groupRule_canonical (by rfl : tokenize "t" = _)
  have zero : (groupRule "_0").Canonical := groupRule_canonical (by rfl : tokenize "_0" = _)
  have order : kb.inOrder = [groupRule "_value_1"] := inOrder_singleton _
  have order' : kb'.inOrder = [groupRule "_value_9"] := inOrder_singleton _
  have numbered : (groupRule "_value_1").numbered = groupRule "_0" := by rfl
  have numbered' : (groupRule "_value_9").numbered = groupRule "_0" := by rfl
  have first : ∀ r ∈ kb.inOrder, r.numbered.Canonical := by
    rw [order, List.forall_mem_singleton, numbered]
    exact zero
  have second : ∀ r ∈ kb'.inOrder, r.numbered.Canonical := by
    rw [order', List.forall_mem_singleton, numbered']
    exact zero
  have text : kb.canonicalText = kb'.canonicalText := by
    rw [canonicalText_eq, canonicalText_eq, order, order', List.map_singleton, List.map_singleton,
      numbered, numbered']
  obtain ⟨rules, bases⟩ := rules_identified (groupRule "t") (groupRule "t") kb kb'
  exact ⟨canonical, rules canonical canonical rfl, rfl, first, second, text,
    bases rfl first second text⟩

/-! ## Keys without quotes -/

/-- A key that is a string of the language stands without quotes in the text of a rule. So a rule
about a dictionary with one key can share its text with a rule about a dictionary with two. -/
theorem keys_unquoted :
    ∃ r s, parseLines "f(x) if x = \x7ba: 1, b: 2\x7d;" = .ok [.rule r] ∧
      parseLines "f(x) if x = \x7b\"a: 1, b\": 2\x7d;" = .ok [.rule s] ∧
        r.render = s.render ∧ r.canonicalText = s.canonicalText ∧ ¬ r.Same s := by
  have found : ((ruleOf? "f(x) if x = \x7ba: 1, b: 2\x7d;").bind fun r =>
      (ruleOf? "f(x) if x = \x7b\"a: 1, b\": 2\x7d;").map fun s =>
        (r.render == s.render, r.canonicalText == s.canonicalText, r.body.same s.body)) =
      some (true, true, false) := by
    decide +kernel
  obtain ⟨r, first, rest⟩ := Option.bind_eq_some_iff.mp found
  obtain ⟨s, second, values⟩ := Option.map_eq_some_iff.mp rest
  simp only [Prod.mk.injEq, beq_iff_eq] at values
  refine ⟨r, s, parseLines_of_ruleOf? first, parseLines_of_ruleOf? second, values.1, values.2.1,
    fun same => ?_⟩
  have bodies := same.body
  rw [values.2.2] at bodies
  cases bodies

end PolicyLogic
