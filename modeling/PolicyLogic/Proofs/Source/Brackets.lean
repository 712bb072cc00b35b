import PolicyLogic.Proofs.Fields
import PolicyLogic.Proofs.Source.Levels

/-!
# What stands between brackets

Lists, braces and arguments are read by repetitions that take one element after the other and go on
at a comma. `Element expr t` says that a term can stand there; `reads_listValue`,
`reads_braceFields` and `reads_callArguments` read a whole bracket of them. Fields come out in their
order because each name is put after those before it (`insert_above`).
-/

namespace PolicyLogic.Source

/-- The parser reads the term where an expression can stand, and it is not taken for a named
argument. -/
structure Element (expr : Parser Term) (t : Term) : Prop where
  fronts : Fronts 1 t.spell
  reads : ReadsAs expr t.spell t (Stops 1)

section Brackets

variable {α : Type} {expr : Parser Term} {rest : List Lexeme}

theorem commaLexemes_cons (row : List Lexeme) {rows : List (List Lexeme)} (nonempty : rows ≠ []) :
    commaLexemes (row :: rows) = row ++ (.comma, ",") :: commaLexemes rows := by
  obtain ⟨other, rows, rfl⟩ := List.exists_cons_of_ne_nil nonempty
  rw [commaLexemes, List.intercalate_cons_cons, List.append_assoc]
  rfl

theorem commaLexemes_singleton (row : List Lexeme) : commaLexemes [row] = row := by
  simp [commaLexemes]

/-! ## Lists -/

/-- The elements of a list that can be read: at least one, and the last perhaps a rest variable. -/
inductive Row (expr : Parser Term) : List Term → Prop
  | last {t : Term} : Element expr t → Row expr [t]
  | tail {o : Option Nat} {name : String} : Row expr [.mk o (.rest name)]
  | cons {t : Term} {ts : List Term} : Element expr t → Row expr ts → Row expr (t :: ts)

theorem Row.spellAll_ne_nil {ts : List Term} (row : Row expr ts) : spellAll ts ≠ [] := by
  cases row <;> simp [spellAll]

/-- The lexemes of a row up to its closing bracket. -/
abbrev rowLexemes (ts : List Term) (rest : List Lexeme) : List Lexeme :=
  commaLexemes (spellAll ts) ++ (.rbracket, "]") :: rest

theorem reads_listElements {ts : List Term} (row : Row expr ts) {fuel : Nat} (acc : List Term)
    {Q : List Term → List Lexeme → Prop} (enough : (rowLexemes ts rest).length ≤ fuel)
    (holds : ∀ us, sameAll us ts = true → Q (acc ++ us) rest) :
    Reads (listElements expr fuel acc) (rowLexemes ts rest) Q := by
  induction row generalizing fuel acc with
  | @last t element =>
      obtain ⟨fuel, rfl⟩ : ∃ n, fuel = n + 1 := ⟨fuel - 1, by simp at enough; omega⟩
      rw [rowLexemes, spellAll, spellAll, commaLexemes_singleton, listElements]
      refine runs_eat_other (element.fronts.ne (by simp [TokenKind.Opens])) ?_
      rw [if_neg Bool.false_ne_true]
      refine element.reads.bind (stops_cons (by decide)) fun u same => runs_eat ?_
      exact reads_pure (holds [u] (by simp [sameAll, same]))
  | @tail o name =>
      obtain ⟨fuel, rfl⟩ : ∃ n, fuel = n + 1 := ⟨fuel - 1, by simp at enough; omega⟩
      rw [rowLexemes, spellAll, spellAll, commaLexemes_singleton, listElements, Term.spell]
      refine runs_eat ?_
      rw [if_pos rfl]
      refine runs_expectName fun loc => runs_expect (reads_pure (holds _ ?_))
      simp [sameAll, Term.read, Term.same]
  | @cons t ts element row ih =>
      rw [rowLexemes, spellAll, commaLexemes_cons _ row.spellAll_ne_nil, List.append_assoc] at enough ⊢
      obtain ⟨fuel, rfl⟩ : ∃ n, fuel = n + 1 := ⟨fuel - 1, by simp at enough; omega⟩
      rw [listElements]
      refine runs_eat_other (element.fronts.ne (by simp [TokenKind.Opens])) ?_
      rw [if_neg Bool.false_ne_true]
      refine element.reads.bind (stops_cons (by decide)) fun u same => ?_
      refine runs_eat_other (by simp [firstKind]) ?_
      rw [if_neg Bool.false_ne_true]
      refine runs_expect (ih _ ?_ fun us sames => ?_)
      · simp only [List.length_append, List.length_cons] at enough ⊢
        omega
      · rw [List.append_assoc]
        exact holds (u :: us) (by simp [sameAll, same, sames])

theorem Row.ne_closing {ts : List Term} (row : Row expr ts) :
    firstKind (rowLexemes ts rest) ≠ some .rbracket := by
  cases row with
  | last element =>
      rw [rowLexemes, spellAll, spellAll, commaLexemes_singleton]
      exact element.fronts.ne (by simp [TokenKind.Opens])
  | tail => simp [rowLexemes, spellAll, commaLexemes_singleton, Term.spell, firstKind]
  | cons element row =>
      rw [rowLexemes, spellAll, commaLexemes_cons _ row.spellAll_ne_nil, List.append_assoc]
      exact element.fronts.ne (by simp [TokenKind.Opens])

/-- A whole list, from its opening bracket to its closing one. -/
theorem reads_listValue {ts : List Term} (row : ts = [] ∨ Row expr ts)
    {next : Value → Parser α} {Q : α → List Lexeme → Prop}
    (onward : ∀ us, sameAll us ts = true → Reads (next (.list us)) rest Q) :
    Reads (listValue expr >>= next) ((.lbracket, "[") :: rowLexemes ts rest) Q := by
  rw [listValue, bind_assoc]
  refine runs_expect ?_
  rw [bind_assoc]
  rcases row with rfl | row
  · refine runs_eat ?_
    rw [if_pos rfl, pure_bind]
    exact onward [] rfl
  · refine runs_eat_other row.ne_closing ?_
    simp only [Bool.false_eq_true, if_false, bind_assoc, pure_bind]
    refine runs_bound fun fuel enough => ?_
    have elements : Reads (listElements expr (fuel + 1) []) (rowLexemes ts rest)
        fun us left => sameAll us ts = true ∧ left = rest :=
      reads_listElements row [] (Nat.le_succ_of_le enough) fun us same => ⟨same, rfl⟩
    exact elements.bind fun us left ⟨same, shown⟩ => shown ▸ onward us same

/-! ## Fields -/

/-- The lexemes of some fields up to the closing mark. -/
abbrev fieldLexemes (fields : List (String × Term)) (closing : Lexeme) (rest : List Lexeme) :
    List Lexeme :=
  commaLexemes (spellFields fields) ++ closing :: rest

theorem spellFields_ne_nil {fields : List (String × Term)} (nonempty : fields ≠ []) :
    spellFields fields ≠ [] := by
  obtain ⟨⟨name, t⟩, more, rfl⟩ := List.exists_cons_of_ne_nil nonempty
  simp [spellFields]

/-- Fields begin with a name and a colon. -/
theorem fieldLexemes_cons (name : String) (t : Term) (fields : List (String × Term))
    (closing : Lexeme) :
    fieldLexemes ((name, t) :: fields) closing rest = (.symbol, name) :: (.colon, ":") ::
      (t.spell ++ if fields = [] then closing :: rest
        else (.comma, ",") :: fieldLexemes fields closing rest) := by
  rw [fieldLexemes, spellFields]
  split
  · rename_i last
    rw [last, spellFields, commaLexemes_singleton]
    rfl
  · rename_i more
    rw [commaLexemes_cons _ (spellFields_ne_nil more), List.append_assoc]
    rfl

theorem reads_fieldName {name : String} {next : String → Parser α}
    {Q : α → List Lexeme → Prop} (reads : Reads (next name) rest Q) :
    Reads (fieldName >>= next) ((.symbol, name) :: rest) Q := by
  rw [fieldName, bind_assoc]
  refine runs_peek ?_
  show Reads ((expectName >>= _) >>= next) _ _
  rw [bind_assoc]
  refine runs_expectName fun loc => ?_
  rwa [pure_bind]

/-- The rest of some fields comes above those that were read. -/
theorem above_append {name : String} {t u : Term} {fields acc : List (String × Term)}
    (order : InOrder ((name, t) :: fields))
    (above : ∀ field ∈ acc, ∀ other ∈ (name, t) :: fields, field.1 < other.1) :
    ∀ field ∈ acc ++ [(name, u)], ∀ other ∈ fields, field.1 < other.1 := by
  intro field member other later
  rcases List.mem_append.mp member with old | new
  · exact above field old other (List.mem_cons_of_mem _ later)
  · rw [List.mem_singleton.mp new]
    exact (List.pairwise_cons.mp order).1 other later

theorem reads_fieldEntries {fields : List (String × Term)} (nonempty : fields ≠ [])
    (order : InOrder fields) (each : ∀ field ∈ fields, Element expr field.2) {fuel : Nat}
    (acc : List (String × Term)) {Q : List (String × Term) → List Lexeme → Prop}
    (above : ∀ field ∈ acc, ∀ other ∈ fields, field.1 < other.1)
    (enough : (fieldLexemes fields (.rbrace, "\x7d") rest).length ≤ fuel)
    (holds : ∀ us, sameFields us fields = true → Q (acc ++ us) rest) :
    Reads (fieldEntries expr fuel acc) (fieldLexemes fields (.rbrace, "\x7d") rest) Q := by
  induction fields generalizing fuel acc with
  | nil => exact absurd rfl nonempty
  | cons field fields ih =>
      obtain ⟨name, t⟩ := field
      rw [fieldLexemes_cons] at enough ⊢
      obtain ⟨fuel, rfl⟩ : ∃ n, fuel = n + 1 := ⟨fuel - 1, by simp at enough; omega⟩
      rw [fieldEntries]
      refine reads_fieldName (runs_expect ?_)
      have element := each _ List.mem_cons_self
      by_cases last : fields = []
      · subst last
        rw [if_pos rfl]
        refine element.reads.bind (stops_cons (by decide)) fun u same => runs_eat ?_
        rw [if_pos rfl, insert_above fun other member => above other member _ List.mem_cons_self]
        exact reads_pure (holds [(name, u)] (by simp [sameFields, same]))
      · rw [if_neg last] at enough ⊢
        refine element.reads.bind (stops_cons (by decide)) fun u same => ?_
        refine runs_eat_other (by simp [firstKind]) ?_
        rw [if_neg Bool.false_ne_true,
          insert_above fun other member => above other member _ List.mem_cons_self]
        refine runs_expect (ih last (List.pairwise_cons.mp order).2
          (fun other member => each other (List.mem_cons_of_mem _ member)) _
          (above_append order above) ?_ fun us sames => ?_)
        · simp only [List.length_append, List.length_cons] at enough ⊢
          omega
        · rw [List.append_assoc]
          exact holds ((name, u) :: us) (by simp [sameFields, same, sames])

/-- The fields between two braces. -/
theorem reads_braceFields {fields : List (String × Term)} (order : InOrder fields)
    (each : ∀ field ∈ fields, Element expr field.2)
    {next : List (String × Term) → Parser α} {Q : α → List Lexeme → Prop}
    (onward : ∀ us, sameFields us fields = true → Reads (next us) rest Q) :
    Reads (braceFields expr >>= next)
      ((.lbrace, "\x7b") :: fieldLexemes fields (.rbrace, "\x7d") rest) Q := by
  rw [braceFields, bind_assoc]
  refine runs_expect ?_
  rw [bind_assoc]
  by_cases empty : fields = []
  · subst empty
    refine runs_eat ?_
    rw [if_pos rfl, pure_bind]
    exact onward [] rfl
  · have opening : firstKind (fieldLexemes fields (.rbrace, "\x7d") rest) ≠ some .rbrace := by
      obtain ⟨⟨name, t⟩, more, rfl⟩ := List.exists_cons_of_ne_nil empty
      rw [fieldLexemes_cons]
      simp [firstKind]
    refine runs_eat_other opening ?_
    simp only [Bool.false_eq_true, if_false, bind_assoc]
    refine runs_bound fun fuel enough => ?_
    have entries : Reads (fieldEntries expr (fuel + 1) [])
        (fieldLexemes fields (.rbrace, "\x7d") rest)
        fun us left => sameFields us fields = true ∧ left = rest :=
      reads_fieldEntries empty order each [] (by simp) (Nat.le_succ_of_le enough)
        fun us same => ⟨same, rfl⟩
    exact entries.bind fun us left ⟨same, shown⟩ => shown ▸ onward us same

/-! ## Arguments -/

theorem reads_namedItems {fields : List (String × Term)} (nonempty : fields ≠ [])
    (order : InOrder fields) (each : ∀ field ∈ fields, Element expr field.2) {fuel : Nat}
    (args : List Term) (named : Option (List (String × Term)))
    {Q : Arguments → List Lexeme → Prop}
    (above : ∀ field ∈ named.getD [], ∀ other ∈ fields, field.1 < other.1)
    (enough : (fieldLexemes fields (.rparen, ")") rest).length ≤ fuel)
    (holds : ∀ us, sameFields us fields = true → Q (args, some (named.getD [] ++ us)) rest) :
    Reads (argumentItems expr fuel (args, named)) (fieldLexemes fields (.rparen, ")") rest) Q := by
  induction fields generalizing fuel named with
  | nil => exact absurd rfl nonempty
  | cons field fields ih =>
      obtain ⟨name, t⟩ := field
      rw [fieldLexemes_cons] at enough ⊢
      obtain ⟨fuel, rfl⟩ : ∃ n, fuel = n + 1 := ⟨fuel - 1, by simp at enough; omega⟩
      rw [argumentItems]
      refine runs_peek (runs_peekSecond ?_)
      rw [if_pos (by simp [firstKind])]
      refine runs_expectName fun loc => runs_advance ?_
      have element := each _ List.mem_cons_self
      by_cases last : fields = []
      · subst last
        rw [if_pos rfl]
        refine element.reads.bind (stops_cons (by decide)) fun u same => ?_
        rw [pure_bind]
        refine runs_eat ?_
        rw [if_pos rfl, insert_above fun other member => above other member _ List.mem_cons_self]
        exact reads_pure (holds [(name, u)] (by simp [sameFields, same]))
      · rw [if_neg last] at enough ⊢
        refine element.reads.bind (stops_cons (by decide)) fun u same => ?_
        rw [pure_bind]
        refine runs_eat_other (by simp [firstKind]) ?_
        rw [if_neg Bool.false_ne_true,
          insert_above fun other member => above other member _ List.mem_cons_self]
        refine runs_expect (ih last (List.pairwise_cons.mp order).2
          (fun other member => each other (List.mem_cons_of_mem _ member)) _
          (above_append order above) ?_ fun us sames => ?_)
        · simp only [List.length_append, List.length_cons] at enough ⊢
          omega
        · rw [Option.getD_some, List.append_assoc]
          exact holds ((name, u) :: us) (by simp [sameFields, same, sames])

/-- The named arguments of two calls are equal, or there are none on either side. -/
def SameNamed : Option (List (String × Term)) → Option (List (String × Term)) → Prop
  | none, none => True
  | some us, some fields => sameFields us fields = true
  | _, _ => False

/-- The lexemes of some arguments up to the closing parenthesis. -/
abbrev argumentLexemes (args : List Term) (named : Option (List (String × Term)))
    (rest : List Lexeme) : List Lexeme :=
  commaLexemes (spellAll args ++ spellFields (named.getD [])) ++ (.rparen, ")") :: rest

/-- Named arguments that can be read, if there are any. -/
structure NamedElements (expr : Parser Term) (named : Option (List (String × Term))) : Prop where
  nonempty : named ≠ some []
  order : InOrder (named.getD [])
  each : ∀ field ∈ named.getD [], Element expr field.2

/-- What comes after a plain argument: a further one, the first named one, or the end. -/
theorem argumentLexemes_cons (t : Term) (ts : List Term) (named : Option (List (String × Term))) :
    argumentLexemes (t :: ts) named rest = t.spell ++
      if ts = [] ∧ named.getD [] = [] then (.rparen, ")") :: rest
      else (.comma, ",") :: argumentLexemes ts named rest := by
  rw [argumentLexemes, spellAll, List.cons_append]
  split
  · rename_i last
    rw [last.1, last.2, spellAll, spellFields, List.append_nil, commaLexemes_singleton]
  · rename_i more
    have rows : spellAll ts ++ spellFields (named.getD []) ≠ [] := by
      intro none
      obtain ⟨plain, fields⟩ := List.append_eq_nil_iff.mp none
      refine more ⟨?_, ?_⟩
      · cases ts with
        | nil => rfl
        | cons => cases plain
      · by_contra nonempty
        exact spellFields_ne_nil nonempty fields
    rw [commaLexemes_cons _ rows, List.append_assoc]
    rfl

theorem reads_argumentItems {args : List Term} {named : Option (List (String × Term))}
    (nonempty : args ≠ [] ∨ named ≠ none) (plain : ∀ t ∈ args, Element expr t)
    (elements : NamedElements expr named) {fuel : Nat} (acc : List Term)
    {Q : Arguments → List Lexeme → Prop}
    (enough : (argumentLexemes args named rest).length ≤ fuel)
    (holds : ∀ us vs, sameAll us args = true → SameNamed vs named → Q (acc ++ us, vs) rest) :
    Reads (argumentItems expr fuel (acc, none)) (argumentLexemes args named rest) Q := by
  induction args generalizing fuel acc with
  | nil =>
      cases named with
      | none => simp at nonempty
      | some fields =>
          refine reads_namedItems (fun empty => elements.nonempty (congrArg some empty)) elements.order
            elements.each acc none (by simp) enough fun us same => ?_
          simpa using holds [] (some us) rfl same
  | cons t ts ih =>
      rw [argumentLexemes_cons] at enough ⊢
      obtain ⟨fuel, rfl⟩ : ∃ n, fuel = n + 1 := ⟨fuel - 1, by split at enough <;> simp at enough <;> omega⟩
      have element := plain t List.mem_cons_self
      rw [argumentItems]
      have plainFirst : ∀ after, _ → _ := fun after => @Fronts.notNamed _ _ after element.fronts
      have onward : ∀ u us vs, u.same t = true → sameAll us ts = true → SameNamed vs named →
          Q (acc ++ [u] ++ us, vs) rest := fun u us vs same sames named => by
        rw [List.append_assoc]
        exact holds (u :: us) vs (by simp [sameAll, same, sames]) named
      refine runs_peek (runs_peekSecond ?_)
      by_cases last : ts = [] ∧ named.getD [] = []
      · rw [if_pos last, if_neg (by simp [plainFirst]), if_neg (by simp)]
        refine element.reads.bind (stops_cons (by decide)) fun u same => ?_
        rw [pure_bind]
        refine runs_eat ?_
        rw [if_pos rfl]
        obtain ⟨rfl, none⟩ := last
        obtain rfl : named = Option.none := by
          cases named with
          | none => rfl
          | some fields => exact absurd (congrArg some none) elements.nonempty
        exact reads_pure (by simpa using onward u [] Option.none same rfl trivial)
      · rw [if_neg last] at enough ⊢
        rw [if_neg (by simp [plainFirst]), if_neg (by simp)]
        refine element.reads.bind (stops_cons (by decide)) fun u same => ?_
        rw [pure_bind]
        refine runs_eat_other (by simp [firstKind]) ?_
        rw [if_neg Bool.false_ne_true]
        refine runs_expect (ih ?_ (fun s member => plain s (List.mem_cons_of_mem _ member)) _ ?_
          fun us vs => onward u us vs same)
        · by_contra none
          rw [not_or, not_not, not_not] at none
          exact last ⟨none.1, by rw [none.2]; rfl⟩
        · simp only [List.length_append, List.length_cons] at enough ⊢
          omega

/-- The arguments of a call, from its opening parenthesis to its closing one. -/
theorem reads_callArguments {args : List Term} {named : Option (List (String × Term))}
    (plain : ∀ t ∈ args, Element expr t) (elements : NamedElements expr named)
    {next : Arguments → Parser α} {Q : α → List Lexeme → Prop}
    (onward : ∀ us vs, sameAll us args = true → SameNamed vs named → Reads (next (us, vs)) rest Q) :
    Reads (callArguments expr >>= next) ((.lparen, "(") :: argumentLexemes args named rest) Q := by
  rw [callArguments, bind_assoc]
  refine runs_expect ?_
  rw [bind_assoc]
  by_cases empty : args = [] ∧ named = none
  · obtain ⟨rfl, rfl⟩ := empty
    refine runs_eat ?_
    rw [if_pos rfl, pure_bind]
    exact onward [] none rfl trivial
  · have opening : firstKind (argumentLexemes args named rest) ≠ some .rparen := by
      cases args with
      | cons t ts =>
          rw [argumentLexemes_cons]
          exact (plain t List.mem_cons_self).fronts.ne (by simp [TokenKind.Opens])
      | nil =>
          cases named with
          | none => simp at empty
          | some fields =>
              obtain ⟨⟨name, t⟩, more, rfl⟩ := List.exists_cons_of_ne_nil fun none =>
                elements.nonempty (congrArg some none)
              show firstKind (fieldLexemes ((name, t) :: more) (.rparen, ")") rest) ≠ _
              rw [fieldLexemes_cons]
              simp [firstKind]
    refine runs_eat_other opening ?_
    simp only [Bool.false_eq_true, if_false, bind_assoc]
    refine runs_bound fun fuel enough => ?_
    have items : Reads (argumentItems expr (fuel + 1) ([], none)) (argumentLexemes args named rest)
        fun found left => (sameAll found.1 args = true ∧ SameNamed found.2 named) ∧ left = rest :=
      reads_argumentItems (by
        by_contra none
        rw [not_or, not_not, not_not] at none
        exact empty none) plain elements [] (Nat.le_succ_of_le enough)
        fun us vs same sames => ⟨⟨same, sames⟩, rfl⟩
    refine items.bind fun found left shown => ?_
    obtain ⟨⟨sames, namesakes⟩, rfl⟩ := shown
    exact onward found.1 found.2 sames namesakes

end Brackets

end PolicyLogic.Source
