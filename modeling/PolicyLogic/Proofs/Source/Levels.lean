import PolicyLogic.Proofs.Source.Reading
import PolicyLogic.Proofs.Source.Spelling
import PolicyLogic.Term.Equality

/-!
# The levels of an expression

The parser has one function for each strength of binding. Each reads operands with the next
stronger one, so what comes after an expression decides at which level it is taken up.

* `ReadsAs parser lexemes t next` says that the parser reads the lexemes as a term that equals `t`,
  and leaves what comes after them, whenever `next` holds of that.
* `Stops k rest` says that the next token binds looser than level `k`, so that no level from `k` on
  goes on with it.
* `Unrolls` is what the levels that group to the left have instead: reading the lexemes comes down to
  the repetition of the level with the operand read so far. It is closed under one more operand to
  the right (`Unrolls.operand`, `Unrolls.lookup`), which is how the left spine of a term is followed.
* `Parses.reads` and `Parses.unrolls` go from the level of a term's own operator down to any looser
  level.
-/

namespace PolicyLogic.Source

/-! ## What comes next -/

/-- How tightly a token binds what stands before it; zero if it does not. -/
def TokenKind.strength : TokenKind → Nat
  | .lparen => 8
  | .dot => 7
  | .star | .slash | .kwMod | .kwRem => 6
  | .plus | .minus => 5
  | .equals | .assign | .eqEq | .notEq | .less | .lessEq | .greater | .greaterEq | .kwIn | .kwIsa
  | .kwMatches => 4
  | .kwAnd => 2
  | .kwOr => 1
  | _ => 0

/-- No parser of a level from `k` on goes on with the next token. -/
def Stops (k : Nat) (rest : List Lexeme) : Prop :=
  ∀ kind, firstKind rest = some kind → kind.strength < k

section Stops

variable {k m : Nat} {rest : List Lexeme}

/-- What stops a weaker level stops a stronger one. -/
theorem Stops.mono (stops : Stops k rest) (le : k ≤ m) : Stops m rest :=
  fun kind first => Nat.lt_of_lt_of_le (stops kind first) le

/-- An operator that binds as strongly does not stop. -/
theorem Stops.ne {kind : TokenKind} (stops : Stops k rest) (le : k ≤ kind.strength) :
    firstKind rest ≠ some kind :=
  fun first => absurd (stops kind first) (Nat.not_lt.mpr le)

/-- A token that binds weaker stops. -/
theorem stops_cons {kind : TokenKind} {text : String} (looser : kind.strength < k) :
    Stops k ((kind, text) :: rest) := by
  intro other first
  obtain rfl : kind = other := by simpa [firstKind] using first
  exact looser

theorem stops_nil : Stops k [] := fun _ first => by cases first

/-- The operators of a level do not stand before what stops it. -/
theorem Stops.bind_none {operator? : TokenKind → Option Operator} (stops : Stops k rest)
    (strong : ∀ kind op, operator? kind = some op → kind.strength = k) :
    (firstKind rest).bind operator? = none := by
  cases first : firstKind rest with
  | none => rfl
  | some kind =>
      cases found : operator? kind with
      | none => exact found
      | some op => exact absurd (stops kind first) (by rw [strong kind op found]; omega)

end Stops

theorem strength_of_product {kind : TokenKind} {op : Operator}
    (found : productOperator? kind = some op) : kind.strength = 6 := by
  cases kind <;> first | rfl | cases found

theorem strength_of_sum {kind : TokenKind} {op : Operator}
    (found : sumOperator? kind = some op) : kind.strength = 5 := by
  cases kind <;> first | rfl | cases found

theorem strength_of_comparison {kind : TokenKind} {op : Operator}
    (found : comparisonOperator? kind = some op) : kind.strength = 4 := by
  cases kind <;> first | rfl | cases found

/-! ## How expressions begin -/

/-- The tokens that an expression of level `k` begins with. -/
def TokenKind.Opens (kind : TokenKind) (k : Nat) : Prop :=
  kind ∈ [.integer, .string, .truth, .falsity, .lbracket, .lbrace, .lparen, .symbol] ∨
    kind = .kwNot ∧ k ≤ 3

/-- The lexemes begin as an expression of level `k` does, and not as a named argument. -/
def Fronts (k : Nat) (lexemes : List Lexeme) : Prop :=
  ∃ kind text more, lexemes = (kind, text) :: more ∧ kind.Opens k ∧
    (kind = .symbol → firstKind more ≠ some .colon)

section Fronts

variable {k m : Nat} {lexemes after : List Lexeme}

theorem fronts_cons {kind : TokenKind} {text : String} (opens : kind.Opens k)
    (noColon : kind = .symbol → firstKind lexemes ≠ some .colon) :
    Fronts k ((kind, text) :: lexemes) :=
  ⟨kind, text, lexemes, rfl, opens, noColon⟩

/-- What follows does not change how a text begins. -/
theorem Fronts.append (fronts : Fronts k lexemes) (noColon : firstKind after ≠ some .colon) :
    Fronts k (lexemes ++ after) := by
  obtain ⟨kind, text, more, rfl, opens, next⟩ := fronts
  refine fronts_cons opens fun name => ?_
  cases more with
  | nil => exact noColon
  | cons l more => exact next name

theorem Fronts.mono (fronts : Fronts k lexemes) (le : m ≤ k) : Fronts m lexemes := by
  obtain ⟨kind, text, more, rfl, opens, next⟩ := fronts
  exact fronts_cons (opens.imp_right fun ⟨isNot, low⟩ => ⟨isNot, Nat.le_trans le low⟩) next

/-- A text does not begin with a token that may not open it. -/
theorem Fronts.ne {kind : TokenKind} (fronts : Fronts k lexemes) (never : ¬ kind.Opens k) :
    firstKind (lexemes ++ after) ≠ some kind := by
  obtain ⟨first, text, more, rfl, opens, -⟩ := fronts
  intro same
  obtain rfl : first = kind := by simpa [firstKind] using same
  exact never opens

/-- What begins like an expression is not taken for a named argument. -/
theorem Fronts.notNamed (fronts : Fronts k lexemes) (noColon : firstKind after ≠ some .colon) :
    (firstKind (lexemes ++ after) == some .symbol &&
      firstKind (lexemes ++ after).tail == some .colon) = false := by
  obtain ⟨kind, text, more, shown, -, next⟩ := fronts.append noColon
  rw [shown]
  by_cases name : kind = .symbol
  · simpa [firstKind, name] using next name
  · simp [firstKind, name]

end Fronts

/-! ## Reading a term -/

/-- The parser reads the lexemes as a term that equals `t` and leaves what comes after them. -/
def ReadsAs (parser : Parser Term) (lexemes : List Lexeme) (t : Term)
    (next : List Lexeme → Prop) : Prop :=
  ∀ rest, next rest → Reads parser (lexemes ++ rest) fun u left => u.same t = true ∧ left = rest

/-- A reader may go on with what another one has read. -/
theorem ReadsAs.bind {α : Type} {parser : Parser Term} {lexemes rest : List Lexeme} {t : Term}
    {next : List Lexeme → Prop} {onward : Term → Parser α} {Q : α → List Lexeme → Prop}
    (reads : ReadsAs parser lexemes t next) (holds : next rest)
    (then_ : ∀ u, u.same t = true → Reads (onward u) rest Q) :
    Reads (parser >>= onward) (lexemes ++ rest) Q :=
  (reads rest holds).bind fun u _ ⟨same, left⟩ => left ▸ then_ u same

/-- The parser of each strength of binding, from disjunctions to the innermost expressions. -/
def Level.parser (level : Level) : Nat → Parser Term
  | 0 | 1 => disjunction level
  | 2 => conjunction level
  | 3 => negation level
  | 4 => comparison level
  | 5 => sum level
  | 6 => product level
  | 7 => lookups level
  | _ => primary level

/-- The repetition of each level that groups to the left. -/
def Level.repetition (level : Level) (k : Nat) (start fuel : Nat) (left : Term) : Parser Term :=
  if k = 5 then operandsOn (product level) sumOperator? start fuel left
  else if k = 6 then operandsOn (unary level) productOperator? start fuel left
  else lookupsOn level start fuel left

/-- Reading the lexemes at a level that groups to the left comes down to its repetition, with a term
that equals `t` as the operand so far. -/
def Unrolls (level : Level) (k : Nat) (lexemes : List Lexeme) (t : Term) : Prop :=
  ∀ rest (Q : Term → List Lexeme → Prop), Stops (k + 1) rest →
    (∀ u start fuel, u.same t = true → rest.length ≤ fuel →
      Reads (level.repetition k start fuel u) rest Q) →
    Reads (level.parser k) (lexemes ++ rest) Q

section Levels

variable {level : Level} {lexemes : List Lexeme} {t : Term}

/-- A minus sign is not read where none stands. -/
theorem reads_unary (reads : ReadsAs (lookups level) lexemes t (Stops 7))
    (fronts : Fronts 4 lexemes) : ReadsAs (unary level) lexemes t (Stops 7) := by
  intro rest stops
  rw [unary]
  refine runs_here fun start => runs_eat_other (fronts.ne (by simp [TokenKind.Opens])) ?_
  simp only [Bool.not_false, if_true]
  exact reads rest stops

/-- What is read as one operand is the first operand of a level that groups to the left. -/
theorem unrolls_leftGrouped {operand : Parser Term} {operator? : TokenKind → Option Operator}
    {k : Nat} (reads : ReadsAs operand lexemes t (Stops (k + 1)))
    (grouped : level.parser k = leftGrouped operand operator?)
    (repeated : ∀ start fuel u, level.repetition k start fuel u =
      operandsOn operand operator? start fuel u) : Unrolls level k lexemes t := by
  intro rest Q stops onward
  rw [grouped, leftGrouped]
  refine runs_here fun start => reads.bind stops fun u same => runs_bound fun fuel enough => ?_
  rw [← repeated]
  exact onward u start fuel same enough

/-- A primary is a row of lookups without any. -/
theorem unrolls_lookups (reads : ReadsAs (primary level) lexemes t (Stops 8)) :
    Unrolls level 7 lexemes t := by
  intro rest Q stops onward
  show Reads (lookups level) _ _
  rw [lookups]
  exact runs_here fun start => reads.bind stops fun u same => runs_bound fun fuel enough =>
    onward u start fuel same enough

/-- The loop for operands ends where no operator follows. -/
theorem reads_operandsOn_stop {operand : Parser Term} {operator? : TokenKind → Option Operator}
    {start fuel : Nat} {u : Term} {rest : List Lexeme} {Q : Term → List Lexeme → Prop}
    (stops : (firstKind rest).bind operator? = none) (holds : Q u rest) :
    Reads (operandsOn operand operator? start fuel u) rest Q := by
  cases fuel with
  | zero => exact reads_pure holds
  | succ fuel =>
      rw [operandsOn]
      refine runs_peek ?_
      rw [stops]
      exact reads_pure holds

theorem reads_lookupsOn_stop {start fuel : Nat} {u : Term} {rest : List Lexeme}
    {Q : Term → List Lexeme → Prop} (stops : firstKind rest ≠ some .dot) (holds : Q u rest) :
    Reads (lookupsOn level start fuel u) rest Q := by
  cases fuel with
  | zero => exact reads_pure holds
  | succ fuel =>
      rw [lookupsOn]
      refine runs_eat_other stops ?_
      exact reads_pure holds

/-- The repetition of a level ends at a token that binds looser. -/
theorem reads_repetition_stop {k start fuel : Nat} {u : Term} {rest : List Lexeme}
    {Q : Term → List Lexeme → Prop} (grouping : 5 ≤ k ∧ k ≤ 7) (stops : Stops k rest)
    (holds : Q u rest) : Reads (level.repetition k start fuel u) rest Q := by
  obtain rfl | rfl | rfl : k = 5 ∨ k = 6 ∨ k = 7 := by omega
  · exact reads_operandsOn_stop (stops.bind_none fun _ _ => strength_of_sum) holds
  · exact reads_operandsOn_stop (stops.bind_none fun _ _ => strength_of_product) holds
  · exact reads_lookupsOn_stop (stops.ne (by decide)) holds

/-- What unrolls at a level is read there. -/
theorem Unrolls.reads {k : Nat} (unrolls : Unrolls level k lexemes t) (grouping : 5 ≤ k ∧ k ≤ 7) :
    ReadsAs (level.parser k) lexemes t (Stops k) :=
  fun rest stops => unrolls rest _ (stops.mono (Nat.le_succ k)) fun _ _ _ same _ =>
    reads_repetition_stop grouping stops ⟨same, rfl⟩

/-- What is read one level tighter unrolls at a level that groups to the left. -/
theorem unrolls_of_tighter {k : Nat} (reads : ReadsAs (level.parser (k + 1)) lexemes t (Stops (k + 1)))
    (fronts : Fronts 4 lexemes) (grouping : 5 ≤ k ∧ k ≤ 7) : Unrolls level k lexemes t := by
  obtain rfl | rfl | rfl : k = 5 ∨ k = 6 ∨ k = 7 := by omega
  · exact unrolls_leftGrouped reads rfl fun _ _ _ => rfl
  · exact unrolls_leftGrouped (reads_unary reads fronts) rfl fun _ _ _ => rfl
  · exact unrolls_lookups reads

/-- One operand alone stays as it is. -/
theorem reads_joined_single {operand : Parser Term} {word : TokenKind} {op : Operator} {k : Nat}
    (reads : ReadsAs operand lexemes t (Stops (k + 1))) (strong : word.strength = k) :
    ReadsAs (joined operand word op) lexemes t (Stops k) := by
  intro rest stops
  rw [joined]
  refine runs_here fun start => reads.bind (stops.mono (Nat.le_succ k)) fun u same => ?_
  refine runs_peek ?_
  rw [if_pos (by simpa using stops.ne strong.ge)]
  exact reads_pure ⟨same, rfl⟩

/-- What is read one level tighter is read at each looser level. -/
theorem reads_of_tighter {k : Nat} (reads : ReadsAs (level.parser (k + 1)) lexemes t (Stops (k + 1)))
    (fronts : Fronts (k + 1) lexemes) (levels : 1 ≤ k ∧ k ≤ 7) :
    ReadsAs (level.parser k) lexemes t (Stops k) := by
  by_cases grouping : 5 ≤ k
  · exact (unrolls_of_tighter reads (fronts.mono (by omega)) ⟨grouping, levels.2⟩).reads
      ⟨grouping, levels.2⟩
  obtain rfl | rfl | rfl | rfl : k = 1 ∨ k = 2 ∨ k = 3 ∨ k = 4 := by omega
  · exact reads_joined_single reads rfl
  · exact reads_joined_single reads rfl
  · intro rest stops
    show Reads (negation level) _ _
    rw [negation]
    refine runs_here fun start => runs_eat_other (fronts.ne (by simp [TokenKind.Opens])) ?_
    exact reads rest (stops.mono (by decide))
  · intro rest stops
    show Reads (comparison level) _ _
    rw [comparison]
    refine runs_here fun start => reads.bind (stops.mono (by decide)) fun u same => runs_peek ?_
    rw [stops.bind_none fun _ _ => strength_of_comparison]
    exact reads_pure ⟨same, rfl⟩

/-! ## One operand more -/

/-- The loop for operands goes on with one that follows. -/
theorem reads_operandsOn_operand {operand : Parser Term} {operator? : TokenKind → Option Operator}
    {kind : TokenKind} {text : String} {op : Operator} {start fuel : Nat} {u right : Term}
    {rs rest : List Lexeme} {next : List Lexeme → Prop} {Q : Term → List Lexeme → Prop}
    (sign : operator? kind = some op) (reads : ReadsAs operand rs right next) (holds : next rest)
    (onward : ∀ v, v.same right = true →
      Reads (operandsOn operand operator? start fuel (operationAt start op [u, v])) rest Q) :
    Reads (operandsOn operand operator? start (fuel + 1) u) ((kind, text) :: rs ++ rest) Q := by
  rw [operandsOn]
  refine runs_peek ?_
  have found : (firstKind ((kind, text) :: rs ++ rest)).bind operator? = some op := sign
  rw [found]
  exact runs_advance (reads.bind holds onward)

theorem same_operation {o o' : Option Nat} {op : Operator} {args args' : List Term}
    (same : sameAll args args' = true) :
    (Term.mk o (.operation op args)).same (.mk o' (.operation op args')) = true := by
  simp [Term.same, same]

/-- Binary operations are equal when their operands are. -/
theorem same_binary {o o' : Option Nat} {op : Operator} {left right left' right' : Term}
    (first : left.same left' = true) (second : right.same right' = true) :
    (Term.mk o (.operation op [left, right])).same (.mk o' (.operation op [left', right'])) = true :=
  same_operation (by simp [sameAll, first, second])

/-- The sign of an arithmetic operator belongs to the repetition of its own level. -/
theorem sign_of_isArithmetic {op : Operator} (arithmetic : op.isArithmetic = true) :
    op.signKind.strength = op.precedence ∧
      (op.precedence = 5 ∧ sumOperator? op.signKind = some op ∨
        op.precedence = 6 ∧ productOperator? op.signKind = some op) := by
  cases op with
  | add | sub => exact ⟨rfl, .inl ⟨rfl, rfl⟩⟩
  | mul | div | mod | rem => exact ⟨rfl, .inr ⟨rfl, rfl⟩⟩
  | _ => cases arithmetic

/-- A sum or a product goes on to the right. -/
theorem Unrolls.operand {k : Nat} {o : Option Nat} {op : Operator} {left right : Term}
    {ls rs : List Lexeme} (unrolls : Unrolls level k ls left)
    (reads : ReadsAs (level.parser (k + 1)) rs right (Stops (k + 1))) (fronts : Fronts 4 rs)
    (arithmetic : op.isArithmetic = true) (strength : op.precedence = k) :
    Unrolls level k (ls ++ (op.signKind, op.sign) :: rs) (.mk o (.operation op [left, right])) := by
  intro rest Q stops onward
  obtain ⟨signStrength, sign⟩ := sign_of_isArithmetic arithmetic
  rw [List.append_assoc]
  refine unrolls _ Q (stops_cons (by omega)) fun u start fuel same enough => ?_
  obtain ⟨fuel, rfl⟩ : ∃ n, fuel = n + 1 := ⟨fuel - 1, by simp at enough; omega⟩
  have shorter : rest.length ≤ fuel := by simp at enough; omega
  rw [strength] at sign
  rcases sign with ⟨rfl, sign⟩ | ⟨rfl, sign⟩
  · exact reads_operandsOn_operand sign reads stops fun v same' =>
      onward _ start fuel (same_binary same same') shorter
  · exact reads_operandsOn_operand sign (reads_unary reads fronts) stops fun v same' =>
      onward _ start fuel (same_binary same same') shorter

/-- A lookup goes on with a further field. -/
theorem Unrolls.lookup {o o' : Option Nat} {base : Term} {name : String} {ls : List Lexeme}
    (unrolls : Unrolls level 7 ls base) :
    Unrolls level 7 (ls ++ [(.dot, "."), (.symbol, name)])
      (.mk o (.operation .dot [base, .mk o' (.text name)])) := by
  intro rest Q stops onward
  rw [List.append_assoc]
  refine unrolls _ Q (stops_cons (by decide)) fun u start fuel same enough => ?_
  obtain ⟨fuel, rfl⟩ : ∃ n, fuel = n + 1 := ⟨fuel - 1, by simp at enough; omega⟩
  have shorter : rest.length ≤ fuel := by simp at enough; omega
  have field : ∀ {Q : Term → List Lexeme → Prop} {onward : Term → Parser Term},
      (∀ loc, Reads (onward (.read loc (.text name))) rest Q) →
        Reads (lookupField level >>= onward) ((.symbol, name) :: rest) Q := by
    intro Q onward reads
    rw [lookupField, bind_assoc]
    refine runs_peek ?_
    show Reads ((expectName >>= _) >>= onward) _ _
    rw [bind_assoc]
    refine runs_expectName fun loc => ?_
    show Reads ((peek >>= _) >>= onward) _ _
    rw [bind_assoc]
    refine runs_peek ?_
    rw [if_neg (by simpa using stops.ne (by decide)), pure_bind]
    exact reads loc
  show Reads (lookupsOn level start (fuel + 1) u) _ _
  rw [lookupsOn]
  refine runs_eat (field fun loc => onward _ start fuel (same_binary same ?_) shorter)
  simp [Term.read, Term.same]

end Levels

end PolicyLogic.Source
