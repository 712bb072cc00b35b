import PolicyLogic.Proofs.Source.Brackets

/-!
# Canonical expressions at every level

A canonical term is read at the level of its own operator, and from there at every looser one.

* `Canonical.fronts` says how its lexemes begin, so that it is not taken for something else where it
  stands first; `Canonical.depth_pos` that it takes up a level of its own.
* `Parses` is what is known of lexemes at one level, `Parses.at_looser` carries it outwards, and
  `Parseable` is the same for a term at the level of its own operator, at every depth that has room.
  `Parseable.operand` adds the parentheses where the text has them.
* There is one lemma `parseable_…` for each shape of canonical terms, and `Canonical.parseable` is the
  induction over them.
-/

namespace PolicyLogic

open Source

/-! ## How canonical terms begin -/

/-- The strength of the operator at the head of a term; all other terms bind tightest. -/
def Term.rank (t : Term) : Nat := (t.operator?.map Operator.precedence).getD 8

/-- The strength of an operand, which parentheses make the tightest. -/
def operandRank (op : Operator) (arg : Term) : Nat := if op.encloses arg then 8 else arg.rank

theorem precedence_pos (op : Operator) : 1 ≤ op.precedence := by cases op <;> decide

theorem precedence_le (op : Operator) : op.precedence ≤ 8 := by cases op <;> decide

/-- Ranks are the precedences of operators, and that of a primary is above them all. -/
theorem Term.rank_pos (t : Term) : 1 ≤ t.rank := by
  rw [Term.rank]
  cases t.operator? with
  | none => decide
  | some op => exact precedence_pos op

theorem Term.rank_le (t : Term) : t.rank ≤ 8 := by
  rw [Term.rank]
  cases t.operator? with
  | none => decide
  | some op => exact precedence_le op

theorem rank_operation (o : Option Nat) (op : Operator) (args : List Term) :
    (Term.mk o (.operation op args)).rank = op.precedence := rfl

theorem operandRank_le (op : Operator) (arg : Term) : operandRank op arg ≤ 8 := by
  rw [operandRank]
  split
  · exact Nat.le_refl 8
  · exact arg.rank_le

/-- Parentheses are put where an operand would bind too loosely. -/
theorem precedence_le_operandRank (op : Operator) (arg : Term) :
    op.precedence ≤ operandRank op arg := by
  rw [operandRank, Operator.encloses, Term.rank]
  cases head : arg.operator? with
  | none => simpa using precedence_le op
  | some inner =>
      by_cases looser : inner.precedence < op.precedence
      · simpa [looser] using precedence_le op
      · simpa [looser] using Nat.not_lt.mp looser

/-- Whether or not an operand is put in brackets, it can stand in front. -/
theorem fronts_operand {op : Operator} {arg : Term} (fronts : Fronts arg.rank arg.spell) :
    Fronts (operandRank op arg) (operandLexemes op arg arg.spell) := by
  rw [operandRank, operandLexemes]
  split
  · exact fronts_cons (by simp [TokenKind.Opens]) (by simp)
  · exact fronts

/-- A binary operation begins as its left operand does. -/
theorem fronts_binary {o : Option Nat} {op : Operator} {left right : Term}
    (binary : op.isBinary = true) (fronts : Fronts left.rank left.spell) :
    Fronts (Term.mk o (.operation op [left, right])).rank
      (Term.mk o (.operation op [left, right])).spell := by
  rw [rank_operation, Term.spell, spellAll, spellAll, spellAll, operationLexemes_binary binary]
  have sign : op.signKind ≠ .colon := by cases op <;> decide
  exact ((fronts_operand fronts).append (by simpa [firstKind] using sign)).mono
    (precedence_le_operandRank op left)

/-- The word between the operands of a conjunction or a disjunction. -/
def joiningWord (op : Operator) : Lexeme := if op = .conj then (.kwAnd, "and") else (.kwOr, "or")

/-- The lexemes of operands after one another, each after the word. -/
def followingLexemes (op : Operator) (args : List Term) : List Lexeme :=
  args.flatMap fun t => joiningWord op :: operandLexemes op t t.spell

/-- Operands with a word between them are the first one and what follows it. -/
theorem intercalate_operands (op : Operator) (t : Term) (ts : List Term) :
    [joiningWord op].intercalate (List.zipWith (operandLexemes op) (t :: ts) (spellAll (t :: ts))) =
      operandLexemes op t t.spell ++ followingLexemes op ts := by
  induction ts generalizing t with
  | nil => simp [spellAll, followingLexemes]
  | cons u us ih =>
      have rest := ih u
      rw [spellAll, List.zipWith_cons_cons] at rest ⊢
      rw [spellAll, List.zipWith_cons_cons, List.intercalate_cons_cons, rest, List.append_assoc]
      rfl

/-- A conjunction or disjunction is written as its operands with the word between them. -/
theorem spell_joined (o : Option Nat) {op : Operator} (head : op = .conj ∨ op = .disj) (t : Term)
    (ts : List Term) : (Term.mk o (.operation op (t :: ts))).spell =
      operandLexemes op t t.spell ++ followingLexemes op ts := by
  rw [← intercalate_operands]
  rcases head with rfl | rfl <;> rfl

/-- A canonical term can stand wherever a term of its rank may begin. -/
theorem Canonical.fronts {t : Term} (canonical : Canonical t) : Fronts t.rank t.spell := by
  induction canonical with
  | var o isName => exact fronts_cons (by simp [TokenKind.Opens]) (by simp [firstKind])
  | integer o natural => exact fronts_cons (by simp [TokenKind.Opens]) (by simp)
  | boolean o b => cases b <;> exact fronts_cons (by simp [TokenKind.Opens]) (by simp)
  | text o writable => exact fronts_cons (by simp [TokenKind.Opens]) (by simp)
  | list o _ ih => exact fronts_cons (by simp [TokenKind.Opens]) (by simp)
  | openList o o' _ isName ih => exact fronts_cons (by simp [TokenKind.Opens]) (by simp)
  | dictionary o fields _ ih => exact fronts_cons (by simp [TokenKind.Opens]) (by simp)
  | call o isName _ ih =>
      exact fronts_cons (by simp [TokenKind.Opens]) (by simp [firstKind, parenthesisedLexemes])
  | namedCall o isName _ _ fields _ args named =>
      exact fronts_cons (by simp [TokenKind.Opens]) (by simp [firstKind, parenthesisedLexemes])
  | lookup o o' _ isName plain ih =>
      exact ((@fronts_operand .dot _ ih).append (by simp [firstKind])).mono
        (precedence_le_operandRank .dot _)
  | negation o _ ih => exact fronts_cons (.inr ⟨rfl, Nat.le_refl 3⟩) (by simp)
  | @joined o op args head two _ _ ih =>
      obtain ⟨t, ts, rfl⟩ := List.exists_cons_of_ne_nil
        (List.ne_nil_of_length_pos (Nat.lt_of_lt_of_le Nat.two_pos two))
      rw [spell_joined o head]
      refine ((fronts_operand (ih t List.mem_cons_self)).append ?_).mono
        (precedence_le_operandRank op t)
      cases ts with
      | nil => simp [followingLexemes, firstKind]
      | cons u us => rcases head with rfl | rfl <;> simp [followingLexemes, firstKind, joiningWord]
  | object o o' _ _ isTag fields _ ih each => exact fronts_binary rfl ih
  | record o o' _ _ fields _ ih each => exact fronts_binary rfl ih
  | relation o relation _ _ _ _ left right =>
      exact fronts_binary (by simp [Operator.isBinary, relation]) left
  | arithmetic o arithmetic _ _ _ left right =>
      exact fronts_binary (by simp [Operator.isBinary, arithmetic]) left

/-! ## How deep they are -/

/-- Brackets only make an operand deeper. -/
theorem depth_le_operandDepth (op : Operator) (arg : Term) :
    arg.depth ≤ operandDepth op arg arg.depth := by
  rw [operandDepth]
  split <;> omega

theorem depth_le_of_mem {t : Term} {ts : List Term} (member : t ∈ ts) : t.depth ≤ depthAll ts := by
  induction ts with
  | nil => cases member
  | cons u us ih =>
      rw [depthAll]
      rcases List.mem_cons.mp member with rfl | later
      · exact Nat.le_max_left _ _
      · exact Nat.le_trans (ih later) (Nat.le_max_right _ _)

theorem depth_le_of_mem_fields {field : String × Term} {fields : List (String × Term)}
    (member : field ∈ fields) : field.2.depth ≤ depthFields fields := by
  induction fields with
  | nil => cases member
  | cons other fields ih =>
      rw [depthFields]
      rcases List.mem_cons.mp member with rfl | later
      · exact Nat.le_max_left _ _
      · exact Nat.le_trans (ih later) (Nat.le_max_right _ _)

theorem operandDepth_le_of_mem {op : Operator} {t : Term} {ts : List Term} (member : t ∈ ts) :
    operandDepth op t t.depth ≤ depthOperands op ts := by
  induction ts with
  | nil => cases member
  | cons u us ih =>
      rw [depthOperands]
      rcases List.mem_cons.mp member with rfl | later
      · exact Nat.le_max_left _ _
      · exact Nat.le_trans (ih later) (Nat.le_max_right _ _)

/-- An operation is as deep as its deepest operand. -/
theorem depth_operation {o : Option Nat} {op : Operator} {args : List Term} (other : op ≠ .neg) :
    (Term.mk o (.operation op args)).depth = depthOperands op args := by
  rw [Term.depth]
  exact other

theorem Canonical.depth_pos {t : Term} (canonical : Canonical t) : 1 ≤ t.depth := by
  have operands : ∀ {op : Operator} {t : Term} {ts : List Term}, 1 ≤ t.depth → t ∈ ts →
      1 ≤ depthOperands op ts := fun positive member =>
    Nat.le_trans positive (Nat.le_trans (depth_le_operandDepth _ _) (operandDepth_le_of_mem member))
  induction canonical with
  | var | integer | boolean | text => simp [Term.depth]
  | list | openList | dictionary | call | namedCall | negation => simp [Term.depth]
  | lookup o o' _ isName plain ih => exact operands ih List.mem_cons_self
  | @joined o op args head two _ _ ih =>
      obtain ⟨t, ts, rfl⟩ := List.exists_cons_of_ne_nil
        (List.ne_nil_of_length_pos (Nat.lt_of_lt_of_le Nat.two_pos two))
      rw [depth_operation (by rcases head with rfl | rfl <;> decide)]
      exact operands (ih t List.mem_cons_self) List.mem_cons_self
  | object o o' _ _ isTag fields _ ih each => exact operands ih List.mem_cons_self
  | record o o' _ _ fields _ ih each => exact operands ih List.mem_cons_self
  | relation o relation _ _ _ _ left right =>
      rw [depth_operation (by rintro rfl; cases relation)]
      exact operands left List.mem_cons_self
  | arithmetic o arithmetic _ _ _ left right =>
      rw [depth_operation (by rintro rfl; cases arithmetic)]
      exact operands left List.mem_cons_self

/-! ## Reading them at every level -/

/-- The lexemes are read as the term at level `k`, and unrolled there if the level groups. -/
structure Parses (level : Level) (lexemes : List Lexeme) (t : Term) (k : Nat) : Prop where
  reads : ReadsAs (level.parser k) lexemes t (Stops k)
  unrolls : 5 ≤ k → k ≤ 7 → Unrolls level k lexemes t

section Parses

variable {level : Level} {lexemes : List Lexeme} {t : Term} {k r : Nat}

theorem parses_of_unrolls (unrolls : Unrolls level k lexemes t) (low : 5 ≤ k) (high : k ≤ 7) :
    Parses level lexemes t k :=
  ⟨unrolls.reads ⟨low, high⟩, fun _ _ => unrolls⟩

/-- What is read at the level of its own operator is read at every looser level. -/
theorem Parses.at_looser (parses : Parses level lexemes t r) (fronts : Fronts r lexemes)
    (positive : 1 ≤ k) (le : k ≤ r) (high : r ≤ 8) : Parses level lexemes t k := by
  induction le using Nat.decreasingInduction with
  | self => exact parses
  | of_succ k less ih =>
      have tighter := ih (by omega)
      exact ⟨reads_of_tighter tighter.reads (fronts.mono less) ⟨positive, by omega⟩,
        fun low high => unrolls_of_tighter tighter.reads (fronts.mono (by omega)) ⟨low, high⟩⟩

end Parses

/-- The term is read at the level of its own operator wherever there is room for its depth. -/
def Parseable (t : Term) : Prop :=
  ∀ n, t.depth ≤ n + 1 → Parses (.withDepth n) t.spell t t.rank

/-- A parseable term may be an element of a row. -/
theorem Parseable.element {t : Term} {n : Nat} (parseable : Parseable t) (canonical : Canonical t)
    (room : t.depth ≤ n) : Element (Level.withDepth n).expr t := by
  obtain ⟨n, rfl⟩ : ∃ m, n = m + 1 := ⟨n - 1, by have := canonical.depth_pos; omega⟩
  exact ⟨canonical.fronts.mono t.rank_pos,
    ((parseable n room).at_looser canonical.fronts (Nat.le_refl 1) t.rank_pos t.rank_le).reads⟩

/-- An operand is read at the level that its text has after parentheses are put. -/
theorem Parseable.operand {op : Operator} {t : Term} {n k : Nat} (parseable : Parseable t)
    (canonical : Canonical t) (room : operandDepth op t t.depth ≤ n + 1) (positive : 1 ≤ k)
    (le : k ≤ operandRank op t) :
    Parses (.withDepth n) (operandLexemes op t t.spell) t k := by
  refine Parses.at_looser ?_ (fronts_operand canonical.fronts) positive le (operandRank_le op t)
  rw [operandDepth] at room
  rw [operandLexemes, operandRank]
  split at room
  · rename_i enclosed
    rw [if_pos enclosed, if_pos enclosed]
    refine ⟨fun rest stops => ?_, fun _ high => absurd high (by decide)⟩
    have inner := (parseable.element canonical (Nat.le_of_succ_le_succ room)).reads
    show Reads (primary _) _ _
    rw [primary, parenthesisedLexemes, List.append_assoc]
    refine runs_here fun loc => runs_nextText (runs_peek (runs_advance ?_))
    refine inner.bind (stops_cons (by decide)) fun u same => runs_expect ?_
    exact reads_pure ⟨same, rfl⟩
  · rename_i bare
    rw [if_neg bare, if_neg bare]
    exact parseable n room

/-! ### The innermost expressions -/

/-- A primary is parseable if the parser of primaries reads it. -/
theorem parseable_of_primary {t : Term} (atom : t.rank = 8)
    (reads : ∀ n, t.depth ≤ n + 1 → ∀ rest, Stops 8 rest →
      Reads (primary (.withDepth n)) (t.spell ++ rest) fun u left => u.same t = true ∧ left = rest) :
    Parseable t := by
  intro n room
  rw [atom]
  exact ⟨reads n room, fun _ high => absurd high (by decide)⟩

/-- Variables are read back. -/
theorem parseable_var (o : Option Nat) (name : String) : Parseable (.mk o (.var name)) := by
  refine parseable_of_primary rfl fun n _ rest stops => ?_
  rw [primary]
  refine runs_here fun loc => runs_nextText (runs_peek (runs_expectName fun _ => runs_peek ?_))
  rw [if_neg (by simpa using stops.ne (by decide))]
  exact reads_pure ⟨by simp [Term.read, Term.same], rfl⟩

/-- Integers that are not negative are read back. -/
theorem parseable_integer (o : Option Nat) {n : Int64} (natural : 0 ≤ n.toInt) :
    Parseable (.mk o (.number (.integer n))) := by
  refine parseable_of_primary rfl fun m _ rest stops => ?_
  rw [primary]
  refine runs_here fun loc => runs_nextText (runs_peek (runs_advance ?_))
  have value : integerLiteral? (Numeral.integer n).text = some n := integerLiteral?_toString natural
  simp only [value]
  exact reads_pure ⟨by simp [Term.read, Term.same, Numeral.same, Numeral.compare?], rfl⟩

theorem parseable_boolean (o : Option Nat) (b : Bool) : Parseable (.mk o (.boolean b)) := by
  refine parseable_of_primary rfl fun n _ rest stops => ?_
  rw [primary]
  cases b <;>
  exact runs_here fun loc => runs_nextText (runs_peek (runs_advance
    (reads_pure ⟨by simp [Term.read, Term.same], rfl⟩)))

/-- Strings whose characters have a spelling are read back. -/
theorem parseable_text (o : Option Nat) {s : String} (writable : IsWritableText s) :
    Parseable (.mk o (.text s)) := by
  refine parseable_of_primary rfl fun n _ rest stops => ?_
  rw [primary]
  refine runs_here fun loc => runs_nextText (runs_peek (runs_advance (reads_pure ⟨?_, rfl⟩)))
  simp [Term.read, Term.same, unquote_quote, writable.reread]

/-- Lists are read back if their rows of elements are. -/
theorem parseable_list (o : Option Nat) {ts : List Term}
    (row : ∀ n, depthAll ts ≤ n → ts = [] ∨ Row (Level.withDepth n).expr ts) :
    Parseable (.mk o (.list ts)) := by
  refine parseable_of_primary rfl fun n room rest stops => ?_
  rw [Term.depth] at room
  rw [primary, Term.spell, List.append_assoc]
  refine runs_here fun loc => runs_nextText (runs_peek ?_)
  refine reads_listValue (row n (Nat.le_of_succ_le_succ room)) fun us same => reads_pure ⟨?_, rfl⟩
  simp [Term.read, Term.same, same]

/-- Dictionaries are read back if their values are. -/
theorem parseable_dictionary (o : Option Nat) {fields : List (String × Term)}
    (order : InOrder fields) (each : ∀ n, depthFields fields ≤ n → ∀ field ∈ fields,
      Element (Level.withDepth n).expr field.2) : Parseable (.mk o (.dictionary fields)) := by
  refine parseable_of_primary rfl fun n room rest stops => ?_
  rw [Term.depth] at room
  rw [primary, Term.spell, List.append_assoc]
  refine runs_here fun loc => runs_nextText (runs_peek ?_)
  refine reads_braceFields order (each n (Nat.le_of_succ_le_succ room)) fun us same =>
    reads_pure ⟨?_, rfl⟩
  simp [Term.read, Term.same, same]

/-- Calls are equal when their arguments are. -/
theorem same_call {o o' : Option Nat} {name : String} {us args : List Term}
    {vs named : Option (List (String × Term))} (plain : sameAll us args = true)
    (fields : SameNamed vs named) :
    (Term.mk o (.call name us vs)).same (.mk o' (.call name args named)) = true := by
  cases vs <;> cases named
  · simp [Term.same, plain]
  · cases fields
  · cases fields
  · have equal : sameFields _ _ = true := fields
    simp [Term.same, plain, equal]

/-- Calls are read back if their arguments are. -/
theorem parseable_call (o : Option Nat) (name : String) {args : List Term}
    {named : Option (List (String × Term))}
    (plain : ∀ n, (Term.mk o (.call name args named)).depth ≤ n + 1 → ∀ t ∈ args,
      Element (Level.withDepth n).expr t)
    (elements : ∀ n, (Term.mk o (.call name args named)).depth ≤ n + 1 →
      NamedElements (Level.withDepth n).expr named) :
    Parseable (.mk o (.call name args named)) := by
  refine parseable_of_primary rfl fun n room rest stops => ?_
  have spelled : (Term.mk o (.call name args named)).spell ++ rest =
      (.symbol, name) :: (.lparen, "(") :: argumentLexemes args named rest := by
    cases named <;> simp [Term.spell, parenthesisedLexemes, spellFields]
  rw [spelled, primary]
  refine runs_here fun loc => runs_nextText (runs_peek (runs_expectName fun _ => runs_peek ?_))
  rw [if_pos (by simp [firstKind]), callValue, bind_assoc]
  refine reads_callArguments (plain n room) (elements n room) fun us vs same sames => ?_
  exact reads_pure ⟨same_call same sames, rfl⟩

/-! ### Operator expressions -/

/-- Lookups are read back, on a base in brackets if it needs them. -/
theorem parseable_lookup (o o' : Option Nat) {base : Term} (name : String)
    (canonical : Canonical base) (parseable : Parseable base) :
    Parseable (.mk o (.operation .dot [base, .mk o' (.text name)])) := by
  intro n room
  have first : Parses (.withDepth n) (operandLexemes .dot base base.spell) base 7 :=
    parseable.operand canonical (Nat.le_trans (operandDepth_le_of_mem List.mem_cons_self) room)
      (by decide) (precedence_le_operandRank .dot base)
  exact parses_of_unrolls (first.unrolls (by decide) (by decide)).lookup (Nat.le_add_right 5 2)
    (Nat.le_refl 7)

/-- Negations are read back. -/
theorem parseable_negation (o : Option Nat) {t : Term} (canonical : Canonical t)
    (parseable : Parseable t) : Parseable (.mk o (.operation .neg [t])) := by
  intro n room
  have inside : operandDepth .neg t t.depth ≤ n :=
    Nat.le_trans (operandDepth_le_of_mem List.mem_cons_self) (Nat.le_of_succ_le_succ room)
  have positive := Nat.le_trans canonical.depth_pos (depth_le_operandDepth .neg t)
  obtain ⟨n, rfl⟩ : ∃ m, n = m + 1 := ⟨n - 1, by omega⟩
  have operand := (parseable.operand canonical inside (by decide)
    (precedence_le_operandRank .neg t)).reads
  refine ⟨fun rest stops => ?_, fun low _ => absurd low (by rw [rank_operation]; decide)⟩
  show Reads (negation _) ((.kwNot, "not") :: operandLexemes .neg t t.spell ++ rest) _
  rw [negation]
  refine runs_here fun loc => runs_eat ?_
  refine operand.bind stops fun u same => reads_pure ⟨?_, rfl⟩
  exact same_operation (by simp [sameAll, same])

/-- An operand that is not headed by an operator of the same strength binds tighter than it. -/
theorem lt_operandRank {op : Operator} {t : Term}
    (other : ∀ inner, t.operator? = some inner → inner.precedence ≠ op.precedence)
    (loose : op.precedence < 8) : op.precedence + 1 ≤ operandRank op t := by
  rcases Nat.lt_or_eq_of_le (precedence_le_operandRank op t) with less | equal
  · exact less
  rw [operandRank, Term.rank] at equal
  split at equal
  · omega
  · cases head : t.operator? with
    | none => rw [head] at equal; simp at equal; omega
    | some inner => exact absurd (by simpa [head] using equal.symm) (other inner head)

/-! ### Conjunctions and disjunctions -/

/-- What follows an operand begins with a word that ends it. -/
theorem stops_following {op : Operator} {ts : List Term} {k : Nat} {rest : List Lexeme}
    (strength : (joiningWord op).1.strength = k) (stops : Stops k rest) :
    Stops (k + 1) (followingLexemes op ts ++ rest) := by
  cases ts with
  | nil => exact stops.mono (Nat.le_succ k)
  | cons t ts =>
      intro kind first
      obtain rfl : (joiningWord op).1 = kind := by simpa [followingLexemes, firstKind] using first
      omega

/-- The loop for a row of operands reads them all and stops after them. -/
theorem reads_operandsAfter {operand : Parser Term} {op : Operator} {k : Nat} {rest : List Lexeme}
    {ts : List Term} (each : ∀ t ∈ ts, ReadsAs operand (operandLexemes op t t.spell) t (Stops (k + 1)))
    (strength : (joiningWord op).1.strength = k) (stops : Stops k rest) {fuel : Nat}
    (acc : List Term) {Q : List Term → List Lexeme → Prop}
    (enough : (followingLexemes op ts ++ rest).length ≤ fuel)
    (holds : ∀ us, sameAll us ts = true → Q (acc ++ us) rest) :
    Reads (operandsAfter operand (joiningWord op).1 fuel acc) (followingLexemes op ts ++ rest) Q := by
  induction ts generalizing fuel acc with
  | nil =>
      have done : Q acc rest := by simpa using holds [] rfl
      cases fuel with
      | zero => exact reads_pure done
      | succ fuel =>
          rw [operandsAfter]
          refine runs_eat_other (stops.ne strength.ge) ?_
          exact reads_pure done
  | cons t ts ih =>
      have shown : followingLexemes op (t :: ts) ++ rest = joiningWord op ::
          (operandLexemes op t t.spell ++ (followingLexemes op ts ++ rest)) := by
        simp [followingLexemes]
      rw [shown] at enough ⊢
      obtain ⟨fuel, rfl⟩ : ∃ n, fuel = n + 1 := ⟨fuel - 1, by simp at enough; omega⟩
      rw [operandsAfter]
      refine runs_eat ?_
      rw [if_pos rfl]
      refine (each t List.mem_cons_self).bind (stops_following strength stops) fun u same => ?_
      refine ih (fun s member => each s (List.mem_cons_of_mem _ member)) _ ?_ fun us sames => ?_
      · simp only [List.length_append, List.length_cons] at enough ⊢
        omega
      · rw [List.append_assoc]
        exact holds (u :: us) (by simp [sameAll, same, sames])

/-- Conjunctions and disjunctions are read back as one row of operands. -/
theorem parseable_joined (o : Option Nat) {op : Operator} {args : List Term}
    (head : op = .conj ∨ op = .disj) (two : 2 ≤ args.length)
    (canonical : ∀ t ∈ args, Canonical t) (distinct : ∀ t ∈ args, t.operator? ≠ some op)
    (parseable : ∀ t ∈ args, Parseable t) : Parseable (.mk o (.operation op args)) := by
  intro n room
  rw [depth_operation (by rcases head with rfl | rfl <;> decide)] at room
  have strength : (joiningWord op).1.strength = op.precedence := by
    rcases head with rfl | rfl <;> rfl
  have only : ∀ inner : Operator, inner.precedence = op.precedence → inner = op := by
    rcases head with rfl | rfl <;> (intro inner; cases inner <;> simp [Operator.precedence])
  have loose : op.precedence ≤ 2 := by rcases head with rfl | rfl <;> decide
  have each : ∀ t ∈ args, ReadsAs ((Level.withDepth n).parser (op.precedence + 1))
      (operandLexemes op t t.spell) t (Stops (op.precedence + 1)) := fun t member =>
    ((parseable t member).operand (canonical t member)
      (Nat.le_trans (operandDepth_le_of_mem member) room) (by omega)
      (lt_operandRank (fun inner isHead equal => distinct t member (only inner equal ▸ isHead))
        (by omega))).reads
  refine ⟨fun rest stops => ?_, fun low _ => absurd low (by rw [rank_operation]; omega)⟩
  rw [rank_operation] at stops ⊢
  have level : (Level.withDepth n).parser op.precedence =
      joined ((Level.withDepth n).parser (op.precedence + 1)) (joiningWord op).1 op := by
    rcases head with rfl | rfl <;> rfl
  obtain ⟨t, ts, rfl⟩ := List.exists_cons_of_ne_nil
    (List.ne_nil_of_length_pos (Nat.lt_of_lt_of_le Nat.two_pos two))
  rw [level, joined, spell_joined o head, List.append_assoc]
  refine runs_here fun start => ?_
  refine (each t List.mem_cons_self).bind (stops_following strength stops) fun u same => ?_
  refine runs_peek ?_
  rw [if_neg]
  · refine runs_bound fun fuel enough => ?_
    have items := reads_operandsAfter (fun s member => each s (List.mem_cons_of_mem _ member)) strength
      stops [u] enough (Q := fun found left => sameAll found (t :: ts) = true ∧ left = rest)
      fun us sames => ⟨by simp [sameAll, same, sames], rfl⟩
    refine items.bind fun found left shown => ?_
    exact reads_pure ⟨same_operation shown.1, shown.2⟩
  · obtain ⟨s, more, rfl⟩ := List.exists_cons_of_ne_nil fun none : ts = [] => by
      rw [none] at two; simp at two
    simp [followingLexemes, firstKind]

/-! ### Sums, products and comparisons -/

/-- Sums and products are read back as they are grouped, to the left. -/
theorem parseable_arithmetic (o : Option Nat) {op : Operator} {left right : Term}
    (arithmetic : op.isArithmetic = true) (canonical : Canonical left) (canonical' : Canonical right)
    (grouped : ∀ inner, right.operator? = some inner → inner.isArithmetic = true →
      inner.precedence ≠ op.precedence) (parseable : Parseable left) (parseable' : Parseable right) :
    Parseable (.mk o (.operation op [left, right])) := by
  intro n room
  rw [depth_operation (by rintro rfl; cases arithmetic)] at room
  obtain ⟨-, sign⟩ := sign_of_isArithmetic arithmetic
  have other : ∀ inner, right.operator? = some inner → inner.precedence ≠ op.precedence := by
    intro inner head
    by_cases isArithmetic : inner.isArithmetic = true
    · exact grouped inner head isArithmetic
    · have range : inner.precedence ≠ 5 ∧ inner.precedence ≠ 6 := by
        cases inner <;> first | exact absurd rfl isArithmetic | decide
      omega
  have first : Parses (.withDepth n) (operandLexemes op left left.spell) left op.precedence :=
    parseable.operand canonical (Nat.le_trans (operandDepth_le_of_mem (by simp)) room)
      (precedence_pos op) (precedence_le_operandRank op left)
  have second : Parses (.withDepth n) (operandLexemes op right right.spell) right
      (op.precedence + 1) :=
    parseable'.operand canonical' (Nat.le_trans (operandDepth_le_of_mem (by simp)) room)
      (by omega) (lt_operandRank other (by omega))
  have fronts := (@fronts_operand op _ canonical'.fronts).mono
    (Nat.le_trans (show 4 ≤ op.precedence by omega) (precedence_le_operandRank op right))
  have whole := (first.unrolls (by omega) (by omega)).operand (o := o) second.reads fronts
    arithmetic rfl
  rw [rank_operation, Term.spell, spellAll, spellAll, spellAll,
    operationLexemes_binary (by simp [Operator.isBinary, arithmetic])]
  exact parses_of_unrolls whole (by omega) (by omega)

/-- Comparisons share one precedence and are told apart by their signs. -/
theorem precedence_of_isUnchained {op : Operator} (relation : op.isUnchained = true ∨ op = .isa) :
    op.precedence = 4 ∧ comparisonOperator? op.signKind = some op := by
  cases op with
  | unify | eq | neq | lt | leq | gt | geq | member | assign | isa => exact ⟨rfl, rfl⟩
  | _ => rcases relation with relation | relation <;> cases relation

theorem isUnchained_of_precedence {op : Operator} (strength : op.precedence = 4) :
    (op.isUnchained || op = .isa) = true := by
  cases op <;> first | decide | cases strength

/-- An operand of a comparison binds tighter than comparisons. -/
theorem four_lt_operandRank {op : Operator} {t : Term} (strength : op.precedence = 4)
    (other : t.isUnchained = false) : 5 ≤ operandRank op t := by
  have tighter : op.precedence + 1 ≤ operandRank op t :=
    lt_operandRank (fun inner head same => by
      have apart : (inner.isUnchained || inner = .isa) = false := by
        rwa [Term.isUnchained, head] at other
      rw [isUnchained_of_precedence (same.trans strength)] at apart
      cases apart) (by omega)
  rwa [strength] at tighter

/-- What stands to the right of a comparison or of `matches`. -/
def rightOf (op : Operator) (level : Level) : Parser Term :=
  if op = .isa then do
    let loc ← here
    pure (.read loc (← patternValue level))
  else sum level

/-- A comparison is read back if its right side is, as it is read there. -/
theorem parseable_comparison (o : Option Nat) {op : Operator} {left right : Term}
    (relation : op.isUnchained = true ∨ op = .isa) (canonical : Canonical left)
    (other : left.isUnchained = false) (parseable : Parseable left)
    (second : ∀ n, operandDepth op right right.depth ≤ n + 1 →
      ReadsAs (rightOf op (.withDepth n)) (operandLexemes op right right.spell) right (Stops 5)) :
    Parseable (.mk o (.operation op [left, right])) := by
  intro n room
  obtain ⟨strength, sign⟩ := precedence_of_isUnchained relation
  have binary : op.isBinary = true := by
    rcases relation with relation | rfl
    · simp [Operator.isBinary, relation]
    · rfl
  rw [depth_operation (by rintro rfl; cases strength)] at room
  have first : Parses (.withDepth n) (operandLexemes op left left.spell) left 5 :=
    parseable.operand canonical (Nat.le_trans (operandDepth_le_of_mem (by simp)) room) (by decide)
      (four_lt_operandRank strength other)
  have second := second n (Nat.le_trans (operandDepth_le_of_mem (by simp)) room)
  rw [rank_operation, strength, Term.spell, spellAll, spellAll, spellAll,
    operationLexemes_binary binary]
  refine ⟨fun rest stops => ?_, fun low _ => absurd low (by decide)⟩
  show Reads (comparison _) _ _
  rw [List.append_assoc, comparison]
  have looser : op.signKind.strength < 5 := by
    rw [strength_of_comparison sign]; decide
  refine runs_here fun start => first.reads.bind (stops_cons looser) fun u same => runs_peek ?_
  have found : (firstKind ((op.signKind, op.sign) :: operandLexemes op right right.spell ++ rest)).bind
      comparisonOperator? = some op := sign
  rw [found]
  refine runs_advance ?_
  have onward : Reads (rightOf op (.withDepth n) >>= fun v => pure (operationAt start op [u, v]))
      (operandLexemes op right right.spell ++ rest) fun v left' =>
        v.same (.mk o (.operation op [left, right])) = true ∧ left' = rest :=
    second.bind (stops.mono (by decide)) fun v same' => reads_pure ⟨same_binary same same', rfl⟩
  rw [rightOf] at onward
  by_cases pattern : op = .isa
  · rw [if_pos pattern] at onward ⊢
    simp only [bind_assoc] at onward
    exact onward
  · rw [if_neg pattern] at onward ⊢
    exact onward

/-- Relations of operands that are no relations are read back. -/
theorem parseable_relation (o : Option Nat) {op : Operator} {left right : Term}
    (relation : op.isUnchained = true) (canonical : Canonical left) (canonical' : Canonical right)
    (other : left.isUnchained = false) (other' : right.isUnchained = false)
    (parseable : Parseable left) (parseable' : Parseable right) :
    Parseable (.mk o (.operation op [left, right])) := by
  obtain ⟨strength, -⟩ := precedence_of_isUnchained (.inl relation)
  refine parseable_comparison o (.inl relation) canonical other parseable fun n room => ?_
  rw [rightOf, if_neg (by rintro rfl; cases relation)]
  exact (parseable'.operand canonical' room (by decide) (four_lt_operandRank strength other')).reads

/-! ### Patterns -/

/-- The fields of a pattern are read one level deeper. -/
def FieldsParseable (fields : List (String × Term)) : Prop :=
  ∀ n, depthFields fields ≤ n → ∀ field ∈ fields, Element (Level.withDepth n).expr field.2

/-- A pattern is read as a pattern with equal fields. -/
theorem reads_patternValue {α : Type} {shape : Pattern} (order : InOrder shape.fields)
    (parseable : FieldsParseable shape.fields) {n : Nat} (room : depthFields shape.fields ≤ n)
    {rest : List Lexeme} {next : Value → Parser α} {Q : α → List Lexeme → Prop}
    (onward : ∀ us : Pattern, us.same shape = true → Reads (next (.pattern us)) rest Q) :
    Reads (patternValue (.withDepth n) >>= next) ((Term.pattern shape).spell ++ rest) Q := by
  rw [patternValue, bind_assoc]
  refine runs_peekSecond ?_
  rw [bind_assoc]
  refine runs_peek ?_
  cases shape with
  | record fields =>
      rw [Term.pattern, Term.of, Term.spell, List.append_assoc]
      show Reads ((braceFields _ >>= _) >>= _) _ _
      rw [bind_assoc]
      refine reads_braceFields order (parseable n room) fun us same => onward (.record us) ?_
      have equal : sameFields us fields = true := same
      simp [Pattern.same, Term.pattern, Term.of, Term.same, equal]
  | object tag fields =>
      have shown : (Term.pattern (.object tag fields)).spell ++ rest =
          (.symbol, tag) :: (.lbrace, "\x7b") :: fieldLexemes fields (.rbrace, "\x7d") rest := by
        simp [Term.pattern, Term.of, Term.spell]
      rw [shown]
      show Reads ((if (some TokenKind.lbrace != some .lparen && some TokenKind.lbrace != some .dot) =
        true then _ else _) >>= _) _ _
      rw [if_pos (by decide), bind_assoc]
      refine runs_expectName fun _ => ?_
      rw [bind_assoc]
      refine runs_peek ?_
      rw [if_pos (by simp [firstKind]), bind_assoc]
      refine reads_braceFields order (parseable n room) fun us same => onward (.object tag us) ?_
      have equal : sameFields us fields = true := same
      simp [Pattern.same, Term.pattern, Term.of, Term.same, equal]

/-- The right side of a match is read as a pattern. -/
theorem reads_rightOf_isa (o : Option Nat) {shape : Pattern} (order : InOrder shape.fields)
    (parseable : FieldsParseable shape.fields) {n : Nat} (room : depthFields shape.fields ≤ n) :
    ReadsAs (rightOf .isa (.withDepth n)) (Term.mk o (.pattern shape)).spell
      (.mk o (.pattern shape)) (Stops 5) := by
  intro rest stops
  have shown : (Term.mk o (.pattern shape)).spell = (Term.pattern shape).spell := by
    cases shape <;> rfl
  rw [shown, rightOf, if_pos rfl]
  refine runs_here fun loc => reads_patternValue order parseable room fun us same =>
    reads_pure ⟨?_, rfl⟩
  cases us <;> cases shape <;> exact same

/-! ## Every canonical term -/

/-- Matches are read back. -/
theorem parseable_isa (o o' : Option Nat) {t : Term} {shape : Pattern} (canonical : Canonical t)
    (other : t.isUnchained = false) (parseable : Parseable t) (order : InOrder shape.fields)
    (fields : FieldsParseable shape.fields) :
    Parseable (.mk o (.operation .isa [t, .mk o' (.pattern shape)])) := by
  refine parseable_comparison o (.inr rfl) canonical other parseable fun n room => ?_
  refine reads_rightOf_isa o' order fields (Nat.le_of_succ_le_succ (Nat.le_trans (Nat.le_of_eq ?_) room))
  cases shape <;> rfl

/-- Elements with at most one rest variable, at the end, are a row. -/
theorem row_of_elements {expr : Parser Term} {ts tail : List Term}
    (each : ∀ t ∈ ts, Element expr t)
    (last : tail = [] ∨ ∃ o name, tail = [.mk o (.rest name)]) :
    ts ++ tail = [] ∨ Row expr (ts ++ tail) := by
  induction ts with
  | nil =>
      rcases last with rfl | ⟨o, name, rfl⟩
      · exact .inl rfl
      · exact .inr .tail
  | cons t ts ih =>
      have element := each t List.mem_cons_self
      rcases ih fun s member => each s (List.mem_cons_of_mem _ member) with none | row
      · rw [List.cons_append, none]
        exact .inr (.last element)
      · exact .inr (.cons element row)

/-- Every canonical term is read back, at the level of its own operator. -/
theorem Canonical.parseable {t : Term} (canonical : Canonical t) : Parseable t := by
  have elements : ∀ {ts : List Term} {n : Nat}, (∀ t ∈ ts, Canonical t) → (∀ t ∈ ts, Parseable t) →
      depthAll ts ≤ n → ∀ t ∈ ts, Element (Level.withDepth n).expr t :=
    fun canonical parseable room t member =>
      (parseable t member).element (canonical t member)
        (Nat.le_trans (depth_le_of_mem member) room)
  have fieldElements : ∀ {fields : List (String × Term)}, (∀ field ∈ fields, Canonical field.2) →
      (∀ field ∈ fields, Parseable field.2) → FieldsParseable fields :=
    fun canonical parseable n room field member =>
      (parseable field member).element (canonical field member)
        (Nat.le_trans (depth_le_of_mem_fields member) room)
  induction canonical with
  | var o isName => exact parseable_var o _
  | integer o natural => exact parseable_integer o natural
  | boolean o b => exact parseable_boolean o b
  | text o writable => exact parseable_text o writable
  | list o canonical ih =>
      refine parseable_list o fun n room => ?_
      simpa using row_of_elements (elements canonical ih room) (.inl rfl)
  | openList o o' canonical isName ih =>
      refine parseable_list o fun n room => row_of_elements (fun t member => ?_) (.inr ⟨_, _, rfl⟩)
      exact (ih t member).element (canonical t member)
        (Nat.le_trans (depth_le_of_mem (List.mem_append_left _ member)) room)
  | dictionary o fields canonical ih =>
      exact parseable_dictionary o fields.order (fieldElements canonical ih)
  | @call o name args isName canonical ih =>
      exact parseable_call o name
        (fun n room => elements canonical ih (Nat.le_of_succ_le_succ room))
        fun n room => ⟨by simp, List.Pairwise.nil, by simp⟩
  | @namedCall o name args named isName canonical nonempty fields canonical' ih ih' =>
      have both : ∀ {n}, (Term.mk o (.call name args (some named))).depth ≤ n + 1 →
          depthAll args ≤ n ∧ depthFields named ≤ n := fun room => by
        rw [Term.depth] at room
        omega
      exact parseable_call o name (fun n room => elements canonical ih (both room).1)
        fun n room => ⟨by simpa using nonempty, fields.order,
          fieldElements canonical' ih' n (both room).2⟩
  | lookup o o' canonical isName plain ih => exact parseable_lookup o o' _ canonical ih
  | negation o canonical ih => exact parseable_negation o canonical ih
  | joined o head two canonical distinct ih =>
      exact parseable_joined o head two canonical distinct ih
  | object o o' canonical other isTag fields canonical' ih ih' =>
      exact parseable_isa o o' canonical other ih fields.order (fieldElements canonical' ih')
  | record o o' canonical other fields canonical' ih ih' =>
      exact parseable_isa o o' canonical other ih fields.order (fieldElements canonical' ih')
  | relation o relation left right other other' ih ih' =>
      exact parseable_relation o relation left right other other' ih ih'
  | arithmetic o arithmetic left right grouped ih ih' =>
      exact parseable_arithmetic o arithmetic left right grouped ih ih'

end PolicyLogic
