import PolicyLogic.Proofs.Source.Lexing
import PolicyLogic.Proofs.Term.Pure
import PolicyLogic.Term.Printer

/-!
# Canonical terms and how they are spelled

`Canonical` are the terms that a rendered text can stand for: the operators that the language writes
between operands are grouped as the parser groups them, names and keys are single tokens, and a
pattern stands to the right of `matches` only.

* `Term.spell` lists the tokens of a term, as `Term.render` writes their text.
* `Term.depth` is the number of levels that reading the term takes: the term itself is one, and each
  bracket, parenthesis or `not` inside another is one more.
* `prints` says that the text of a canonical term is cut into the tokens that it is spelled with,
  whatever comes after it, provided an expression can end there.
-/

namespace PolicyLogic

open Source

/-! ## Spelling -/

/-- The kind of the token that a binary operator is written with. -/
def Operator.signKind : Operator → TokenKind
  | .unify => .equals | .assign => .assign | .eq => .eqEq | .neq => .notEq
  | .lt => .less | .leq => .lessEq | .gt => .greater | .geq => .greaterEq
  | .member => .kwIn | .isa => .kwMatches
  | .add => .plus | .sub => .minus | .mul => .star | .div => .slash
  | .mod => .kwMod | .rem => .kwRem
  | _ => .query

/-- An operand is put in parentheses if its own operator binds looser. -/
def Operator.encloses (op : Operator) (arg : Term) : Bool :=
  match arg.operator? with
  | some inner => inner.precedence < op.precedence
  | none => false

/-- Lexemes between parentheses. -/
def parenthesisedLexemes (lexemes : List Lexeme) : List Lexeme :=
  (.lparen, "(") :: lexemes ++ [(.rparen, ")")]

/-- Rows of lexemes with commas between them. -/
def commaLexemes (rows : List (List Lexeme)) : List Lexeme :=
  List.intercalate [(.comma, ",")] rows

/-- The lexemes of an operand, in parentheses if its operator binds looser than `op`. -/
def operandLexemes (op : Operator) (arg : Term) (shown : List Lexeme) : List Lexeme :=
  if op.encloses arg then parenthesisedLexemes shown else shown

/-- The lexemes of an operator expression, given its operands and their lexemes. -/
def operationLexemes (op : Operator) (args : List Term) (shown : List (List Lexeme)) : List Lexeme :=
  let operands := List.zipWith (operandLexemes op) args shown
  match op with
  | .conj => List.intercalate [(.kwAnd, "and")] operands
  | .disj => List.intercalate [(.kwOr, "or")] operands
  | .neg => (.kwNot, "not") :: operands.headD []
  | .dot =>
    match args, operands with
    | [_, field], [base, _] =>
      match field.value with
      | .text name => base ++ [(.dot, "."), (.symbol, name)]
      | _ => []
    | _, _ => []
  | op =>
    match operands with
    | [left, right] => left ++ (op.signKind, op.sign) :: right
    | _ => []

mutual

/-- The tokens of a term that the language can write. -/
def Term.spell : Term → List Lexeme
  | .mk _ (.number n) => [(.integer, n.text)]
  | .mk _ (.text s) => [(.string, Text.quote s)]
  | .mk _ (.boolean b) => [if b then (.truth, "true") else (.falsity, "false")]
  | .mk _ (.list elements) =>
    (.lbracket, "[") :: commaLexemes (spellAll elements) ++ [(.rbracket, "]")]
  | .mk _ (.dictionary fields) =>
    (.lbrace, "\x7b") :: commaLexemes (spellFields fields) ++ [(.rbrace, "\x7d")]
  | .mk _ (.handle _ _ _) => []
  | .mk _ (.var name) => [(.symbol, name)]
  | .mk _ (.rest name) => [(.star, "*"), (.symbol, name)]
  | .mk _ (.call name args none) =>
    (.symbol, name) :: parenthesisedLexemes (commaLexemes (spellAll args))
  | .mk _ (.call name args (some named)) =>
    (.symbol, name) :: parenthesisedLexemes (commaLexemes (spellAll args ++ spellFields named))
  | .mk _ (.pattern (.record fields)) =>
    (.lbrace, "\x7b") :: commaLexemes (spellFields fields) ++ [(.rbrace, "\x7d")]
  | .mk _ (.pattern (.object tag fields)) =>
    (.symbol, tag) :: (.lbrace, "\x7b") :: commaLexemes (spellFields fields) ++
      [(.rbrace, "\x7d")]
  | .mk _ (.operation op args) => operationLexemes op args (spellAll args)

/-- The tokens of each term of a list. -/
def spellAll : List Term → List (List Lexeme)
  | [] => []
  | t :: ts => t.spell :: spellAll ts

/-- The tokens of each field of a map. -/
def spellFields : List (String × Term) → List (List Lexeme)
  | [] => []
  | (name, t) :: fields => ((.symbol, name) :: (.colon, ":") :: t.spell) :: spellFields fields

end

/-! ## Depth -/

/-- The levels that an operand takes, one more if it is put in parentheses. -/
def operandDepth (op : Operator) (arg : Term) (depth : Nat) : Nat :=
  if op.encloses arg then depth + 1 else depth

mutual

/-- The number of levels that reading a term takes, itself included. -/
def Term.depth : Term → Nat
  | .mk _ (.list elements) => depthAll elements + 1
  | .mk _ (.dictionary fields) => depthFields fields + 1
  | .mk _ (.rest _) => 0
  | .mk _ (.call _ args none) => depthAll args + 1
  | .mk _ (.call _ args (some named)) => max (depthAll args) (depthFields named) + 1
  | .mk _ (.pattern (.record fields)) => depthFields fields + 1
  | .mk _ (.pattern (.object _ fields)) => depthFields fields + 1
  | .mk _ (.operation .neg args) => depthOperands .neg args + 1
  | .mk _ (.operation op args) => depthOperands op args
  | _ => 1

/-- The greatest depth of the terms of a list. -/
def depthAll : List Term → Nat
  | [] => 0
  | t :: ts => max t.depth (depthAll ts)

/-- The greatest depth of the fields of a map. -/
def depthFields : List (String × Term) → Nat
  | [] => 0
  | (_, t) :: fields => max t.depth (depthFields fields)

/-- The greatest depth of the operands of an operator. -/
def depthOperands (op : Operator) : List Term → Nat
  | [] => 0
  | t :: ts => max (operandDepth op t t.depth) (depthOperands op ts)

end

/-! ## Canonical terms -/

/-- The operators that compare, test or unify two operands. Like the test for a pattern they do not
chain. -/
def Operator.isUnchained (op : Operator) : Bool :=
  op.isComparison || op = .member || op = .unify || op = .assign

/-- The term is headed by an operator that does not chain. -/
def Term.isUnchained (t : Term) : Bool :=
  match t.operator? with
  | some op => op.isUnchained || op = .isa
  | none => false

/-- The fields of a map as they are written: each name is one token, in order. -/
structure AreFields (fields : List (String × Term)) : Prop where
  order : InOrder fields
  names : ∀ field ∈ fields, IsName field.1

/-- The terms that are written as they are read. -/
inductive Canonical : Term → Prop
  | var (o : Option Nat) {name : String} : IsName name → Canonical (.mk o (.var name))
  | integer (o : Option Nat) {n : Int64} :
    0 ≤ n.toInt → Canonical (.mk o (.number (.integer n)))
  | boolean (o : Option Nat) (b : Bool) : Canonical (.mk o (.boolean b))
  | text (o : Option Nat) {s : String} : IsWritableText s → Canonical (.mk o (.text s))
  | list (o : Option Nat) {elements : List Term} :
    (∀ t ∈ elements, Canonical t) → Canonical (.mk o (.list elements))
  | openList (o o' : Option Nat) {elements : List Term} {name : String} :
    (∀ t ∈ elements, Canonical t) → IsName name →
      Canonical (.mk o (.list (elements ++ [.mk o' (.rest name)])))
  | dictionary (o : Option Nat) {fields : List (String × Term)} :
    AreFields fields → (∀ field ∈ fields, Canonical field.2) →
      Canonical (.mk o (.dictionary fields))
  | call (o : Option Nat) {name : String} {args : List Term} :
    IsName name → (∀ t ∈ args, Canonical t) → Canonical (.mk o (.call name args none))
  | namedCall (o : Option Nat) {name : String} {args : List Term}
      {named : List (String × Term)} :
    IsName name → (∀ t ∈ args, Canonical t) → named ≠ [] → AreFields named →
      (∀ field ∈ named, Canonical field.2) → Canonical (.mk o (.call name args (some named)))
  | lookup (o o' : Option Nat) {base : Term} {name : String} :
    Canonical base → IsName name → (∀ c ∈ name.toList, isNameChar c = true) →
      Canonical (.mk o (.operation .dot [base, .mk o' (.text name)]))
  | negation (o : Option Nat) {t : Term} :
    Canonical t → Canonical (.mk o (.operation .neg [t]))
  | joined (o : Option Nat) {op : Operator} {args : List Term} :
    op = .conj ∨ op = .disj → 2 ≤ args.length → (∀ t ∈ args, Canonical t) →
      (∀ t ∈ args, t.operator? ≠ some op) → Canonical (.mk o (.operation op args))
  | object (o o' : Option Nat) {t : Term} {tag : String} {fields : List (String × Term)} :
    Canonical t → t.isUnchained = false → IsName tag → AreFields fields →
      (∀ field ∈ fields, Canonical field.2) →
        Canonical (.mk o (.operation .isa [t, .mk o' (.pattern (.object tag fields))]))
  | record (o o' : Option Nat) {t : Term} {fields : List (String × Term)} :
    Canonical t → t.isUnchained = false → AreFields fields →
      (∀ field ∈ fields, Canonical field.2) →
        Canonical (.mk o (.operation .isa [t, .mk o' (.pattern (.record fields))]))
  | relation (o : Option Nat) {op : Operator} {left right : Term} :
    op.isUnchained = true → Canonical left → Canonical right → left.isUnchained = false →
      right.isUnchained = false → Canonical (.mk o (.operation op [left, right]))
  | arithmetic (o : Option Nat) {op : Operator} {left right : Term} :
    op.isArithmetic = true → Canonical left → Canonical right →
      (∀ inner, right.operator? = some inner → inner.isArithmetic = true →
        inner.precedence ≠ op.precedence) → Canonical (.mk o (.operation op [left, right]))

/-! ## Texts that are cut into their lexemes -/

/-- A text is cut into the given lexemes before everything that can come after an expression. -/
def Prints (text : List Char) (lexemes : List Lexeme) : Prop :=
  ∀ rest after, Ends rest → Cuts rest after → Cuts (text ++ rest) (lexemes ++ after)

/-- A text that stands between two expressions. -/
structure Separates (text : List Char) (lexemes : List Lexeme) : Prop where
  ends : ∀ rest, Ends (text ++ rest)
  cuts : ∀ {rest after}, Cuts rest after → Cuts (text ++ rest) (lexemes ++ after)

/-- A text that is read as one token prints it. -/
theorem Prints.token {text : List Char} {kind : TokenKind}
    (lexes : ∀ rest, Ends rest → Lexes text kind rest) :
    Prints text [(kind, String.ofList text)] :=
  fun rest _ ends cuts => .token (lexes rest ends) cuts

/-- A text that is cut into lexemes, said of the term that they are the text and lexemes of. -/
theorem Prints.spelled {t : Term} {text : String} {lexemes : List Lexeme}
    (prints : Prints text.toList lexemes) (shown : t.render = text) (spelled : t.spell = lexemes) :
    Prints t.render.toList t.spell := by
  rw [shown, spelled]
  exact prints

/-- Two texts with a separator between them print what both print. -/
theorem Prints.append {left right sep : List Char} {ls rs ss : List Lexeme} (first : Prints left ls)
    (between : Separates sep ss) (second : Prints right rs) :
    Prints (left ++ sep ++ right) (ls ++ ss ++ rs) := by
  intro rest after ends cuts
  rw [List.append_assoc, List.append_assoc, List.append_assoc, List.append_assoc]
  exact first _ _ (between.ends _) (between.cuts (second _ _ ends cuts))

/-- Texts with separators between them print their rows. -/
theorem prints_intercalate {texts : List (List Char)} {rows : List (List Lexeme)}
    {sep : List Char} {ss : List Lexeme} (between : Separates sep ss)
    (each : List.Forall₂ Prints texts rows) :
    Prints (sep.intercalate texts) (ss.intercalate rows) := by
  induction each with
  | nil => exact fun _ _ _ cuts => cuts
  | @cons text row texts rows first each ih =>
      cases each with
      | nil => simpa using first
      | cons _ _ =>
          rw [List.intercalate_cons_cons, List.intercalate_cons_cons]
          exact first.append between ih

/-- A text between an opening and a closing mark. -/
theorem Prints.enclosed {opening closing : Char} {kind kind' : TokenKind} {text : List Char}
    {lexemes : List Lexeme} (opens : ∀ rest, Lexes [opening] kind rest)
    (closes : ∀ rest, Lexes [closing] kind' rest) (stops : ∀ rest, Ends (closing :: rest))
    (inner : Prints text lexemes) :
    Prints (opening :: text ++ [closing])
      ((kind, String.ofList [opening]) :: lexemes ++ [(kind', String.ofList [closing])]) := by
  intro rest after _ cuts
  rw [List.append_assoc, List.append_assoc]
  exact .mark (inner _ _ (stops rest) (.mark cuts (closes rest))) (opens _)

section

variable {text : String} {lexemes : List Lexeme}

/-- A text in parentheses prints the parentheses around what it prints. -/
theorem Prints.parenthesised (inner : Prints text.toList lexemes) :
    Prints (parenthesised text).toList (parenthesisedLexemes lexemes) := by
  have whole : Prints ('(' :: text.toList ++ [')']) (parenthesisedLexemes lexemes) :=
    inner.enclosed (fun _ => lexes_mark (by simp)) (fun _ => lexes_mark (by simp))
      fun _ => .mark (by simp)
  simpa [PolicyLogic.parenthesised] using whole

/-- A text in braces prints the braces around what it prints. -/
theorem Prints.braced (inner : Prints text.toList lexemes) :
    Prints (braced text).toList ((.lbrace, "\x7b") :: lexemes ++ [(.rbrace, "\x7d")]) := by
  have whole : Prints ('\x7b' :: text.toList ++ ['\x7d'])
      ((.lbrace, "\x7b") :: lexemes ++ [(.rbrace, "\x7d")]) :=
    inner.enclosed (fun _ => lexes_mark (by simp)) (fun _ => lexes_mark (by simp))
      fun _ => .mark (by simp)
  simpa [PolicyLogic.braced] using whole

/-- A text in brackets prints the brackets around what it prints. -/
theorem Prints.bracketed (inner : Prints text.toList lexemes) :
    Prints ("[" ++ text ++ "]").toList
      ((.lbracket, "[") :: lexemes ++ [(.rbracket, "]")]) := by
  have whole : Prints ('[' :: text.toList ++ [']'])
      ((.lbracket, "[") :: lexemes ++ [(.rbracket, "]")]) :=
    inner.enclosed (fun _ => lexes_mark (by simp)) (fun _ => lexes_mark (by simp))
      fun _ => .mark (by simp)
  simpa using whole

end

/-- A name before a text that does not continue it. -/
theorem Prints.named {name text : String} {lexemes : List Lexeme} (isName : IsName name)
    (stop : ∀ rest, EndsName (text.toList ++ rest)) (inner : Prints text.toList lexemes) :
    Prints (name ++ text).toList ((.symbol, name) :: lexemes) := by
  intro rest after ends cuts
  rw [String.toList_append, List.append_assoc]
  have token := Cuts.token (isName.lexes (stop rest)) (inner rest after ends cuts)
  rwa [String.ofList_toList] at token

/-- A parenthesis ends a name. -/
theorem endsName_parenthesised (text : String) (rest : List Char) :
    EndsName ((parenthesised text).toList ++ rest) := by
  simpa [parenthesised] using endsName_of_head (by decide) (by decide) (by decide)

theorem endsName_braced (text : String) (rest : List Char) :
    EndsName ((braced text).toList ++ rest) := by
  simpa [braced] using endsName_of_head (by decide) (by decide) (by decide)

/-! ### Separators -/

/-- A comma with a blank after it separates. -/
theorem separates_comma : Separates [',', ' '] [(.comma, ",")] where
  ends _ := .mark (by simp)
  cuts cuts := .mark (.blank rfl cuts) (lexes_mark (by simp))

/-- A sign with blanks around it separates. -/
theorem separates_sign {sign : String} {kind : TokenKind}
    (lexes : ∀ rest, Lexes sign.toList kind (' ' :: rest)) :
    Separates (' ' :: sign.toList ++ [' ']) [(kind, sign)] where
  ends _ := .mark (by simp)
  cuts {rest after} cuts := by
    have token := Cuts.token (lexes rest) (.blank rfl cuts)
    rw [String.ofList_toList] at token
    rw [List.cons_append, List.cons_append, List.append_assoc]
    exact .blank rfl token

/-- The words that the language writes between, before or in place of operands. -/
theorem lexes_reserved {rest : List Char} (word : String) (kind : TokenKind)
    (member : (word, kind) ∈ [("and", TokenKind.kwAnd), ("or", .kwOr), ("not", .kwNot),
      ("in", .kwIn), ("matches", .kwMatches), ("mod", .kwMod), ("rem", .kwRem), ("true", .truth),
      ("false", .falsity), ("if", .kwIf)]) (ends : EndsName rest) : Lexes word.toList kind rest := by
  simp only [List.mem_cons, Prod.mk.injEq, List.not_mem_nil, or_false] at member
  rcases member with ⟨rfl, rfl⟩ | ⟨rfl, rfl⟩ | ⟨rfl, rfl⟩ | ⟨rfl, rfl⟩ | ⟨rfl, rfl⟩ | ⟨rfl, rfl⟩ |
    ⟨rfl, rfl⟩ | ⟨rfl, rfl⟩ | ⟨rfl, rfl⟩ | ⟨rfl, rfl⟩ <;>
  exact lexes_word ⟨_, _, rfl, by decide⟩ (by decide) ends

theorem endsName_blank (rest : List Char) : EndsName (' ' :: rest) :=
  endsName_of_head (by decide) (by decide) (by decide)

/-- The operators that are written between their two operands by a sign. -/
def Operator.isBinary (op : Operator) : Bool := op.isUnchained || op = .isa || op.isArithmetic

/-- The sign of a binary operator. -/
theorem separates_operator {op : Operator} (binary : op.isBinary = true) :
    Separates (' ' :: op.sign.toList ++ [' ']) [(op.signKind, op.sign)] := by
  refine separates_sign fun rest => ?_
  cases op with
  | unify | assign | eq | neq | lt | leq | gt | geq | add | sub | mul | div =>
      exact ⟨by decide, fun _ => rfl⟩
  | member | isa | mod | rem => exact lexes_reserved _ _ (by decide) (endsName_blank rest)
  | conj | disj | neg | new | dot | cut | forAll | print | debug => cases binary

/-! ### Lists and fields -/

/-- Terms print one by one. -/
theorem prints_all {ts : List Term} (each : ∀ t ∈ ts, Prints t.render.toList t.spell) :
    List.Forall₂ Prints ((renderAll ts).map String.toList) (spellAll ts) := by
  induction ts with
  | nil => exact .nil
  | cons t ts ih =>
      exact .cons (each t List.mem_cons_self) (ih fun u member =>
        each u (List.mem_cons_of_mem _ member))

/-- A field prints its name, a colon and its value. -/
theorem prints_field {name : String} {t : Term} (isName : IsName name)
    (value : Prints t.render.toList t.spell) :
    Prints (name ++ ": " ++ t.render).toList ((.symbol, name) :: (.colon, ":") :: t.spell) := by
  have colon : Prints (": " ++ t.render).toList ((.colon, ":") :: t.spell) := by
    intro rest after ends cuts
    rw [String.toList_append, List.append_assoc]
    exact .mark (.blank rfl (value rest after ends cuts)) lexes_colon
  rw [String.append_assoc]
  refine colon.named isName fun rest => ?_
  rw [String.toList_append]
  exact Ends.colon.name

theorem prints_fields {fields : List (String × Term)} (names : ∀ field ∈ fields, IsName field.1)
    (each : ∀ field ∈ fields, Prints field.2.render.toList field.2.spell) :
    List.Forall₂ Prints ((renderFields fields).map String.toList) (spellFields fields) := by
  induction fields with
  | nil => exact .nil
  | cons field fields ih =>
      exact .cons (prints_field (names field List.mem_cons_self) (each field List.mem_cons_self))
        (ih (fun other member => names other (List.mem_cons_of_mem _ member))
          fun other member => each other (List.mem_cons_of_mem _ member))

/-- Texts with commas between them print rows with commas between them. -/
theorem prints_commas {texts : List String} {rows : List (List Lexeme)}
    (each : List.Forall₂ Prints (texts.map String.toList) rows) :
    Prints (commas texts).toList (commaLexemes rows) := by
  rw [commas, String.toList_intercalate]
  exact prints_intercalate separates_comma each

/-! ### Operands -/

theorem operandText_eq (op : Operator) (arg : Term) (shown : String) :
    operandText op arg shown = if op.encloses arg then parenthesised shown else shown := by
  rw [operandText, Operator.encloses]
  cases arg.operator? <;> simp

/-- An operand prints itself, in parentheses where it needs them. -/
theorem prints_operand (op : Operator) {arg : Term} (inner : Prints arg.render.toList arg.spell) :
    Prints (operandText op arg arg.render).toList (operandLexemes op arg arg.spell) := by
  rw [operandText_eq, operandLexemes]
  split
  · exact inner.parenthesised
  · exact inner

theorem prints_operands (op : Operator) {ts : List Term}
    (each : ∀ t ∈ ts, Prints t.render.toList t.spell) :
    List.Forall₂ Prints ((List.zipWith (operandText op) ts (renderAll ts)).map String.toList)
      (List.zipWith (operandLexemes op) ts (spellAll ts)) := by
  induction ts with
  | nil => exact .nil
  | cons t ts ih =>
      exact .cons (prints_operand op (each t List.mem_cons_self)) (ih fun u member =>
        each u (List.mem_cons_of_mem _ member))

/-! ### Operator expressions -/

/-- A binary operation is written with its sign between the operands. -/
theorem operationText_binary {op : Operator} (binary : op.isBinary = true) (left right : Term)
    (shown shown' : String) :
    operationText op [left, right] [shown, shown'] =
      operandText op left shown ++ " " ++ op.sign ++ " " ++ operandText op right shown' := by
  cases op with
  | conj | disj | neg | new | dot | cut | forAll | print | debug => cases binary
  | _ => rfl

theorem operationLexemes_binary {op : Operator} (binary : op.isBinary = true) (left right : Term)
    (shown shown' : List Lexeme) :
    operationLexemes op [left, right] [shown, shown'] =
      operandLexemes op left shown ++ (op.signKind, op.sign) :: operandLexemes op right shown' := by
  cases op with
  | conj | disj | neg | new | dot | cut | forAll | print | debug => cases binary
  | _ => rfl

/-- A binary operation prints its sign between what its operands print. -/
theorem prints_binary {op : Operator} (binary : op.isBinary = true) (o : Option Nat)
    {left right : Term} (first : Prints left.render.toList left.spell)
    (second : Prints right.render.toList right.spell) :
    Prints (Term.mk o (.operation op [left, right])).render.toList
      (Term.mk o (.operation op [left, right])).spell := by
  have whole := (prints_operand op first).append (separates_operator binary)
    (prints_operand op second)
  refine Prints.spelled ?_ (operationText_binary binary left right _ _)
    (operationLexemes_binary binary left right _ _)
  simpa using whole

theorem operationText_conj {args : List Term} (nonempty : args ≠ []) (shown : List String) :
    operationText .conj args shown =
      String.intercalate " and " (List.zipWith (operandText .conj) args shown) :=
  if_neg (by simpa using nonempty)

theorem operationText_disj {args : List Term} (nonempty : args ≠ []) (shown : List String) :
    operationText .disj args shown =
      String.intercalate " or " (List.zipWith (operandText .disj) args shown) :=
  if_neg (by simpa using nonempty)

/-- A conjunction or disjunction prints its word between what its operands print. -/
theorem prints_joined (o : Option Nat) {op : Operator} {args : List Term}
    (head : op = .conj ∨ op = .disj) (nonempty : args ≠ [])
    (each : ∀ t ∈ args, Prints t.render.toList t.spell) :
    Prints (Term.mk o (.operation op args)).render.toList
      (Term.mk o (.operation op args)).spell := by
  have operands := prints_operands op each
  have between : ∀ word kind, (word, kind) ∈ [("and", TokenKind.kwAnd), ("or", .kwOr)] →
      Separates (' ' :: word.toList ++ [' ']) [(kind, word)] := fun word kind member =>
    separates_sign fun rest => lexes_reserved word kind (by
      rcases List.mem_cons.mp member with same | other
      · rw [same]; decide
      · rw [List.mem_singleton.mp other]; decide) (endsName_blank rest)
  rcases head with rfl | rfl
  · refine Prints.spelled ?_ (operationText_conj nonempty _) rfl
    rw [String.toList_intercalate]
    exact prints_intercalate (between "and" .kwAnd (by decide)) operands
  · refine Prints.spelled ?_ (operationText_disj nonempty _) rfl
    rw [String.toList_intercalate]
    exact prints_intercalate (between "or" .kwOr (by decide)) operands

/-- A negation prints its word and what its operand prints. -/
theorem prints_neg (o : Option Nat) {t : Term} (inner : Prints t.render.toList t.spell) :
    Prints (Term.mk o (.operation .neg [t])).render.toList
      (Term.mk o (.operation .neg [t])).spell := by
  have whole : Prints ("not " ++ operandText .neg t t.render).toList
      ((.kwNot, "not") :: operandLexemes .neg t t.spell) := by
    intro rest after ends cuts
    have token := Cuts.token (lexes_reserved "not" .kwNot (by decide) (endsName_blank _))
      (.blank rfl (prints_operand .neg inner rest after ends cuts))
    simpa using token
  exact whole.spelled rfl rfl

/-- Letters of the basic alphabet are letters for names. -/
theorem isAlphabetic_of_isAlpha {c : Char} (letter : c.isAlpha = true) :
    Text.isAlphabetic c = true := by
  have ascii : c.toNat < 127 := by
    delta Char.isAlpha Char.isUpper Char.isLower at letter
    simp only [Bool.or_eq_true, Bool.and_eq_true, decide_eq_true_eq, ge_iff_le,
      UInt32.le_iff_toNat_le] at letter
    show c.val.toNat < 127
    rcases letter with ⟨-, high⟩ | ⟨-, high⟩
    · exact Nat.lt_of_le_of_lt high (by decide)
    · exact Nat.lt_of_le_of_lt high (by decide)
  rwa [Text.isAlphabetic, if_pos ascii]

/-- Digits may stand in names. -/
theorem isNumeric_of_isDigit {c : Char} (digit : c.isDigit = true) : Text.isNumeric c = true := by
  have ascii : c.toNat < 127 := by
    simp only [Char.isDigit, Bool.and_eq_true, decide_eq_true_eq, ge_iff_le,
      UInt32.le_iff_toNat_le] at digit
    exact Nat.lt_of_le_of_lt digit.2 (by decide)
  rwa [Text.isNumeric, if_pos ascii]

/-- A name of plain letters is an identifier. -/
theorem isIdentifier_of_plain {name : String} (isName : IsName name)
    (plain : ∀ c ∈ name.toList, isNameChar c = true) : Text.isIdentifier name = true := by
  obtain ⟨⟨c, cs, letters, starts⟩, -, -⟩ := isName.cut
  rw [letters] at plain
  rw [Text.isIdentifier, letters]
  simp only [Bool.and_eq_true, List.all_eq_true]
  refine ⟨?_, fun d member => ?_⟩
  · rcases Bool.or_eq_true _ _ |>.mp starts with letter | mark
    · simp [isAlphabetic_of_isAlpha letter]
    · simp [eq_of_beq mark]
  have continues := plain d (List.mem_cons_of_mem _ member)
  simp only [isNameChar, Char.isAlphanum, Bool.or_eq_true] at continues
  rcases continues with (letter | digit) | mark
  · simp [isAlphabetic_of_isAlpha letter]
  · simp [isNumeric_of_isDigit digit]
  · simp [eq_of_beq mark]

/-- A lookup prints its base, a dot and the name of the field. -/
theorem prints_lookup (o o' : Option Nat) {base : Term} {name : String} (isName : IsName name)
    (plain : ∀ c ∈ name.toList, isNameChar c = true)
    (first : Prints base.render.toList base.spell) :
    Prints (Term.mk o (.operation .dot [base, .mk o' (.text name)])).render.toList
      (Term.mk o (.operation .dot [base, .mk o' (.text name)])).spell := by
  have whole : Prints (operandText .dot base base.render ++ "." ++ name).toList
      (operandLexemes .dot base base.spell ++ [(.dot, "."), (.symbol, name)]) := by
    intro rest after ends cuts
    obtain ⟨⟨c, cs, letters, starts⟩, -, -⟩ := isName.cut
    have field := Cuts.token (isName.lexes ends.name) cuts
    have lookup : Ends ('.' :: (name.toList ++ rest)) := by
      rw [letters]
      exact .lookup starts
    have point : Lexes ['.'] .dot (name.toList ++ rest) := lexes_mark (by simp)
    simpa using prints_operand .dot first _ _ lookup (.mark field point)
  exact whole.spelled (if_pos (isIdentifier_of_plain isName plain)) rfl

/-- A rest variable prints a star and its name. -/
theorem prints_rest (o : Option Nat) {name : String} (isName : IsName name) :
    Prints (Term.mk o (.rest name)).render.toList (Term.mk o (.rest name)).spell := by
  have whole : Prints ("*" ++ name).toList [(.star, "*"), (.symbol, name)] := by
    intro rest after ends cuts
    have star : Lexes ['*'] .star (name.toList ++ rest) := lexes_mark (by simp)
    simpa using Cuts.mark (.token (isName.lexes ends.name) cuts) star
  exact whole.spelled rfl rfl

/-- A pattern of fields prints them in braces. -/
theorem prints_record (o : Option Nat) {fields : List (String × Term)}
    (names : ∀ field ∈ fields, IsName field.1)
    (each : ∀ field ∈ fields, Prints field.2.render.toList field.2.spell) :
    Prints (Term.mk o (.pattern (.record fields))).render.toList
      (Term.mk o (.pattern (.record fields))).spell :=
  (prints_commas (prints_fields names each)).braced.spelled rfl rfl

/-- A pattern with a class prints the class and the fields in braces. -/
theorem prints_object (o : Option Nat) {tag : String} {fields : List (String × Term)}
    (isTag : IsName tag) (names : ∀ field ∈ fields, IsName field.1)
    (each : ∀ field ∈ fields, Prints field.2.render.toList field.2.spell) :
    Prints (Term.mk o (.pattern (.object tag fields))).render.toList
      (Term.mk o (.pattern (.object tag fields))).spell := by
  have shape := (prints_commas (prints_fields names each)).braced.named isTag
    (endsName_braced _)
  exact shape.spelled rfl rfl

/-! ## Canonical terms -/

/-- The text of a canonical term is cut into its lexemes. -/
theorem Canonical.prints {t : Term} (canonical : Canonical t) : Prints t.render.toList t.spell := by
  induction canonical with
  | @var o name isName =>
      have token := Prints.token fun _ ends => isName.lexes ends.name
      rw [String.ofList_toList] at token
      exact token.spelled rfl rfl
  | @integer o n natural =>
      obtain ⟨m, value⟩ := Int.eq_ofNat_of_zero_le natural
      have shown : toString n.toInt = toString m := by rw [value]; rfl
      have token := Prints.token fun _ ends => lexes_natural (n := m) ends.integer
      rw [← shown, String.ofList_toList] at token
      exact token.spelled rfl rfl
  | boolean o b =>
      cases b with
      | true =>
          have token := Prints.token fun _ ends =>
            lexes_reserved "true" .truth (by decide) ends.name
          exact token.spelled rfl rfl
      | false =>
          have token := Prints.token fun _ ends =>
            lexes_reserved "false" .falsity (by decide) ends.name
          exact token.spelled rfl rfl
  | @text o s _ =>
      have token := Prints.token fun rest _ => lexes_quoted s rest
      rw [String.ofList_toList] at token
      exact token.spelled rfl rfl
  | list o _ ih => exact (prints_commas (prints_all ih)).bracketed.spelled rfl rfl
  | openList o o' _ isName ih =>
      have all := prints_all fun t member => (List.mem_append.mp member).elim (ih t) fun last =>
        List.mem_singleton.mp last ▸ prints_rest o' isName
      exact (prints_commas all).bracketed.spelled rfl rfl
  | dictionary o fields _ ih =>
      exact (prints_commas (prints_fields fields.names ih)).braced.spelled rfl rfl
  | call o isName _ ih =>
      have whole := (prints_commas (prints_all ih)).parenthesised.named isName
        (endsName_parenthesised _)
      exact whole.spelled rfl rfl
  | namedCall o isName _ _ fields _ args named =>
      have all := List.rel_append (prints_all args) (prints_fields fields.names named)
      simp only [← List.map_append] at all
      have whole := (prints_commas all).parenthesised.named isName (endsName_parenthesised _)
      exact whole.spelled rfl rfl
  | lookup o o' _ isName plain ih => exact prints_lookup o o' isName plain ih
  | negation o _ ih => exact prints_neg o ih
  | joined o head two _ _ ih =>
      exact prints_joined o head (List.ne_nil_of_length_pos (Nat.lt_of_lt_of_le (by decide) two)) ih
  | object o o' _ _ isTag fields _ ih each =>
      exact prints_binary rfl o ih (prints_object o' isTag fields.names each)
  | record o o' _ _ fields _ ih each =>
      exact prints_binary rfl o ih (prints_record o' fields.names each)
  | relation o relation _ _ _ _ left right =>
      exact prints_binary (by simp [Operator.isBinary, relation]) o left right
  | arithmetic o arithmetic _ _ _ left right =>
      exact prints_binary (by simp [Operator.isBinary, arithmetic]) o left right

end PolicyLogic
