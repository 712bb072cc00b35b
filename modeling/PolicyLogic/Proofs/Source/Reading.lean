import PolicyLogic.Proofs.Source.Lexing
import PolicyLogic.Source.Grammar

/-!
# What a parser reads

A parser sees of its cursor only the kinds and the texts of the tokens that are left, apart from the
offsets it copies into terms.

* `Reads parser lexemes Q` says that a parser, at any cursor that shows these lexemes, comes to a
  result and leaves lexemes of which `Q` holds. `Reads.bind` composes readings, and each primitive
  has an equation, so that a reading is computed by `simp` as far as its lexemes are known.
* `bound` gives a repetition at least as many rounds as there are tokens left (`runs_bound`), which
  is why no repetition is ever cut short.
-/

namespace PolicyLogic.Source

/-- The tokens at a cursor, apart from their places. There are no more of them than the cursor
allows rounds for. -/
structure Cursor.Shows (cursor : Cursor) (lexemes : List Lexeme) : Prop where
  tokens : cursor.tokens.map Token.lexeme = lexemes
  bounded : cursor.tokens.length ≤ cursor.count

/-- `P` holds of what the parser comes to at every cursor that shows the lexemes. -/
def Runs {α : Type} (parser : Parser α) (lexemes : List Lexeme)
    (P : Except SyntaxError (α × Cursor) → Prop) : Prop :=
  ∀ cursor : Cursor, cursor.Shows lexemes → P (parser cursor)

/-- At every cursor that shows the lexemes the parser succeeds, and `Q` holds of its result and of
the lexemes that are left. -/
def Reads {α : Type} (parser : Parser α) (lexemes : List Lexeme) (Q : α → List Lexeme → Prop) :
    Prop :=
  Runs parser lexemes fun outcome =>
    ∃ a after left, outcome = .ok (a, after) ∧ after.Shows left ∧ Q a left

/-- At every cursor that shows the lexemes the parser fails. -/
def Refuses {α : Type} (parser : Parser α) (lexemes : List Lexeme) : Prop :=
  Runs parser lexemes fun outcome => ∃ e, outcome = .error e

section Rules

variable {α β : Type} {lexemes : List Lexeme} {Q R : α → List Lexeme → Prop}
  {P : Except SyntaxError (α × Cursor) → Prop}

theorem Reads.mono {parser : Parser α} (reads : Reads parser lexemes Q)
    (weaker : ∀ a left, Q a left → R a left) : Reads parser lexemes R := by
  intro cursor shows
  obtain ⟨a, after, left, run, shown, holds⟩ := reads cursor shows
  exact ⟨a, after, left, run, shown, weaker a left holds⟩

theorem Reads.bind {parser : Parser α} {next : α → Parser β} {S : β → List Lexeme → Prop}
    (reads : Reads parser lexemes Q) (onward : ∀ a left, Q a left → Reads (next a) left S) :
    Reads (parser >>= next) lexemes S := by
  intro cursor shows
  obtain ⟨a, after, left, run, shown, holds⟩ := reads cursor shows
  obtain ⟨b, last, rest, run', shown', holds'⟩ := onward a left holds after shown
  refine ⟨b, last, rest, ?_, shown', holds'⟩
  show (parser cursor >>= fun p => next p.1 p.2) = _
  rw [run]
  exact run'

theorem reads_pure {a : α} (holds : Q a lexemes) : Reads (pure a) lexemes Q :=
  fun cursor shows => ⟨a, cursor, lexemes, rfl, shows, holds⟩

/-- A parser that starts with what fails, fails. -/
theorem Refuses.bind {parser : Parser α} {next : α → Parser β} (refuses : Refuses parser lexemes) :
    Refuses (parser >>= next) lexemes := by
  intro cursor shows
  obtain ⟨e, failed⟩ := refuses cursor shows
  refine ⟨e, ?_⟩
  show (parser cursor >>= fun p => next p.1 p.2) = _
  rw [failed]
  rfl

/-! ## Primitives -/

variable {l : Lexeme}

/-- The kind of the first lexeme. -/
abbrev firstKind (lexemes : List Lexeme) : Option TokenKind := lexemes.head?.map (·.1)

theorem Cursor.Shows.firstKind {cursor : Cursor} (shows : cursor.Shows lexemes) :
    cursor.tokens.head?.map (·.kind) = firstKind lexemes := by
  rw [← shows.tokens, Source.firstKind, List.head?_map, Option.map_map]
  rfl

theorem runs_peek {next : Option TokenKind → Parser α}
    (runs : Runs (next (firstKind lexemes)) lexemes P) : Runs (peek >>= next) lexemes P := by
  intro cursor shows
  have kind := shows.firstKind
  rw [← kind] at runs
  exact runs cursor shows

theorem runs_peekSecond {next : Option TokenKind → Parser α}
    (runs : Runs (next (firstKind lexemes.tail)) lexemes P) :
    Runs (peekSecond >>= next) lexemes P := by
  intro cursor shows
  have kind : cursor.tokens[1]?.map (·.kind) = firstKind lexemes.tail := by
    rw [← shows.tokens, ← List.map_tail, firstKind, List.head?_map, Option.map_map, List.head?_tail]
    rfl
  rw [← kind] at runs
  exact runs cursor shows

theorem runs_nextText {next : String → Parser α} (runs : Runs (next l.2) (l :: lexemes) P) :
    Runs (nextText >>= next) (l :: lexemes) P := by
  intro cursor shows
  have text : (cursor.tokens.head?.map (·.text)).getD "" = l.2 := by
    have first : cursor.tokens.head?.map Token.lexeme = some l := by
      rw [← List.head?_map, shows.tokens, List.head?_cons]
    obtain ⟨t, head, rfl⟩ := Option.map_eq_some_iff.mp first
    rw [head]
    rfl
  rw [← text] at runs
  exact runs cursor shows

theorem runs_here {next : Nat → Parser α} (runs : ∀ loc, Runs (next loc) lexemes P) :
    Runs (here >>= next) lexemes P :=
  fun cursor shows => runs _ cursor shows

theorem runs_bound {next : Nat → Parser α}
    (runs : ∀ n, lexemes.length ≤ n → Runs (next n) lexemes P) :
    Runs (bound >>= next) lexemes P :=
  fun cursor shows => runs _ (by
    rw [← shows.tokens, List.length_map]
    exact shows.bounded) cursor shows

theorem Cursor.Shows.tail {cursor : Cursor} (shows : cursor.Shows (l :: lexemes)) :
    Cursor.Shows { cursor with tokens := cursor.tokens.tail } lexemes where
  tokens := by rw [List.map_tail, shows.tokens, List.tail_cons]
  bounded := by
    have := shows.bounded
    simp only [List.length_tail]
    omega

theorem runs_advance {next : Unit → Parser α} (runs : Runs (next ()) lexemes P) :
    Runs (advance >>= next) (l :: lexemes) P :=
  fun _ shows => runs _ shows.tail

/-- A token of the kind asked for is eaten. -/
theorem runs_eat {kind : TokenKind} {text : String} {next : Bool → Parser α}
    (runs : Runs (next true) lexemes P) :
    Runs (eat kind >>= next) ((kind, text) :: lexemes) P := by
  rw [eat, bind_assoc]
  refine runs_peek ?_
  rw [if_pos (by simp), bind_assoc]
  refine runs_advance ?_
  rwa [pure_bind]

/-- A token of another kind stays. -/
theorem runs_eat_other {kind : TokenKind} {next : Bool → Parser α}
    (other : firstKind lexemes ≠ some kind) (runs : Runs (next false) lexemes P) :
    Runs (eat kind >>= next) lexemes P := by
  rw [eat, bind_assoc]
  refine runs_peek ?_
  rwa [if_neg (by simpa using other), pure_bind]

theorem runs_expect {kind : TokenKind} {text : String} {next : Unit → Parser α}
    (runs : Runs (next ()) lexemes P) :
    Runs (expect kind >>= next) ((kind, text) :: lexemes) P := by
  rw [expect, bind_assoc]
  exact runs_eat (by simpa using runs)

theorem runs_expectName {name : String} {next : String × Nat → Parser α}
    (runs : ∀ loc, Runs (next (name, loc)) lexemes P) :
    Runs (expectName >>= next) ((.symbol, name) :: lexemes) P := by
  rw [expectName, bind_assoc]
  refine runs_peek ?_
  rw [if_pos (by simp), bind_assoc]
  refine runs_nextText ?_
  rw [bind_assoc]
  refine runs_here fun loc => ?_
  rw [bind_assoc]
  refine runs_advance ?_
  rw [pure_bind]
  exact runs loc

end Rules

end PolicyLogic.Source
