import PolicyLogic.Source.Grammar

/-!
# What the parsers guarantee

A parser fails at the place of a token or at the end of the source, and nowhere else. What it returns
depends on the function, so both are stated together: `Yields place parser Q` says that from a cursor
whose tokens stand at places the parser fails at a place, or it returns something that `Q` holds of,
with a cursor of the same kind. Any predicate will do for the places: those who look for results only
take one that always holds.

There is one lemma for each parser of single tokens here, and one for each function of the grammar in
the modules that say what it returns.
-/

namespace PolicyLogic

namespace Source

/-- The tokens that a cursor has still to read stand at places, and so does the end of the source. -/
structure Cursor.Inside (place : Nat → Prop) (cursor : Cursor) : Prop where
  stop : place cursor.stop
  starts : ∀ t ∈ cursor.tokens, place t.start

/-- The parser fails at a place, or `Q` holds of what it returns. -/
def Yields {α : Type} (place : Nat → Prop) (parser : Parser α) (Q : α → Prop) : Prop :=
  ∀ cursor, cursor.Inside place → (∀ e, parser cursor = .error e → place e.loc) ∧
    ∀ a after, parser cursor = .ok (a, after) → after.Inside place ∧ Q a

/-! ## Sequences of parsers -/

section Rules

variable {α β : Type} {place : Nat → Prop} {parser : Parser α} {Q : α → Prop} {R : β → Prop}

theorem yields_pure {a : α} (holds : Q a) : Yields place (pure a) Q := by
  refine fun cursor inside => ⟨fun e failed => (by cases failed), fun b after run => ?_⟩
  cases run
  exact ⟨inside, holds⟩

theorem yields_throw {e : SyntaxError} (found : place e.loc) :
    Yields place (throw e : Parser α) Q := by
  refine fun cursor _ => ⟨fun e' failed => ?_, fun b after run => by cases run⟩
  cases failed
  exact found

theorem Yields.bind {next : α → Parser β} (yields : Yields place parser Q)
    (onward : ∀ a, Q a → Yields place (next a) R) : Yields place (parser >>= next) R := by
  intro cursor inside
  obtain ⟨fails, goesOn⟩ := yields cursor inside
  change (∀ e, (parser cursor >>= fun p => next p.1 p.2) = .error e → _) ∧
    ∀ b last, (parser cursor >>= fun p => next p.1 p.2) = .ok (b, last) → _
  cases known : parser cursor with
  | error e =>
      refine ⟨fun e' failed => ?_, fun b last run => by cases run⟩
      cases failed
      exact fails e known
  | ok p =>
      obtain ⟨further, holds⟩ := goesOn p.1 p.2 known
      exact onward p.1 holds p.2 further

/-- It does not matter what comes before returns. -/
theorem Yields.after {next : α → Parser β} (yields : Yields place parser Q)
    (onward : ∀ a, Yields place (next a) R) : Yields place (parser >>= next) R :=
  yields.bind fun a _ => onward a

theorem Yields.mono {Q' : α → Prop} (yields : Yields place parser Q) (weaker : ∀ a, Q a → Q' a) :
    Yields place parser Q' := by
  intro cursor inside
  obtain ⟨fails, goesOn⟩ := yields cursor inside
  refine ⟨fails, fun a after run => ?_⟩
  obtain ⟨further, holds⟩ := goesOn a after run
  exact ⟨further, weaker a holds⟩

/-- A parser that looks at the cursor and leaves it where it is. -/
theorem yields_look {look : Cursor → α} (still : ∀ cursor, parser cursor = .ok (look cursor, cursor))
    (holds : ∀ cursor, cursor.Inside place → Q (look cursor)) : Yields place parser Q := by
  intro cursor inside
  rw [still]
  refine ⟨fun e failed => (by cases failed), fun a after run => ?_⟩
  cases run
  exact ⟨inside, holds cursor inside⟩

end Rules

/-! ## Single tokens -/

section Tokens

variable {α : Type} {place : Nat → Prop} {kind : TokenKind}

theorem yields_peek : Yields place peek fun _ => True := yields_look (fun _ => rfl) fun _ _ => trivial

theorem yields_peekSecond : Yields place peekSecond fun _ => True :=
  yields_look (fun _ => rfl) fun _ _ => trivial

theorem yields_nextText : Yields place nextText fun _ => True :=
  yields_look (fun _ => rfl) fun _ _ => trivial

theorem yields_bound : Yields place bound fun _ => True :=
  yields_look (fun _ => rfl) fun _ _ => trivial

/-- Where the next token or the end of the source is, an error can be found. -/
theorem yields_here : Yields place here place := by
  refine yields_look (fun _ => rfl) fun cursor inside => ?_
  obtain ⟨tokens, count, stop⟩ := cursor
  cases tokens with
  | nil => exact inside.stop
  | cons t tokens => exact inside.starts t List.mem_cons_self

theorem yields_advance : Yields place advance fun _ => True := by
  refine fun cursor inside => ⟨fun e failed => (by cases failed), fun a after run => ?_⟩
  cases run
  exact ⟨⟨inside.stop, fun t member => inside.starts t (List.mem_of_mem_tail member)⟩, trivial⟩

theorem yields_eat : Yields place (eat kind) fun _ => True := by
  refine yields_peek.after fun next => ?_
  split
  · exact yields_advance.after fun _ => yields_pure trivial
  · exact yields_pure trivial

theorem yields_unexpected {Q : α → Prop} : Yields place unexpected Q := by
  refine yields_here.bind fun loc found => yields_nextText.after fun text => ?_
  refine yields_peek.after fun kind => ?_
  cases kind with
  | none => exact yields_throw found
  | some kind =>
      show Yields place (if kind.isKeyword then throw _ else throw _) Q
      split <;> exact yields_throw found

theorem yields_expect : Yields place (expect kind) fun _ => True := by
  refine yields_eat.after fun next => ?_
  split
  · exact yields_unexpected
  · exact yields_pure trivial

theorem yields_expectName : Yields place expectName fun _ => True := by
  refine yields_peek.after fun next => ?_
  split
  · exact yields_nextText.after fun name => yields_here.after fun loc =>
      yields_advance.after fun _ => yields_pure trivial
  · exact yields_unexpected

theorem yields_tooDeep {Q : α → Prop} : Yields place tooDeep Q :=
  yields_nextText.after fun _ => yields_here.bind fun _ found => yields_throw found

end Tokens

/-! ## Whole sources -/

theorem readWith_eq {α : Type} {parser : Parser α} {source : String} {tokens : List Token}
    (found : tokenize source = .ok tokens) : readWith parser source =
      (parser ⟨tokens, tokens.length, byteLength source.toList⟩).map (·.1) := by
  rw [readWith, found]
  rfl

/-- Everywhere that an error of a source can be found is a place. -/
structure Places (source : String) (place : Nat → Prop) : Prop where
  stop : place (byteLength source.toList)
  starts : ∀ tokens, tokenize source = .ok tokens → ∀ t ∈ tokens, place t.start
  rejected : ∀ e, tokenize source = .error e → place e.loc

theorem Places.everywhere (source : String) : Places source fun _ => True :=
  ⟨trivial, fun _ _ _ _ => trivial, fun _ _ => trivial⟩

theorem Yields.readWith {α : Type} {place : Nat → Prop} {parser : Parser α} {Q : α → Prop}
    {source : String} (yields : Yields place parser Q) (places : Places source place) :
    (∀ e, readWith parser source = .error e → place e.loc) ∧
      ∀ a, readWith parser source = .ok a → Q a := by
  cases known : tokenize source with
  | error e =>
      have failed : Source.readWith parser source = .error e := by
        rw [Source.readWith, known]
        rfl
      rw [failed]
      refine ⟨fun e' same => ?_, fun a read => by cases read⟩
      cases same
      exact places.rejected e known
  | ok tokens =>
      rw [readWith_eq known]
      obtain ⟨fails, goesOn⟩ := yields ⟨tokens, tokens.length, byteLength source.toList⟩
        ⟨places.stop, places.starts tokens known⟩
      cases run : parser ⟨tokens, tokens.length, byteLength source.toList⟩ with
      | error e =>
          refine ⟨fun e' same => ?_, fun a read => by cases read⟩
          cases same
          exact fails e run
      | ok p =>
          refine ⟨fun e failed => (by cases failed), fun a same => ?_⟩
          cases same
          exact (goesOn p.1 p.2 run).2

end Source

end PolicyLogic
