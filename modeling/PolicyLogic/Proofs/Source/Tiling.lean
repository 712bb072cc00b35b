import PolicyLogic.Proofs.Source.Patterns

/-!
# Tokens tile the source

A source that `tokenize` accepts is its tokens, with white space and comments between them and nothing
else: no character is dropped, none is read twice, and no token could have been longer.

* `Blank rest gap`: what stands between two tokens, where `rest` begins with the second.
* `Tiles before cs tokens` goes along the list of tokens: after the text `before` the text `cs` is
  such a gap, a token, and what the rest of the list tiles. `tokensFrom_tiles` is the run of the
  lexer, a gap or a token at a time.
* `Tiling` has what that means for the spans of the tokens, as offsets into the source.
-/

namespace PolicyLogic.Source

/-! ## Gaps -/

/-- White space and comments before a text. A comment runs from a hash mark to the end of its line. -/
inductive Blank (rest : List Char) : List Char → Prop
  | nil : Blank rest []
  | space {c : Char} {cs : List Char} : isSpace c = true → Blank rest cs → Blank rest (c :: cs)
  | comment {text cs : List Char} : '\n' ∉ text → (∀ c ∈ (cs ++ rest).head?, c = '\n') →
    Blank rest cs → Blank rest ('#' :: (text ++ cs))

theorem Blank.spaces {rest gap spaces : List Char} (blank : Blank rest gap)
    (all : ∀ c ∈ spaces, isSpace c = true) : Blank rest (spaces ++ gap) := by
  induction spaces with
  | nil => exact blank
  | cons c spaces ih =>
      obtain ⟨first, others⟩ := List.forall_mem_cons.mp all
      exact .space first (ih others)

theorem head?_dropWhile {p : Char → Bool} (cs : List Char) :
    ∀ c ∈ (cs.dropWhile p).head?, p c = false := by
  intro c member
  have stopped := List.head?_dropWhile_not p cs
  rw [Option.mem_def.mp member] at stopped
  simpa using stopped

/-- What is skipped before a gap makes it longer. -/
theorem Blank.gapCut {c : Char} {cs front gap rest : List Char}
    (starts : (isSpace c || c == '#') = true) (cut : gapCut (c :: cs) = (front, gap ++ rest))
    (blank : Blank rest gap) : Blank rest (front ++ gap) := by
  by_cases hash : c = '#'
  · subst hash
    obtain ⟨rfl, left⟩ : '#' :: cs.takeWhile (· ≠ '\n') = front ∧
      cs.dropWhile (· ≠ '\n') = gap ++ rest := Prod.mk.inj cut
    refine .comment (fun member => ?_) (fun d member => ?_) blank
    · simpa using List.all_eq_true.mp List.all_takeWhile _ member
    · rw [← left] at member
      simpa using head?_dropWhile cs d member
  · obtain ⟨rfl, -⟩ : (c :: cs).takeWhile isSpace = front ∧ _ :=
      Prod.mk.inj (by simpa [Source.gapCut, hash, span] using cut)
    exact blank.spaces (List.all_eq_true.mp List.all_takeWhile)

/-! ## The run of the lexer -/

/-- After the text `before`, the text is cut into the tokens, each after a gap and each the longest
that there is in its place, and a gap at the end. -/
inductive Tiles : List Char → List Char → List Token → Prop
  | done {before gap : List Char} : Blank [] gap → Tiles before gap []
  | token {before gap text rest : List Char} {kind : TokenKind} {tokens : List Token} :
    Blank (text ++ rest) gap → Consumes kind text rest → Tiles (before ++ gap ++ text) rest tokens →
      Tiles before (gap ++ (text ++ rest))
        (⟨kind, String.ofList text, byteLength (before ++ gap)⟩ :: tokens)

/-- A token that comes at once. -/
theorem Tiles.next {before text rest : List Char} {kind : TokenKind} {tokens : List Token}
    (consumes : Consumes kind text rest) (tiles : Tiles (before ++ text) rest tokens) :
    Tiles before (text ++ rest) (⟨kind, String.ofList text, byteLength before⟩ :: tokens) := by
  have first : Tiles before ([] ++ (text ++ rest))
      (⟨kind, String.ofList text, byteLength (before ++ [])⟩ :: tokens) :=
    .token .nil consumes (by rwa [List.append_nil])
  rwa [List.append_nil] at first

theorem Tiles.gapCut {before cs front remaining : List Char} {c : Char} {tokens : List Token}
    (starts : (isSpace c || c == '#') = true) (cut : gapCut (c :: cs) = (front, remaining))
    (tiles : Tiles (before ++ front) remaining tokens) : Tiles before (c :: cs) tokens := by
  have whole := gapCut_append (c :: cs)
  rw [cut] at whole
  rw [← whole]
  cases tiles with
  | done blank =>
      rw [← List.append_nil remaining] at cut
      exact .done (blank.gapCut starts cut)
  | token blank consumes tiles =>
      rw [List.append_assoc before] at tiles ⊢
      rw [← List.append_assoc]
      exact .token (blank.gapCut starts cut) consumes tiles

/-- The tokens that the lexer finds tile the text. -/
theorem tokensFrom_tiles {n : Nat} {before cs : List Char} {tokens : List Token}
    (run : tokensFrom n (byteLength before) cs = .ok tokens) (enough : cs.length ≤ n) :
    Tiles before cs tokens := by
  -- On the bound of the run: a gap or a token has a character, so the bound never ends it early.
  induction n generalizing before cs tokens with
  | zero =>
      obtain rfl := List.eq_nil_of_length_eq_zero (Nat.le_zero.mp enough)
      cases run
      exact .done .nil
  | succ n ih =>
      cases cs with
      | nil =>
          cases run
          exact .done .nil
      | cons c cs =>
          rw [tokensFrom] at run
          split at run
          · rename_i starts
            have whole := congrArg List.length (gapCut_append (c :: cs))
            have size := byteLength_gapCut_pos cs starts
            split at run
            rename_i front remaining cut
            rw [cut] at whole size
            have nonempty : front ≠ [] := by
              rintro rfl
              exact absurd size (Nat.lt_irrefl 0)
            have skipped := List.length_pos_iff.mpr nonempty
            simp only [List.length_append, List.length_cons] at whole enough
            rw [← byteLength_append] at run
            exact .gapCut starts cut (ih run (by omega))
          split at run
          · cases run
          rename_i kind text rest found
          split at run
          · cases run
          rename_i others more
          cases run
          have whole := lexeme_append found
          have consumes := lexeme_consumes found
          have size := congrArg List.length whole
          have some := List.length_pos_iff.mpr consumes.spelled.ne_nil
          simp only [List.length_append, List.length_cons] at size enough
          rw [← byteLength_append] at more
          rw [← whole]
          exact .next consumes (ih more (by omega))

/-! ## Spans -/

/-- The text is one token. -/
def IsToken (text : String) : Prop := ∃ kind, tokenize text = .ok [⟨kind, text, 0⟩]

/-- A token in its place: it is what the source has there, it is that token also by itself, and no
longer text there is one. A word of the language is not the beginning of a name. -/
structure Stands (source : String) (t : Token) (before after : List Char) : Prop where
  cut : source.toList = before ++ (t.text.toList ++ after)
  start : byteLength before = t.start
  alone : tokenize t.text = .ok [⟨t.kind, t.text, 0⟩]
  consumes : Consumes t.kind t.text.toList after
  longest : ∀ longer, longer <+: t.text.toList ++ after → IsToken (String.ofList longer) →
    longer.length ≤ t.text.toList.length
  reserved : t.kind.isKeyword = true → EndsName after

/-- What stands in a source between two offsets is white space and comments. -/
def IsGap (source : String) (l r : Nat) : Prop :=
  ∃ before gap after, source.toList = before ++ (gap ++ after) ∧ byteLength before = l ∧
    byteLength (before ++ gap) = r ∧ Blank after gap

/-- The offsets between which there is no token: before the first, between two, and after the last. -/
def gaps (stop : Nat) : Nat → List Token → List (Nat × Nat)
  | start, [] => [(start, stop)]
  | start, t :: tokens => (start, t.start) :: gaps stop t.stop tokens

/-- The spans of the tokens are not empty, follow one another and lie between characters, the tokens
stand in them, and only white space and comments are left. -/
structure Tiling (source : String) (tokens : List Token) : Prop where
  nonempty : ∀ t ∈ tokens, t.start < t.stop
  ordered : tokens.Pairwise fun t u => t.stop ≤ u.start
  bounded : ∀ t ∈ tokens, IsBoundary source t.start ∧ IsBoundary source t.stop
  stands : ∀ t ∈ tokens, ∃ before after, Stands source t before after
  blank : ∀ gap ∈ gaps (byteLength source.toList) 0 tokens, IsGap source gap.1 gap.2

theorem byteLength_pos {cs : List Char} (nonempty : cs ≠ []) : 0 < byteLength cs := by
  obtain ⟨c, cs, rfl⟩ := List.exists_cons_of_ne_nil nonempty
  have := c.utf8Size_pos
  rw [byteLength]
  omega

section Stands

variable {source : String} {t : Token} {before after : List Char}

theorem Consumes.stands (consumes : Consumes t.kind t.text.toList after)
    (cut : source.toList = before ++ (t.text.toList ++ after)) (start : byteLength before = t.start) :
    Stands source t before after where
  cut := cut
  start := start
  alone := tokenize_eq_single.mpr consumes.spelled
  consumes := consumes
  longest longer front single := by
    obtain ⟨kind, single⟩ := single
    have spelled := tokenize_eq_single.mp single
    rw [String.toList_ofList] at spelled
    exact consumes.longest kind longer spelled front
  reserved := consumes.endsName

theorem Stands.nonempty (stands : Stands source t before after) : t.start < t.stop := by
  have := byteLength_pos stands.consumes.spelled.ne_nil
  rw [Token.stop]
  omega

theorem Stands.bounded (stands : Stands source t before after) :
    IsBoundary source t.start ∧ IsBoundary source t.stop := by
  refine ⟨⟨before, _, stands.cut, stands.start⟩, before ++ t.text.toList, after, ?_, ?_⟩
  · rw [stands.cut, List.append_assoc]
  · rw [byteLength_append, stands.start, Token.stop]

end Stands

section Tiles

variable {source : String} {before cs : List Char} {tokens : List Token}

theorem Tiles.stands (tiles : Tiles before cs tokens) (split : source.toList = before ++ cs) :
    ∀ t ∈ tokens, ∃ before after, Stands source t before after := by
  induction tiles with
  | done _ => exact List.forall_mem_nil _
  | @token before gap text rest kind tokens _ consumes _ ih =>
      refine List.forall_mem_cons.mpr ⟨⟨before ++ gap, rest, ?_⟩, ih (by simpa using split)⟩
      exact Consumes.stands (by simpa using consumes) (by simpa using split) rfl

theorem Tiles.le_start (tiles : Tiles before cs tokens) : ∀ t ∈ tokens, byteLength before ≤ t.start := by
  induction tiles with
  | done _ => exact List.forall_mem_nil _
  | token _ _ _ ih =>
      simp only [byteLength_append] at ih ⊢
      refine List.forall_mem_cons.mpr ⟨Nat.le_add_right _ _, fun t member => ?_⟩
      have := ih t member
      omega

theorem Tiles.ordered (tiles : Tiles before cs tokens) :
    tokens.Pairwise fun t u => t.stop ≤ u.start := by
  induction tiles with
  | done _ => exact .nil
  | token _ _ tiles ih =>
      refine .cons (fun u member => ?_) ih
      have later := tiles.le_start u member
      rw [byteLength_append] at later
      rwa [Token.stop, String.toList_ofList]

theorem Tiles.blank (tiles : Tiles before cs tokens) (split : source.toList = before ++ cs) :
    ∀ gap ∈ gaps (byteLength source.toList) (byteLength before) tokens,
      IsGap source gap.1 gap.2 := by
  induction tiles with
  | @done before gap blank =>
      rw [gaps, List.forall_mem_singleton]
      exact ⟨before, gap, [], by simpa using split, rfl, by rw [split], blank⟩
  | @token before gap text rest kind tokens blank _ _ ih =>
      have onward := ih (by simpa using split)
      rw [byteLength_append] at onward
      rw [gaps, Token.stop, String.toList_ofList]
      exact List.forall_mem_cons.mpr
        ⟨⟨before, gap, text ++ rest, split, rfl, rfl, blank⟩, onward⟩

end Tiles

/-- The tokens of a source tile it. -/
theorem tokenize_tiles {source : String} {tokens : List Token}
    (found : tokenize source = .ok tokens) : Tiling source tokens := by
  have tiles : Tiles [] source.toList tokens := tokensFrom_tiles found (Nat.le_refl _)
  have stands := tiles.stands rfl
  refine ⟨fun t member => ?_, tiles.ordered, fun t member => ?_, stands, tiles.blank rfl⟩
  · obtain ⟨_, _, place⟩ := stands t member
    exact place.nonempty
  · obtain ⟨_, _, place⟩ := stands t member
    exact place.bounded

/-- Texts that begin like a longer token than they are, and a comment with a letter of two bytes. -/
def brokenOff : String := "1.e5 # é in\n:::=index?=\"#\" in"

theorem tokenize_tiles_brokenOff :
    ∃ tokens, tokenize brokenOff = .ok tokens ∧ tokens.map Token.lexeme =
      [(.integer, "1"), (.dot, "."), (.symbol, "e5"), (.colon, ":"), (.colon, ":"), (.assign, ":="),
        (.symbol, "index?"), (.equals, "="), (.string, "\"#\""), (.kwIn, "in")] ∧
      gaps (byteLength brokenOff.toList) 0 tokens = [(0, 0), (1, 1), (2, 2), (4, 13), (14, 14),
        (15, 15), (17, 17), (23, 23), (24, 24), (27, 28), (30, 30)] ∧ Tiling brokenOff tokens :=
  ⟨_, rfl, by decide, by decide, tokenize_tiles rfl⟩

end PolicyLogic.Source
