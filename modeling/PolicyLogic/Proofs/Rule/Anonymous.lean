import Mathlib.Data.List.Count
import Mathlib.Data.List.Nodup
import PolicyLogic.Proofs.Rule.Read

/-!
# Anonymous variables and their names

Making a goal or a rule ready gives each anonymous variable `_` a name of its own, which occurs
nowhere else. A list may also end in an anonymous rest variable `*_`. These keep the name `_`, all of
them, so each anonymous variable has a name of its own just when there is at most one of these:
`wildcards_own_names`. With two of them a rule fails where it should not (`rest_wildcards_shared`).

* `HaveOwnNames`: what is asked of the names, with the occurrences counted;
* `Called`: terms with their anonymous variables called after some ids;
* `Called.haveOwnNames_iff`: when the names asked for are there.
-/

namespace PolicyLogic

/-! ## Names of their own -/

/-- The name is that of an anonymous variable, as it is written or as it is drawn. -/
def IsAnonymous (x : String) : Prop := x = "_" ∨ ∃ id, x = generatedName "_" id

/-- The term is an anonymous variable that may stand for anything. -/
def Term.isWildcard (t : Term) : Bool :=
  match t.value with
  | .var x => x == "_"
  | _ => false

/-- The term is an anonymous variable for the rest of a list. -/
def Term.isRestWildcard (t : Term) : Bool :=
  match t.value with
  | .rest x => x == "_"
  | _ => false

/-- The terms are rewritten to others in which each anonymous variable, plain or rest, has a name of
its own: with the anonymous variables called by some different names, the terms are as they were but
for these names, and each name occurs once in these and once in what the terms are rewritten to. No
other name of an anonymous variable occurs there. -/
def HaveOwnNames (ts us : List Term) : Prop :=
  ∃ (names : List String) (named : List Term), names.Nodup ∧ (∀ x ∈ names, IsAnonymous x) ∧
    names.length = tally (Term.names "_") ts ∧ named.map (Term.rename fun _ => unnamed) = ts ∧
    ∀ x, IsAnonymous x →
      tally (Term.names x) named = names.count x ∧ tally (Term.names x) us = names.count x

theorem not_generated_underscore : ¬ Generated "_" := not_drawable_underscore 0

theorem generatedName_ne_underscore (stem : String) (id : Nat) : generatedName stem id ≠ "_" :=
  fun same => not_generated_underscore ⟨stem, id, Nat.zero_le id, same.symm⟩

theorem generatedName_injective (stem : String) : Function.Injective (generatedName stem) :=
  fun _ _ => id_of_generatedName

theorem IsAnonymous.not_isResult {x : String} (anonymous : IsAnonymous x) : ¬ IsResult x := by
  rcases anonymous with rfl | ⟨id, rfl⟩
  · exact fun ⟨op, id, same⟩ => generatedName_ne_underscore _ id same.symm
  · rintro ⟨op, id', same⟩
    have zero := generatedName_congr same 0
    unfold resultStem at zero
    split at zero <;> exact absurd zero (by decide)

theorem names_underscore (t : Term) :
    (if t.names "_" then 1 else 0) = (if t.isWildcard then 1 else 0) + if t.isRestWildcard then 1 else 0 := by
  obtain ⟨o, value⟩ := t
  cases value with
  | var x => simp [Term.names, Term.symbol?, Term.isWildcard, Term.isRestWildcard, Term.value]
  | rest x => simp [Term.names, Term.symbol?, Term.isWildcard, Term.isRestWildcard, Term.value]
  | _ => rfl

/-- An anonymous variable is a plain one or a rest. -/
theorem tally_underscore (ts : List Term) :
    tally (Term.names "_") ts = tally Term.isWildcard ts + tally Term.isRestWildcard ts := by
  unfold tally
  induction ts.flatMap Term.preorder with
  | nil => rfl
  | cons t ts ih =>
      have own := names_underscore t
      rw [List.countP_cons, List.countP_cons, List.countP_cons]
      omega

/-! ## Called after ids -/

/-- The second terms are the first with their plain anonymous variables called after the ids, while
those that are rests keep their name. -/
structure Called (ids : List Nat) (ts us : List Term) : Prop where
  undone : us.map (Term.rename fun _ => unnamed) = ts
  count : ids.length = tally Term.isWildcard ts
  drawn : ∀ id, tally (Term.names (generatedName "_" id)) us = ids.count id
  kept : tally (Term.names "_") us = tally Term.isRestWildcard ts

namespace Called

variable {ids ids' : List Nat} {ts ts' us us' : List Term}

theorem nil : Called [] [] [] := ⟨rfl, rfl, fun _ => rfl, rfl⟩

theorem append (called : Called ids ts us) (called' : Called ids' ts' us') :
    Called (ids ++ ids') (ts ++ ts') (us ++ us') where
  undone := by rw [List.map_append, called.undone, called'.undone]
  count := by rw [List.length_append, tally_append, called.count, called'.count]
  drawn id := by rw [tally_append, List.count_append, called.drawn, called'.drawn]
  kept := by rw [tally_append, tally_append, called.kept, called'.kept]

/-- The names asked for are there just when at most one anonymous variable is a rest. -/
theorem haveOwnNames_iff {rewritten : List Term} (called : Called ids ts us) (different : ids.Nodup)
    (moved : ∀ x, IsAnonymous x → tally (Term.names x) rewritten = tally (Term.names x) us) :
    HaveOwnNames ts rewritten ↔ tally Term.isRestWildcard ts ≤ 1 := by
  constructor
  · rintro ⟨names, named, nodup, _, _, _, once⟩
    have shared := (once "_" (.inl rfl)).2
    rw [moved "_" (.inl rfl), called.kept] at shared
    rw [shared]
    exact List.nodup_iff_count_le_one.mp nodup "_"
  · intro one
    let drawn := ids.map (generatedName "_")
    let kept := List.replicate (tally Term.isRestWildcard ts) "_"
    have notDrawn : "_" ∉ drawn := fun member => by
      obtain ⟨id, _, same⟩ := List.mem_map.mp member
      exact generatedName_ne_underscore _ id same
    have notKept : ∀ id, generatedName "_" id ∉ kept := fun id member =>
      generatedName_ne_underscore _ id (List.eq_of_mem_replicate member)
    have counted : ∀ x, IsAnonymous x → tally (Term.names x) us = (drawn ++ kept).count x := by
      rintro x (rfl | ⟨id, rfl⟩)
      · rw [called.kept, List.count_append, List.count_eq_zero.mpr notDrawn, List.count_replicate_self,
          Nat.zero_add]
      · rw [called.drawn, List.count_append, List.count_eq_zero.mpr (notKept id),
          List.count_map_of_injective _ _ (generatedName_injective "_")]
        rfl
    refine ⟨drawn ++ kept, us, ?_, ?_, ?_, called.undone, fun x anonymous =>
      ⟨counted x anonymous, (moved x anonymous).trans (counted x anonymous)⟩⟩
    · refine (different.map (generatedName_injective "_")).append
        (List.nodup_replicate.mpr one) fun x first second => ?_
      rw [List.eq_of_mem_replicate second] at first
      exact notDrawn first
    · rintro x member
      rcases List.mem_append.mp member with first | second
      · obtain ⟨id, _, same⟩ := List.mem_map.mp first
        exact .inr ⟨id, same.symm⟩
      · exact .inl (List.eq_of_mem_replicate second)
    · rw [List.length_append, List.length_map, List.length_replicate, called.count, tally_underscore]

end Called

/-! ## The names that are drawn -/

section Drawn

variable {n n' : Nat} {ts us gs : List Term}

theorem isWildcard_eq_false {t : Term} (other : ∀ o, t ≠ .mk o (.var "_")) : t.isWildcard = false := by
  obtain ⟨o, value⟩ := t
  cases value with
  | var x => exact beq_eq_false_iff_ne.mpr fun same => other o (by rw [same])
  | _ => rfl

/-- The ids are those between the two places of the counter. -/
theorem Wildcards.called (wildcards : Wildcards n ts us n')
    (source : ∀ x, AnyMentions ts x → ¬ Generated x) : Called (List.range' n (n' - n)) ts us := by
  induction wildcards with
  | nil n => rw [Nat.sub_self]; exact .nil
  | @append n n' n'' ts ts' us us' before after ih ih' =>
      have split : List.range' n (n'' - n) = List.range' n (n' - n) ++ List.range' n' (n'' - n') := by
        obtain ⟨k, rfl⟩ := Nat.exists_eq_add_of_le before.le
        obtain ⟨l, rfl⟩ := Nat.exists_eq_add_of_le after.le
        rw [Nat.add_sub_cancel_left, Nat.add_sub_cancel_left, List.range'_append_1, Nat.add_assoc,
          Nat.add_sub_cancel_left]
      rw [split]
      exact (ih fun x found => source x (anyMentions_append.mpr (.inl found))).append
        (ih' fun x found => source x (anyMentions_append.mpr (.inr found)))
  | wildcard o n =>
      have undone := (Wildcards.wildcard o n).rename_of (τ := fun _ => unnamed)
        (fun id => unnamed_generatedName id) fun x found _ => unnamed_of_not_generated (source x found)
      rw [Nat.add_sub_cancel_left]
      refine ⟨undone, rfl, fun id => ?_, ?_⟩
      · have own : (Term.mk o (.var (generatedName "_" n))).names (generatedName "_" id) = (n == id) := by
          show (some _ == some _) = _
          simp [(generatedName_injective "_").eq_iff]
        rw [List.range'_one, List.count_singleton, tally_singleton, own]
        rfl
      · rw [tally_singleton, tally_singleton]
        simp [Term.parts, Term.names, Term.symbol?, generatedName_ne_underscore, Term.isRestWildcard,
          Term.value]
  | @parts t n n' us known other before ih =>
      have inner := ih fun x found => source x (anyMentions_of_parts found)
      have undone := (Wildcards.parts known other before).rename_of (τ := fun _ => unnamed)
        (fun id => unnamed_generatedName id) fun x found _ => unnamed_of_not_generated (source x found)
      have names : ∀ x, (t.withParts us).names x = t.names x := fun x => by
        rw [Term.names, symbol?_withParts, ← Term.names]
      have own := names_underscore t
      rw [isWildcard_eq_false other] at own
      refine ⟨undone, ?_, fun id => ?_, ?_⟩
      · rw [inner.count, tally_singleton, isWildcard_eq_false other]
        simp
      · have absent : t.names (generatedName "_" id) = false := beq_eq_false_iff_ne.mpr fun named =>
          source _ (anyMentions_of_symbol? named) ⟨"_", id, Nat.zero_le id, rfl⟩
        rw [tally_singleton, names, absent, parts_withParts known before.length_eq, inner.drawn]
        simp
      · rw [tally_singleton, tally_singleton (t := t), names, parts_withParts known before.length_eq,
          inner.kept, own]
        simp

/-- The ids are in order and lie between two places of the counter. -/
structure Ascends (n : Nat) (ids : List Nat) (n' : Nat) : Prop where
  sorted : ids.Pairwise (· < ·)
  between : ∀ id ∈ ids, n ≤ id ∧ id < n'

theorem ascends_range' (le : n ≤ n') : Ascends n (List.range' n (n' - n)) n' where
  sorted := List.pairwise_lt_range'
  between id member := by
    rw [List.mem_range'_1] at member
    omega

theorem Ascends.append {n₁ n₂ : Nat} {ids ids' : List Nat} (first : Ascends n ids n₁)
    (second : Ascends n₂ ids' n') (le₁ : n ≤ n₁) (le : n₁ ≤ n₂) (le₂ : n₂ ≤ n') :
    Ascends n (ids ++ ids') n' where
  sorted := List.pairwise_append.mpr ⟨first.sorted, second.sorted, fun id member id' member' => by
    have := first.between id member
    have := second.between id' member'
    omega⟩
  between id member := by
    rcases List.mem_append.mp member with here | there
    · have := first.between id here
      omega
    · have := second.between id there
      omega

theorem Ascends.nodup {ids : List Nat} (ascends : Ascends n ids n') : ids.Nodup :=
  ascends.sorted.imp Nat.ne_of_lt

theorem HeadLifts.le {params params' : List Parameter} {named : List Term}
    (lifts : HeadLifts n params named params' gs n') : n ≤ n' := by
  induction lifts with
  | nil => exact Nat.le_refl _
  | cons term lifts shapes _ ih =>
      exact Nat.le_trans term.le (Nat.le_trans lifts.le (Nat.le_trans shapes.le ih))

theorem HeadLifts.exists_called {params params' : List Parameter} {named : List Term}
    (lifts : HeadLifts n params named params' gs n')
    (source : ∀ x, AnyMentions (params.flatMap Parameter.terms) x → ¬ Generated x) :
    ∃ ids, Ascends n ids n' ∧ Called ids (params.flatMap Parameter.terms) named := by
  induction lifts with
  | nil => exact ⟨[], ⟨.nil, List.forall_mem_nil _⟩, .nil⟩
  | @cons n n₁ n₂ n₃ n' param param' params params' t named gs gs' term lifts shapes rest ih =>
      simp only [List.flatMap_cons, Parameter.terms, anyMentions_append, anyMentions_cons] at source
      obtain ⟨ids, ascends, called⟩ := ih fun x found => source x (.inr found)
      have first := term.called fun x found =>
        source x (.inl (.inl (anyMentions_singleton.mp found)))
      have second := shapes.called fun x found => source x (.inl (.inr found))
      have order := (ascends_range' term.le).append ((ascends_range' shapes.le).append ascends
        shapes.le (Nat.le_refl _) rest.le) term.le lifts.le
          (Nat.le_trans shapes.le rest.le)
      refine ⟨_, order, ?_⟩
      rw [List.flatMap_cons, Parameter.terms, ← List.singleton_append, List.append_assoc]
      exact first.append (second.append called)

theorem RuleLifts.exists_called {r r' : Rule} {named : List Term} (lifts : RuleLifts n r named r' n')
    (source : ∀ x, r.Spells x → ¬ Generated x) :
    ∃ ids, ids.Nodup ∧ Called ids r.terms named := by
  obtain ⟨head, body, _⟩ := lifts
  simp only [Rule.spells_iff, Rule.terms, anyMentions_append] at source
  obtain ⟨ids, ascends, called⟩ := head.exists_called fun x found => source x (.inl found)
  have last := body.called fun x found => source x (.inr found)
  exact ⟨_, (ascends.append (ascends_range' body.le) head.le (Nat.le_refl _) body.le).nodup,
    called.append last⟩

end Drawn

/-! ## Goals and rules -/

theorem toGoal_haveOwnNames_iff {t : Term} (written : t.Written)
    (spelled : ∀ y, t.Mentions y → ¬ Generated y) (counter : Nat) :
    HaveOwnNames [t] [(t.toGoal.run counter).1] ↔ tally Term.isRestWildcard [t] ≤ 1 := by
  let named := ((t.renameM nameWildcard).run counter).1
  let next := ((t.renameM nameWildcard).run counter).2
  have wildcards : Wildcards counter [t] [named] next :=
    wildcards_renameM (fun s inside => (written s inside).known) counter
  have lifts : Lifts true next [named] [(t.toGoal.run counter).1] [] (named.lift.run next).2 :=
    ((wildcards.written (List.forall_mem_singleton.mpr written) named
      List.mem_cons_self).liftsItself next).2
  have called := wildcards.called fun x found => spelled x (anyMentions_singleton.mp found)
  refine called.haveOwnNames_iff (ascends_range' wildcards.le).nodup fun x anonymous => ?_
  have moved := lifts.tally (leftAlone_names anonymous.not_isResult)
  rwa [List.append_nil] at moved

theorem lift_haveOwnNames_iff {r : Rule} (written : Source.AllWritten r.terms)
    (spelled : ∀ y, r.Spells y → ¬ Generated y) (counter : Nat) :
    HaveOwnNames r.terms (r.lift.run counter).1.terms ↔ tally Term.isRestWildcard r.terms ≤ 1 := by
  obtain ⟨named, lifts⟩ := Rule.exists_lifts written counter
  obtain ⟨ids, different, called⟩ := lifts.exists_called spelled
  exact called.haveOwnNames_iff different fun x anonymous =>
    lifts.tally (leftAlone_names anonymous.not_isResult)

/-- In a goal and in a rule that were read from a text and made ready, each anonymous variable has a
name of its own just when at most one of them is the rest of a list. -/
theorem wildcards_own_names {source source' : String} {t : Term} {lines : List Source.Line} {r : Rule}
    (goal : Source.parseTerm source = .ok t) (spelled : ∀ y, t.Mentions y → ¬ Generated y)
    (policy : Source.parseLines source' = .ok lines) (member : .rule r ∈ lines)
    (spelled' : ∀ y, r.Spells y → ¬ Generated y) (counter : Nat) :
    (HaveOwnNames [t] [(t.toGoal.run counter).1] ↔ tally Term.isRestWildcard [t] ≤ 1) ∧
      (HaveOwnNames r.terms (r.lift.run counter).1.terms ↔ tally Term.isRestWildcard r.terms ≤ 1) :=
  ⟨toGoal_haveOwnNames_iff (Source.written_of_parseTerm goal) spelled counter,
    lift_haveOwnNames_iff (Source.written_of_parseLines policy member) spelled' counter⟩

theorem anyMentions_iff_mem {ts : List Term} {x : String} :
    AnyMentions ts x ↔ x ∈ (ts.flatMap Term.preorder).filterMap Term.symbol? := by
  simp only [AnyMentions, Term.Mentions, List.mem_filterMap, List.mem_flatMap]
  constructor
  · rintro ⟨t, member, s, inside, named⟩
    exact ⟨s, ⟨t, member, inside⟩, named⟩
  · rintro ⟨s, ⟨t, member, inside⟩, named⟩
    exact ⟨t, member, s, inside, named⟩

/-- A variable that is anonymous as it is written, or is no temporary, was not generated. -/
theorem not_generated_of_mem {ts : List Term} (plain : ((ts.flatMap Term.preorder).filterMap
    Term.symbol?).all (fun x => x == "_" || !isTemporary x) = true) :
    ∀ x, AnyMentions ts x → ¬ Generated x := by
  intro x found generated
  have known := List.all_eq_true.mp plain x (anyMentions_iff_mem.mp found)
  rw [Bool.or_eq_true, beq_iff_eq, Bool.not_eq_true'] at known
  rcases known with rfl | other
  · exact not_generated_underscore generated
  · rw [generated.isTemporary] at other
    cases other

/-- Anonymous variables in a parameter, in a specializer, in a list, in its rest and in the body. -/
def anyItemSource : String := "f(_: Item\x7bparts: [_, x]\x7d, [x, *_]) if g(_, x.owner);"

theorem wildcards_own_names_anyItem :
    ∃ t r, Source.parseTerm "f(_, [x, *_]) and x.owner = _" = .ok t ∧
      (∀ y, t.Mentions y → ¬ Generated y) ∧ Source.parseLines anyItemSource = .ok [.rule r] ∧
      (∀ y, r.Spells y → ¬ Generated y) ∧
      (HaveOwnNames [t] [(t.toGoal.run 3).1] ↔ tally Term.isRestWildcard [t] ≤ 1) ∧
      (HaveOwnNames r.terms (r.lift.run 3).1.terms ↔ tally Term.isRestWildcard r.terms ≤ 1) := by
  have goal : (Source.parseTerm "f(_, [x, *_]) and x.owner = _").toOption.map (fun t =>
      (([t].flatMap Term.preorder).filterMap Term.symbol?).all fun x => x == "_" || !isTemporary x) =
        some true := by
    decide +kernel
  have rule : (ruleOf? anyItemSource).map (fun r =>
      ((r.terms.flatMap Term.preorder).filterMap Term.symbol?).all
        fun x => x == "_" || !isTemporary x) = some true := by
    decide +kernel
  obtain ⟨t, parsed, plain⟩ := Option.map_eq_some_iff.mp goal
  obtain ⟨r, found, plain'⟩ := Option.map_eq_some_iff.mp rule
  have parsed : Source.parseTerm "f(_, [x, *_]) and x.owner = _" = .ok t := by
    cases known : Source.parseTerm "f(_, [x, *_]) and x.owner = _" with
    | error e => rw [known] at parsed; cases parsed
    | ok u => rw [known] at parsed; exact congrArg _ (Option.some.inj parsed)
  have read := parseLines_of_ruleOf? found
  have spelled : ∀ y, t.Mentions y → ¬ Generated y := fun y mentioned =>
    not_generated_of_mem plain y (anyMentions_singleton.mpr mentioned)
  have spelled' : ∀ y, r.Spells y → ¬ Generated y := fun y mentioned =>
    not_generated_of_mem plain' y (Rule.spells_iff.mp mentioned)
  exact ⟨t, r, parsed, spelled, read, spelled',
    wildcards_own_names parsed spelled read List.mem_cons_self spelled' 3⟩

/-- Two rests without a name, in goals that have nothing to do with each other. -/
def twoRestsSource : String := "f(1) if [1, 2] = [1, *_] and [3, 4] = [3, *_];"

/-- Both rests are the same variable in the rule made ready. It cannot be `[2]` and `[4]`, so the
rule fails although each of its goals holds. -/
theorem rest_wildcards_shared :
    ∃ r, Source.parseLines twoRestsSource = .ok [.rule r] ∧ (∀ y, r.Spells y → ¬ Generated y) ∧
      ¬ HaveOwnNames r.terms (r.lift.run 1).1.terms := by
  have rule : (ruleOf? twoRestsSource).map (fun r =>
      (((r.terms.flatMap Term.preorder).filterMap Term.symbol?).all
        fun x => x == "_" || !isTemporary x, tally Term.isRestWildcard r.terms)) = some (true, 2) := by
    decide +kernel
  obtain ⟨r, found, values⟩ := Option.map_eq_some_iff.mp rule
  obtain ⟨plain, two⟩ := Prod.mk.injEq .. ▸ values
  have read := parseLines_of_ruleOf? found
  have spelled : ∀ y, r.Spells y → ¬ Generated y := fun y mentioned =>
    not_generated_of_mem plain y (Rule.spells_iff.mp mentioned)
  refine ⟨r, read, spelled, fun own => ?_⟩
  have one := (lift_haveOwnNames_iff
    (Source.written_of_parseLines read List.mem_cons_self) spelled 1).mp own
  rw [two] at one
  omega

end PolicyLogic
