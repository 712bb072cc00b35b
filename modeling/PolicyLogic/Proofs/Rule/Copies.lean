import PolicyLogic.Proofs.Rule.Apart
import PolicyLogic.Proofs.Rule.Read

/-!
# Copies of rules that were read

Whatever rule was read from a text, before or after it has been made ready, a copy of it gives every
variable that is no constant a new name, the same at all places, and changes nothing else. Different
variables get different names, and two copies share no variable but constants: `copies_apart`.

What it means to rename everywhere is said apart from the work that does it: `Term.RenamedBy` goes
through the parts of a term.
-/

namespace PolicyLogic

/-! ## Renaming everywhere -/

/-- The second term is the first with every variable, plain or rest, renamed in its place. -/
inductive Term.RenamedBy (ρ : String → String) : Term → Term → Prop
  | var (o : Option Nat) (x : String) : RenamedBy ρ (.mk o (.var x)) (.mk o (.var (ρ x)))
  | rest (o : Option Nat) (x : String) : RenamedBy ρ (.mk o (.rest x)) (.mk o (.rest (ρ x)))
  | parts {t : Term} {us : List Term} : t.symbol? = none → List.Forall₂ (RenamedBy ρ) t.parts us →
    RenamedBy ρ t (t.withParts us)

/-- The second rule is the first with every variable renamed in its place. -/
structure Rule.RenamedBy (ρ : String → String) (r copy : Rule) : Prop where
  name : copy.name = r.name
  offset : copy.offset = r.offset
  params : List.Forall₂ (fun p q : Parameter => p.term.RenamedBy ρ q.term ∧
    Option.Rel (fun s s' : Pattern => (Term.pattern s).RenamedBy ρ (.pattern s')) p.specializer
      q.specializer) r.params copy.params
  body : r.body.RenamedBy ρ copy.body

/-- No term in the term recalls a call of a host object. -/
def Term.IsKnown (t : Term) : Prop := ∀ s ∈ t.preorder, s.recalls = false

theorem Term.isKnown_iff {t : Term} : t.IsKnown ↔ t.recalls = false ∧ ∀ part ∈ t.parts, part.IsKnown :=
  forall_preorder_iff

namespace Term.IsKnown

variable {t : Term} {ρ τ : String → String} {x : String}

theorem renamedBy (known : t.IsKnown) (ρ : String → String) : t.RenamedBy ρ (t.renamed ρ) := by
  induction t using Term.parts_induction with
  | step t ih =>
      have inside := (isKnown_iff.mp known).2
      cases named : t.symbol? with
      | none =>
          have rebuilt : t.renamed ρ = t.withParts (t.parts.map (Term.renamed ρ)) :=
            rename_eq_withParts fun x again => by rw [named] at again; cases again
          rw [rebuilt]
          refine .parts named (List.forall₂_map_right_iff.mpr (List.forall₂_same.mpr ?_))
          exact fun part member => ih part member (inside part member)
      | some x =>
          obtain ⟨o, value⟩ := t
          cases value with
          | var y => exact .var o y
          | rest y => exact .rest o y
          | _ => cases named

/-- Renaming is faithful on the variables of the term. -/
theorem renamed_inj (known : t.IsKnown) (same : t.renamed ρ = t.renamed τ) (found : t.Mentions x) :
    ρ x = τ x := by
  induction t using Term.parts_induction with
  | step t ih =>
      obtain ⟨own, inside⟩ := isKnown_iff.mp known
      rcases mentions_iff_parts.mp found with named | ⟨part, member, within⟩
      · obtain ⟨o, value⟩ := t
        cases value with
        | var y =>
            obtain rfl : y = x := Option.some.inj named
            simpa [Term.renamed] using same
        | rest y =>
            obtain rfl : y = x := Option.some.inj named
            simpa [Term.renamed] using same
        | _ => cases named
      · have parts : t.parts.map (Term.renamed ρ) = t.parts.map (Term.renamed τ) :=
          (parts_rename own).symm.trans ((congrArg Term.parts same).trans (parts_rename own))
        exact ih part member (inside part member) (List.map_inj_left.mp parts part member) within

/-- The variables of a renamed term are the renamed ones. -/
theorem exists_of_mentions_renamed (known : t.IsKnown) (found : (t.renamed ρ).Mentions x) :
    ∃ y, t.Mentions y ∧ x = ρ y := by
  induction t using Term.parts_induction with
  | step t ih =>
      obtain ⟨own, inside⟩ := isKnown_iff.mp known
      rcases mentions_iff_parts.mp found with named | within
      · obtain ⟨o, value⟩ := t
        cases value with
        | var y => exact ⟨y, mentions_var.mpr rfl, (Option.some.inj named).symm⟩
        | rest y => exact ⟨y, mentions_rest.mpr rfl, (Option.some.inj named).symm⟩
        | call name args named' => cases named' <;> cases named
        | pattern shape => cases shape <;> cases named
        | _ => cases named
      · rw [Term.renamed, parts_rename own] at within
        obtain ⟨_, member, here⟩ := within
        obtain ⟨part, there, rfl⟩ := List.mem_map.mp member
        obtain ⟨y, mentioned, same⟩ := ih part there (inside part there) here
        exact ⟨y, mentions_iff_parts.mpr (.inr ⟨part, there, mentioned⟩), same⟩

end Term.IsKnown

/-! ## Renaming rules -/

/-- No term of the rule recalls a call of a host object. -/
def Rule.IsKnown (r : Rule) : Prop := ∀ t ∈ r.terms, t.IsKnown

/-- Renaming a pattern is renaming it as a term. -/
theorem pattern_renamed (ρ : String → String) (shape : Pattern) :
    Term.pattern (Id.run (shape.renameM fun _ name => pure (ρ name))) = (Term.pattern shape).renamed ρ := by
  cases shape <;> rfl

theorem Parameter.terms_renamed (ρ : String → String) (param : Parameter) :
    (param.renamed ρ).terms = param.terms.map (Term.renamed ρ) := by
  obtain ⟨t, specializer⟩ := param
  cases specializer with
  | none => rfl
  | some shape => simp [terms, shapes, Parameter.renamed, pattern_renamed]

theorem Rule.terms_renamed (ρ : String → String) (r : Rule) :
    (r.renamed ρ).terms = r.terms.map (Term.renamed ρ) := by
  simp only [terms, Rule.renamed, List.map_append, List.map_flatMap, List.flatMap_map,
    Parameter.terms_renamed, List.map_singleton]

namespace Rule.IsKnown

variable {r : Rule} {ρ τ : String → String} {x : String}

theorem renamedBy (known : r.IsKnown) (ρ : String → String) : r.RenamedBy ρ (r.renamed ρ) := by
  obtain ⟨head, body⟩ := List.forall_mem_append.mp known
  refine ⟨rfl, rfl, List.forall₂_map_right_iff.mpr (List.forall₂_same.mpr fun param member => ?_),
    (body r.body List.mem_cons_self).renamedBy ρ⟩
  have own : ∀ t ∈ param.terms, t.IsKnown := fun t inside =>
    head t (List.mem_flatMap.mpr ⟨param, member, inside⟩)
  refine ⟨(own param.term List.mem_cons_self).renamedBy ρ, ?_⟩
  cases carried : param.specializer with
  | none => simp [Parameter.renamed, carried]
  | some shape =>
      have inside : (Term.pattern shape).IsKnown :=
        own _ (List.mem_cons_of_mem _ (by simp [Parameter.shapes, carried]))
      have renamed := inside.renamedBy ρ
      rw [← pattern_renamed] at renamed
      simpa [Parameter.renamed, carried] using renamed

theorem renamed_inj (known : r.IsKnown) (found : r.Spells x) (same : r.renamed ρ = r.renamed τ) :
    ρ x = τ x := by
  obtain ⟨t, member, inside⟩ := Rule.spells_iff.mp found
  have terms : r.terms.map (Term.renamed ρ) = r.terms.map (Term.renamed τ) := by
    rw [← terms_renamed, ← terms_renamed, same]
  exact (known t member).renamed_inj (List.map_inj_left.mp terms t member) inside

theorem exists_of_spells_renamed (known : r.IsKnown) (found : (r.renamed ρ).Spells x) :
    ∃ y, r.Spells y ∧ x = ρ y := by
  obtain ⟨_, member, inside⟩ := Rule.spells_iff.mp found
  rw [terms_renamed] at member
  obtain ⟨t, there, rfl⟩ := List.mem_map.mp member
  obtain ⟨y, mentioned, same⟩ := (known t there).exists_of_mentions_renamed inside
  exact ⟨y, Rule.spells_iff.mpr ⟨t, there, mentioned⟩, same⟩

end Rule.IsKnown

/-! ## Rules that come from a text -/

/-- The rule was read from a text, or made ready after it had been read. -/
inductive Rule.FromText : Rule → Prop
  | read {source : String} {lines : List Source.Line} {r : Rule} :
    Source.parseLines source = .ok lines → .rule r ∈ lines → FromText r
  | ready {source : String} {lines : List Source.Line} {r : Rule} (counter : Nat) :
    Source.parseLines source = .ok lines → .rule r ∈ lines → FromText (r.lift.run counter).1

theorem HeadLifts.written {n n' : Nat} {params params' : List Parameter} {named gs : List Term}
    (lifts : HeadLifts n params named params' gs n')
    (written : ∀ param ∈ params, Source.AllWritten param.terms) : Source.AllWritten named := by
  induction lifts with
  | nil => exact List.forall_mem_nil _
  | cons term _ shapes _ ih =>
      obtain ⟨own, others⟩ := List.forall_mem_cons.mp written
      obtain ⟨first, second⟩ := List.forall_mem_cons.mp own
      have named := term.written (List.forall_mem_singleton.mpr first)
      exact List.forall_mem_append.mpr ⟨List.forall_mem_cons.mpr
        ⟨named _ List.mem_cons_self, shapes.written second⟩, ih others⟩

/-- With the anonymous variables named the terms are still as the language writes them. -/
theorem RuleLifts.written {n n' : Nat} {r r' : Rule} {named : List Term}
    (lifts : RuleLifts n r named r' n') (written : Source.AllWritten r.terms) :
    Source.AllWritten named := by
  obtain ⟨head, body, _⟩ := lifts
  obtain ⟨inHead, inBody⟩ := List.forall_mem_append.mp written
  refine List.forall_mem_append.mpr ⟨head.written fun param member t inside => ?_, body.written inBody⟩
  exact inHead t (List.mem_flatMap.mpr ⟨param, member, inside⟩)

theorem Rule.FromText.isKnown {r : Rule} (fromText : r.FromText) : r.IsKnown := by
  have known : ∀ {ts : List Term}, Source.AllWritten ts → ∀ t ∈ ts, t.IsKnown :=
    fun written t member s inside => (written t member s inside).known
  cases fromText with
  | read parsed member => exact known (Source.written_of_parseLines parsed member)
  | ready counter parsed member =>
      have written := Source.written_of_parseLines parsed member
      obtain ⟨named, lifts⟩ := Rule.exists_lifts written counter
      refine tally_eq_zero_iff.mp ((lifts.tally leftAlone_recalls).trans ?_)
      exact tally_eq_zero_iff.mpr (known (lifts.written written))

/-- A copy of a rule that comes from a text is the rule with every variable renamed in its place:
constants keep their names, and the other variables get new names, different ones for different
variables. No variable but a constant occurs also in a later copy, of the same rule or of another. -/
theorem copies_apart (kb kb' : KnowledgeBase) {r s : Rule} (fromText : r.FromText)
    (fromText' : s.FromText) (first : Nat) :
    ∃ ρ copy next, (r.apart kb).run first = (copy, next) ∧ r.RenamedBy ρ copy ∧ kb.Keeps ρ ∧
      (∀ x, r.Spells x → kb.isConstant x = false →
        ∃ id, first ≤ id ∧ id < next ∧ ρ x = generatedName x id) ∧
      (∀ x y, r.Spells x → r.Spells y → kb.isConstant x = false → kb.isConstant y = false →
        ρ x = ρ y → x = y) ∧
      ∀ later, next ≤ later → ∀ y, copy.Spells y → ((s.apart kb').run later).1.Spells y →
        kb.isConstant y = true ∨ kb'.isConstant y = true := by
  have known := fromText.isKnown
  have known' := fromText'.isKnown
  obtain ⟨ρ, next, run, _, keeps, drawn, apart⟩ :=
    exists_renaming kb r first r.Spells fun x found ρ τ same => known.renamed_inj found same
  refine ⟨ρ, _, next, run, known.renamedBy ρ, keeps, drawn, apart, fun later le y found found' => ?_⟩
  obtain ⟨τ, next', run', _, keeps', drawn', _⟩ :=
    exists_renaming kb' s later s.Spells fun x found ρ τ same => known'.renamed_inj found same
  rw [run'] at found'
  obtain ⟨x, spelled, rfl⟩ := known.exists_of_spells_renamed found
  obtain ⟨x', spelled', same⟩ := known'.exists_of_spells_renamed found'
  cases isConstant : kb.isConstant x with
  | true => exact .inl (by rw [keeps x isConstant, isConstant])
  | false =>
      cases isConstant' : kb'.isConstant x' with
      | true => exact .inr (by rw [same, keeps' x' isConstant', isConstant'])
      | false =>
          -- Both names would have been made with one id.
          obtain ⟨id, _, below, made⟩ := drawn x spelled isConstant
          obtain ⟨id', least, _, made'⟩ := drawn' x' spelled' isConstant'
          have := id_of_generatedName (made.symm.trans (same.trans made'))
          omega

/-- A rule with a rest variable that shares the name of a plain one, in a specializer and in the
body. -/
def ownerSource : String := "owned(x: Item\x7bparts: [_, *y]\x7d, y) if x.owner = [Nobody, *y];"

/-- Copies of the rule as it was read and of the same rule made ready, where `Nobody` is a constant. -/
theorem copies_apart_owner :
    let kb : KnowledgeBase := { constants := [("Nobody", .text "nobody")] }
    ∃ r s : Rule, r.FromText ∧ s.FromText ∧
    ∃ ρ copy next, (r.apart kb).run 7 = (copy, next) ∧ r.RenamedBy ρ copy ∧ kb.Keeps ρ ∧
      (∀ x, r.Spells x → kb.isConstant x = false →
        ∃ id, 7 ≤ id ∧ id < next ∧ ρ x = generatedName x id) ∧
      (∀ x y, r.Spells x → r.Spells y → kb.isConstant x = false → kb.isConstant y = false →
        ρ x = ρ y → x = y) ∧
      ∀ later, next ≤ later → ∀ y, copy.Spells y → ((s.apart kb).run later).1.Spells y →
        kb.isConstant y = true ∨ kb.isConstant y = true := by
  intro kb
  have isRule : (ruleOf? ownerSource).isSome = true := by decide +kernel
  obtain ⟨r, found⟩ := Option.isSome_iff_exists.mp isRule
  have parsed := parseLines_of_ruleOf? found
  have read : r.FromText := .read parsed List.mem_cons_self
  have ready : (r.lift.run 1).1.FromText := .ready 1 parsed List.mem_cons_self
  exact ⟨r, _, read, ready, copies_apart kb kb read ready 7⟩

end PolicyLogic
