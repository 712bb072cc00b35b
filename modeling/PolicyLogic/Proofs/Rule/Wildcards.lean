import PolicyLogic.Proofs.Rule.Placement

/-!
# Naming anonymous variables

Before a goal is lifted, each anonymous variable in it gets a name of its own. `Wildcards` says what
that comes to, and the rest follows by induction on it: no anonymous variable is left, the names
differ from each other and from those of the source (`Wildcards.apart`, `Wildcards.mentions`), and
with the names taken away again the terms are as they were (`Wildcards.rename`).
-/

namespace PolicyLogic

/-! ## The work on the parts -/

section Run

variable {f : VarKind → String → Fresh String}

theorem run_renameFieldsM (fields : List (String × Term)) (n : Nat) :
    (renameFieldsM f fields).run n =
      let parts := (renameAllM f (fields.map (·.2))).run n
      (withValues fields parts.1, parts.2) := by
  induction fields generalizing n with
  | nil => rfl
  | cons field fields ih =>
      obtain ⟨name, t⟩ := field
      show (let first := (t.renameM f).run n
        let rest := (renameFieldsM f fields).run first.2
        (((name, first.1) :: rest.1, rest.2) : _ × Nat)) = _
      simp only [ih]
      rfl

theorem run_renameAllM_append (ts us : List Term) (n : Nat) :
    (renameAllM f (ts ++ us)).run n =
      let first := (renameAllM f ts).run n
      let second := (renameAllM f us).run first.2
      (first.1 ++ second.1, second.2) := by
  induction ts generalizing n with
  | nil => rfl
  | cons t ts ih =>
      show (let first := (t.renameM f).run n
        let rest := (renameAllM f (ts ++ us)).run first.2
        ((first.1 :: rest.1, rest.2) : _ × Nat)) = _
      simp only [ih]
      rfl

theorem length_renameAllM (ts : List Term) (n : Nat) :
    ((renameAllM f ts).run n).1.length = ts.length := by
  induction ts generalizing n with
  | nil => rfl
  | cons t ts ih => exact congrArg Nat.succ (ih _)

/-- What is no variable is renamed in its parts. -/
theorem run_renameM {t : Term} (known : t.recalls = false) (no_variable : t.symbol? = none) (n : Nat) :
    (t.renameM f).run n =
      let parts := (renameAllM f t.parts).run n
      (t.withParts parts.1, parts.2) := by
  obtain ⟨o, value⟩ := t
  cases value with
  | var x => cases no_variable
  | rest x => cases no_variable
  | dictionary fields =>
      show (let parts := (renameFieldsM f fields).run n
        (Term.mk o (.dictionary parts.1), parts.2)) = _
      simp only [run_renameFieldsM]
      rfl
  | pattern shape =>
      cases shape with
      | record fields =>
          show (let parts := (renameFieldsM f fields).run n
            (Term.mk o (.pattern (.record parts.1)), parts.2)) = _
          simp only [run_renameFieldsM]
          rfl
      | object tag fields =>
          show (let parts := (renameFieldsM f fields).run n
            (Term.mk o (.pattern (.object tag parts.1)), parts.2)) = _
          simp only [run_renameFieldsM]
          rfl
  | call name args named =>
      cases named with
      | none => rfl
      | some named =>
          show (let first := (renameAllM f args).run n
            let rest := (renameFieldsM f named).run first.2
            (Term.mk o (.call name first.1 (some rest.1)), rest.2)) = _
          have length := length_renameAllM (f := f) args n
          simp only [run_renameFieldsM, Term.parts, run_renameAllM_append, Term.withParts]
          rw [List.take_left' length, List.drop_left' length]
  | handle id origin label =>
      cases origin with
      | none => rfl
      | some origin => cases known
  | _ => rfl

end Run

/-! ## The relation -/

/-- What naming the anonymous variables makes of some terms, from one place of the counter to
another. -/
inductive Wildcards : Nat → List Term → List Term → Nat → Prop
  | nil (n : Nat) : Wildcards n [] [] n
  | append {n n' n'' : Nat} {ts ts' us us' : List Term} :
    Wildcards n ts us n' → Wildcards n' ts' us' n'' → Wildcards n (ts ++ ts') (us ++ us') n''
  | wildcard (o : Option Nat) (n : Nat) :
    Wildcards n [.mk o (.var "_")] [.mk o (.var (generatedName "_" n))] (n + 1)
  | parts {t : Term} {n n' : Nat} {us : List Term} : t.recalls = false →
    (∀ o, t ≠ .mk o (.var "_")) → Wildcards n t.parts us n' → Wildcards n [t] [t.withParts us] n'

theorem wildcards_renameAllM {ts : List Term}
    (each : ∀ t ∈ ts, ∀ n, Wildcards n [t] [((t.renameM nameWildcard).run n).1]
      ((t.renameM nameWildcard).run n).2) (n : Nat) :
    Wildcards n ts ((renameAllM nameWildcard ts).run n).1 ((renameAllM nameWildcard ts).run n).2 := by
  induction ts generalizing n with
  | nil => exact .nil n
  | cons t ts ih =>
      exact .append (each t List.mem_cons_self n)
        (ih (fun u member => each u (List.mem_cons_of_mem _ member)) _)

theorem run_nameWildcard (n : Nat) : (nameWildcard .plain "_").run n = (generatedName "_" n, n + 1) := by
  rw [nameWildcard, if_pos (by decide)]
  rfl

theorem run_nameWildcard_of_other {kind : VarKind} {x : String} (other : kind = .rest ∨ x ≠ "_")
    (n : Nat) : (nameWildcard kind x).run n = (x, n) := by
  rw [nameWildcard, if_neg]
  · rfl
  · rcases other with rfl | ne
    · simp
    · simp [ne]

theorem wildcards_renameM {t : Term} (known : ∀ s ∈ t.preorder, s.recalls = false) (n : Nat) :
    Wildcards n [t] [((t.renameM nameWildcard).run n).1] ((t.renameM nameWildcard).run n).2 := by
  induction t using Term.parts_induction generalizing n with
  | step t ih =>
      obtain ⟨own, inside⟩ := forall_preorder_iff.mp known
      have each := wildcards_renameAllM fun part member => ih part member (inside part member)
      cases named : t.symbol? with
      | none =>
          rw [run_renameM own named]
          refine .parts own (fun o same => ?_) (each n)
          rw [same] at named
          cases named
      | some x =>
          obtain ⟨o, value⟩ := t
          cases value with
          | var y =>
              show Wildcards n _ [.mk o (.var ((nameWildcard .plain y).run n).1)]
                ((nameWildcard .plain y).run n).2
              by_cases anonymous : y = "_"
              · subst anonymous
                rw [run_nameWildcard]
                exact .wildcard o n
              · rw [run_nameWildcard_of_other (.inr anonymous)]
                exact .parts rfl (by simp [anonymous]) (.nil n)
          | rest y =>
              show Wildcards n _ [.mk o (.rest ((nameWildcard .rest y).run n).1)]
                ((nameWildcard .rest y).run n).2
              rw [run_nameWildcard_of_other (.inl rfl)]
              exact .parts rfl (by simp) (.nil n)
          | _ => cases named

theorem Term.IsWritten.withParts {t : Term} {ps : List Term} (written : t.IsWritten)
    (same : ps.length = t.parts.length) : (t.withParts ps).IsWritten := by
  refine ⟨by rw [recalls_withParts, written.known], ?_⟩
  rintro o op args rebuilt
  obtain ⟨o', value⟩ := t
  cases value with
  | operation op' args' =>
      cases rebuilt
      rw [same]
      exact written.operands _ _ _ rfl
  | call name args named => cases named <;> cases rebuilt
  | pattern shape => cases shape <;> cases rebuilt
  | _ => cases rebuilt

/-! ## The names -/

/-- The name of an anonymous variable, made with an id from a range. -/
def WildcardBetween (first next : Nat) (x : String) : Prop :=
  ∃ id, first ≤ id ∧ id < next ∧ x = generatedName "_" id

namespace Wildcards

variable {n n' : Nat} {ts us : List Term} {x : String}

theorem length_eq (wildcards : Wildcards n ts us n') : us.length = ts.length := by
  induction wildcards with
  | append _ _ ih ih' => rw [List.length_append, List.length_append, ih, ih']
  | _ => rfl

theorem le (wildcards : Wildcards n ts us n') : n ≤ n' := by
  induction wildcards with
  | nil n => exact Nat.le_refl n
  | append _ _ ih ih' => exact Nat.le_trans ih ih'
  | wildcard o n => exact Nat.le_succ n
  | parts _ _ _ ih => exact ih

/-- A variable is one of the source or the name of an anonymous one. -/
theorem mentions (wildcards : Wildcards n ts us n') (found : AnyMentions us x) :
    AnyMentions ts x ∨ WildcardBetween n n' x := by
  induction wildcards with
  | nil n => exact .inl found
  | append before after ih ih' =>
      simp only [anyMentions_append] at found ⊢
      rcases found with first | second
      · rcases ih first with own | ⟨id, least, below, same⟩
        · exact .inl (.inl own)
        · exact .inr ⟨id, least, Nat.lt_of_lt_of_le below after.le, same⟩
      · rcases ih' second with own | ⟨id, least, below, same⟩
        · exact .inl (.inr own)
        · exact .inr ⟨id, Nat.le_trans before.le least, below, same⟩
  | wildcard o n =>
      have same : generatedName "_" n = x := by simpa using found
      exact .inr ⟨n, Nat.le_refl n, Nat.lt_succ_self n, same.symm⟩
  | @parts t n n' us known _ before ih =>
      have inside := anyMentions_singleton.mp found
      rcases (mentions_withParts known before.length_eq).mp inside with named | within
      · exact .inl (anyMentions_of_symbol? named)
      · exact (ih within).imp_left anyMentions_of_parts

/-- A name that is not from the source occurs once at most. -/
theorem apart (wildcards : Wildcards n ts us n') (source : ¬ AnyMentions ts x) :
    tally (Term.names x) us ≤ 1 := by
  induction wildcards with
  | nil n => exact Nat.zero_le 1
  | @append n n' n'' ts ts' us us' before after ih ih' =>
      rw [anyMentions_append, not_or] at source
      rw [tally_append]
      by_cases found : AnyMentions us x
      · have absent : ¬ AnyMentions us' x := fun found' => by
          obtain ⟨id, _, below, rfl⟩ := (before.mentions found).resolve_left source.1
          obtain ⟨id', least, _, same⟩ := (after.mentions found').resolve_left source.2
          have := id_of_generatedName same
          omega
        have := ih source.1
        have := tally_names_eq_zero absent
        omega
      · have := ih' source.2
        have := tally_names_eq_zero found
        omega
  | wildcard o n =>
      rw [tally_singleton]
      show (if _ then 1 else 0) ≤ 1
      split <;> decide
  | @parts t n n' us known _ before ih =>
      have own : (t.withParts us).names x = false := by
        refine beq_eq_false_iff_ne.mpr ?_
        rw [symbol?_withParts]
        exact fun named => source (anyMentions_of_symbol? named)
      rw [tally_singleton, own, parts_withParts known before.length_eq]
      simpa using ih fun found => source (anyMentions_of_parts found)

/-- No anonymous variable is left. -/
theorem named (wildcards : Wildcards n ts us n') : ∀ u ∈ us, ∀ s ∈ u.preorder, s.value ≠ .var "_" := by
  induction wildcards with
  | nil n => exact List.forall_mem_nil _
  | append _ _ ih ih' => exact List.forall_mem_append.mpr ⟨ih, ih'⟩
  | wildcard o n =>
      refine List.forall_mem_singleton.mpr (forall_preorder_iff.mpr ⟨?_, List.forall_mem_nil _⟩)
      intro same
      have drawn : generatedName "_" n = "_" := by simpa [Term.value] using same
      exact not_drawable_underscore 0 ⟨"_", n, Nat.zero_le n, drawn.symm⟩
  | @parts t n n' us known other before ih =>
      refine List.forall_mem_singleton.mpr (forall_preorder_iff.mpr ⟨?_, ?_⟩)
      · intro same
        obtain ⟨o, anonymous⟩ := eq_var_of_withParts same
        exact other o anonymous
      · rw [parts_withParts known before.length_eq]
        exact ih

/-- The terms stay as the language writes them. -/
theorem written (wildcards : Wildcards n ts us n') (source : ∀ t ∈ ts, t.Written) :
    ∀ u ∈ us, u.Written := by
  induction wildcards with
  | nil n => exact List.forall_mem_nil _
  | append _ _ ih ih' =>
      have both := List.forall_mem_append.mp source
      exact List.forall_mem_append.mpr ⟨ih both.1, ih' both.2⟩
  | wildcard o n =>
      refine List.forall_mem_singleton.mpr (written_iff.mpr ⟨⟨rfl, nofun⟩, List.forall_mem_nil _⟩)
  | @parts t n n' us known other before ih =>
      obtain ⟨own, parts⟩ := written_iff.mp (source t List.mem_cons_self)
      refine List.forall_mem_singleton.mpr (written_iff.mpr ⟨own.withParts before.length_eq, ?_⟩)
      rw [parts_withParts known before.length_eq]
      exact ih parts

end Wildcards

open Classical in
/-- The names of anonymous variables taken away again. -/
noncomputable def unnamed (y : String) : String :=
  if ∃ id, y = generatedName "_" id then "_" else y

theorem unnamed_of_not_generated {y : String} (source : ¬ Generated y) : unnamed y = y :=
  if_neg fun ⟨id, same⟩ => source ⟨"_", id, Nat.zero_le id, same⟩

/-- With the names of the anonymous variables taken away, by whatever renaming, the terms are as they
were. -/
theorem Wildcards.rename_of {n n' : Nat} {ts us : List Term} {τ : VarKind → String → String}
    (wildcards : Wildcards n ts us n') (back : ∀ id, τ .plain (generatedName "_" id) = "_")
    (kept : ∀ x, AnyMentions ts x → ∀ kind, τ kind x = x) : us.map (Term.rename τ) = ts := by
  induction wildcards with
  | nil n => rfl
  | append _ _ ih ih' =>
      rw [List.map_append, ih fun x found => kept x (anyMentions_append.mpr (.inl found)),
        ih' fun x found => kept x (anyMentions_append.mpr (.inr found))]
  | wildcard o n => rw [List.map_singleton, rename_var, back]
  | @parts t n n' us known _ before ih =>
      have own : ∀ x, (t.withParts us).symbol? = some x → ∀ kind, τ kind x = x := by
        intro x named
        rw [symbol?_withParts] at named
        exact kept x (anyMentions_of_symbol? named)
      rw [List.map_singleton, rename_eq_withParts own, parts_withParts known before.length_eq,
        withParts_withParts before.length_eq, ih fun x found => kept x (anyMentions_of_parts found),
        withParts_parts]

theorem unnamed_generatedName (id : Nat) : unnamed (generatedName "_" id) = "_" := if_pos ⟨id, rfl⟩

/-- The renaming may leave rest variables as they are. -/
theorem Wildcards.rename {n n' : Nat} {ts us : List Term} (wildcards : Wildcards n ts us n')
    (source : ∀ x, AnyMentions ts x → ¬ Generated x) :
    us.map (Term.rename (onPlain unnamed)) = ts := by
  refine wildcards.rename_of (fun id => ?_) fun x found kind => ?_
  · rw [onPlain, if_pos rfl, unnamed_generatedName]
  · unfold onPlain
    split
    · exact unnamed_of_not_generated (source x found)
    · rfl

end PolicyLogic
