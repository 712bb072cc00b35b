import PolicyLogic.Proofs.Rule.Apart
import PolicyLogic.Rule.Lifting
import PolicyLogic.Source.Grammar
import PolicyLogic.Term.Equality

/-!
# Names that rewriting draws

Making a goal ready to run names its anonymous variables and the results of the expressions lifted
out of it, and copying a rule names every variable anew. All of these names come from the counter.
This module says which names can occur in what comes out of the rewriting:

* `NameLogic`: a logic of the names in what some work returns, for work that draws from the counter
  and for work that also remembers what it renamed;
* `NameLogic.toGoal`, `NameLogic.ruleLift`, `NameLogic.apart`: a name in a goal made ready, in a
  rule made ready or in a copy of a rule is a name of its source or was drawn on the way;
* `drawn_names_apart`: what is drawn is apart from the source, unless the source itself spells a
  name that the counter may still hand out.

The condition is needed, for such a name is an ordinary name of the language
(`temporary_captured`).
-/

namespace PolicyLogic

/-- A name made with an id from a range. -/
def DrawnBetween (first next : Nat) (name : String) : Prop :=
  ∃ stem id, first ≤ id ∧ id < next ∧ name = generatedName stem id

/-- A name that a counter may still hand out. -/
def Drawable (first : Nat) (name : String) : Prop :=
  ∃ stem id, first ≤ id ∧ name = generatedName stem id

/-- A name in the record of some work was made with an id from its range. -/
theorem Drawn.drawnBetween {first next : Nat} {draws : List Draw} {draw : Draw} {name : String}
    (drawn : Drawn first draws next) (member : draw ∈ draws) (made : draw.made? = some name) :
    DrawnBetween first next name := by
  obtain ⟨least, below⟩ := drawn.between member
  cases draw with
  | id kind number => cases made
  | name stem number =>
      cases made
      exact ⟨stem, number, least, below, rfl⟩

/-- A name that was drawn from some id on is drawable from there. -/
theorem DrawnBetween.drawable {first next : Nat} {name : String}
    (drawn : DrawnBetween first next name) : Drawable first name := by
  obtain ⟨stem, id, least, _, same⟩ := drawn
  exact ⟨stem, id, least, same⟩

/-- A variable occurs in one of the terms. -/
def AnyMentions (ts : List Term) (y : String) : Prop := ∃ t ∈ ts, t.Mentions y

@[simp] theorem anyMentions_nil {y : String} : ¬ AnyMentions [] y := by simp [AnyMentions]

@[simp] theorem anyMentions_cons {t : Term} {ts : List Term} {y : String} :
    AnyMentions (t :: ts) y ↔ t.Mentions y ∨ AnyMentions ts y := by simp [AnyMentions]

/-- What occurs in two lists of terms occurs in one of them. -/
@[simp] theorem anyMentions_append {ts us : List Term} {y : String} :
    AnyMentions (ts ++ us) y ↔ AnyMentions ts y ∨ AnyMentions us y := by
  simp only [AnyMentions, List.mem_append, or_and_right, exists_or]

/-! ## A logic of names -/

/-- What can be said about the names in the result of some work, given the names in its source.
Names may also be drawn from a counter on the way. -/
structure NameLogic (m : Type → Type) [Monad m] where
  /-- The names in what the work returns are those of the source, or drawn by the work. -/
  Sat : ∀ {α : Type}, m α → (String → Prop) → (α → String → Prop) → Prop
  pure : ∀ {α : Type} {a : α} {source : String → Prop} {names : α → String → Prop},
    (∀ y, names a y → source y) → Sat (Pure.pure a) source names
  bind : ∀ {α β : Type} {work : m α} {more : α → m β} {source : String → Prop}
    {names : α → String → Prop} {names' : β → String → Prop}, Sat work source names →
    (∀ a, Sat (more a) (fun y => source y ∨ names a y) names') → Sat (work >>= more) source names'
  widen : ∀ {α : Type} {work : m α} {source source' : String → Prop} {names : α → String → Prop},
    Sat work source names → (∀ y, source y → source' y) → Sat work source' names

/-- The renames give this name to a variable. -/
def Renames.Gives (renames : Renames) (y : String) : Prop :=
  ∃ x, renames.lookup x = some y

namespace NameLogic

/-- The logic of work that draws from the counter. -/
def fresh : NameLogic Fresh where
  Sat work source names := ∀ first, ∃ draws, Traces work first draws ∧
    ∀ y, names (work.run first).1 y → source y ∨ ∃ draw ∈ draws, draw.made? = some y
  pure := fun within first => ⟨[], .pure _ first, fun y found => .inl (within y found)⟩
  bind := by
    intro α β work more source names names' before after first
    obtain ⟨draws, traces, named⟩ := before first
    obtain ⟨later, traces', named'⟩ := after (work.run first).1 (work.run first).2
    refine ⟨draws ++ later, .bind traces traces', fun y found => ?_⟩
    rcases named' y found with (inSource | earlier) | ⟨draw, member, made⟩
    · exact .inl inSource
    · exact (named y earlier).imp_right fun ⟨draw, member, made⟩ =>
        ⟨draw, List.mem_append_left _ member, made⟩
    · exact .inr ⟨draw, List.mem_append_right _ member, made⟩
  widen := fun holds wider first =>
    let ⟨draws, traces, named⟩ := holds first
    ⟨draws, traces, fun y found => (named y found).imp_left (wider y)⟩

/-- The logic of work that renames. The names given so far count as names of the source. -/
def recalling : NameLogic Renaming where
  Sat work source names := ∀ renames : Renames,
    fresh.Sat (work.run renames) (fun y => source y ∨ renames.Gives y)
      fun result y => names result.1 y ∨ result.2.Gives y
  pure := fun within _ => fresh.pure fun y found => found.imp_left (within y)
  bind := by
    intro α β work more source names names' before after renames
    rw [StateT.run_bind]
    refine fresh.bind (before renames) fun result => ?_
    refine fresh.widen (after result.1 result.2) fun y found => ?_
    rcases found with (inSource | earlier) | given
    · exact .inl (.inl inSource)
    · exact .inr (.inl earlier)
    · exact .inr (.inr given)
  widen := fun holds wider renames =>
    fresh.widen (holds renames) fun y found => found.imp_left (wider y)

/-- A name in what some work returns is one of its source, or was drawn by it. -/
theorem drawnBetween {α : Type} {work : Fresh α} {source : String → Prop} {names : α → String → Prop}
    (holds : fresh.Sat work source names) (first : Nat) {y : String}
    (found : names (work.run first).1 y) :
    source y ∨ DrawnBetween first (work.run first).2 y := by
  obtain ⟨draws, traces, named⟩ := holds first
  exact (named y found).imp_right fun ⟨draw, member, made⟩ =>
    traces.drawn.drawnBetween member made

variable {m : Type → Type} [Monad m] (logic : NameLogic m)

/-- A result may be read off another one that has the same names. -/
theorem map {α β : Type} {work : m α} {f : α → β} {source : String → Prop}
    {names : α → String → Prop} {names' : β → String → Prop} (first : logic.Sat work source names)
    (kept : ∀ a y, names' (f a) y → names a y) :
    logic.Sat (do return f (← work)) source names' :=
  logic.bind first fun a => logic.pure fun y found => .inr (kept a y found)

/-! ## Renaming -/

/-- The new name of a variable is its name, or drawn. -/
def Naming (f : VarKind → String → m String) : Prop :=
  ∀ kind x, logic.Sat (f kind x) (x = ·) (· = ·)

section Rename

variable {f : VarKind → String → m String}

mutual

/-- Renaming a term brings in no names but those that renaming its variables does. -/
theorem renameM (each : logic.Naming f) : ∀ t : Term, logic.Sat (t.renameM f) t.Mentions Term.Mentions
  | .mk o (.var name) => by
      simp only [Term.renameM]
      exact logic.map (logic.widen (each .plain name) fun y => mentions_var.mpr)
        fun x y => mentions_var.mp
  | .mk o (.rest name) => by
      simp only [Term.renameM]
      exact logic.map (logic.widen (each .rest name) fun y => mentions_rest.mpr)
        fun x y => mentions_rest.mp
  | .mk o (.list elements) => by
      simp only [Term.renameM]
      exact logic.map (logic.widen (renameAllM each elements) fun y => mentions_list.mpr)
        fun ts y => mentions_list.mp
  | .mk o (.dictionary fields) => by
      simp only [Term.renameM]
      exact logic.map (logic.widen (renameFieldsM each fields) fun y => mentions_dictionary.mpr)
        fun ts y => mentions_dictionary.mp
  | .mk o (.call name args none) => by
      simp only [Term.renameM]
      exact logic.map (logic.widen (renameAllM each args) fun y => mentions_call.mpr)
        fun ts y => mentions_call.mp
  | .mk o (.call name args (some named)) => by
      simp only [Term.renameM]
      refine logic.bind (logic.widen (renameAllM each args) fun y found =>
        mentions_namedCall.mpr (.inl found)) fun args' => ?_
      refine logic.bind (logic.widen (renameFieldsM each named) fun y found =>
        .inl (mentions_namedCall.mpr (.inr found))) fun named' => logic.pure fun y found => ?_
      exact (mentions_namedCall.mp found).elim (fun inside => .inl (.inr inside)) .inr
  | .mk o (.pattern (.record fields)) => by
      simp only [Term.renameM]
      exact logic.map (logic.widen (renameFieldsM each fields) fun y => mentions_record.mpr)
        fun ts y => mentions_record.mp
  | .mk o (.pattern (.object tag fields)) => by
      simp only [Term.renameM]
      exact logic.map (logic.widen (renameFieldsM each fields) fun y => mentions_object.mpr)
        fun ts y => mentions_object.mp
  | .mk o (.operation op args) => by
      simp only [Term.renameM]
      exact logic.map (logic.widen (renameAllM each args) fun y => mentions_operation.mpr)
        fun ts y => mentions_operation.mp
  | .mk o (.number n) => logic.pure fun _ => id
  | .mk o (.text s) => logic.pure fun _ => id
  | .mk o (.boolean b) => logic.pure fun _ => id
  | .mk o (.handle n origin label) => logic.pure fun _ => id

/-- The same holds for a list of terms. -/
theorem renameAllM (each : logic.Naming f) : ∀ ts : List Term, logic.Sat (PolicyLogic.renameAllM f ts)
    (fun y => ∃ t ∈ ts, t.Mentions y) fun ts' y => ∃ t ∈ ts', t.Mentions y
  | [] => logic.pure fun _ => id
  | t :: ts => by
      refine logic.bind (logic.widen (renameM each t) fun y found => ⟨t, List.mem_cons_self, found⟩)
        fun t' => logic.bind (logic.widen (renameAllM each ts) fun y ⟨u, member, found⟩ =>
          .inl ⟨u, List.mem_cons_of_mem _ member, found⟩) fun ts' => logic.pure fun y found => ?_
      simp only [List.mem_cons, exists_eq_or_imp] at found
      exact found.imp_left .inr

/-- The same holds for the values of a map. -/
theorem renameFieldsM (each : logic.Naming f) : ∀ fields : List (String × Term),
    logic.Sat (PolicyLogic.renameFieldsM f fields) (fun y => ∃ field ∈ fields, field.2.Mentions y)
      fun fields' y => ∃ field ∈ fields', field.2.Mentions y
  | [] => logic.pure fun _ => id
  | (name, t) :: fields => by
      refine logic.bind (logic.widen (renameM each t) fun y found =>
        ⟨(name, t), List.mem_cons_self, found⟩) fun t' =>
          logic.bind (logic.widen (renameFieldsM each fields) fun y ⟨u, member, found⟩ =>
            .inl ⟨u, List.mem_cons_of_mem _ member, found⟩) fun fields' => logic.pure fun y found => ?_
      simp only [List.mem_cons, exists_eq_or_imp] at found
      exact found.imp_left .inr

end

/-- The same holds for a pattern. -/
theorem pattern (each : logic.Naming f) (shape : Pattern) :
    logic.Sat (shape.renameM f) (Term.pattern shape).Mentions
      fun shape' => (Term.pattern shape').Mentions := by
  cases shape with
  | record fields =>
      exact logic.map (logic.widen (logic.renameFieldsM each fields) fun y => mentions_record.mpr)
        fun fields' y => mentions_record.mp
  | object tag fields =>
      exact logic.map (logic.widen (logic.renameFieldsM each fields) fun y => mentions_object.mpr)
        fun fields' y => mentions_object.mp

end Rename

/-! ## Lifting -/

/-- Drawing a name brings in this one name. -/
theorem freshName (stem : String) (source : String → Prop) :
    fresh.Sat (PolicyLogic.freshName stem) source (· = ·) := fun first =>
  ⟨_, .name stem first, fun _ found => .inr ⟨_, List.mem_singleton_self _, congrArg some found⟩⟩

/-- What occurs in a goal occurred in the bare term or in what was lifted. -/
theorem asGoal {written bare : Term} {lifted : List Term} {y : String}
    (found : (PolicyLogic.asGoal written bare lifted).Mentions y) :
    AnyMentions (bare :: lifted) y := by
  have after : (goalAfter written bare lifted).Mentions y → AnyMentions (bare :: lifted) y := by
    intro found
    unfold goalAfter at found
    extract_lets goal at found
    have inner : goal.Mentions y → bare.Mentions y := by
      intro found
      simp only [goal] at found
      split at found
      · simpa [Term.withValue, Term.boolean, Term.of] using found
      · simp [Term.boolean, Term.of] at found
      · exact found
    split at found
    · exact anyMentions_cons.mpr (.inl (inner found))
    · rw [Term.withValue, mentions_operation, ← AnyMentions, anyMentions_append] at found
      rw [anyMentions_cons]
      exact found.symm.imp_left fun last => inner (by simpa using last)
  unfold PolicyLogic.asGoal at found
  split at found
  · split at found
    · exact anyMentions_cons.mpr (.inl found)
    · exact after found
  · exact after found

mutual

/-- Lifting brings in drawn names only. -/
theorem lift : ∀ t : Term, fresh.Sat t.lift t.Mentions fun result =>
    AnyMentions (result.1 :: result.2)
  | .mk o (.list elements) => by
      simp only [Term.lift]
      refine fresh.map (fresh.widen (liftList elements) fun y => mentions_list.mpr) ?_
      intro result y found
      rwa [anyMentions_cons, mentions_list, ← AnyMentions, ← anyMentions_append] at found
  | .mk o (.dictionary fields) => by
      simp only [Term.lift]
      refine fresh.map (fresh.widen (liftMap fields) fun y => mentions_dictionary.mpr) ?_
      intro result y found
      rwa [anyMentions_cons, mentions_dictionary] at found
  | .mk o (.pattern (.record fields)) => by
      simp only [Term.lift]
      refine fresh.map (fresh.widen (liftMap fields) fun y => mentions_record.mpr) ?_
      intro result y found
      rwa [anyMentions_cons, mentions_record] at found
  | .mk o (.pattern (.object tag fields)) => by
      simp only [Term.lift]
      refine fresh.map (fresh.widen (liftMap fields) fun y => mentions_object.mpr) ?_
      intro result y found
      rwa [anyMentions_cons, mentions_object] at found
  | .mk o (.call name args none) => by
      simp only [Term.lift]
      refine fresh.map (fresh.widen (liftList args) fun y => mentions_call.mpr) ?_
      intro result y found
      rwa [anyMentions_cons, mentions_call, ← AnyMentions, ← anyMentions_append] at found
  | .mk o (.call name args (some named)) => by
      simp only [Term.lift]
      refine fresh.bind (fresh.widen (liftList args) fun y found =>
        mentions_namedCall.mpr (.inl found)) fun result => ?_
      refine fresh.bind (fresh.widen (liftMap named) fun y found =>
        .inl (mentions_namedCall.mpr (.inr found))) fun result' => fresh.pure fun y found => ?_
      rw [anyMentions_cons, mentions_namedCall, anyMentions_append] at found
      rw [anyMentions_append]
      grind [AnyMentions]
  | .mk o (.operation op args) => by
      simp only [Term.lift]
      split
      · refine fresh.map (fresh.widen (liftGoals args) fun y => mentions_operation.mpr) ?_
        intro args' y found
        exact mentions_operation.mp ((anyMentions_cons.mp found).resolve_right anyMentions_nil)
      · refine fresh.bind (fresh.widen (liftList args) fun y => mentions_operation.mpr)
          fun result => ?_
        split
        · refine fresh.bind (freshName _ _) fun name => fresh.pure fun y found => ?_
          simp only [Term.var, Term.of, anyMentions_cons, mentions_var, anyMentions_append,
            mentions_operation, List.mem_append, List.mem_singleton, anyMentions_nil] at found ⊢
          grind [AnyMentions, mentions_var]
        · refine fresh.pure fun y found => .inr ?_
          rwa [anyMentions_cons, mentions_operation, ← AnyMentions, ← anyMentions_append] at found
  | .mk o (.number n) => fresh.pure fun _ found => by simp at found
  | .mk o (.text s) => fresh.pure fun _ found => by simp at found
  | .mk o (.boolean b) => fresh.pure fun _ found => by simp at found
  | .mk o (.var name) => fresh.pure fun _ found => by simpa using found
  | .mk o (.rest name) => fresh.pure fun _ found => by simpa using found
  | .mk o (.handle n origin label) => fresh.pure fun _ found => by simpa using found

theorem liftList : ∀ ts : List Term, fresh.Sat (liftAll ts) (AnyMentions ts) fun result =>
    AnyMentions (result.1 ++ result.2)
  | [] => fresh.pure fun _ => id
  | t :: ts => by
      simp only [liftAll]
      refine fresh.bind (fresh.widen (lift t) fun y found => anyMentions_cons.mpr (.inl found))
        fun result => ?_
      refine fresh.bind (fresh.widen (liftList ts) fun y found =>
        .inl (anyMentions_cons.mpr (.inr found))) fun result' => fresh.pure fun y found => ?_
      simp only [List.cons_append, anyMentions_cons, anyMentions_append] at found ⊢
      grind

theorem liftMap : ∀ fields : List (String × Term), fresh.Sat (liftFields fields)
    (fun y => ∃ field ∈ fields, field.2.Mentions y) fun result y =>
      (∃ field ∈ result.1, field.2.Mentions y) ∨ AnyMentions result.2 y
  | [] => fresh.pure fun _ found => by simp at found
  | (name, t) :: fields => by
      simp only [liftFields]
      refine fresh.bind (fresh.widen (lift t) fun y found => ⟨_, List.mem_cons_self, found⟩)
        fun result => ?_
      refine fresh.bind (fresh.widen (liftMap fields) fun y ⟨field, member, found⟩ =>
        .inl ⟨field, List.mem_cons_of_mem _ member, found⟩) fun result' => fresh.pure fun y found => ?_
      simp only [List.mem_cons, exists_eq_or_imp, anyMentions_cons, anyMentions_append] at found ⊢
      grind

theorem liftGoals : ∀ ts : List Term, fresh.Sat (goalsOf ts) (AnyMentions ts) AnyMentions
  | [] => fresh.pure fun _ => id
  | t :: ts => by
      simp only [goalsOf]
      refine fresh.bind (fresh.widen (lift t) fun y found => anyMentions_cons.mpr (.inl found))
        fun result => ?_
      refine fresh.bind (fresh.widen (liftGoals ts) fun y found =>
        .inl (anyMentions_cons.mpr (.inr found))) fun ts' => fresh.pure fun y found => ?_
      rcases anyMentions_cons.mp found with first | later
      · exact .inl (.inr (asGoal first))
      · exact .inr later

end

/-! ## Goals and rules made ready -/

/-- Naming a wildcard draws a name, and any other variable keeps its own. -/
theorem nameWildcard : fresh.Naming PolicyLogic.nameWildcard := by
  intro kind name
  unfold PolicyLogic.nameWildcard
  split
  · exact freshName _ _
  · exact fresh.pure fun y => id

/-- A variable of a goal made ready is one of the goal, or drawn. -/
theorem toGoal (t : Term) : fresh.Sat t.toGoal t.Mentions Term.Mentions := by
  refine fresh.bind (fresh.renameM nameWildcard t) fun named => ?_
  refine fresh.bind (fresh.widen (lift named) fun y => .inr) fun result => fresh.pure fun y found => ?_
  exact .inr (asGoal found)

end NameLogic

/-- The variable occurs in the specializer, if there is one. -/
def SpelledIn (specializer : Option Pattern) (y : String) : Prop :=
  ∃ shape, specializer = some shape ∧ (Term.pattern shape).Mentions y

/-- The variable occurs in the parameter or in its specializer. -/
def Parameter.Spells (param : Parameter) (y : String) : Prop :=
  param.term.Mentions y ∨ SpelledIn param.specializer y

/-- The variable occurs in a parameter, in a specializer or in the body of the rule. -/
def Rule.Spells (r : Rule) (y : String) : Prop :=
  (∃ param ∈ r.params, param.Spells y) ∨ r.body.Mentions y

namespace NameLogic

/-- Making a specializer ready brings in names for its wildcards only. -/
theorem liftSpecializer (specializer : Option Pattern) :
    fresh.Sat (specializer.mapM fun shape => shape.renameM PolicyLogic.nameWildcard)
      (SpelledIn specializer) SpelledIn := by
  cases specializer with
  | none => exact fresh.pure fun y => id
  | some shape =>
      show fresh.Sat (do return some (← shape.renameM PolicyLogic.nameWildcard)) _ _
      refine fresh.map (fresh.widen (fresh.pattern nameWildcard shape) fun y found =>
        ⟨shape, rfl, found⟩) fun shape' y ⟨_, same, inside⟩ => ?_
      cases same
      exact inside

/-- Making parameters ready brings in names for their wildcards only. -/
theorem liftParameters (params : List Parameter) : fresh.Sat (PolicyLogic.liftParameters params)
    (fun y => ∃ param ∈ params, param.Spells y) fun result y =>
      (∃ param ∈ result.1, param.Spells y) ∨ AnyMentions result.2 y := by
  induction params with
  | nil => exact fresh.pure fun _ found => by simp at found
  | cons param params ih =>
      refine fresh.bind (fresh.widen (fresh.renameM nameWildcard param.term) fun y found =>
        ⟨param, List.mem_cons_self, .inl found⟩) fun named => ?_
      refine fresh.bind (fresh.widen (lift named) fun y => .inr) fun result => ?_
      refine fresh.bind (fresh.widen (liftSpecializer param.specializer) fun y found =>
        .inl (.inl ⟨param, List.mem_cons_self, .inr found⟩)) fun specializer' => ?_
      refine fresh.bind (fresh.widen ih fun y ⟨other, member, found⟩ =>
        .inl (.inl (.inl ⟨other, List.mem_cons_of_mem _ member, found⟩)))
        fun result' => fresh.pure fun y found => ?_
      simp only [List.mem_cons, exists_eq_or_imp, anyMentions_cons, anyMentions_append,
        Parameter.Spells] at found ⊢
      grind

/-- A variable of a rule made ready is one of the rule, or drawn. -/
theorem ruleLift (r : Rule) : fresh.Sat r.lift r.Spells Rule.Spells := by
  refine fresh.bind (fresh.widen (liftParameters r.params) fun y => .inl) fun result => ?_
  refine fresh.bind (fresh.widen (toGoal r.body) fun y found => .inl (.inr found))
    fun body => fresh.pure fun y found => ?_
  have conjunct : AnyMentions (conjuncts body) y → body.Mentions y := by
    intro ⟨t, member, inside⟩
    rcases body with ⟨o, v⟩
    unfold conjuncts at member
    split at member
    · rename_i same
      cases same
      exact mentions_operation.mpr ⟨t, member, inside⟩
    · cases List.mem_singleton.mp member
      exact inside
  simp only [Rule.Spells, Term.withValue, mentions_operation] at found
  rw [← AnyMentions, anyMentions_append] at found
  grind

/-! ## Copies of rules -/

/-- Renaming a variable draws a name if it is no constant and has no new name yet. -/
theorem run_renameApart (kb : KnowledgeBase) (kind : VarKind) (name : String) (renames : Renames) :
    (PolicyLogic.renameApart kb kind name).run renames =
      if kb.isConstant name then return (name, renames)
      else
        match renames.lookup name with
        | some y => return (y, renames)
        | none => do
          let y ← PolicyLogic.freshName name
          return (y, (name, y) :: renames) := by
  funext next
  refine (PolicyLogic.run_renameApart kb kind name renames next).trans ?_
  split
  · rfl
  · cases renames.lookup name <;> rfl

/-- Renaming a variable apart draws a name, or uses the one drawn for it before. -/
theorem renameApart (kb : KnowledgeBase) : recalling.Naming (PolicyLogic.renameApart kb) := by
  intro kind name renames
  rw [run_renameApart]
  split
  · exact fresh.pure fun y => id
  · cases known : renames.lookup name with
    | some given =>
        refine fresh.pure fun y found => .inr ?_
        exact found.elim (fun same => ⟨name, same ▸ known⟩) id
    | none =>
        refine fresh.bind (freshName name _) fun drawn => fresh.pure fun y found => ?_
        rcases found with same | ⟨x, given⟩
        · exact .inr same
        · rw [lookup_cons_ite] at given
          split at given
          · exact .inr (Option.some.inj given)
          · exact .inl (.inr ⟨x, given⟩)

/-- Renaming parameters apart brings in drawn names only. -/
theorem renameParameters (kb : KnowledgeBase) (params : List Parameter) :
    recalling.Sat (PolicyLogic.renameParameters (PolicyLogic.renameApart kb) params)
      (fun y => ∃ param ∈ params, param.Spells y) fun params' y => ∃ param ∈ params', param.Spells y := by
  have each := renameApart kb
  induction params with
  | nil => exact recalling.pure fun y => id
  | cons param params ih =>
      refine recalling.bind (recalling.widen (recalling.renameM each param.term) fun y found =>
        ⟨_, List.mem_cons_self, .inl found⟩) fun term' => ?_
      have others : ∀ specializer', recalling.Sat
          (do return (⟨term', specializer'⟩ : Parameter) ::
            (← PolicyLogic.renameParameters (PolicyLogic.renameApart kb) params))
          (fun y => ((∃ other ∈ param :: params, other.Spells y) ∨ term'.Mentions y) ∨
            SpelledIn specializer' y)
          fun params' y => ∃ param ∈ params', param.Spells y := by
        intro specializer'
        refine recalling.bind (recalling.widen ih fun y ⟨other, member, found⟩ =>
          .inl (.inl ⟨other, List.mem_cons_of_mem _ member, found⟩)) fun params' =>
            recalling.pure fun y found => ?_
        simp only [List.mem_cons, exists_eq_or_imp, Parameter.Spells] at found ⊢
        grind
      cases specialized : param.specializer with
      | none => exact recalling.bind (recalling.pure fun y ⟨_, found, _⟩ => by cases found) others
      | some shape =>
          refine recalling.bind (recalling.widen (recalling.pattern each shape) fun y found =>
            .inl ⟨_, List.mem_cons_self, .inr ⟨shape, specialized, found⟩⟩) fun shape' => ?_
          exact recalling.widen (others (some shape')) fun y found =>
            found.elim .inl fun ⟨_, same, inside⟩ => by cases same; exact .inr inside

/-- A variable of a copy of a rule is one of the rule, or drawn. -/
theorem apart (kb : KnowledgeBase) (r : Rule) : fresh.Sat (r.apart kb) r.Spells Rule.Spells := by
  have copied : recalling.Sat (r.renameM (PolicyLogic.renameApart kb)) r.Spells Rule.Spells := by
    refine recalling.bind (recalling.widen (renameParameters kb r.params) fun y => .inl)
      fun params => ?_
    refine recalling.bind (recalling.widen (recalling.renameM (renameApart kb) r.body)
      fun y found => .inl (.inr found)) fun body => recalling.pure fun y found => ?_
    exact found.elim (fun inside => .inl (.inr inside)) .inr
  refine fresh.bind (fresh.widen (copied []) fun y found => ?_) fun result =>
    fresh.pure fun y found => .inr (.inl found)
  exact found.resolve_right fun ⟨x, given⟩ => by simp at given

end NameLogic

/-! ## Names that are not spelled -/

/-- A name that does not begin with an underscore is never drawn. -/
theorem not_drawable_of_not_temporary {name : String} (plain : isTemporary name = false)
    (first : Nat) : ¬ Drawable first name := by
  rintro ⟨stem, id, _, rfl⟩
  have begins : (generatedName stem id).toList.head? = some '_' := by
    have mark : (toString "_").toList = ['_'] := rfl
    simp only [generatedName]
    split <;> simp [String.toList_append, mark]
  simp [isTemporary, begins] at plain

/-- The anonymous variable is never drawn. -/
theorem not_drawable_underscore (first : Nat) : ¬ Drawable first "_" := by
  rintro ⟨stem, id, _, same⟩
  obtain ⟨front, begins⟩ := toList_generatedName stem
  have written := begins id
  rw [← same] at written
  have length := congrArg List.length written
  have digits : 0 < (Nat.toDigits 10 id).length := Nat.length_toDigits_pos
  simp at length
  omega

/-- A name of the source, or one that was drawn and is in neither text. -/
def ApartFrom (t : Term) (r : Rule) (source : String → Prop) (first next : Nat) (y : String) : Prop :=
  source y ∨ DrawnBetween first next y ∧ ¬ t.Mentions y ∧ ¬ r.Spells y

/-- Names that are drawn do not capture. Let no variable of a goal and of a rule be spelled like a
name that the counter may still hand out. Then every name that appears when the goal or the rule is
made ready to run, or when the rule is copied, was drawn for it and is neither in the goal nor in
the rule. -/
theorem drawn_names_apart (kb : KnowledgeBase) {t : Term} {r : Rule} {first : Nat}
    (unspelled : ∀ y, t.Mentions y ∨ r.Spells y → ¬ Drawable first y) :
    (∀ y, (t.toGoal.run first).1.Mentions y →
      ApartFrom t r t.Mentions first (t.toGoal.run first).2 y) ∧
    (∀ y, (r.lift.run first).1.Spells y →
      ApartFrom t r r.Spells first (r.lift.run first).2 y) ∧
    ∀ y, ((r.apart kb).run first).1.Spells y →
      ApartFrom t r r.Spells first ((r.apart kb).run first).2 y := by
  have apart : ∀ {next y}, DrawnBetween first next y → ¬ t.Mentions y ∧ ¬ r.Spells y :=
    fun drawn => ⟨fun found => unspelled _ (.inl found) drawn.drawable,
      fun found => unspelled _ (.inr found) drawn.drawable⟩
  refine ⟨fun y found => ?_, fun y found => ?_, fun y found => ?_⟩
  · exact (NameLogic.drawnBetween (NameLogic.toGoal t) first found).imp_right fun drawn => ⟨drawn, apart drawn⟩
  · exact (NameLogic.drawnBetween (NameLogic.ruleLift r) first found).imp_right fun drawn => ⟨drawn, apart drawn⟩
  · exact (NameLogic.drawnBetween (NameLogic.apart kb r) first found).imp_right fun drawn => ⟨drawn, apart drawn⟩

/-- The goal `x.a = _`. -/
def lookupOfAny : Term :=
  .operation .unify [.operation .dot [.var "x", .text "a"], .var "_"]

/-- The fact `p(x)`. -/
def factOfAny : Rule := ⟨"p", [⟨.var "x", none⟩], .operation .conj [], none⟩

theorem drawn_names_apart_lookupOfAny :
    (∀ y, lookupOfAny.Mentions y ∨ factOfAny.Spells y → ¬ Drawable 1 y) ∧
      ∀ y, (lookupOfAny.toGoal.run 1).1.Mentions y →
        ApartFrom lookupOfAny factOfAny lookupOfAny.Mentions 1 3 y := by
  have unspelled : ∀ y, lookupOfAny.Mentions y ∨ factOfAny.Spells y → ¬ Drawable 1 y := by
    intro y found
    have named : y = "x" ∨ y = "_" := by
      simp [lookupOfAny, factOfAny, Rule.Spells, Parameter.Spells, SpelledIn, Term.operation,
        Term.var, Term.text, Term.of] at found
      grind
    rcases named with rfl | rfl
    · exact not_drawable_of_not_temporary rfl 1
    · exact not_drawable_underscore 1
  exact ⟨unspelled, (drawn_names_apart {} unspelled).1⟩

/-- What the text `_value_1 = x.a` is made into by a counter that stands at one. -/
def capturedLookup : Term :=
  .operation .conj [.operation .dot [.var "x", .text "a", .var "_value_1"],
    .operation .unify [.var "_value_1", .var "_value_1"]]

/-- A text may spell the name of a temporary: its own variable `_value_1` is the one that the value
of the lookup is given to. -/
theorem temporary_captured :
    ∃ t, Source.parseTerm "_value_1 = x.a" = .ok t ∧ t.Mentions "_value_1" ∧
      DrawnBetween 1 (t.toGoal.run 1).2 "_value_1" ∧
      (t.toGoal.run 1).1.same capturedLookup = true := by
  have computed : (match Source.parseTerm "_value_1 = x.a" with
      | .ok t => t.variableNames.contains "_value_1" && (t.toGoal.run 1).2 == 2 &&
          (t.toGoal.run 1).1.same capturedLookup
      | .error _ => false) = true := by decide +kernel
  generalize Source.parseTerm "_value_1 = x.a" = parsed at computed ⊢
  cases parsed with
  | error e => cases computed
  | ok t =>
      simp only [Bool.and_eq_true, List.contains_iff_mem, beq_iff_eq, mem_variableNames] at computed
      obtain ⟨⟨spelled, next⟩, same⟩ := computed
      refine ⟨t, rfl, spelled, ?_, same⟩
      rw [next]
      exact ⟨"value", 1, Nat.le_refl 1, Nat.lt_succ_self 1, by decide +kernel⟩

end PolicyLogic
