import PolicyLogic.Binding.Deref

/-!
# Pure terms

A pure term is built from variables, numbers, texts, truth values, lists without a rest variable
and dictionaries. On such terms every traversal of the library is a plain map over the parts:

* `IsPure.expand_expand`: replacing variables twice is replacing them once by the composite;
* `IsPure.expand_congr`: a replacement is decided by what it does on the variables mentioned;
* `IsPure.mentions_expand`: the variables of a replaced term are those of the replacements.

Renaming (`Term.renamed`) and substituting a single variable (`Term.subst`) are two instances. On the
variables that a phrase mentions, renaming is faithful (`IsPhrase.renamed_inj`).
-/

namespace PolicyLogic

/-- A map whose names increase, as every dictionary has them. -/
def InOrder {α : Type} (fields : List (String × α)) : Prop :=
  fields.Pairwise fun a b => a.1 < b.1

/-- Variables, scalars, lists without a rest variable and dictionaries. -/
inductive IsPure : Term → Prop
  | var (o : Option Nat) (name : String) : IsPure (.mk o (.var name))
  | number (o : Option Nat) (n : Numeral) : IsPure (.mk o (.number n))
  | text (o : Option Nat) (s : String) : IsPure (.mk o (.text s))
  | boolean (o : Option Nat) (b : Bool) : IsPure (.mk o (.boolean b))
  | list (o : Option Nat) {elements : List Term} :
    (∀ t ∈ elements, IsPure t) → IsPure (.mk o (.list elements))
  | dictionary (o : Option Nat) {fields : List (String × Term)} :
    InOrder fields → (∀ field ∈ fields, IsPure field.2) → IsPure (.mk o (.dictionary fields))

/-- The variable occurs somewhere in the term. -/
def Term.Mentions (t : Term) (name : String) : Prop :=
  ∃ s ∈ t.preorder, s.symbol? = some name

/-! ## Which variables occur -/

/-- What occurs in a list of terms occurs in one of them. -/
theorem mem_preorderAll {s : Term} {ts : List Term} :
    s ∈ preorderAll ts ↔ ∃ t ∈ ts, s ∈ t.preorder := by
  induction ts with
  | nil => simp [preorderAll]
  | cons t ts ih => simp [preorderAll, ih]

theorem mem_preorderFields {s : Term} {fields : List (String × Term)} :
    s ∈ preorderFields fields ↔ ∃ field ∈ fields, s ∈ field.2.preorder := by
  induction fields with
  | nil => simp [preorderFields]
  | cons field fields ih => simp [preorderFields, ih]

theorem exists_preorderAll {ts : List Term} {x : String} :
    (∃ s ∈ preorderAll ts, s.symbol? = some x) ↔ ∃ t ∈ ts, t.Mentions x := by
  simp only [Term.Mentions, mem_preorderAll]
  exact ⟨fun ⟨s, ⟨t, member, inside⟩, named⟩ => ⟨t, member, s, inside, named⟩,
    fun ⟨t, member, s, inside, named⟩ => ⟨s, ⟨t, member, inside⟩, named⟩⟩

theorem exists_preorderFields {fields : List (String × Term)} {x : String} :
    (∃ s ∈ preorderFields fields, s.symbol? = some x) ↔ ∃ field ∈ fields, field.2.Mentions x := by
  simp only [Term.Mentions, mem_preorderFields]
  exact ⟨fun ⟨s, ⟨field, member, inside⟩, named⟩ => ⟨field, member, s, inside, named⟩,
    fun ⟨field, member, s, inside, named⟩ => ⟨s, ⟨field, member, inside⟩, named⟩⟩

/-- A term without parts mentions itself alone. -/
theorem mentions_leaf {t : Term} {x : String} (inside : t.preorder = [t]) :
    t.Mentions x ↔ t.symbol? = some x := by
  simp [Term.Mentions, inside]

/-- The variables of a term that is no variable are those of its parts. -/
theorem mentions_parts {t : Term} {parts : List Term} {x : String} (value : t.symbol? = none)
    (inside : t.preorder = t :: parts) : t.Mentions x ↔ ∃ s ∈ parts, s.symbol? = some x := by
  simp [Term.Mentions, inside, value]

/-- A variable occurs in itself only. -/
@[simp] theorem mentions_var {o : Option Nat} {x y : String} :
    (Term.mk o (.var x)).Mentions y ↔ x = y :=
  (mentions_leaf rfl).trans Option.some_inj

@[simp] theorem mentions_rest {o : Option Nat} {x y : String} :
    (Term.mk o (.rest x)).Mentions y ↔ x = y :=
  (mentions_leaf rfl).trans Option.some_inj

@[simp] theorem mentions_list {o : Option Nat} {ts : List Term} {x : String} :
    (Term.mk o (.list ts)).Mentions x ↔ ∃ t ∈ ts, t.Mentions x :=
  (mentions_parts rfl rfl).trans exists_preorderAll

@[simp] theorem mentions_dictionary {o : Option Nat} {fields : List (String × Term)}
    {x : String} :
    (Term.mk o (.dictionary fields)).Mentions x ↔ ∃ field ∈ fields, field.2.Mentions x :=
  (mentions_parts rfl rfl).trans exists_preorderFields

/-- A variable occurs in an operation if it occurs in an operand. -/
@[simp] theorem mentions_operation {o : Option Nat} {op : Operator} {args : List Term}
    {x : String} :
    (Term.mk o (.operation op args)).Mentions x ↔ ∃ t ∈ args, t.Mentions x :=
  (mentions_parts rfl rfl).trans exists_preorderAll

@[simp] theorem mentions_call {o : Option Nat} {f : String} {args : List Term} {x : String} :
    (Term.mk o (.call f args none)).Mentions x ↔ ∃ t ∈ args, t.Mentions x :=
  (mentions_parts rfl rfl).trans exists_preorderAll

/-- A variable occurs in a call if it occurs in an argument, named or not. -/
@[simp] theorem mentions_namedCall {o : Option Nat} {f : String} {args : List Term}
    {named : List (String × Term)} {x : String} :
    (Term.mk o (.call f args (some named))).Mentions x ↔
      (∃ t ∈ args, t.Mentions x) ∨ ∃ field ∈ named, field.2.Mentions x := by
  rw [mentions_parts rfl rfl, ← exists_preorderAll, ← exists_preorderFields]
  simp only [List.mem_append, or_and_right, exists_or]

@[simp] theorem mentions_record {o : Option Nat} {fields : List (String × Term)} {x : String} :
    (Term.mk o (.pattern (.record fields))).Mentions x ↔ ∃ field ∈ fields, field.2.Mentions x :=
  (mentions_parts rfl rfl).trans exists_preorderFields

@[simp] theorem mentions_object {o : Option Nat} {tag : String} {fields : List (String × Term)}
    {x : String} :
    (Term.mk o (.pattern (.object tag fields))).Mentions x ↔
      ∃ field ∈ fields, field.2.Mentions x :=
  (mentions_parts rfl rfl).trans exists_preorderFields

@[simp] theorem not_mentions_number {o : Option Nat} {n : Numeral} {x : String} :
    ¬ (Term.mk o (.number n)).Mentions x :=
  fun found => by cases (mentions_leaf rfl).mp found

@[simp] theorem not_mentions_text {o : Option Nat} {s x : String} :
    ¬ (Term.mk o (.text s)).Mentions x :=
  fun found => by cases (mentions_leaf rfl).mp found

@[simp] theorem not_mentions_boolean {o : Option Nat} {b : Bool} {x : String} :
    ¬ (Term.mk o (.boolean b)).Mentions x :=
  fun found => by cases (mentions_leaf rfl).mp found

/-- A variable, plain or rest, occurs in itself. -/
theorem Term.mentions_of_symbol? {t : Term} {x : String} (named : t.symbol? = some x) :
    t.Mentions x := by
  rcases t with ⟨o, v⟩
  cases v with
  | var y => exact mentions_var.mpr (by simpa [Term.symbol?, Term.value] using named)
  | rest y => exact mentions_rest.mpr (by simpa [Term.symbol?, Term.value] using named)
  | _ => simp [Term.symbol?, Term.value] at named

theorem mem_distinct {names : List String} {x : String} : x ∈ distinct names ↔ x ∈ names := by
  have grown : ∀ (rest seen : List String),
      x ∈ rest.foldl (fun seen name => if seen.contains name then seen else name :: seen) seen ↔
        x ∈ rest ∨ x ∈ seen := by
    intro rest
    induction rest with
    | nil => simp
    | cons name rest ih =>
        intro seen
        rw [List.foldl_cons, ih]
        by_cases known : seen.contains name
        · have : name ∈ seen := by simpa using known
          simp only [known, ↓reduceIte, List.mem_cons]
          grind
        · simp only [known, List.mem_cons]
          grind
  rw [distinct, List.mem_reverse, grown]
  simp

/-- The variables that are listed for a term are those that occur in it. -/
theorem mem_variableNames {t : Term} {x : String} : x ∈ t.variableNames ↔ t.Mentions x := by
  simp [Term.variableNames, mem_distinct, Term.Mentions]

/-! ## Replacing variables -/

section Expand

variable {value : Term → Term} {tail : String → Option (List Term)}

/-- Terms are expanded one by one. -/
theorem expandAll_eq_map (ts : List Term) :
    expandAll value tail ts = ts.map (Term.expand value tail) := by
  induction ts with
  | nil => rfl
  | cons t ts ih => simp [expandAll, ih]

theorem expandFields_eq_map (fields : List (String × Term)) :
    expandFields value tail fields = fields.map fun f => (f.1, f.2.expand value tail) := by
  induction fields with
  | nil => rfl
  | cons field fields ih => simp [expandFields, ih]

/-- Without rest variables the elements of a list are replaced one by one. -/
theorem expandElements_eq_map {ts : List Term} (plain : ∀ t ∈ ts, ∀ x, t.value ≠ .rest x) :
    expandElements value tail ts = ts.map (Term.expand value tail) := by
  induction ts with
  | nil => rfl
  | cons t ts ih =>
      have later := ih fun s member => plain s (List.mem_cons_of_mem _ member)
      have first := plain t List.mem_cons_self
      rw [expandElements, later]
      cases ts with
      | nil =>
          rcases t with ⟨o, v⟩
          cases v <;> simp_all [Term.value]
      | cons s ts => simp

/-- A pure term is no rest variable. -/
theorem IsPure.not_rest {t : Term} (pure : IsPure t) (x : String) : t.value ≠ .rest x := by
  cases pure <;> simp [Term.value]

@[simp] theorem expand_var (o : Option Nat) (x : String) :
    (Term.mk o (.var x)).expand value tail = value (.mk o (.var x)) := rfl

@[simp] theorem expand_number (o : Option Nat) (n : Numeral) :
    (Term.mk o (.number n)).expand value tail = .mk o (.number n) := rfl

@[simp] theorem expand_text (o : Option Nat) (s : String) :
    (Term.mk o (.text s)).expand value tail = .mk o (.text s) := rfl

@[simp] theorem expand_boolean (o : Option Nat) (b : Bool) :
    (Term.mk o (.boolean b)).expand value tail = .mk o (.boolean b) := rfl

/-- Without rest variables among them, the elements of a list are expanded in their places. -/
theorem expand_list (o : Option Nat) {ts : List Term} (pure : ∀ t ∈ ts, IsPure t) :
    (Term.mk o (.list ts)).expand value tail = .mk o (.list (ts.map (Term.expand value tail))) := by
  rw [Term.expand, expandElements_eq_map fun t member => (pure t member).not_rest]

theorem expand_dictionary (o : Option Nat) (fields : List (String × Term)) :
    (Term.mk o (.dictionary fields)).expand value tail =
      .mk o (.dictionary (fields.map fun f => (f.1, f.2.expand value tail))) := by
  rw [Term.expand, expandFields_eq_map]

/-- Maps stay in order when only the values change. -/
theorem InOrder.map {α β : Type} {fields : List (String × α)} (order : InOrder fields)
    (f : α → β) : InOrder (fields.map fun field => (field.1, f field.2)) :=
  List.Pairwise.map _ (fun _ _ less => less) order

end Expand

namespace IsPure

variable {t : Term} {f g value : Term → Term} {tail tail' : String → Option (List Term)}

/-- Replacing variables by pure terms keeps a term pure. -/
theorem expand (pure : IsPure t)
    (values : ∀ o x, t.Mentions x → IsPure (value (.mk o (.var x)))) :
    IsPure (t.expand value tail) := by
  induction pure with
  | var o x => simpa using values o x (by simp)
  | number o n => simpa using number o n
  | text o s => simpa using text o s
  | boolean o b => simpa using boolean o b
  | list o parts ih =>
      rw [expand_list o parts]
      refine list o fun s member => ?_
      obtain ⟨t, inside, rfl⟩ := List.mem_map.mp member
      exact ih t inside fun o x found => values o x (by simpa using ⟨t, inside, found⟩)
  | dictionary o order parts ih =>
      rw [expand_dictionary]
      refine dictionary o (order.map _) fun s member => ?_
      obtain ⟨field, inside, rfl⟩ := List.mem_map.mp member
      exact ih field inside fun o x found => values o x (by simpa using ⟨field.1, field.2, inside, found⟩)

/-- What is replaced depends on the variables of the term only. -/
theorem expand_congr (pure : IsPure t)
    (agree : ∀ o x, t.Mentions x → f (.mk o (.var x)) = g (.mk o (.var x))) :
    t.expand f tail = t.expand g tail' := by
  induction pure with
  | var o x => simpa using agree o x (by simp)
  | number o n => simp
  | text o s => simp
  | boolean o b => simp
  | list o parts ih =>
      rw [expand_list o parts, expand_list o parts]
      congr 2
      refine List.map_congr_left fun t inside => ?_
      exact ih t inside fun o x found => agree o x (by simpa using ⟨t, inside, found⟩)
  | dictionary o order parts ih =>
      rw [expand_dictionary, expand_dictionary]
      congr 2
      refine List.map_congr_left fun field inside => ?_
      rw [ih field inside fun o x found => agree o x (by simpa using ⟨field.1, field.2, inside, found⟩)]

/-- Replacing twice is replacing once by the replaced values. -/
theorem expand_expand (pure : IsPure t)
    (values : ∀ o x, t.Mentions x → IsPure (f (.mk o (.var x)))) :
    (t.expand f tail).expand g tail' =
      t.expand (fun v => (f v).expand g tail') fun _ => none := by
  induction pure with
  | var o x => simp
  | number o n => simp
  | text o s => simp
  | boolean o b => simp
  | list o parts ih =>
      have within := fun t inside o x found => values o x (mentions_list.mpr ⟨t, inside, found⟩)
      rw [expand_list o parts, expand_list o, expand_list o parts, List.map_map]
      · congr 2
        exact List.map_congr_left fun t inside => ih t inside (within t inside)
      · intro s member
        obtain ⟨t, inside, rfl⟩ := List.mem_map.mp member
        exact (parts t inside).expand (within t inside)
  | dictionary o order parts ih =>
      have within := fun field inside o x found =>
        values o x (mentions_dictionary.mpr ⟨field, inside, found⟩)
      simp only [expand_dictionary, List.map_map]
      congr 2
      refine List.map_congr_left fun field inside => ?_
      simp [ih field inside (within field inside)]

/-- The variables of a replaced term are those of the replacements. -/
theorem mentions_expand (pure : IsPure t) {y : String} (within : String → Prop)
    (names : ∀ o x, t.Mentions x → ((f (.mk o (.var x))).Mentions y ↔ within x)) :
    (t.expand f tail).Mentions y ↔ ∃ x, t.Mentions x ∧ within x := by
  induction pure with
  | var o x => simpa using names o x (by simp)
  | number o n => simp
  | text o s => simp
  | boolean o b => simp
  | list o parts ih =>
      have step := fun t inside =>
        ih t inside fun o x found => names o x (mentions_list.mpr ⟨t, inside, found⟩)
      rw [expand_list o parts, mentions_list]
      simp only [List.mem_map, mentions_list]
      constructor
      · rintro ⟨_, ⟨t, inside, rfl⟩, found⟩
        obtain ⟨x, found, held⟩ := (step t inside).mp found
        exact ⟨x, ⟨t, inside, found⟩, held⟩
      · rintro ⟨x, ⟨t, inside, found⟩, held⟩
        exact ⟨_, ⟨t, inside, rfl⟩, (step t inside).mpr ⟨x, found, held⟩⟩
  | dictionary o order parts ih =>
      have step := fun field inside =>
        ih field inside fun o x found => names o x (mentions_dictionary.mpr ⟨field, inside, found⟩)
      rw [expand_dictionary, mentions_dictionary]
      simp only [List.mem_map, mentions_dictionary]
      constructor
      · rintro ⟨_, ⟨field, inside, rfl⟩, found⟩
        obtain ⟨x, found, held⟩ := (step field inside).mp found
        exact ⟨x, ⟨field, inside, found⟩, held⟩
      · rintro ⟨x, ⟨field, inside, found⟩, held⟩
        exact ⟨_, ⟨field, inside, rfl⟩, (step field inside).mpr ⟨x, found, held⟩⟩

/-- A replacement that leaves all variables of a term alone leaves the term alone. -/
theorem expand_eq_self (pure : IsPure t)
    (fixed : ∀ o x, t.Mentions x → f (.mk o (.var x)) = .mk o (.var x)) :
    t.expand f tail = t := by
  induction pure with
  | var o x => simpa using fixed o x (by simp)
  | number o n => simp
  | text o s => simp
  | boolean o b => simp
  | list o parts ih =>
      rw [expand_list o parts]
      congr 2
      refine (List.map_congr_left fun t inside => ?_).trans (List.map_id _)
      exact ih t inside fun o x found => fixed o x (mentions_list.mpr ⟨t, inside, found⟩)
  | dictionary o order parts ih =>
      rw [expand_dictionary]
      congr 2
      refine (List.map_congr_left fun field inside => ?_).trans (List.map_id _)
      rw [ih field inside fun o x found =>
        fixed o x (mentions_dictionary.mpr ⟨field, inside, found⟩)]
      rfl

end IsPure

/-! ## Substituting one variable -/

/-- The term with one variable replaced everywhere. -/
def Term.subst (t : Term) (name : String) (value : Term) : Term :=
  t.expand (fun v => if v.symbol? = some name then value else v) fun _ => none

namespace IsPure

variable {t u : Term} {x : String}

/-- Substituting a pure term keeps a term pure. -/
theorem subst (pure : IsPure t) (value : IsPure u) : IsPure (t.subst x u) := by
  refine pure.expand fun o y _ => ?_
  by_cases same : y = x <;> simp [Term.symbol?, Term.value, same, value, IsPure.var]

/-- Nothing changes where the variable does not occur. -/
theorem subst_eq_self (pure : IsPure t) (absent : ¬ t.Mentions x) : t.subst x u = t := by
  refine pure.expand_eq_self fun o y found => ?_
  have : y ≠ x := fun same => absent (same ▸ found)
  simp [Term.symbol?, Term.value, this]

/-- After a substitution the variables of the value stand where the variable stood. -/
theorem mentions_subst (pure : IsPure t) {y : String} :
    (t.subst x u).Mentions y ↔ (t.Mentions x ∧ u.Mentions y) ∨ (t.Mentions y ∧ y ≠ x) := by
  rw [Term.subst, pure.mentions_expand fun z => (z = x ∧ u.Mentions y) ∨ (z = y ∧ z ≠ x)]
  · constructor
    · rintro ⟨z, found, ⟨rfl, inside⟩ | ⟨rfl, other⟩⟩
      · exact .inl ⟨found, inside⟩
      · exact .inr ⟨found, other⟩
    · rintro (⟨found, inside⟩ | ⟨found, other⟩)
      · exact ⟨x, found, .inl ⟨rfl, inside⟩⟩
      · exact ⟨y, found, .inr ⟨rfl, other⟩⟩
  · intro o z _
    by_cases same : z = x <;> simp [Term.symbol?, Term.value, same]

end IsPure

/-! ## Renaming -/

/-- The term with its variables renamed by a function on names. -/
def Term.renamed (rename : String → String) (t : Term) : Term := t.rename fun _ name => rename name

section Renamed

/-- Without state, terms are renamed one by one. -/
theorem renameAllM_eq_map (f : VarKind → String → String) (ts : List Term) :
    Id.run (renameAllM (m := Id) (fun kind name => pure (f kind name)) ts) =
      ts.map (Term.rename f) := by
  induction ts with
  | nil => rfl
  | cons t ts ih => exact congrArg (List.cons (t.rename f)) ih

theorem renameFieldsM_eq_map (f : VarKind → String → String) (fields : List (String × Term)) :
    Id.run (renameFieldsM (m := Id) (fun kind name => pure (f kind name)) fields) =
      fields.map fun field => (field.1, field.2.rename f) := by
  induction fields with
  | nil => rfl
  | cons field fields ih => exact congrArg (List.cons (field.1, field.2.rename f)) ih

theorem rename_operation (f : VarKind → String → String) (o : Option Nat) (op : Operator)
    (args : List Term) :
    (Term.mk o (.operation op args)).rename f = .mk o (.operation op (args.map (Term.rename f))) :=
  congrArg (fun args => Term.mk o (.operation op args)) (renameAllM_eq_map f args)

variable (rename : String → String)

@[simp] theorem renamed_var (o : Option Nat) (x : String) :
    (Term.mk o (.var x)).renamed rename = .mk o (.var (rename x)) := rfl

@[simp] theorem renamed_number (o : Option Nat) (n : Numeral) :
    (Term.mk o (.number n)).renamed rename = .mk o (.number n) := rfl

@[simp] theorem renamed_text (o : Option Nat) (s : String) :
    (Term.mk o (.text s)).renamed rename = .mk o (.text s) := rfl

@[simp] theorem renamed_boolean (o : Option Nat) (b : Bool) :
    (Term.mk o (.boolean b)).renamed rename = .mk o (.boolean b) := rfl

@[simp] theorem renamed_list (o : Option Nat) (ts : List Term) :
    (Term.mk o (.list ts)).renamed rename = .mk o (.list (ts.map (Term.renamed rename))) :=
  congrArg (fun ts => Term.mk o (.list ts)) (renameAllM_eq_map (fun _ => rename) ts)

@[simp] theorem renamed_dictionary (o : Option Nat) (fields : List (String × Term)) :
    (Term.mk o (.dictionary fields)).renamed rename =
      .mk o (.dictionary (fields.map fun f => (f.1, f.2.renamed rename))) :=
  congrArg (fun fields => Term.mk o (.dictionary fields)) (renameFieldsM_eq_map (fun _ => rename) fields)

@[simp] theorem renamed_operation (o : Option Nat) (op : Operator) (args : List Term) :
    (Term.mk o (.operation op args)).renamed rename =
      .mk o (.operation op (args.map (Term.renamed rename))) :=
  rename_operation (fun _ => rename) o op args

@[simp] theorem renamed_call (o : Option Nat) (f : String) (args : List Term) :
    (Term.mk o (.call f args none)).renamed rename =
      .mk o (.call f (args.map (Term.renamed rename)) none) :=
  congrArg (fun args => Term.mk o (.call f args none)) (renameAllM_eq_map (fun _ => rename) args)

theorem renamed_namedCall (o : Option Nat) (f : String) (args : List Term)
    (named : List (String × Term)) :
    (Term.mk o (.call f args (some named))).renamed rename =
      .mk o (.call f (args.map (Term.renamed rename))
        (some (named.map fun f => (f.1, f.2.renamed rename)))) := by
  have first : _ = args.map (Term.renamed rename) := renameAllM_eq_map (fun _ => rename) args
  have second : _ = named.map fun f => (f.1, f.2.renamed rename) :=
    renameFieldsM_eq_map (fun _ => rename) named
  rw [← first, ← second]
  rfl

theorem renamed_record (o : Option Nat) (fields : List (String × Term)) :
    (Term.mk o (.pattern (.record fields))).renamed rename =
      .mk o (.pattern (.record (fields.map fun f => (f.1, f.2.renamed rename)))) :=
  congrArg (fun fields => Term.mk o (.pattern (.record fields)))
    (renameFieldsM_eq_map (fun _ => rename) fields)

theorem renamed_object (o : Option Nat) (tag : String) (fields : List (String × Term)) :
    (Term.mk o (.pattern (.object tag fields))).renamed rename =
      .mk o (.pattern (.object tag (fields.map fun f => (f.1, f.2.renamed rename)))) :=
  congrArg (fun fields => Term.mk o (.pattern (.object tag fields)))
    (renameFieldsM_eq_map (fun _ => rename) fields)

end Renamed

namespace IsPure

variable {t u : Term} {ρ τ : String → String}

/-- Renaming replaces each variable by the renamed one. -/
theorem renamed_eq_expand (pure : IsPure t) :
    t.renamed ρ = t.expand (Term.renamed ρ) fun _ => none := by
  induction pure with
  | var o x => simp
  | number o n => simp
  | text o s => simp
  | boolean o b => simp
  | list o parts ih =>
      rw [renamed_list, expand_list o parts]
      congr 2
      exact List.map_congr_left ih
  | dictionary o order parts ih =>
      rw [renamed_dictionary, expand_dictionary]
      congr 2
      exact List.map_congr_left fun field inside => by rw [ih field inside]

/-- Renaming keeps a term pure. -/
theorem renamed (pure : IsPure t) : IsPure (t.renamed ρ) := by
  rw [pure.renamed_eq_expand]
  exact pure.expand fun o x _ => .var o (ρ x)

/-- The variables of a renamed term are the new names of its variables. -/
theorem mentions_renamed (pure : IsPure t) {y : String} :
    (t.renamed ρ).Mentions y ↔ ∃ x, t.Mentions x ∧ ρ x = y := by
  rw [pure.renamed_eq_expand, pure.mentions_expand fun x => ρ x = y]
  intro o x _
  simp

/-- Renaming depends on the new names of the variables that occur. -/
theorem renamed_congr (pure : IsPure t) (agree : ∀ x, t.Mentions x → ρ x = τ x) :
    t.renamed ρ = t.renamed τ := by
  rw [pure.renamed_eq_expand, pure.renamed_eq_expand]
  refine pure.expand_congr fun o x found => ?_
  simp [agree x found]

/-- Renaming twice is renaming once, by the composition. -/
theorem renamed_renamed (pure : IsPure t) :
    (t.renamed ρ).renamed τ = t.renamed (τ ∘ ρ) := by
  rw [pure.renamed_eq_expand, IsPure.renamed_eq_expand, pure.expand_expand,
    pure.renamed_eq_expand]
  · exact pure.expand_congr fun o x _ => by simp
  · exact fun o x _ => .var o (ρ x)
  · exact pure.expand fun o x _ => .var o (ρ x)

/-- Renaming a substituted term renames the variable and the value. -/
theorem renamed_subst (pure : IsPure t) (value : IsPure u) {x : String}
    (apart : ∀ y, t.Mentions y → ρ y = ρ x → y = x) :
    (t.subst x u).renamed ρ = (t.renamed ρ).subst (ρ x) (u.renamed ρ) := by
  rw [(pure.subst value).renamed_eq_expand, pure.renamed_eq_expand, Term.subst, Term.subst,
    pure.expand_expand, pure.expand_expand]
  · refine pure.expand_congr fun o y found => ?_
    by_cases same : y = x
    · subst same
      simp [Term.symbol?, Term.value, value.renamed_eq_expand]
    · have distinct : ρ y ≠ ρ x := fun equal => same (apart y found equal)
      simp [Term.symbol?, Term.value, same, distinct]
  · exact fun o y _ => .var o (ρ y)
  · intro o y _
    by_cases same : y = x <;> simp [Term.symbol?, Term.value, same, value, IsPure.var]

end IsPure

/-! ## Phrases

A phrase is a pure term, or an operator or a call applied to phrases: what goals are made of. -/

/-- Pure terms, and operators and calls applied to phrases. -/
inductive IsPhrase : Term → Prop
  | pure {t : Term} : IsPure t → IsPhrase t
  | operation (o : Option Nat) (op : Operator) {args : List Term} :
    (∀ t ∈ args, IsPhrase t) → IsPhrase (.mk o (.operation op args))
  | call (o : Option Nat) (name : String) {args : List Term} :
    (∀ t ∈ args, IsPhrase t) → IsPhrase (.mk o (.call name args none))

/-- Renaming a pure term is faithful on the variables it mentions. -/
theorem IsPure.renamed_inj {t : Term} {ρ τ : String → String} (pure : IsPure t)
    (same : t.renamed ρ = t.renamed τ) {x : String} (found : t.Mentions x) : ρ x = τ x := by
  induction pure with
  | var o y =>
      rw [mentions_var] at found
      subst found
      simpa using same
  | list o parts ih =>
      obtain ⟨t, member, inside⟩ := mentions_list.mp found
      rw [renamed_list, renamed_list] at same
      injection same with _ same
      injection same with same
      exact ih t member (List.map_inj_left.mp same t member) inside
  | dictionary o order parts ih =>
      obtain ⟨field, member, inside⟩ := mentions_dictionary.mp found
      rw [renamed_dictionary, renamed_dictionary] at same
      injection same with _ same
      injection same with same
      exact ih field member (Prod.mk.inj (List.map_inj_left.mp same field member)).2 inside
  | number o n => exact absurd found not_mentions_number
  | text o s => exact absurd found not_mentions_text
  | boolean o b => exact absurd found not_mentions_boolean

namespace IsPhrase

variable {t : Term} {ρ τ : String → String}

/-- A renamed phrase is a phrase. -/
theorem renamed (phrase : IsPhrase t) : IsPhrase (t.renamed ρ) := by
  induction phrase with
  | pure pure => exact .pure pure.renamed
  | operation o op parts ih =>
      rw [renamed_operation]
      exact operation o op (by simpa using ih)
  | call o name parts ih =>
      rw [renamed_call]
      exact call o name (by simpa using ih)

/-- Also in a phrase only the variables that occur matter. -/
theorem renamed_congr (phrase : IsPhrase t) (agree : ∀ x, t.Mentions x → ρ x = τ x) :
    t.renamed ρ = t.renamed τ := by
  induction phrase with
  | pure pure => exact pure.renamed_congr agree
  | operation o op parts ih =>
      rw [renamed_operation, renamed_operation]
      congr 2
      refine List.map_congr_left fun t member => ih t member fun x found => ?_
      exact agree x (mentions_operation.mpr ⟨t, member, found⟩)
  | call o name parts ih =>
      rw [renamed_call, renamed_call]
      congr 2
      refine List.map_congr_left fun t member => ih t member fun x found => ?_
      exact agree x (mentions_call.mpr ⟨t, member, found⟩)

/-- Keeping all names changes no phrase. -/
theorem renamed_id (phrase : IsPhrase t) : t.renamed id = t := by
  induction phrase with
  | pure pure =>
      rw [pure.renamed_eq_expand]
      exact pure.expand_eq_self fun _ _ _ => rfl
  | operation o op parts ih =>
      rw [renamed_operation, List.map_congr_left ih, List.map_id']
  | call o name parts ih =>
      rw [renamed_call, List.map_congr_left ih, List.map_id']

/-- Phrases too are renamed twice by the composition. -/
theorem renamed_renamed (phrase : IsPhrase t) : (t.renamed ρ).renamed τ = t.renamed (τ ∘ ρ) := by
  induction phrase with
  | pure pure => exact pure.renamed_renamed
  | operation o op parts ih =>
      simp only [renamed_operation, List.map_map]
      congr 2
      exact List.map_congr_left ih
  | call o name parts ih =>
      simp only [renamed_call, List.map_map]
      congr 2
      exact List.map_congr_left ih

/-- The variables of a renamed phrase are the new names of its variables. -/
theorem mentions_renamed (phrase : IsPhrase t) {y : String} :
    (t.renamed ρ).Mentions y ↔ ∃ x, t.Mentions x ∧ ρ x = y := by
  have each : ∀ {args : List Term},
      (∀ t ∈ args, ((t.renamed ρ).Mentions y ↔ ∃ x, t.Mentions x ∧ ρ x = y)) →
      ((∃ t ∈ args.map (Term.renamed ρ), t.Mentions y) ↔
        ∃ x, (∃ t ∈ args, t.Mentions x) ∧ ρ x = y) := by
    intro args ih
    constructor
    · rintro ⟨_, member, found⟩
      obtain ⟨t, inside, rfl⟩ := List.mem_map.mp member
      obtain ⟨x, found, same⟩ := (ih t inside).mp found
      exact ⟨x, ⟨t, inside, found⟩, same⟩
    · rintro ⟨x, ⟨t, inside, found⟩, same⟩
      exact ⟨_, List.mem_map_of_mem inside, (ih t inside).mpr ⟨x, found, same⟩⟩
  induction phrase with
  | pure pure => exact pure.mentions_renamed
  | operation o op parts ih =>
      simp only [renamed_operation, mentions_operation]
      exact each ih
  | call o name parts ih =>
      simp only [renamed_call, mentions_call]
      exact each ih

/-- Renaming a phrase is faithful on the variables it mentions. -/
theorem renamed_inj (phrase : IsPhrase t) (same : t.renamed ρ = t.renamed τ) {x : String}
    (found : t.Mentions x) : ρ x = τ x := by
  induction phrase with
  | pure pure => exact pure.renamed_inj same found
  | operation o op parts ih =>
      obtain ⟨t, member, inside⟩ := mentions_operation.mp found
      rw [renamed_operation, renamed_operation] at same
      injection same with _ same
      injection same with _ same
      exact ih t member (List.map_inj_left.mp same t member) inside
  | call o name parts ih =>
      obtain ⟨t, member, inside⟩ := mentions_call.mp found
      rw [renamed_call, renamed_call] at same
      injection same with _ same
      injection same with _ same
      exact ih t member (List.map_inj_left.mp same t member) inside

end IsPhrase

end PolicyLogic
