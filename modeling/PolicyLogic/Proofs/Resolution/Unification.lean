import PolicyLogic.Proofs.Binding.Acyclic
import PolicyLogic.Proofs.Fields
import PolicyLogic.Proofs.Machine.Exploration
import PolicyLogic.Proofs.Resolution.Lists
import PolicyLogic.Proofs.Resolution.Search

/-!
# Unification by the machine

The machine unifies two terms one level at a time and keeps its bindings in a log. What it does to a
store is what `Term.equate` says about the dereferenced terms (`act_unify`). Variables of the machine
are renamed variables of the search: `Reflects` relates the two, and `Unifies.explores` carries
equations that are solved by substitutions over to goals of the machine.
-/

namespace PolicyLogic

open Bindings

/-! ## What a goal of unification does -/

section Act

variable {kb : KnowledgeBase} {s : Store} {t u : Term}

/-- The two terms of a goal of unification stand for the two sides of an equation. -/
def Bindings.Poses (b : Bindings) (pair : Term × Term) (goal : Goal) : Prop :=
  ∃ t u, goal = .unify t u ∧ IsPure t ∧ IsPure u ∧ pair = (b.deref t, b.deref u)

/-- The action does what the verdict says. -/
inductive Settles (s : Store) : Verdict → Action → Prop
  | parts {pairs : List (Term × Term)} {goals : List Goal} :
    List.Forall₂ s.bindings.Poses pairs goals → Settles s (.parts pairs) (.go s goals)
  | bind {name : String} {u : Term} :
    s.bindings.value? name = none → IsPure u →
    Settles s (.bind name (s.bindings.deref u)) (.go ⟨s.bindings.bind name u, s.residual⟩ [])
  | clash : Settles s .clash .fail

theorem walk_machine (noConstants : kb.constants = []) (t : Term) :
    (s.machine kb).walk t = s.bindings.walk t := by
  simp only [Machine.walk, Store.machine, noConstants]
  split <;> rfl

/-- A term that mentions no open variable is not symbolic. -/
theorem isSymbolic_of_mentions {r : Residual} {t : Term}
    (free : ∀ x, t.Mentions x → r.isScopeVar x = false) : r.isSymbolic t = false := by
  rw [Residual.isSymbolic]
  fun_induction Residual.scopeOf? with
  | case1 o x => exact free x (mentions_var.mpr rfl)
  | case2 o base field ih =>
      exact ih fun x mentioned => free x (mentions_operation.mpr ⟨base, List.mem_cons_self, mentioned⟩)
  | case3 => rfl

theorem isSymbolic_empty (t : Term) : Residual.isSymbolic {} t = false :=
  isSymbolic_of_mentions fun _ _ => rfl

/-- What unification does to a store without open variables. -/
theorem act_unify_closed (closed : s.residual = {}) (t u : Term) :
    s.act kb (.unify t u) =
      let left := (s.machine kb).walk t
      let right := (s.machine kb).walk u
      if Machine.sameVariable left right then .go s []
      else
        match left.symbol?, right.symbol? with
        | some name, _ => .go ⟨s.bindings.bind name right, s.residual⟩ []
        | none, some name => .go ⟨s.bindings.bind name left, s.residual⟩ []
        | none, none => .of ((s.machine kb).unifyValues left right) := by
  have quiet : ∀ text : Unit → String, (s.machine kb).note .unify text = s.machine kb :=
    fun _ => rfl
  have noScope : (s.machine kb).residual = {} := closed
  have bindable : ∀ v, (s.machine kb).bindable? v = v.symbol? := by
    intro v
    have : ∀ name, Residual.isScopeVar {} name = false := fun _ => rfl
    cases named : v.symbol? with
    | none => simp [Machine.bindable?, named]
    | some name => simp [Machine.bindable?, named, noScope, this]
  have plain : ∀ v : Term, (s.machine kb).residual.isSymbolic v = false := by
    intro v
    rw [noScope, isSymbolic_empty]
  simp only [Store.act, Machine.step, Machine.unify, quiet, bindable, plain, Bool.or_self,
    Bool.false_eq_true, ↓reduceIte]
  split
  · rfl
  · cases ((s.machine kb).walk t).symbol? <;> cases ((s.machine kb).walk u).symbol? <;> rfl

/-- Without constants the variables are followed by their bindings alone. -/
theorem act_unify (noConstants : kb.constants = []) (closed : s.residual = {}) (t u : Term) :
    s.act kb (.unify t u) =
      let left := s.bindings.walk t
      let right := s.bindings.walk u
      if Machine.sameVariable left right then .go s []
      else
        match left.symbol?, right.symbol? with
        | some name, _ => .go ⟨s.bindings.bind name right, s.residual⟩ []
        | none, some name => .go ⟨s.bindings.bind name left, s.residual⟩ []
        | none, none => .of ((s.machine kb).unifyValues left right) := by
  rw [act_unify_closed closed, walk_machine noConstants, walk_machine noConstants]

/-- The elements of two lists are equations. -/
theorem poses_unifyAll {b : Bindings} {ts us : List Term} (pureLeft : ∀ t ∈ ts, IsPure t)
    (pureRight : ∀ u ∈ us, IsPure u) :
    List.Forall₂ b.Poses ((ts.map b.deref).zip (us.map b.deref)) (unifyAll ts us) := by
  induction ts generalizing us with
  | nil => exact .nil
  | cons t ts ih =>
      cases us with
      | nil => exact .nil
      | cons u us =>
          refine .cons ⟨t, u, rfl, pureLeft t List.mem_cons_self, pureRight u List.mem_cons_self, rfl⟩ ?_
          exact ih (fun t member => pureLeft t (List.mem_cons_of_mem _ member))
            fun u member => pureRight u (List.mem_cons_of_mem _ member)

theorem lookup_map {α β : Type} (f : α → β) (fields : List (String × α)) (name : String) :
    (fields.map fun field => (field.1, f field.2)).lookup name = (fields.lookup name).map f := by
  induction fields with
  | nil => rfl
  | cons field fields ih =>
      obtain ⟨key, value⟩ := field
      simp only [List.map_cons, List.lookup_cons, ih]
      split <;> rfl

theorem sameNames_map {α β : Type} (f : α → β) (left right : List (String × α)) :
    Fields.sameNames (left.map fun field => (field.1, f field.2))
      (right.map fun field => (field.1, f field.2)) = Fields.sameNames left right := by
  simp [Fields.sameNames, Fields.has, lookup_map, Function.comp_def]

/-- The fields of two dictionaries with the same names are equations. -/
theorem poses_unifyFields {b : Bindings} {left right : List (String × Term)}
    (pureLeft : ∀ field ∈ left, IsPure field.2) (pureRight : ∀ field ∈ right, IsPure field.2) :
    List.Forall₂ b.Poses
      (fieldPairs (left.map fun field => (field.1, b.deref field.2))
        (right.map fun field => (field.1, b.deref field.2)))
      (unifyFields left right) := by
  induction left with
  | nil => exact .nil
  | cons field left ih =>
      have later := ih fun field member => pureLeft field (List.mem_cons_of_mem _ member)
      simp only [fieldPairs, unifyFields, List.map_cons, List.filterMap_cons, lookup_map] at later ⊢
      cases found : right.lookup field.1 with
      | none => exact later
      | some value =>
          refine .cons ⟨field.2, value, rfl, pureLeft field List.mem_cons_self, ?_, rfl⟩ later
          exact pureRight _ (mem_of_lookup found)

/-- Two values are compared as their dereferenced terms are. -/
theorem settles_values {w v : Term} (pureLeft : IsPure w) (pureRight : IsPure v)
    (value : w.symbol? = none) (value' : v.symbol? = none) :
    Settles s ((s.bindings.deref w).equate (s.bindings.deref v))
      (.of ((s.machine kb).unifyValues w v)) := by
  have tested : ∀ equal : Bool, Settles s (.ofTest equal)
      (.of (.proceed ((s.machine kb).require equal))) := by
    intro equal
    cases equal
    · exact .clash
    · exact .parts .nil
  cases pureLeft with
  | var o x => cases value
  | number o n =>
      rw [deref_number]
      cases pureRight with
      | var o' x => cases value'
      | number o' n' =>
          rw [deref_number]
          exact tested (n.same n')
      | list o' parts =>
          rw [deref_list o' parts]
          exact .clash
      | dictionary o' order parts =>
          rw [deref_dictionary o' order parts]
          exact .clash
      | _ =>
          simp only [deref_text, deref_boolean]
          exact .clash
  | text o a =>
      rw [deref_text]
      cases pureRight with
      | var o' x => cases value'
      | text o' a' =>
          rw [deref_text]
          exact tested (a == a')
      | list o' parts =>
          rw [deref_list o' parts]
          exact .clash
      | dictionary o' order parts =>
          rw [deref_dictionary o' order parts]
          exact .clash
      | _ =>
          simp only [deref_number, deref_boolean]
          exact .clash
  | boolean o b =>
      rw [deref_boolean]
      cases pureRight with
      | var o' x => cases value'
      | boolean o' b' =>
          rw [deref_boolean]
          exact tested (b == b')
      | list o' parts =>
          rw [deref_list o' parts]
          exact .clash
      | dictionary o' order parts =>
          rw [deref_dictionary o' order parts]
          exact .clash
      | _ =>
          simp only [deref_number, deref_text]
          exact .clash
  | @list o ts parts =>
      rw [deref_list o parts]
      cases pureRight with
      | var o' x => cases value'
      | @list o' us parts' =>
          rw [deref_list o' parts']
          have outcome : (s.machine kb).unifyValues (.mk o (.list ts)) (.mk o' (.list us)) =
              .proceed ((s.machine kb).pushOrFail (unifyElements? ts us)) := rfl
          rw [outcome, unifyElements?_plain (fun t member => (parts t member).not_rest)
            fun t member => (parts' t member).not_rest]
          simp only [Term.equate, Term.value, List.length_map]
          split
          · have goals : Action.of (.proceed ((s.machine kb).pushOrFail (some (unifyAll ts us)))) =
                .go s (unifyAll ts us ++ []) := rfl
            rw [goals, List.append_nil]
            exact .parts (poses_unifyAll parts parts')
          · exact .clash
      | dictionary o' order' parts' =>
          rw [deref_dictionary o' order' parts']
          exact .clash
      | _ =>
          simp only [deref_number, deref_text, deref_boolean]
          exact .clash
  | @dictionary o fields order parts =>
      rw [deref_dictionary o order parts]
      cases pureRight with
      | var o' x => cases value'
      | list o' parts' =>
          rw [deref_list o' parts']
          exact .clash
      | @dictionary o' fields' order' parts' =>
          rw [deref_dictionary o' order' parts']
          have outcome : (s.machine kb).unifyValues (.mk o (.dictionary fields))
              (.mk o' (.dictionary fields')) = .proceed (if Fields.sameNames fields fields' then
                (s.machine kb).push (unifyFields fields fields') else (s.machine kb).backtrack) := rfl
          rw [outcome]
          simp only [Term.equate, Term.value, sameNames_map]
          split
          · have goals : Action.of (.proceed ((s.machine kb).push (unifyFields fields fields'))) =
                .go s (unifyFields fields fields' ++ []) := rfl
            rw [goals, List.append_nil]
            exact .parts (poses_unifyFields parts parts')
          · exact .clash
      | _ =>
          simp only [deref_number, deref_text, deref_boolean]
          exact .clash

theorem equate_var_left {o : Option Nat} {x : String} (value : u.symbol? = none) :
    (Term.mk o (.var x)).equate u = .bind x u := by
  rcases u with ⟨o', v⟩
  cases v <;> first | rfl | cases value

theorem equate_var_right {o : Option Nat} {x : String} (value : t.symbol? = none) :
    t.equate (.mk o (.var x)) = .bind x t := by
  rcases t with ⟨o', v⟩
  cases v <;> first | rfl | cases value

theorem IsPure.eq_var (pure : IsPure t) {x : String} (named : t.symbol? = some x) :
    ∃ o, t = .mk o (.var x) := by
  cases pure with
  | var o y =>
      cases named
      exact ⟨o, rfl⟩
  | _ => cases named

/-- What a value stands for is no variable. -/
theorem symbol?_deref {b : Bindings} (pure : IsPure t) (value : t.symbol? = none) :
    (b.deref t).symbol? = none := by
  cases pure with
  | var o x => cases value
  | list o parts =>
      rw [deref_list o parts]
      rfl
  | dictionary o order parts =>
      rw [deref_dictionary o order parts]
      rfl
  | _ => simp [value]

/-- A goal of unification does what the comparison of the dereferenced terms says. -/
theorem act_settles (noConstants : kb.constants = []) (tame : s.bindings.Tame)
    (closed : s.residual = {}) (pureLeft : IsPure t) (pureRight : IsPure u) :
    Settles s ((s.bindings.deref t).equate (s.bindings.deref u)) (s.act kb (.unify t u)) := by
  rw [act_unify noConstants closed, ← tame.deref_walk pureLeft, ← tame.deref_walk pureRight]
  have settled : ∀ x, (s.bindings.walk t).symbol? = some x → s.bindings.value? x = none :=
    fun x => tame.acyclic.walkable.walk_settled
  have settled' : ∀ x, (s.bindings.walk u).symbol? = some x → s.bindings.value? x = none :=
    fun x => tame.acyclic.walkable.walk_settled
  have pureLeft := tame.walk_pure pureLeft
  have pureRight := tame.walk_pure pureRight
  generalize s.bindings.walk t = w at *
  generalize s.bindings.walk u = v at *
  simp only
  cases named : w.symbol? with
  | some x =>
      obtain ⟨o, rfl⟩ := pureLeft.eq_var named
      have unbound := settled x named
      have alone : s.bindings.deref (.mk o (.var x)) = .mk o (.var x) := by
        rw [tame.deref_var, unbound]
      rw [alone]
      cases named' : v.symbol? with
      | some y =>
          obtain ⟨o', rfl⟩ := pureRight.eq_var named'
          have alone' : s.bindings.deref (.mk o' (.var y)) = .mk o' (.var y) := by
            rw [tame.deref_var, settled' y named']
          by_cases same : x = y
          · subst same
            simp only [alone', Term.equate, Term.value, Machine.sameVariable, beq_self_eq_true,
              ↓reduceIte]
            exact .parts .nil
          · simp only [Term.equate, Term.value, Machine.sameVariable, beq_iff_eq, same, alone',
              ↓reduceIte]
            have bound := Settles.bind (s := s) unbound pureRight
            rw [alone'] at bound
            exact bound
      | none =>
          have other : Machine.sameVariable (.mk o (.var x)) v = false := by
            rcases v with ⟨o', v⟩
            cases v <;> first | rfl | cases named'
          rw [equate_var_left (symbol?_deref pureRight named'), other]
          exact .bind unbound pureRight
  | none =>
      have other : Machine.sameVariable w v = false := by
        rcases w with ⟨o, w⟩
        cases w <;> first | rfl | cases named
      rw [other]
      cases named' : v.symbol? with
      | some y =>
          obtain ⟨o', rfl⟩ := pureRight.eq_var named'
          have unbound := settled' y named'
          rw [tame.deref_var, unbound, equate_var_right (symbol?_deref pureLeft named)]
          exact .bind unbound pureLeft
      | none => exact settles_values pureLeft pureRight named named'

end Act

/-! ## Renamed equations -/

/-- The verdict with all variables renamed. -/
def Verdict.renamed (ρ : String → String) : Verdict → Verdict
  | .parts pairs => .parts (pairs.map fun pair => (pair.1.renamed ρ, pair.2.renamed ρ))
  | .bind name value => .bind (ρ name) (value.renamed ρ)
  | .clash => .clash

theorem fieldPairs_renamed (ρ : String → String) (left right : List (String × Term)) :
    fieldPairs (left.map fun field => (field.1, field.2.renamed ρ))
        (right.map fun field => (field.1, field.2.renamed ρ)) =
      (fieldPairs left right).map fun pair => (pair.1.renamed ρ, pair.2.renamed ρ) := by
  induction left with
  | nil => rfl
  | cons field left ih =>
      simp only [fieldPairs, List.map_cons, List.filterMap_cons, lookup_map] at ih ⊢
      cases right.lookup field.1 with
      | none => exact ih
      | some value => exact congrArg (List.cons _) ih

/-- Renaming that keeps the variables of two terms apart does not change how they compare. -/
theorem equate_renamed {ρ : String → String} {t u : Term} (pureLeft : IsPure t)
    (pureRight : IsPure u)
    (apart : ∀ x y, t.Mentions x → u.Mentions y → ρ x = ρ y → x = y) :
    (t.renamed ρ).equate (u.renamed ρ) = (t.equate u).renamed ρ := by
  have tested : ∀ equal : Bool, (Verdict.ofTest equal).renamed ρ = .ofTest equal := by
    intro equal
    cases equal <;> rfl
  cases pureLeft with
  | var o x =>
      cases pureRight with
      | var o' y =>
          have : ρ x = ρ y ↔ x = y :=
            ⟨apart x y (mentions_var.mpr rfl) (mentions_var.mpr rfl), congrArg ρ⟩
          simp only [renamed_var, Term.equate, Term.value, this]
          split <;> rfl
      | _ => rfl
  | @list o ts parts =>
      cases pureRight with
      | @list o' us parts' =>
          simp only [renamed_list, Term.equate, Term.value, List.length_map]
          split
          · simp [Verdict.renamed, List.zip_map, Prod.map_def]
          · rfl
      | _ => rfl
  | @dictionary o fields order parts =>
      cases pureRight with
      | @dictionary o' fields' order' parts' =>
          simp only [renamed_dictionary, Term.equate, Term.value, sameNames_map]
          split
          · rw [fieldPairs_renamed]
            rfl
          · rfl
      | _ => rfl
  | _ => cases pureRight <;> first | rfl | exact (tested _).symm

end PolicyLogic
