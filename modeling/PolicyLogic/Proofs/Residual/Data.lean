import PolicyLogic.Proofs.Resolution.Unification

/-!
# Data

Data are pure terms without variables. Unification compares them part by part, and two of them unify
exactly if they are equal (`unify_data`). A number that is not one is not equal to itself, so data
need not be either.
-/

namespace PolicyLogic

/-- A pure term without variables. -/
structure IsData (t : Term) : Prop where
  pure : IsPure t
  closed : ∀ x, ¬ t.Mentions x

namespace IsData

variable {t : Term}

theorem symbol? (data : IsData t) : t.symbol? = none := by
  cases named : t.symbol? with
  | none => rfl
  | some x => exact absurd (Term.mentions_of_symbol? named) (data.closed x)

theorem deref (data : IsData t) (b : Bindings) : b.deref t = t := by
  rw [Bindings.deref_eq_expand data.pure]
  exact data.pure.expand_eq_self fun o x found => absurd found (data.closed x)

theorem walk (data : IsData t) (b : Bindings) : b.walk t = t :=
  Bindings.walk_of_not_symbol data.symbol?

theorem element {o : Option Nat} {ts : List Term} (data : IsData (.mk o (.list ts))) :
    ∀ t ∈ ts, IsData t := by
  intro t member
  cases data.pure with
  | list _ parts =>
      exact ⟨parts t member, fun x found => data.closed x (mentions_list.mpr ⟨t, member, found⟩)⟩

theorem fields {o : Option Nat} {fields : List (String × Term)}
    (data : IsData (.mk o (.dictionary fields))) : ∀ field ∈ fields, IsData field.2 := by
  intro field member
  cases data.pure with
  | dictionary _ _ parts =>
      exact ⟨parts field member,
        fun x found => data.closed x (mentions_dictionary.mpr ⟨field, member, found⟩)⟩

end IsData

/-! ## Unification -/

section Unify

variable {kb : KnowledgeBase} (noConstants : kb.constants = []) {s : Store}
  (closed : s.residual = {}) {allowed : Store → Goal → Prop}
  (free : ∀ left right, allowed s (.unify left right))

/-- The goals hold in a store: what is explored after them is explored with them. -/
def Passing (kb : KnowledgeBase) (allowed : Store → Goal → Prop) (s : Store) (goals : List Goal) :
    Prop :=
  ∀ ⦃stop n rest answers ending n'⦄, Explores kb allowed stop s n (.solve rest) answers ending n' →
    Explores kb allowed stop s n (.solve (goals ++ rest)) answers ending n'

/-- The goals fail in a store. -/
def Failing (kb : KnowledgeBase) (allowed : Store → Goal → Prop) (s : Store) (goals : List Goal) :
    Prop :=
  ∀ stop n rest, Explores kb allowed stop s n (.solve (goals ++ rest)) [] .exhausted n

/-- The goals hold or fail as a test says. -/
def Decided (kb : KnowledgeBase) (allowed : Store → Goal → Prop) (s : Store) (goals : List Goal)
    (holds : Bool) : Prop :=
  if holds then Passing kb allowed s goals else Failing kb allowed s goals

theorem Decided.of_act {goal : Goal} {goals : List Goal} {holds : Bool} (isLocal : goal.isLocal = true)
    (may : allowed s goal) (acts : s.act kb goal = .go s goals)
    (decided : Decided kb allowed s goals holds) : Decided kb allowed s [goal] holds := by
  cases holds with
  | true => exact fun _ _ _ _ _ _ explores => .act isLocal may acts (decided explores)
  | false => exact fun stop n rest => .act isLocal may acts (decided stop n rest)

theorem Decided.of_fail {goal : Goal} (isLocal : goal.isLocal = true) (may : allowed s goal)
    (acts : s.act kb goal = .fail) : Decided kb allowed s [goal] false :=
  fun _ _ _ => .fail isLocal may acts

theorem act_push (goals : List Goal) :
    Action.of (.proceed ((s.machine kb).push goals)) = .go s goals := by
  show Action.go s (goals ++ []) = _
  rw [List.append_nil]

theorem Decided.nil : Decided kb allowed s [] true :=
  fun _ _ _ _ _ _ explores => explores

theorem Decided.cons {goal : Goal} {goals : List Goal} {holds holds' : Bool}
    (first : Decided kb allowed s [goal] holds) (rest : Decided kb allowed s goals holds') :
    Decided kb allowed s (goal :: goals) (holds && holds') := by
  cases holds with
  | false => exact fun stop n others => first stop n (goals ++ others)
  | true =>
      cases holds' with
      | true => exact fun _ _ _ _ _ _ explores => first (rest explores)
      | false => exact fun stop n others => first (rest stop n others)

theorem Decided.of_require {goal : Goal} {holds : Bool} (isLocal : goal.isLocal = true)
    (may : allowed s goal)
    (acts : s.act kb goal = .of (.proceed ((s.machine kb).require holds))) :
    Decided kb allowed s [goal] holds := by
  cases holds with
  | true =>
      have stays : s.act kb goal = .go s [] := acts
      exact Decided.of_act isLocal may stays Decided.nil
  | false => exact Decided.of_fail isLocal may acts

omit closed noConstants in
theorem Decided.unifyAll {left right : List Term} (length : left.length = right.length)
    (each : ∀ a ∈ left, ∀ b ∈ right, Decided kb allowed s [.unify a b] (a.same b)) :
    Decided kb allowed s (unifyAll left right) (sameAll left right) := by
  induction left generalizing right with
  | nil =>
      rw [List.length_eq_zero_iff.mp length.symm]
      exact Decided.nil
  | cons a left ih =>
      cases right with
      | nil => cases length
      | cons b right =>
          exact Decided.cons (each a List.mem_cons_self b List.mem_cons_self)
            (ih (Nat.succ.inj length) fun a member b member' =>
              each a (List.mem_cons_of_mem _ member) b (List.mem_cons_of_mem _ member'))

include noConstants closed free

/-- Two data unify exactly if they are equal. -/
theorem unify_data {left right a b : Term} (data : IsData a) (data' : IsData b)
    (walked : s.bindings.walk left = a) (walked' : s.bindings.walk right = b) :
    Decided kb allowed s [.unify left right] (a.same b) := by
  obtain ⟨pure, dataClosed⟩ := data
  have step : ∀ {a b left right}, IsData a → IsData b → s.bindings.walk left = a →
      s.bindings.walk right = b →
      s.act kb (.unify left right) = .of ((s.machine kb).unifyValues a b) := by
    rintro a b left right data data' rfl rfl
    have distinct : Machine.sameVariable (s.bindings.walk left) (s.bindings.walk right) = false := by
      rw [Machine.sameVariable]
      split
      · rename_i x _ named _
        have := data.symbol?
        rw [Term.symbol?, named] at this
        cases this
      · rfl
    rw [act_unify noConstants closed]
    simp only [distinct, data.symbol?, data'.symbol?, Bool.false_eq_true, ↓reduceIte]
  have elements : ∀ {ts us : List Term}, (∀ t ∈ ts, IsData t) → (∀ u ∈ us, IsData u) →
      (∀ t ∈ ts, ∀ u, IsData u → Decided kb allowed s [.unify t u] (t.same u)) →
      ts.length = us.length → Decided kb allowed s (unifyAll ts us) (sameAll ts us) :=
    fun _ right ih length => .unifyAll length fun t member u member' =>
      ih t member u (right u member')
  have unequal : ∀ {a b left right}, IsData a → IsData b → s.bindings.walk left = a →
      s.bindings.walk right = b → a.same b = false →
      (s.machine kb).unifyValues a b = .proceed (s.machine kb).backtrack →
      Decided kb allowed s [.unify left right] (a.same b) := by
    intro a b left right data data' walked walked' same fails
    rw [same]
    refine .of_fail rfl (free _ _) ?_
    rw [step data data' walked walked', fails]
    rfl
  induction pure generalizing b left right with
  | var o x => exact absurd (mentions_var.mpr rfl) (dataClosed x)
  | number o n =>
      have data : IsData (.mk o (.number n)) := ⟨.number o n, dataClosed⟩
      cases data'.pure with
      | number o' k =>
          exact .of_require rfl (free _ _) (step data data' walked walked')
      | var o' x => exact absurd (mentions_var.mpr rfl) (data'.closed x)
      | _ => exact unequal data data' walked walked' rfl rfl
  | text o s =>
      have data : IsData (.mk o (.text s)) := ⟨.text o s, dataClosed⟩
      cases data'.pure with
      | text o' k =>
          exact .of_require rfl (free _ _) (step data data' walked walked')
      | var o' x => exact absurd (mentions_var.mpr rfl) (data'.closed x)
      | _ => exact unequal data data' walked walked' rfl rfl
  | boolean o s =>
      have data : IsData (.mk o (.boolean s)) := ⟨.boolean o s, dataClosed⟩
      cases data'.pure with
      | boolean o' k =>
          exact .of_require rfl (free _ _) (step data data' walked walked')
      | var o' x => exact absurd (mentions_var.mpr rfl) (data'.closed x)
      | _ => exact unequal data data' walked walked' rfl rfl
  | @list o ts parts ih =>
      have data : IsData (.mk o (.list ts)) := ⟨.list o parts, dataClosed⟩
      cases data'.pure with
      | @list o' us parts' =>
          have acts := step data data' walked walked'
          have elementwise : (s.machine kb).unifyValues (.mk o (.list ts)) (.mk o' (.list us)) =
              .proceed ((s.machine kb).pushOrFail (unifyElements? ts us)) := rfl
          rw [elementwise, unifyElements?_plain (fun t member => (parts t member).not_rest)
            fun u member => (parts' u member).not_rest] at acts
          by_cases length : ts.length = us.length
          · rw [if_pos length, Machine.pushOrFail, act_push] at acts
            refine .of_act rfl (free _ _) acts (elements data.element data'.element ?_ length)
            intro t member u dataElement
            exact ih t member dataElement ((data.element t member).walk _) (dataElement.walk _)
              (data.element t member).closed
          · rw [if_neg length] at acts
            rw [Term.same, sameAll_of_length length]
            exact .of_fail rfl (free _ _) acts
      | var o' x => exact absurd (mentions_var.mpr rfl) (data'.closed x)
      | _ => exact unequal data data' walked walked' rfl rfl
  | @dictionary o fields order parts ih =>
      have data : IsData (.mk o (.dictionary fields)) := ⟨.dictionary o order parts, dataClosed⟩
      cases data'.pure with
      | @dictionary o' fields' order' parts' =>
          have acts := step data data' walked walked'
          have fieldwise : (s.machine kb).unifyValues (.mk o (.dictionary fields))
              (.mk o' (.dictionary fields')) = .proceed
                (if Fields.sameNames fields fields' then
                  (s.machine kb).push (unifyFields fields fields')
                else (s.machine kb).backtrack) := rfl
          rw [fieldwise] at acts
          by_cases known : Fields.sameNames fields fields' = true
          · have names := (sameNames_iff order order').mp known
            rw [if_pos known, unifyFields_eq order order' names, act_push] at acts
            rw [Term.same, sameFields_eq, decide_eq_true names, Bool.true_and]
            refine .of_act rfl (free _ _) acts (elements ?_ ?_ ?_ ?_)
            · exact List.forall_mem_map.mpr data.fields
            · exact List.forall_mem_map.mpr data'.fields
            · refine List.forall_mem_map.mpr fun field member u dataField => ?_
              exact ih field member dataField ((data.fields field member).walk _) (dataField.walk _)
                (data.fields field member).closed
            · simpa using congrArg List.length names
          · rw [if_neg known] at acts
            rw [Term.same, sameFields_of_names order order' (Bool.eq_false_iff.mpr known)]
            exact .of_fail rfl (free _ _) acts
      | var o' x => exact absurd (mentions_var.mpr rfl) (data'.closed x)
      | _ => exact unequal data data' walked walked' rfl rfl

end Unify

end PolicyLogic
