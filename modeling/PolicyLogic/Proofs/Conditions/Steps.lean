import PolicyLogic.Proofs.Conditions.Counterpart

/-!
# Goals that touch both stores

A goal that only touches the store does in a store with a value what it does in one where the value
is open, unless there it is recorded as a filter: then the filter decides whether the goal holds
(`Follows`).

* `unify_follows`, `relation_follows`: relations of operands;
* `lookup_follows`: lookups on operands that have a field of the name.
-/

namespace PolicyLogic

/-- The goal leads from one store to another: what is explored there is explored with the goal. -/
def Reaches (kb : KnowledgeBase) (c : Store) (goal : Goal) (c' : Store) : Prop :=
  ∀ ⦃stop n rest answers ending n'⦄,
    Explores kb Unrestricted stop c' n (.solve rest) answers ending n' →
      Explores kb Unrestricted stop c n (.solve (goal :: rest)) answers ending n'

/-- What a goal does in the store with the value, when its counterpart does this where the value is
open. -/
inductive Follows (kb : KnowledgeBase) (reading : Reading) (R : String → String → Prop) (n n' : Nat)
    (terms : List Term) (c : Store) (goal : Goal) : Action → Prop
  /-- It goes on, and the filters that its counterpart records hold. -/
  | goes {s' c' : Store} {more : List Term} :
    Counterpart reading R n n' s' (terms ++ more) c' → Reaches kb c goal c' →
    Follows kb reading R n n' terms c goal (.go s' [])
  /-- It fails, and its counterpart goes on with a filter that does not hold. -/
  | dies {s' : Store} {filter : Term} :
    s'.Opens reading.root (terms ++ [filter]) → reading.holds filter = false →
    Failing kb Unrestricted c [goal] → Follows kb reading R n n' terms c goal (.go s' [])
  | fails : Failing kb Unrestricted c [goal] → Follows kb reading R n n' terms c goal .fail
  | raises : Follows kb reading R n n' terms c goal .raise

section Values

variable {kb : KnowledgeBase} {c : Store} {goal goal' : Goal}

theorem Reaches.act {c' : Store} (isLocal : goal.isLocal = true) (acts : c.act kb goal = .go c' []) :
    Reaches kb c goal c' :=
  fun _ _ _ _ _ _ explores => .act isLocal trivial acts explores

/-- Goals that do the same to a store are explored alike. -/
theorem Explores.of_same_act {stop : Option Nat} {n n' : Nat} {rest : List Goal}
    {answers : List Store} {ending : Ending} (isLocal : goal.isLocal = true)
    (isLocal' : goal'.isLocal = true) (same : c.act kb goal = c.act kb goal')
    (explores : Explores kb Unrestricted stop c n (.solve (goal' :: rest)) answers ending n') :
    Explores kb Unrestricted stop c n (.solve (goal :: rest)) answers ending n' := by
  cases explores with
  | act _ _ acts explores => exact .act isLocal trivial (same.trans acts) explores
  | fail _ _ acts => exact .fail isLocal trivial (same.trans acts)
  | raise _ acts => exact .raise isLocal (same.trans acts)
  | forbidden bad => exact absurd trivial bad
  | disj => simp [not_isLocal_disj] at isLocal'
  | _ => cases isLocal'

theorem Decided.of_same_act {holds : Bool} (isLocal : goal.isLocal = true)
    (isLocal' : goal'.isLocal = true) (same : c.act kb goal = c.act kb goal')
    (decided : Decided kb Unrestricted c [goal'] holds) : Decided kb Unrestricted c [goal] holds := by
  cases holds with
  | true =>
      exact fun _ _ _ _ _ _ explores => .of_same_act isLocal isLocal' same (decided explores)
  | false => exact fun stop n rest => .of_same_act isLocal isLocal' same (decided stop n rest)

theorem IsData.plain {t : Term} (data : IsData t) : t.isHandle = false ∧ t.varName? = none := by
  cases data.pure with
  | var o x => exact absurd (mentions_var.mpr rfl) (data.closed x)
  | _ => exact ⟨rfl, rfl⟩

variable (noConstants : kb.constants = []) (closed : c.residual = {}) {t u a b : Term}
include noConstants closed

/-- Data are related or not. -/
theorem relates_data {op : Operator} (isRelation : op.isRelation = true) (data : IsData a)
    (data' : IsData b) (walked : c.bindings.walk t = a) (walked' : c.bindings.walk u = b)
    (o : Option Nat) :
    Decided kb Unrestricted c [.query (.mk o (.operation op [t, u]))] (op.relates a b) := by
  have compared : ∀ {op : Operator}, op = .eq ∨ op = .neq →
      Goal.isLocal (.query (.mk o (.operation op [t, u]))) = true →
      c.act kb (.query (.mk o (.operation op [t, u]))) = .of ((c.machine kb).compare op t u) →
      Decided kb Unrestricted c [.query (.mk o (.operation op [t, u]))] (op.relates a b) := by
    intro op relation isLocal acts
    have stored : (c.machine kb).residual = {} := closed
    simp only [Machine.compare, walk_machine noConstants, walked, walked', stored, isSymbolic_empty,
      data.plain.1, data'.plain.1, data.plain.2, data'.plain.2, compares_data relation data data',
      Bool.or_self, Bool.false_eq_true, ↓reduceIte] at acts
    exact .of_require isLocal trivial acts
  rcases isRelation_cases isRelation with rfl | rfl | rfl
  · have unified : Decided kb Unrestricted c [.unify t u] (Operator.unify.relates a b) :=
      unify_data noConstants closed (fun _ _ => trivial) data data' walked walked'
    have same : c.act kb (.query (.mk o (.operation .unify [t, u]))) = c.act kb (.unify t u) := rfl
    exact unified.of_same_act rfl rfl same
  · exact compared (.inl rfl) rfl rfl
  · exact compared (.inr rfl) rfl rfl

/-- A lookup of a field that a dictionary has unifies its value. -/
theorem act_lookup_data {o o' p : Option Nat} {field : String} {fields : List (String × Term)}
    {found : Term} (walked : c.bindings.walk t = .mk p (.dictionary fields))
    (known : fields.lookup field = some found) :
    c.act kb (.query (.mk o (.operation .dot [t, .mk o' (.text field), u]))) =
      c.act kb (.unify u found) := by
  have looked : c.act kb (.query (.mk o (.operation .dot [t, .mk o' (.text field), u]))) =
      .of ((c.machine kb).lookup t (.mk o' (.text field)) u false) := rfl
  have stored : (c.machine kb).residual = {} := closed
  have text : (c.machine kb).bindings.deref (.mk o' (.text field)) = .mk o' (.text field) :=
    Bindings.deref_text o' field
  rw [looked, Machine.lookup, walk_machine noConstants, walked, stored, isSymbolic_empty, text]
  simp only [Bool.false_eq_true, ↓reduceIte, Term.value, Machine.lookupEntry, known]
  rfl

end Values

section Follow

variable {kb : KnowledgeBase} {reading : Reading} {R : String → String → Prop} {n n' : Nat}
  {s c : Store} {terms : List Term} {goal : Goal}

/-- A goal that leads to counterparts without a new filter. -/
theorem Follows.of_reaches {s' c' : Store} (after : Counterpart reading R n n' s' terms c')
    (reaches : Reaches kb c goal c') : Follows kb reading R n n' terms c goal (.go s' []) := by
  rw [← List.append_nil terms] at after
  exact .goes after reaches

variable (noConstants : kb.constants = []) (data : IsData reading.value)
  (self : reading.value.same reading.value = true)
  (counterpart : Counterpart reading R n n' s terms c)
include noConstants data self counterpart

/-- What unification does to a store once both operands have been followed. -/
def Store.unifies (kb : KnowledgeBase) (c : Store) (a b : Term) : Action :=
  if Machine.sameVariable a b then .go c []
  else
    match a.symbol?, b.symbol? with
    | some name, _ => .go ⟨c.bindings.bind name b, c.residual⟩ []
    | none, some name => .go ⟨c.bindings.bind name a, c.residual⟩ []
    | none, none => .of ((c.machine kb).unifyValues a b)

/-- A relation of operands does alike in both stores, or is recorded in one and decided in the
other. -/
theorem OpenStep.follows {op : Operator} {a b a' b' : Term} {action : Action}
    (step : OpenStep reading.root s op a b action) (isRelation : op.isRelation = true)
    (isLocal : goal.isLocal = true)
    (left : Corresponds reading R s.bindings c.bindings a a')
    (right : Corresponds reading R s.bindings c.bindings b b')
    (decided : IsData a' → IsData b' → Decided kb Unrestricted c [goal] (op.relates a' b'))
    (unifies : op = .unify → ∃ t u, c.bindings.walk t = a' ∧ c.bindings.walk u = b' ∧
      c.act kb goal = c.act kb (.unify t u)) :
    Follows kb reading R n n' terms c goal action := by
  have acts : op = .unify → c.act kb goal = c.unifies kb a' b' := by
    intro unify
    obtain ⟨t, u, rfl, rfl, same⟩ := unifies unify
    exact same.trans (act_unify noConstants counterpart.closed t u)
  cases step with
  | same o o' x unify =>
      by_cases isRoot : x = reading.root
      · have here : ∀ o, IsValue reading.root (.mk o (.var x)) := fun o =>
          .inr (isRoot ▸ .root o)
        have stands : ∀ o, reading.valueOf (.mk o (.var x)) = some reading.value := fun o => by
          rw [Reading.valueOf, if_pos isRoot]
        obtain ⟨value, _⟩ := left.of_value (here o)
        obtain ⟨value', _⟩ := right.of_value (here o')
        rw [stands] at value value'
        cases value
        cases value'
        have holds := decided data data
        have related : op.relates reading.value reading.value = true := by
          rw [unify]
          exact self
        rw [related] at holds
        exact .of_reaches counterpart holds
      · obtain ⟨p, y, rfl, related, unbound⟩ := left.of_free isRoot
        obtain ⟨p', y', rfl, related', unbound'⟩ := right.of_free isRoot
        have free : IsFree reading.root s.bindings x := by
          cases left with
          | free _ _ _ free _ => exact free
          | value value => exact absurd (value.eq_root rfl) isRoot
        obtain rfl := (counterpart.apart _ _ _ _ related related' free free unbound unbound').mp rfl
        have acts := acts unify
        rw [Store.unifies, if_pos (sameVariable_iff.mpr ⟨p, p', y, rfl, rfl⟩)] at acts
        exact .of_reaches counterpart (.act isLocal acts)
  | @bindLeft o x _ unify free settled other =>
      obtain ⟨p, y, rfl, related, unbound⟩ := left.of_free free.other
      have acts := acts unify
      have distinct : ¬ Machine.sameVariable (.mk p (.var y)) b' = true := by
        intro same
        obtain ⟨_, _, _, first, rfl⟩ := sameVariable_iff.mp same
        cases first
        exact other ((counterpart.same_variable right related free unbound).mpr rfl)
      rw [Store.unifies, if_neg distinct] at acts
      exact .of_reaches (counterpart.bind related free unbound right other) (.act isLocal acts)
  | @bindRight o x _ unify free value =>
      obtain ⟨p, y, rfl, related, unbound⟩ := right.of_free free.other
      obtain ⟨_, data'⟩ := left.of_value value
      have acts := acts unify
      have distinct : ¬ Machine.sameVariable a' (.mk p (.var y)) = true := by
        intro same
        obtain ⟨_, _, _, rfl, _⟩ := sameVariable_iff.mp same
        cases data'.symbol?
      rw [Store.unifies, if_neg distinct, data'.symbol?] at acts
      have other : a.symbol? ≠ some x := fun named => free.other (value.eq_root named)
      exact .of_reaches (counterpart.bind related free unbound left other) (.act isLocal acts)
  | record value value' symbolic =>
      obtain ⟨found, data'⟩ := left.of_value value
      obtain ⟨found', data''⟩ := right.of_value value'
      have isFilter : IsFilter reading.root (.operation op [a, b]) :=
        .relation none isRelation value value'
      have said : reading.holds (.operation op [a, b]) = op.relates a' b' := by
        rw [Term.operation, Term.of, Reading.holds_relation isRelation, Reading.relates, found, found']
      have decided := decided data' data''
      rw [← said] at decided
      cases holds : reading.holds (.operation op [a, b]) with
      | true =>
          rw [holds] at decided
          exact .goes (counterpart.add isFilter holds) decided
      | false =>
          rw [holds] at decided
          exact .dies (counterpart.opens.add isFilter) holds decided
  | decide scalar scalar' =>
      obtain ⟨found, data'⟩ := left.of_value (.inl scalar)
      obtain ⟨found', data''⟩ := right.of_value (.inl scalar')
      rw [scalar.valueOf] at found
      rw [scalar'.valueOf] at found'
      cases found
      cases found'
      have decided := decided data' data''
      cases holds : op.relates a b with
      | true =>
          rw [holds] at decided
          exact .of_reaches counterpart decided
      | false =>
          rw [holds] at decided
          exact .fails decided
  | raise => exact .raises

/-- A goal of unification. -/
theorem unify_follows {t u t' u' : Term} (left : Like R t t') (right : Like R u u') :
    Follows kb reading R n n' terms c (.unify t' u') (s.act kb (.unify t u)) := by
  have ends := counterpart.corresponds left
  have ends' := counterpart.corresponds right
  refine (act_unify_open noConstants counterpart.opens ends.settled ends'.settled).follows noConstants
    data self counterpart rfl rfl ends ends' (fun data data' => ?_) fun _ => ⟨t', u', rfl, rfl, rfl⟩
  exact unify_data noConstants counterpart.closed (fun _ _ => trivial) data data' rfl rfl

/-- A relation as a goal. -/
theorem relation_follows {op : Operator} (isRelation : op.isRelation = true) {t u t' u' : Term}
    (left : Like R t t') (right : Like R u u') (o : Option Nat) :
    Follows kb reading R n n' terms c (.query (.mk o (.operation op [t', u'])))
      (s.act kb (.query (.mk o (.operation op [t, u])))) := by
  have ends := counterpart.corresponds left
  have ends' := counterpart.corresponds right
  have isLocal : Goal.isLocal (.query (.mk o (.operation op [t', u']))) = true := by
    rcases isRelation_cases isRelation with rfl | rfl | rfl <;> rfl
  refine (act_relation noConstants counterpart.opens isRelation left.operand right.operand o).follows
    noConstants data self counterpart isRelation isLocal ends ends' (fun data data' => ?_) ?_
  · exact relates_data noConstants counterpart.closed isRelation data data' rfl rfl o
  · rintro rfl
    exact ⟨t', u', rfl, rfl, rfl⟩

/-- A lookup as a goal. -/
theorem lookup_follows {o o' : Option Nat} {field : String} {object object' value value' : Term}
    (defined : reading.Defines s
      (.query (.mk o (.operation .dot [object, .mk o' (.text field), value]))))
    (left : Like R object object') (right : Like R value value') :
    Follows kb reading R n n' terms c
      (.query (.mk o (.operation .dot [object', .mk o' (.text field), value'])))
      (s.act kb (.query (.mk o (.operation .dot [object, .mk o' (.text field), value])))) := by
  have ends := counterpart.corresponds left
  have ends' := counterpart.corresponds right
  rcases act_lookup noConstants counterpart.opens o o' field left.operand value with
    ⟨path, same⟩ | raises
  · have longer : IsPath reading.root
        (.operation .dot [s.bindings.walk object, .mk o' (.text field)]) := .field none o' field path
    obtain ⟨found, known⟩ := Option.isSome_iff_exists.mp (defined path)
    have dataFound := reading.valueOf_data data (.inr longer) known
    obtain ⟨p, fields, walked, member⟩ : ∃ p fields,
        c.bindings.walk object' = .mk p (.dictionary fields) ∧ fields.lookup field = some found := by
      obtain ⟨there, _⟩ := ends.of_value (.inr path)
      rw [Term.operation, Term.of, Reading.valueOf, there] at known
      split at known
      · rename_i p fields equal
        exact ⟨p, fields, Option.some.inj equal, known⟩
      · cases known
    have acts : c.act kb (.query (.mk o (.operation .dot [object', .mk o' (.text field), value']))) =
        c.act kb (.unify value' found) :=
      act_lookup_data noConstants counterpart.closed walked member
    have stays : s.bindings.walk (.operation .dot [s.bindings.walk object, .mk o' (.text field)]) =
        .operation .dot [s.bindings.walk object, .mk o' (.text field)] :=
      counterpart.opens.walk_path longer
    have step := act_unify_open noConstants counterpart.opens ends'.settled
      (stays.symm ▸ Settled.value (.inr longer))
    rw [stays] at step
    rw [same]
    refine step.follows noConstants data self counterpart rfl rfl ends' (.value (.inr longer) known dataFound)
      (fun data data' => ?_) fun _ => ⟨value', found, rfl, dataFound.walk _, acts⟩
    exact (unify_data noConstants counterpart.closed (fun _ _ => trivial) data data' rfl
      (dataFound.walk _)).of_same_act rfl rfl acts
  · rw [raises]
    exact .raises

end Follow

end PolicyLogic
