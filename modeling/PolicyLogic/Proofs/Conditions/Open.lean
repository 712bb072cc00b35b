import PolicyLogic.Proofs.Conditions.Form
import PolicyLogic.Proofs.Residual.Data
import PolicyLogic.Proofs.Residual.Rendering
import PolicyLogic.Proofs.Resolution.Unification

/-!
# Conditions on one open variable

While one variable is open every other one is free, a scalar or a path from the open variable
(`Store.Opens`), and no goal of a condition changes that. What such a goal does is listed in
`OpenStep`: it binds a free variable, records a filter, or decides a relation of scalars.

* `act_relation`, `act_lookup`: what the goals of conditions do;
* `IsStage.act`: so a goal of a condition keeps the open variable, and may add a filter about it.
-/

namespace PolicyLogic

/-- What a variable may stand for while another is open. -/
def IsValue (root : String) (t : Term) : Prop := IsScalar t ∨ IsPath root t

/-- The variable stands for nothing and is not the open one. -/
structure IsFree (root : String) (b : Bindings) (x : String) : Prop where
  other : x ≠ root
  unbound : b.value? x = none

/-- What a walk from an operand ends at. -/
inductive Settled (root : String) (b : Bindings) : Term → Prop
  | free (o : Option Nat) {x : String} : IsFree root b x → Settled root b (.mk o (.var x))
  | value {t : Term} : IsValue root t → Settled root b t

/-- One variable is open, these filters have been recorded about it, and every other variable is
free or stands for a scalar or a path. -/
structure Store.Opens (root : String) (s : Store) (terms : List Term) : Prop where
  records : s.residual.Records root terms
  walkable : s.bindings.Walkable
  unbound : s.bindings.value? root = none
  values : ∀ x u, s.bindings.value? x = some u → IsValue root u ∨ ∃ o y, u = .mk o (.var y)

section Settled

variable {root : String} {b : Bindings} {t : Term}

/-- A value is no variable but the open one. -/
theorem IsValue.eq_root (value : IsValue root t) {x : String} (named : t.symbol? = some x) :
    x = root := by
  rcases value with scalar | path
  · cases scalar <;> cases named
  · cases path with
    | root o => exact (Option.some.inj named).symm
    | field => cases named

/-- Where a term has settled, its variable has no value. -/
theorem Settled.unbound (settled : Settled root b t) (openUnbound : b.value? root = none) {x : String}
    (named : t.symbol? = some x) : b.value? x = none := by
  cases settled with
  | free o free =>
      cases named
      exact free.unbound
  | value value => rwa [value.eq_root named]

theorem Settled.isHandle (settled : Settled root b t) : t.isHandle = false := by
  cases settled with
  | free => rfl
  | value value =>
      rcases value with scalar | path
      · cases scalar <;> rfl
      · cases path <;> rfl

namespace Store.Opens

variable {s : Store} {terms : List Term} (opens : s.Opens root terms)
include opens

/-- A walk from a value or a variable settles. -/
theorem walk_settles (shape : IsValue root t ∨ ∃ o x, t = .mk o (.var x)) :
    Settled root s.bindings (s.bindings.walk t) := by
  refine opens.walkable.walk_induction
    (P := fun t last => (IsValue root t ∨ ∃ o x, t = .mk o (.var x)) → Settled root s.bindings last)
    (fun t ends shape => ?_) (fun t x u _ bound ih _ => ih (opens.values x u bound)) t shape
  rcases shape with value | ⟨o, x, rfl⟩
  · exact .value value
  · by_cases same : x = root
    · subst same
      exact .value (.inr (.root o))
    · exact .free o ⟨same, ends x rfl⟩

/-- A walk from an operand of a condition settles. -/
theorem walk_operand (operand : IsOperand t) : Settled root s.bindings (s.bindings.walk t) := by
  refine opens.walk_settles ?_
  cases operand with
  | scalar scalar => exact .inl (.inl scalar)
  | var o x => exact .inr ⟨o, x, rfl⟩

/-- A path stays. -/
theorem walk_path (path : IsPath root t) : s.bindings.walk t = t := by
  cases path with
  | root o => exact Bindings.walk_of_unbound rfl opens.unbound
  | field => exact Bindings.walk_of_not_symbol rfl

/-- A path from the open variable is symbolic. -/
theorem isSymbolic_path (path : IsPath root t) : s.residual.isSymbolic t = true := by
  rw [Residual.isSymbolic, opens.records.scopeOf?_path path]
  rfl

omit opens in
theorem isSymbolic_scalar (scalar : IsScalar t) : s.residual.isSymbolic t = false := by
  rw [Residual.isSymbolic, Residual.Records.scopeOf?_scalar scalar]
  rfl

theorem isScopeVar_free {x : String} (free : IsFree root s.bindings x) :
    s.residual.isScopeVar x = false := by
  rw [← Bool.not_eq_true, opens.records.isScopeVar]
  exact free.other

/-- A variable that is free is not symbolic. -/
theorem isSymbolic_free {x : String} (free : IsFree root s.bindings x) (o : Option Nat) :
    s.residual.isSymbolic (.mk o (.var x)) = false := opens.isScopeVar_free free

/-- Only free variables are bound. -/
theorem bindable?_free {kb : KnowledgeBase} {x : String} (free : IsFree root s.bindings x)
    (o : Option Nat) : (s.machine kb).bindable? (.mk o (.var x)) = some x := by
  have closed : (s.machine kb).residual.isScopeVar x = false := opens.isScopeVar_free free
  simp [Machine.bindable?, Term.symbol?, Term.value, closed]

/-- Values are given to variables only. -/
theorem bindable?_value {kb : KnowledgeBase} (value : IsValue root t) :
    (s.machine kb).bindable? t = none := by
  cases named : t.symbol? with
  | none => rw [Machine.bindable?, named]
  | some x =>
      obtain rfl := value.eq_root named
      have known : (s.machine kb).residual.isScopeVar x = true :=
        (opens.records.isScopeVar x).mpr rfl
      simp [Machine.bindable?, named, known]

theorem unknown?_free {kb : KnowledgeBase} {x : String} (free : IsFree root s.bindings x)
    (o : Option Nat) : (s.machine kb).unknown? (.mk o (.var x)) = some x := by
  have closed : (s.machine kb).residual.isScopeVar x = false := opens.isScopeVar_free free
  simp [Machine.unknown?, Term.varName?, Term.value, closed]

theorem unknown?_value {kb : KnowledgeBase} (value : IsValue root t) :
    (s.machine kb).unknown? t = none := by
  cases named : t.varName? with
  | none => rw [Machine.unknown?, named, Option.filter_none]
  | some x =>
      have symbol : t.symbol? = some x := by
        obtain ⟨o, v⟩ := t
        cases v <;> first | exact named | cases named
      obtain rfl := value.eq_root symbol
      have known : (s.machine kb).residual.isScopeVar x = true :=
        (opens.records.isScopeVar x).mpr rfl
      rw [Machine.unknown?, named]
      simp [known]

/-- One more filter. -/
theorem add {filter : Term} (isFilter : IsFilter root filter) :
    Store.Opens root ⟨s.bindings, s.residual.add (.constraint 0 filter)⟩ (terms ++ [filter]) :=
  { opens with records := opens.records.add isFilter }

/-- One more binding. -/
theorem bind {x : String} {w : Term} (free : IsFree root s.bindings x)
    (settled : Settled root s.bindings w) (other : w.symbol? ≠ some x) :
    Store.Opens root ⟨s.bindings.bind x w, s.residual⟩ terms where
  records := opens.records
  walkable := by
    refine (opens.walkable.bind free.unbound fun y named => ⟨settled.unbound opens.unbound named, ?_⟩).1
    rintro rfl
    exact other named
  unbound := by
    show (s.bindings.bind x w).value? root = none
    rw [Bindings.value?_bind, if_neg free.other, opens.unbound]
  values := fun y u bound => by
    have bound : (s.bindings.bind x w).value? y = some u := bound
    rw [Bindings.value?_bind] at bound
    split at bound
    · cases bound
      cases settled with
      | free o => exact .inr ⟨o, _, rfl⟩
      | value value => exact .inl value
    · exact opens.values y u bound

end Store.Opens

end Settled

/-! ## What the goals of conditions do -/

/-- What a relation of two settled operands does to a store. -/
inductive OpenStep (root : String) (s : Store) (op : Operator) : Term → Term → Action → Prop
  | same (o o' : Option Nat) (x : String) : op = .unify →
    OpenStep root s op (.mk o (.var x)) (.mk o' (.var x)) (.go s [])
  | bindLeft {o : Option Nat} {x : String} {b : Term} : op = .unify → IsFree root s.bindings x →
    Settled root s.bindings b → b.symbol? ≠ some x →
    OpenStep root s op (.mk o (.var x)) b (.go ⟨s.bindings.bind x b, s.residual⟩ [])
  | bindRight {o : Option Nat} {x : String} {a : Term} : op = .unify → IsFree root s.bindings x →
    IsValue root a → OpenStep root s op a (.mk o (.var x)) (.go ⟨s.bindings.bind x a, s.residual⟩ [])
  | record {a b : Term} : IsValue root a → IsValue root b → IsPath root a ∨ IsPath root b →
    OpenStep root s op a b
      (.go ⟨s.bindings, s.residual.add (.constraint 0 (.operation op [a, b]))⟩ [])
  | decide {a b : Term} : IsScalar a → IsScalar b →
    OpenStep root s op a b (if op.relates a b then .go s [] else .fail)
  | raise {a b : Term} : OpenStep root s op a b .raise

section Act

variable {kb : KnowledgeBase} (noConstants : kb.constants = []) {root : String} {s : Store}
  {terms : List Term} (opens : s.Opens root terms)

/-- Being the same variable is having one name. -/
theorem sameVariable_iff {a b : Term} : Machine.sameVariable a b = true ↔
    ∃ o o' x, a = .mk o (.var x) ∧ b = .mk o' (.var x) := by
  obtain ⟨o, v⟩ := a
  obtain ⟨o', w⟩ := b
  cases v <;> cases w <;> simp [Machine.sameVariable, Term.value]

/-- Scalars unify if they are equal. -/
theorem relates_scalars {a b : Term} (left : IsScalar a) (right : IsScalar b) :
    Action.of ((s.machine kb).unifyValues a b) =
      if Operator.unify.relates a b then .go s [] else .fail := by
  have tested : ∀ holds : Bool, Action.of (.proceed ((s.machine kb).require holds)) =
      if holds then .go s [] else .fail := by
    intro holds
    cases holds <;> rfl
  cases left <;> cases right <;> first | exact tested _ | rfl

theorem IsScalar.data {t : Term} (scalar : IsScalar t) : IsData t := by
  refine ⟨scalar.pure, fun x => ?_⟩
  cases scalar with
  | number => exact not_mentions_number
  | text => exact not_mentions_text
  | boolean => exact not_mentions_boolean

/-- Data can be compared for being equal or not, wherever that happens. -/
theorem compares_data {op : Operator} (relation : op = .eq ∨ op = .neq) {m : Machine} {a b : Term}
    (left : IsData a) (right : IsData b) : m.comparesTo? op a b = some (op.relates a b) := by
  have anywhere : m.comparesTo? op a b = (Store.empty.machine {}).comparesTo? op a b := by
    simp only [Machine.comparesTo?, left.deref, right.deref]
  have answered : ∃ holds, (Store.empty.machine {}).comparesTo? op a b = some holds := by
    unfold Machine.comparesTo?
    split
    · exact ⟨_, rfl⟩
    · split
      · exact ⟨_, rfl⟩
      · rcases relation with rfl | rfl <;> exact ⟨_, rfl⟩
  obtain ⟨holds, found⟩ := answered
  have test : op.relates a b = ((Store.empty.machine {}).comparesTo? op a b == some true) := by
    rcases relation with rfl | rfl <;> rfl
  rw [anywhere, test, found]
  cases holds <;> rfl

include noConstants opens

/-- What a goal of unification does. -/
theorem act_unify_open {t u : Term} (left : Settled root s.bindings (s.bindings.walk t))
    (right : Settled root s.bindings (s.bindings.walk u)) :
    OpenStep root s .unify (s.bindings.walk t) (s.bindings.walk u) (s.act kb (.unify t u)) := by
  have quiet : ∀ text : Unit → String, (s.machine kb).note .unify text = s.machine kb :=
    fun _ => rfl
  have same : ∀ v, (s.machine kb).residual.isSymbolic v = s.residual.isSymbolic v := fun _ => rfl
  simp only [Store.act, Machine.step, Machine.unify, walk_machine noConstants, quiet, same]
  generalize s.bindings.walk t = a at *
  generalize s.bindings.walk u = b at *
  by_cases alike : Machine.sameVariable a b = true
  · rw [if_pos alike]
    obtain ⟨o, o', x, rfl, rfl⟩ := sameVariable_iff.mp alike
    exact .same o o' x rfl
  · rw [if_neg alike]
    cases left with
    | @free o x free =>
        rw [opens.bindable?_free free]
        refine .bindLeft rfl free right fun named => alike (sameVariable_iff.mpr ?_)
        cases right with
        | free o' =>
            cases named
            exact ⟨o, o', x, rfl, rfl⟩
        | value value => exact absurd (value.eq_root named) free.other
    | value value =>
        rw [opens.bindable?_value value]
        cases right with
        | free o' free =>
            rw [opens.bindable?_free free]
            exact .bindRight rfl free value
        | value value' =>
            rw [opens.bindable?_value value']
            have recorded : ∀ symbolic : IsPath root a ∨ IsPath root b,
                OpenStep root s .unify a b
                  (.of ((s.machine kb).recording (s.residual.constrain .unify a b))) := by
              intro symbolic
              rw [opens.records.constrain rfl value value' symbolic]
              exact .record value value' symbolic
            have stored : (s.machine kb).residual = s.residual := rfl
            simp only [stored]
            rcases value with scalar | path
            · rcases value' with scalar' | path'
              · rw [Store.Opens.isSymbolic_scalar scalar, Store.Opens.isSymbolic_scalar scalar']
                simp only [Bool.or_self, Bool.false_eq_true, ↓reduceIte, relates_scalars scalar scalar']
                exact .decide scalar scalar'
              · rw [opens.isSymbolic_path path', Bool.or_true, if_pos rfl]
                exact recorded (.inr path')
            · rw [opens.isSymbolic_path path, Bool.true_or, if_pos rfl]
              exact recorded (.inl path)

/-- What a goal of comparison does. -/
theorem act_compare_open {op : Operator} (relation : op = .eq ∨ op = .neq) {t u : Term}
    (left : Settled root s.bindings (s.bindings.walk t))
    (right : Settled root s.bindings (s.bindings.walk u)) :
    OpenStep root s op (s.bindings.walk t) (s.bindings.walk u)
      (.of ((s.machine kb).compare op t u)) := by
  have same : ∀ v, (s.machine kb).residual.isSymbolic v = s.residual.isSymbolic v := fun _ => rfl
  have isRelation : op.isRelation = true := by rcases relation with rfl | rfl <;> rfl
  simp only [Machine.compare, walk_machine noConstants, same]
  generalize s.bindings.walk t = a at *
  generalize s.bindings.walk u = b at *
  simp only [left.isHandle, right.isHandle, Bool.or_self, Bool.false_eq_true, ↓reduceIte]
  -- A free variable cannot be compared with anything.
  have unbound : ∀ x, ((s.machine kb).unknown? a <|> (s.machine kb).unknown? b) = some x →
      OpenStep root s op a b (.of ((s.machine kb).compareSymbolic op a b)) := by
    intro x unknown
    rw [Machine.compareSymbolic, unknown]
    exact .raise
  cases left with
  | @free o x free =>
      split
      · refine unbound x ?_
        rw [opens.unknown?_free free]
        rfl
      · exact .raise
  | value value =>
      cases right with
      | @free o x free =>
          split
          · refine unbound x ?_
            rw [opens.unknown?_value value, opens.unknown?_free free]
            rfl
          · rename_i plain
            rcases value with scalar | path
            · cases scalar <;> exact .raise
            · simp [opens.isSymbolic_path path] at plain
      | value value' =>
          have recorded : ∀ symbolic : IsPath root a ∨ IsPath root b,
              OpenStep root s op a b (.of ((s.machine kb).compareSymbolic op a b)) := by
            intro symbolic
            have constrained := opens.records.constrain isRelation value value' symbolic
            have stored : (s.machine kb).residual = s.residual := rfl
            rw [Machine.compareSymbolic, opens.unknown?_value value, opens.unknown?_value value']
            simp only [stored, constrained]
            exact .record value value' symbolic
          rcases value with scalar | path
          · rcases value' with scalar' | path'
            · rw [Store.Opens.isSymbolic_scalar scalar, Store.Opens.isSymbolic_scalar scalar']
              simp only [Bool.or_self, Bool.false_eq_true, ↓reduceIte]
              have named : (a.varName? <|> b.varName?) = none := by
                cases scalar <;> cases scalar' <;> rfl
              rw [named, compares_data relation scalar.data scalar'.data]
              have decided : OpenStep root s op a b _ := .decide scalar scalar'
              cases holds : op.relates a b with
              | true =>
                  rw [holds] at decided
                  exact decided
              | false =>
                  rw [holds] at decided
                  exact decided
            · rw [opens.isSymbolic_path path', Bool.or_true, if_pos rfl]
              exact recorded (.inr path')
          · rw [opens.isSymbolic_path path, Bool.true_or, if_pos rfl]
            exact recorded (.inl path)

/-- What a relation as a goal does. -/
theorem act_relation {op : Operator} (isRelation : op.isRelation = true) {t u : Term}
    (left : IsOperand t) (right : IsOperand u) (o : Option Nat) :
    OpenStep root s op (s.bindings.walk t) (s.bindings.walk u)
      (s.act kb (.query (.mk o (.operation op [t, u])))) := by
  have settled := opens.walk_operand left
  have settled' := opens.walk_operand right
  rcases isRelation_cases isRelation with rfl | rfl | rfl
  · exact act_unify_open noConstants opens settled settled'
  · exact act_compare_open noConstants opens (.inl rfl) settled settled'
  · exact act_compare_open noConstants opens (.inr rfl) settled settled'

/-- A lookup on a path unifies its value with a longer path. Any other lookup is an error, or for the
host to answer. -/
theorem act_lookup (o o' : Option Nat) (field : String) {object : Term} (operand : IsOperand object)
    (value : Term) :
    (IsPath root (s.bindings.walk object) ∧
      s.act kb (.query (.mk o (.operation .dot [object, .mk o' (.text field), value]))) =
        s.act kb (.unify value (.operation .dot [s.bindings.walk object, .mk o' (.text field)]))) ∨
      s.act kb (.query (.mk o (.operation .dot [object, .mk o' (.text field), value]))) = .raise := by
  have settled := opens.walk_operand operand
  have looked : s.act kb (.query (.mk o (.operation .dot [object, .mk o' (.text field), value]))) =
      .of ((s.machine kb).lookup object (.mk o' (.text field)) value false) := rfl
  have same : ∀ v, (s.machine kb).residual.isSymbolic v = s.residual.isSymbolic v := fun _ => rfl
  have dot : ∀ v field, (s.machine kb).residual.dot (s.machine kb).kb v field =
      s.residual.dot kb v field := fun _ _ => rfl
  rw [looked]
  simp only [Machine.lookup, walk_machine noConstants, same, dot]
  have text : (s.machine kb).bindings.deref (.mk o' (.text field)) = .mk o' (.text field) :=
    Bindings.deref_text o' field
  rw [text]
  generalize s.bindings.walk object = a at *
  cases settled with
  | free o free =>
      rw [opens.isSymbolic_free free]
      exact .inr rfl
  | value value' =>
      rcases value' with scalar | path
      · rw [Store.Opens.isSymbolic_scalar scalar]
        cases scalar <;> exact .inr rfl
      · rw [opens.isSymbolic_path path, opens.records.dot kb path]
        exact .inl ⟨path, rfl⟩

end Act

/-- The store after a goal of a condition has the same open variable, and perhaps one more filter. -/
theorem OpenStep.opens {root : String} {s s' : Store} {op : Operator} {a b : Term} {new : List Goal}
    {terms : List Term} (step : OpenStep root s op a b (.go s' new)) (isRelation : op.isRelation = true)
    (opens : s.Opens root terms) : new = [] ∧ ∃ more, s'.Opens root (terms ++ more) := by
  generalize acts : Action.go s' new = action at step
  cases step with
  | same =>
      cases acts
      exact ⟨rfl, [], by rwa [List.append_nil]⟩
  | bindLeft _ free settled other =>
      cases acts
      exact ⟨rfl, [], by rw [List.append_nil]; exact opens.bind free settled other⟩
  | @bindRight o x a _ free value =>
      cases acts
      have other : a.symbol? ≠ some x := fun named => free.other (value.eq_root named)
      exact ⟨rfl, [], by rw [List.append_nil]; exact opens.bind free (.value value) other⟩
  | record value value' _ =>
      cases acts
      exact ⟨rfl, _, opens.add (.relation none isRelation value value')⟩
  | decide =>
      split at acts <;> cases acts
      exact ⟨rfl, [], by rwa [List.append_nil]⟩
  | raise => cases acts

/-! ## Goals of conditions -/

/-- The goals that a search through conditions comes to, with calls of some of the rules. -/
inductive IsStage (kb : KnowledgeBase) (callable : String → Nat → Prop) : Goal → Prop
  | query {t : Term} : IsCondition callable t → IsStage kb callable (.query t)
  | unify {t u : Term} : IsOperand t → IsOperand u → IsStage kb callable (.unify t u)
  | apply {r : Rule} {args : List Term} : r ∈ kb.rules → callable r.name r.arity →
    (∀ t ∈ args, IsOperand t) → IsStage kb callable (.apply r args)
  | popScope : IsStage kb callable .popScope

/-- All goals are those of a search through conditions. -/
def AllStages (kb : KnowledgeBase) (callable : String → Nat → Prop) (goals : List Goal) : Prop :=
  ∀ goal ∈ goals, IsStage kb callable goal

/-- So are all goals of a task. -/
def Task.IsStaged (kb : KnowledgeBase) (callable : String → Nat → Prop) : Task → Prop
  | .solve goals => AllStages kb callable goals
  | .either alternatives rest =>
    (∀ alternative ∈ alternatives, AllStages kb callable alternative) ∧ AllStages kb callable rest

section Stages

variable {kb : KnowledgeBase} {callable : String → Nat → Prop} {root : String} {s s' : Store}
  {terms : List Term} {goal : Goal} {goals new : List Goal}

theorem AllStages.append (first : AllStages kb callable goals) (second : AllStages kb callable new) :
    AllStages kb callable (goals ++ new) :=
  List.forall_mem_append.mpr ⟨first, second⟩

/-- Conditions are stages of a search when they are queried. -/
theorem AllStages.queries {ts : List Term} (conditions : ∀ t ∈ ts, IsCondition callable t) :
    AllStages kb callable (ts.map .query) := by
  intro goal member
  obtain ⟨t, inside, rfl⟩ := List.mem_map.mp member
  exact .query (conditions t inside)

theorem not_isLocal_disj (o : Option Nat) (ts : List Term) :
    (Goal.query (.mk o (.operation .disj ts))).isLocal = false := by
  match ts with
  | [] => rfl
  | [_] => rfl
  | [_, _] => rfl
  | _ :: _ :: _ :: _ => rfl

/-- The goals that a goal leaves to run: the parts of a conjunction, and nothing otherwise. -/
inductive Goal.Leaves : Goal → List Goal → Prop
  | conj (o : Option Nat) (ts : List Term) :
    Leaves (.query (.mk o (.operation .conj ts))) (ts.map .query)
  | nothing (goal : Goal) : Leaves goal []

/-- What a stage leaves are stages. -/
theorem IsStage.leaves (stage : IsStage kb callable goal) (leaves : goal.Leaves new) :
    AllStages kb callable new := by
  cases leaves with
  | conj o ts =>
      cases stage with
      | query condition =>
          cases condition with
          | conj _ parts => exact .queries parts
          | relation _ isRelation => cases isRelation
  | nothing => exact fun goal member => absurd member List.not_mem_nil

/-- A goal that only touches the store keeps the open variable. -/
theorem IsStage.act (noConstants : kb.constants = []) (opens : s.Opens root terms)
    (stage : IsStage kb callable goal) (isLocal : goal.isLocal = true)
    (acts : s.act kb goal = .go s' new) :
    (∃ more, s'.Opens root (terms ++ more)) ∧ goal.Leaves new := by
  have related : ∀ {op : Operator} {a b : Term} {action : Action}, OpenStep root s op a b action →
      op.isRelation = true → action = .go s' new →
      (∃ more, s'.Opens root (terms ++ more)) ∧ goal.Leaves new := by
    rintro op a b _ step isRelation rfl
    obtain ⟨rfl, more⟩ := step.opens isRelation opens
    exact ⟨more, .nothing goal⟩
  cases stage with
  | query condition =>
      cases condition with
      | @conj o ts parts =>
          have pushed : s.act kb (.query (.mk o (.operation .conj ts))) =
              .go s (ts.map .query ++ []) := rfl
          rw [pushed, List.append_nil] at acts
          cases acts
          exact ⟨⟨[], by rwa [List.append_nil]⟩, .conj o ts⟩
      | disj o parts => exact absurd isLocal (by simp [not_isLocal_disj])
      | neg => cases isLocal
      | relation o isRelation left right =>
          exact related (act_relation noConstants opens isRelation left right o) isRelation acts
      | lookup o o' field object value =>
          rcases act_lookup noConstants opens o o' field object _ with ⟨path, same⟩ | raises
          · rw [same] at acts
            have longer : IsPath root (.operation .dot [_, .mk o' (.text field)]) :=
              .field none o' field path
            have settled := opens.walk_operand value
            have settled' := opens.walk_settles (.inl (.inr longer))
            exact related (act_unify_open noConstants opens settled settled') rfl acts
          · rw [raises] at acts
            cases acts
      | call => cases isLocal
  | unify left right =>
      exact related (act_unify_open noConstants opens (opens.walk_operand left)
        (opens.walk_operand right)) rfl acts
  | apply => cases isLocal
  | popScope =>
      cases acts
      exact ⟨⟨[], by rwa [List.append_nil]⟩, .nothing _⟩

end Stages

end PolicyLogic
