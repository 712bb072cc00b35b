import PolicyLogic.Proofs.Binding.Acyclic
import PolicyLogic.Proofs.Resolution.Tests
import PolicyLogic.Proofs.Resolution.Unification
import PolicyLogic.Proofs.Term.Valuation

/-!
# Equations and their solutions

A goal of unification is an equation, and the valuations that solve it make its two terms equal. An
equation of two values amounts to the equations that unification leaves to run (`exists_reduces`):
those of the elements of two lists and of what one list has left over (`reduces_lists`), those of the
values of two dictionaries (`reduces_dictionaries`), or none. So what a goal does to a store is told
by the valuations that solve it (`act_advances`, `Advances.go`, `Advances.fail`).
-/

namespace PolicyLogic

open Bindings

/-- What a goal of unification is about: two tidy terms, or a rest variable and a tidy list. -/
def Goal.Tidy (R : String → Prop) : Goal → Prop
  | .unify t u => u.Tidy R ∧ (t.Tidy R ∨ ∃ x us, t = .rest x ∧ R x ∧ u.elements? = some us)
  | _ => False

/-- There are no constraints, walks come to an end, and the values are tidy, those of rest variables
lists. -/
structure Store.Tidy (R : String → Prop) (s : Store) : Prop where
  closed : s.residual = {}
  walkable : s.bindings.Walkable
  values : ∀ x u, s.bindings.value? x = some u → u.Tidy R
  rests : ∀ x u, s.bindings.value? x = some u → R x → ∃ ts, u.elements? = some ts

section Lists

variable {R : String → Prop} {θ : Valuation} {o o' : Option Nat} {ts us : List Term}

/-- Two lists begin with as many elements, and one of them has no more. -/
theorem exists_shared (ts us : List Term) : ∃ ps qs ts' us', ts = ps ++ ts' ∧ us = qs ++ us' ∧
    ps.length = qs.length ∧ (ts' = [] ∨ us' = []) ∧ unifyAll ts us = unifyAll ps qs ∧
    ts.drop (min ts.length us.length) = ts' ∧ us.drop (min ts.length us.length) = us' := by
  let shared := min ts.length us.length
  refine ⟨ts.take shared, us.take shared, ts.drop shared, us.drop shared,
    (List.take_append_drop _ _).symm, (List.take_append_drop _ _).symm, ?_, ?_, ?_, rfl, rfl⟩
  · simp only [List.length_take, shared]
    omega
  · simp only [List.drop_eq_nil_iff, shared]
    omega
  · rw [unifyAll, unifyAll, ← List.zipWith_eq_zipWith_take_min]

/-- The goal that is left of the unification of two lists when their elements are unified as far as
both go. -/
def restGoals? (ts us : List Term) : Option String → Option String → Option (List Goal)
  | none, none => if ts.isEmpty && us.isEmpty then some [] else none
  | some x, none => if ts.isEmpty then some [.unify (.rest x) (.list us)] else none
  | none, some y => if us.isEmpty then some [.unify (.rest y) (.list ts)] else none
  | some x, some y =>
    if ts.isEmpty then some [.unify (.rest x) (.list (us ++ [.rest y]))]
    else some [.unify (.rest y) (.list (ts ++ [.rest x]))]

theorem unifyElements?_eq {init init' : List Term} {r r' : Option String}
    (split : splitRest ts = (init, r)) (split' : splitRest us = (init', r')) :
    unifyElements? ts us = (restGoals? (init.drop (min init.length init'.length))
      (init'.drop (min init.length init'.length)) r r').map (unifyAll init init' ++ ·) := by
  rw [unifyElements?, split, split']
  cases r <;> cases r' <;> simp only [restGoals?] <;> split <;>
    simp only [Option.map_some, Option.map_none, List.append_nil]

/-- A rest variable and a list are equal if the variable gives the elements of the list. -/
theorem solves_rest (splices : θ.Splices R) {x : String} (rest : R x) {u : Term}
    (list : θ.value u = .mk o (.list us)) :
    θ.Solves [.unify (.rest x) u] ↔ sameAll us (θ.rest (some x)) = true := by
  obtain ⟨o', whole⟩ := Valuation.value_rest splices rest
  rw [Valuation.solves_unify, whole, list, Term.same, sameAll_comm]

/-- The last goal says that what is left of the two lists stands for the same elements. -/
theorem solves_restGoals? (splices : θ.Splices R) {r r' : Option String} (ends : ts = [] ∨ us = [])
    (each : ∀ t ∈ ts, t.Tidy R) (each' : ∀ u ∈ us, u.Tidy R) (rest : ∀ x ∈ r, R x)
    (rest' : ∀ x ∈ r', R x) :
    sameAll (ts.map θ.value ++ θ.rest r) (us.map θ.value ++ θ.rest r') = true ↔
      ∃ goals ∈ restGoals? ts us r r', θ.Solves goals := by
  have one : ∀ goals : List Goal, θ.Solves goals ↔ ∃ goals' ∈ some goals, θ.Solves goals' :=
    fun goals => by simp
  cases r with
  | none =>
      rw [Valuation.rest_none, List.append_nil]
      cases r' with
      | none =>
          rw [Valuation.rest_none, List.append_nil]
          rcases ends with rfl | rfl
          · cases us <;> simp [restGoals?, Valuation.solves_nil, sameAll]
          · cases ts <;> simp [restGoals?, Valuation.solves_nil, sameAll]
      | some y =>
          cases us with
          | nil =>
              have list := Valuation.value_list_plain θ none each
              exact (solves_rest splices (rest' y rfl) list).symm.trans (one _)
          | cons u us =>
              obtain rfl : ts = [] := ends.resolve_right (List.cons_ne_nil u us)
              simp [restGoals?, sameAll]
  | some x =>
      cases ts with
      | nil =>
          rw [List.map_nil, List.nil_append, sameAll_comm]
          cases r' with
          | none =>
              have list := Valuation.value_list_plain θ none each'
              rw [Valuation.rest_none, List.append_nil]
              exact (solves_rest splices (rest x rfl) list).symm.trans (one _)
          | some y =>
              have list := Valuation.value_list_rest splices none none each' (rest' y rfl)
              exact (solves_rest splices (rest x rfl) list).symm.trans (one _)
      | cons t ts =>
          obtain rfl : us = [] := ends.resolve_left (List.cons_ne_nil t ts)
          cases r' with
          | none => simp [restGoals?, Valuation.rest_none, sameAll]
          | some y =>
              have list := Valuation.value_list_rest splices none none each (rest x rfl)
              exact (solves_rest splices (rest' y rfl) list).symm.trans (one _)

theorem tidy_restGoals? {r r' : Option String} (each : ∀ t ∈ ts, t.Tidy R)
    (each' : ∀ u ∈ us, u.Tidy R) (rest : ∀ x ∈ r, R x) (rest' : ∀ x ∈ r', R x) :
    ∀ goals ∈ restGoals? ts us r r', ∀ goal ∈ goals, goal.Tidy R := by
  have goal : ∀ {x : String} {vs : List Term}, R x → (Term.list vs).Tidy R →
      Goal.Tidy R (.unify (.rest x) (.list vs)) := fun rest tidy => ⟨tidy, .inr ⟨_, _, rfl, rest, rfl⟩⟩
  have single : ∀ {goal : Goal}, goal.Tidy R → ∀ goals ∈ some [goal], ∀ goal ∈ goals, goal.Tidy R :=
    fun tidy goals same goal' member => by
      obtain rfl := Option.mem_some_iff.mp same
      exact List.mem_singleton.mp member ▸ tidy
  cases r <;> cases r' <;> rw [restGoals?] <;> split
  case none.none.isTrue => exact fun goals same => by cases same; nofun
  case none.some.isTrue y _ => exact single (goal (rest' y rfl) (.list none each))
  case some.none.isTrue x _ => exact single (goal (rest x rfl) (.list none each'))
  case some.some.isTrue x y _ =>
    exact single (goal (rest x rfl) (.listRest none none each' (rest' y rfl)))
  case some.some.isFalse x y _ =>
    exact single (goal (rest' y rfl) (.listRest none none each (rest x rfl)))
  all_goals exact nofun

end Lists

/-! ## What an equation amounts to -/

/-- The equation of two terms amounts to these goals, or has no solution. -/
def Reduces (R : String → Prop) (t u : Term) (goals? : Option (List Goal)) : Prop :=
  (∀ goals ∈ goals?, ∀ goal ∈ goals, goal.Tidy R) ∧ ∀ θ : Valuation, θ.Splices R →
    ((θ.value t).same (θ.value u) = true ↔ ∃ goals ∈ goals?, θ.Solves goals)

section Reduces

variable {R : String → Prop} {t u : Term} {o o' : Option Nat}

theorem reduces_test {holds : Bool} (same : ∀ θ : Valuation, (θ.value t).same (θ.value u) = holds) :
    Reduces R t u (if holds then some [] else none) := by
  refine ⟨fun goals here goal member => ?_, fun θ _ => ?_⟩
  · split at here <;> cases here
    cases member
  · rw [same]
    cases holds <;> simp [Valuation.solves_nil]

theorem mem_unifyAll {ts us : List Term} {goal : Goal} (member : goal ∈ unifyAll ts us) :
    ∃ t ∈ ts, ∃ u ∈ us, goal = .unify t u := by
  rw [unifyAll, ← List.map_uncurry_zip_eq_zipWith] at member
  obtain ⟨⟨t, u⟩, inside, rfl⟩ := List.mem_map.mp member
  exact ⟨t, (List.of_mem_zip inside).1, u, (List.of_mem_zip inside).2, rfl⟩

theorem tidy_unifyAll {ts us : List Term} (each : ∀ t ∈ ts, t.Tidy R) (each' : ∀ u ∈ us, u.Tidy R) :
    ∀ goal ∈ unifyAll ts us, goal.Tidy R := by
  intro goal member
  obtain ⟨t, left, u, right, rfl⟩ := mem_unifyAll member
  exact ⟨each' u right, .inl (each t left)⟩

/-- Two lists. -/
theorem reduces_lists {ts us : List Term} (tidy : (Term.mk o (.list ts)).Tidy R)
    (tidy' : (Term.mk o' (.list us)).Tidy R) :
    Reduces R (.mk o (.list ts)) (.mk o' (.list us)) (unifyElements? ts us) := by
  obtain ⟨each, rest⟩ := tidy.splitRest
  obtain ⟨each', rest'⟩ := tidy'.splitRest
  have value := fun θ (splices : Valuation.Splices θ R) => Valuation.value_list splices tidy
  have value' := fun θ (splices : Valuation.Splices θ R) => Valuation.value_list splices tidy'
  rcases split : splitRest ts with ⟨init, r⟩
  rcases split' : splitRest us with ⟨init', r'⟩
  rw [split] at each rest value
  rw [split'] at each' rest' value'
  rw [unifyElements?_eq split split']
  obtain ⟨ps, qs, vs, ws, rfl, rfl, length, ends, goals, drop, drop'⟩ := exists_shared init init'
  rw [drop, drop', goals]
  obtain ⟨front, back⟩ := List.forall_mem_append.mp each
  obtain ⟨front', back'⟩ := List.forall_mem_append.mp each'
  refine ⟨fun goals here => ?_, fun θ splices => ?_⟩
  · obtain ⟨last, inside, rfl⟩ := Option.mem_map.mp here
    rw [List.forall_mem_append]
    exact ⟨tidy_unifyAll front front', tidy_restGoals? back back' rest rest' last inside⟩
  · have lengths : (ps.map θ.value).length = (qs.map θ.value).length := by simpa using length
    rw [value θ splices, value' θ splices, Term.same, List.map_append, List.map_append,
      List.append_assoc, List.append_assoc, sameAll_append lengths, Bool.and_eq_true_iff,
      ← Valuation.solves_unifyAll length, solves_restGoals? splices ends back back' rest rest']
    simp only [Option.mem_map, exists_exists_and_eq_and, Valuation.solves_append]
    constructor
    · rintro ⟨solves, last, inside, more⟩
      exact ⟨last, inside, solves, more⟩
    · rintro ⟨last, inside, solves, more⟩
      exact ⟨solves, last, inside, more⟩

/-- Two dictionaries. -/
theorem reduces_dictionaries {fields fields' : List (String × Term)}
    (tidy : (Term.mk o (.dictionary fields)).Tidy R)
    (tidy' : (Term.mk o' (.dictionary fields')).Tidy R) :
    Reduces R (.mk o (.dictionary fields)) (.mk o' (.dictionary fields'))
      (if Fields.sameNames fields fields' then some (unifyFields fields fields') else none) := by
  cases tidy with
  | dictionary _ order each =>
    cases tidy' with
    | dictionary _ order' each' =>
      have tidies : ∀ {fields : List (String × Term)}, (∀ field ∈ fields, field.2.Tidy R) →
          ∀ t ∈ fields.map (·.2), t.Tidy R := fun each t member => by
        obtain ⟨field, inside, rfl⟩ := List.mem_map.mp member
        exact each field inside
      have equal : ∀ θ : Valuation, (θ.value (.mk o (.dictionary fields))).same
          (θ.value (.mk o' (.dictionary fields'))) = (decide (fields.map (·.1) = fields'.map (·.1)) &&
            sameAll ((fields.map (·.2)).map θ.value) ((fields'.map (·.2)).map θ.value)) := fun θ => by
        rw [Valuation.value_dictionary, Valuation.value_dictionary, Term.same, sameFields_map]
      by_cases same : Fields.sameNames fields fields' = true
      · have agree := (sameNames_iff order order').mp same
        have length : (fields.map (·.2)).length = (fields'.map (·.2)).length := by
          simpa using congrArg List.length agree
        rw [if_pos same, unifyFields_eq order order' agree]
        refine ⟨fun goals here => ?_, fun θ _ => ?_⟩
        · cases here
          exact tidy_unifyAll (tidies each) (tidies each')
        · rw [equal, decide_eq_true agree, Bool.true_and, ← Valuation.solves_unifyAll length]
          simp
      · have differ := fun agree => same ((sameNames_iff order order').mpr agree)
        rw [if_neg same]
        refine ⟨fun goals here => (by cases here), fun θ _ => ?_⟩
        rw [equal, decide_eq_false differ, Bool.false_and]
        simp

/-- What the goals do that are left of an equation, if there are any. -/
def Store.after (s : Store) : Option (List Goal) → Action
  | some goals => .go s goals
  | none => .fail

theorem after_require (kb : KnowledgeBase) (s : Store) (holds : Bool) :
    Action.of (.proceed ((s.machine kb).require holds)) = s.after (if holds then some [] else none) := by
  cases holds <;> rfl

theorem after_pushOrFail (kb : KnowledgeBase) (s : Store) (goals? : Option (List Goal)) :
    Action.of (.proceed ((s.machine kb).pushOrFail goals?)) = s.after goals? := by
  cases goals? with
  | none => rfl
  | some goals => exact congrArg (Action.go s) (List.append_nil goals)

/-- How the equation of two values is taken apart: the values are compared, or lists are unified element
by element, or dictionaries are unified field by field. -/
inductive TakesApart : Term → Term → Option (List Goal) → Prop
  | test {t u : Term} {holds : Bool} : (∀ θ : Valuation, (θ.value t).same (θ.value u) = holds) →
    TakesApart t u (if holds then some [] else none)
  | lists {o o' : Option Nat} {ts us : List Term} :
    TakesApart (.mk o (.list ts)) (.mk o' (.list us)) (unifyElements? ts us)
  | dictionaries {o o' : Option Nat} {fields fields' : List (String × Term)} :
    TakesApart (.mk o (.dictionary fields)) (.mk o' (.dictionary fields'))
      (if Fields.sameNames fields fields' then some (unifyFields fields fields') else none)

/-- Two values are unified by the goals of which their equation consists. -/
theorem exists_takesApart (kb : KnowledgeBase) (s : Store) (tidy : t.Tidy R) (tidy' : u.Tidy R)
    (plain : t.symbol? = none) (plain' : u.symbol? = none) :
    ∃ goals?, .of ((s.machine kb).unifyValues t u) = s.after goals? ∧ TakesApart t u goals? := by
  have tested : ∀ {t u : Term} {holds : Bool},
      Outcome.proceed ((s.machine kb).require holds) = (s.machine kb).unifyValues t u →
      (∀ θ : Valuation, (θ.value t).same (θ.value u) = holds) →
      ∃ goals?, .of ((s.machine kb).unifyValues t u) = s.after goals? ∧ TakesApart t u goals? :=
    fun {_ _ holds} acts same => ⟨_, acts ▸ after_require kb s holds, .test same⟩
  have clash : ∀ {t u : Term}, Outcome.proceed (s.machine kb).backtrack = (s.machine kb).unifyValues t u →
      (∀ θ : Valuation, (θ.value t).same (θ.value u) = false) →
      ∃ goals?, .of ((s.machine kb).unifyValues t u) = s.after goals? ∧ TakesApart t u goals? :=
    fun acts same => @tested _ _ false acts same
  cases lists : t.elements? with
  | some ts =>
      obtain ⟨o, rfl⟩ := exists_list_of_elements? lists
      cases lists' : u.elements? with
      | some us =>
          obtain ⟨o', rfl⟩ := exists_list_of_elements? lists'
          exact ⟨_, after_pushOrFail kb s _, .lists⟩
      | none =>
          cases tidy' with
          | var => cases plain'
          | list => cases lists'
          | listRest => cases lists'
          | _ => exact clash rfl fun _ => rfl
  | none =>
      cases tidy with
      | var => cases plain
      | list => cases lists
      | listRest => cases lists
      | number o number =>
          cases tidy' with
          | var => cases plain'
          | number o' number' => exact tested rfl fun _ => rfl
          | _ => exact clash rfl fun _ => rfl
      | text o x =>
          cases tidy' with
          | var => cases plain'
          | text o' y => exact tested rfl fun _ => rfl
          | _ => exact clash rfl fun _ => rfl
      | boolean o x =>
          cases tidy' with
          | var => cases plain'
          | boolean o' y => exact tested rfl fun _ => rfl
          | _ => exact clash rfl fun _ => rfl
      | @dictionary o fields order each =>
          cases tidy' with
          | var => cases plain'
          | @dictionary o' fields' order' each' =>
              refine ⟨_, ?_, .dictionaries⟩
              rw [← after_pushOrFail kb]
              have acts : (s.machine kb).unifyValues (.mk o (.dictionary fields))
                  (.mk o' (.dictionary fields')) = .proceed (if Fields.sameNames fields fields' then
                    (s.machine kb).push (unifyFields fields fields') else (s.machine kb).backtrack) := rfl
              rw [acts]
              split <;> rfl
          | _ => exact clash rfl fun _ => rfl

theorem TakesApart.reduces {goals? : Option (List Goal)} (apart : TakesApart t u goals?) (tidy : t.Tidy R)
    (tidy' : u.Tidy R) : Reduces R t u goals? := by
  cases apart with
  | test same => exact reduces_test same
  | lists => exact reduces_lists tidy tidy'
  | dictionaries => exact reduces_dictionaries tidy tidy'

/-- Two values are unified as their equation says. -/
theorem exists_reduces (kb : KnowledgeBase) (s : Store) (tidy : t.Tidy R) (tidy' : u.Tidy R)
    (plain : t.symbol? = none) (plain' : u.symbol? = none) :
    ∃ goals?, .of ((s.machine kb).unifyValues t u) = s.after goals? ∧ Reduces R t u goals? := by
  obtain ⟨goals?, acts, apart⟩ := exists_takesApart kb s tidy tidy' plain plain'
  exact ⟨goals?, acts, apart.reduces tidy tidy'⟩

end Reduces

/-! ## The log -/

/-- The second log is the first one with bindings of variables that had no value, at most one for
each. -/
def Bindings.Widens (b b' : Bindings) : Prop :=
  ∃ added, b'.log.toList = b.log.toList ++ added ∧ (added.map (·.1)).Nodup ∧
    ∀ x ∈ added.map (·.1), b.value? x = none

section Log

variable {b b' : Bindings} {x : String} {w : Term} {θ : Valuation}

theorem Bindings.Widens.refl (b : Bindings) : b.Widens b :=
  ⟨[], (List.append_nil _).symm, .nil, nofun⟩

theorem Bindings.Widens.bind (widens : (b.bind x w).Widens b') (unbound : b.value? x = none) :
    b.Widens b' := by
  obtain ⟨added, log, once, free⟩ := widens
  have other : ∀ y ∈ added.map (·.1), x ≠ y ∧ b.value? y = none := fun y member => by
    have none := free y member
    rw [value?_bind] at none
    split at none
    · cases none
    · exact ⟨‹_›, none⟩
  refine ⟨(x, w) :: added, ?_, ?_, ?_⟩
  · rw [log, bind_log, List.append_assoc]
    rfl
  · exact List.nodup_cons.mpr ⟨fun member => (other x member).1 rfl, once⟩
  · exact List.forall_mem_cons.mpr ⟨unbound, fun y member => (other y member).2⟩

theorem satisfies_bind (unbound : b.value? x = none) :
    θ.Satisfies (b.bind x w) ↔ θ.Satisfies b ∧ (θ x).same (θ.value w) = true := by
  simp only [Valuation.Satisfies, value?_bind]
  constructor
  · refine fun satisfies => ⟨fun y u bound => satisfies y u ?_, satisfies x w (if_pos rfl)⟩
    rw [if_neg, bound]
    rintro rfl
    rw [unbound] at bound
    cases bound
  · rintro ⟨satisfies, equal⟩ y u bound
    split at bound
    · cases bound
      exact ‹x = y› ▸ equal
    · exact satisfies y u bound

end Log

/-! ## What a goal does -/

/-- What a goal of unification does to a store, told by the valuations that make its terms equal. -/
inductive Advances (R : String → Prop) (s : Store) (t u : Term) : Action → Prop
  /-- The two terms are the same variable. -/
  | alike {x : String} : (∀ θ : Valuation, θ.Satisfies s.bindings →
      (θ.value t).same (θ.value u) = (θ x).same (θ x)) → Advances R s t u (.go s [])
  | bind {x : String} {w : Term} :
    s.bindings.value? x = none → Store.Tidy R ⟨s.bindings.bind x w, s.residual⟩ →
    (∀ θ : Valuation, θ.Satisfies s.bindings →
      (θ.value t).same (θ.value u) = (θ x).same (θ.value w)) →
    Advances R s t u (.go ⟨s.bindings.bind x w, s.residual⟩ [])
  | reduce {goals? : Option (List Goal)} {action : Action} :
    action = s.after goals? → (∀ goals ∈ goals?, ∀ goal ∈ goals, goal.Tidy R) →
    (∀ θ : Valuation, θ.Splices R → θ.Satisfies s.bindings →
      ((θ.value t).same (θ.value u) = true ↔ ∃ goals ∈ goals?, θ.Solves goals)) →
    Advances R s t u action

section Act

variable {kb : KnowledgeBase} {R : String → Prop} {s : Store} {t u : Term} {θ : Valuation}

/-- A term stands for what the end of the walk from it stands for. -/
theorem Valuation.Satisfies.walk {b : Bindings} (satisfies : θ.Satisfies b) (walkable : b.Walkable)
    (t v : Term) : (θ.value t).same v = (θ.value (b.walk t)).same v :=
  walkable.walk_induction (P := fun t w => (θ.value t).same v = (θ.value w).same v)
    (fun _ _ => rfl) (fun t x u named bound ih => by
      rw [Valuation.value_symbol named, Term.same_congr (satisfies x u bound) v, ih]) t

theorem Store.Tidy.walk (tidy : s.Tidy R) {t : Term} (term : t.Tidy R) :
    (s.bindings.walk t).Tidy R := by
  revert term
  exact tidy.walkable.walk_induction (P := fun t w => t.Tidy R → w.Tidy R)
    (fun _ _ term => term) (fun t x u _ bound ih _ => ih (tidy.values x u bound)) t

/-- A walk from a rest variable ends at a list or at the variable itself. -/
theorem Store.Tidy.walk_rest (tidy : s.Tidy R) (x : String) :
    (s.bindings.walk (.rest x)).Tidy R ∨
      s.bindings.walk (.rest x) = .rest x := by
  have named : (Term.rest x).symbol? = some x := rfl
  cases bound : s.bindings.value? x with
  | none => exact .inr (walk_of_unbound named bound)
  | some u =>
      rw [tidy.walkable.walk_of_bound named bound]
      exact .inl (tidy.walk (tidy.values x u bound))

/-- Binding a variable to the end of a walk keeps the store tidy. -/
theorem Store.Tidy.bind (tidy : s.Tidy R) {x : String} {w : Term}
    (unbound : s.bindings.value? x = none) (term : w.Tidy R)
    (settled : ∀ y, w.symbol? = some y → s.bindings.value? y = none ∧ x ≠ y)
    (rest : R x → ∃ us, w.elements? = some us) :
    Store.Tidy R ⟨s.bindings.bind x w, s.residual⟩ := by
  have value : ∀ {y u}, (s.bindings.bind x w).value? y = some u →
      x = y ∧ u = w ∨ s.bindings.value? y = some u := fun bound => by
    rw [value?_bind] at bound
    split at bound
    · exact .inl ⟨‹_›, (Option.some.inj bound).symm⟩
    · exact .inr bound
  refine ⟨tidy.closed, (tidy.walkable.bind unbound settled).1, fun y u bound => ?_,
    fun y u bound => ?_⟩
  · rcases value bound with ⟨-, rfl⟩ | bound
    · exact term
    · exact tidy.values y u bound
  · rcases value bound with ⟨rfl, rfl⟩ | bound
    · exact rest
    · exact tidy.rests y u bound

theorem Advances.congr {w v : Term} {action : Action} (advances : Advances R s w v action)
    (equal : ∀ θ : Valuation, θ.Satisfies s.bindings →
      (θ.value t).same (θ.value u) = (θ.value w).same (θ.value v)) : Advances R s t u action := by
  cases advances with
  | alike same => exact .alike fun θ satisfies => (equal θ satisfies).trans (same θ satisfies)
  | bind unbound tidy same =>
      exact .bind unbound tidy fun θ satisfies => (equal θ satisfies).trans (same θ satisfies)
  | reduce does tidy solves =>
      exact .reduce does tidy fun θ splices satisfies => equal θ satisfies ▸ solves θ splices satisfies

/-- The unification of two terms at which walks end. -/
theorem advances_walked {w v : Term} (tidy : s.Tidy R) (right : v.Tidy R)
    (left : w.Tidy R ∨ ∃ x us, w = .rest x ∧ R x ∧ v.elements? = some us)
    (unbound : ∀ x, w.symbol? = some x → s.bindings.value? x = none)
    (unbound' : ∀ x, v.symbol? = some x → s.bindings.value? x = none) :
    Advances R s w v
      (if Machine.sameVariable w v then .go s []
      else
        match w.symbol?, v.symbol? with
        | some name, _ => .go ⟨s.bindings.bind name v, s.residual⟩ []
        | none, some name => .go ⟨s.bindings.bind name w, s.residual⟩ []
        | none, none => .of ((s.machine kb).unifyValues w v)) := by
  cases named : w.symbol? with
  | some x =>
      have binds : (∀ y, v.symbol? = some y → x ≠ y) → (R x → ∃ us, v.elements? = some us) →
          Advances R s w v (.go ⟨s.bindings.bind x v, s.residual⟩ []) := fun other rest =>
        .bind (unbound x named)
          (tidy.bind (unbound x named) right (fun y named' => ⟨unbound' y named', other y named'⟩) rest)
          fun θ _ => by rw [Valuation.value_symbol named]
      rcases left with term | ⟨x', us, rfl, rest, list⟩
      · obtain ⟨plain, o, rfl⟩ := term.eq_var named
        cases named' : v.symbol? with
        | none =>
            have different : Machine.sameVariable (.mk o (.var x)) v = false := by
              obtain ⟨o', value⟩ := v
              cases value <;> first | rfl | cases named'
            rw [different]
            exact binds (fun y same => by rw [named'] at same; cases same) fun rest => absurd rest plain
        | some y =>
            obtain ⟨-, o', rfl⟩ := right.eq_var named'
            by_cases same : x = y
            · subst same
              rw [Machine.sameVariable]
              simp only [Term.value, beq_self_eq_true, if_true]
              exact .alike fun θ _ => by rw [Valuation.value_symbol named, Valuation.value_symbol named']
            · rw [Machine.sameVariable]
              simp only [Term.value, beq_iff_eq, same, if_false]
              exact binds (fun z same' => by cases same'; exact same) fun rest => absurd rest plain
      · cases named
        refine binds (fun y named' => ?_) fun _ => ⟨us, list⟩
        rw [symbol?_of_elements? list] at named'
        cases named'
  | none =>
      have term : w.Tidy R := by
        rcases left with term | ⟨x, us, rfl, -⟩
        · exact term
        · cases named
      have different : Machine.sameVariable w v = false := by
        obtain ⟨o, value⟩ := w
        cases value <;> first | rfl | cases named
      rw [different]
      cases named' : v.symbol? with
      | some x =>
          obtain ⟨plain, -⟩ := right.eq_var named'
          refine .bind (unbound' x named') (tidy.bind (unbound' x named') term
            (fun y same => by rw [named] at same; cases same) fun rest => absurd rest plain) fun θ _ => ?_
          rw [Term.same_comm, Valuation.value_symbol named']
      | none =>
          obtain ⟨goals?, acts, reduces⟩ := exists_reduces kb s term right named named'
          simp only [Bool.false_eq_true, if_false]
          exact .reduce acts reduces.1 fun θ splices _ => reduces.2 θ splices

theorem act_advances (noConstants : kb.constants = []) (tidy : s.Tidy R)
    (goal : (Goal.unify t u).Tidy R) : Advances R s t u (s.act kb (.unify t u)) := by
  rw [act_unify noConstants tidy.closed]
  have right : (s.bindings.walk u).Tidy R := tidy.walk goal.1
  have settled : ∀ v x, (s.bindings.walk v).symbol? = some x → s.bindings.value? x = none :=
    fun v x => tidy.walkable.walk_settled
  refine (advances_walked tidy right ?_ (settled t) (settled u)).congr fun θ satisfies => ?_
  · rcases goal.2 with term | ⟨x, us, rfl, rest, list⟩
    · exact .inl (tidy.walk term)
    · rw [walk_of_not_symbol (t := u) (symbol?_of_elements? list)]
      exact (tidy.walk_rest x).imp_right fun stays => ⟨x, us, stays, rest, list⟩
  · rw [satisfies.walk tidy.walkable, Term.same_comm, satisfies.walk tidy.walkable, Term.same_comm]

/-- The valuations that satisfy the store after a goal and solve the goals left are those that satisfy
the store before it and make its terms equal. -/
theorem Advances.go {s' : Store} {new : List Goal} (advances : Advances R s t u (.go s' new))
    (tidy : s.Tidy R) : s'.Tidy R ∧ (∀ goal ∈ new, goal.Tidy R) ∧
      (∀ b, s'.bindings.Widens b → s.bindings.Widens b) ∧ ∀ θ : Valuation, θ.Splices R →
        (θ.Satisfies s.bindings → (θ.value t).same (θ.value u) = true →
          θ.Satisfies s'.bindings ∧ θ.Solves new) ∧
        ((∀ x, (θ x).same (θ x) = true) → θ.Satisfies s'.bindings → θ.Solves new →
          θ.Satisfies s.bindings ∧ (θ.value t).same (θ.value u) = true) := by
  cases advances with
  | alike same =>
      exact ⟨tidy, nofun, fun _ widens => widens, fun θ _ => ⟨fun satisfies _ =>
        ⟨satisfies, Valuation.solves_nil⟩, fun reflexive satisfies _ =>
        ⟨satisfies, (same θ satisfies).trans (reflexive _)⟩⟩⟩
  | bind unbound tidy' same =>
      refine ⟨tidy', nofun, fun _ widens => widens.bind unbound, fun θ _ => ?_⟩
      rw [satisfies_bind unbound]
      exact ⟨fun satisfies equal => ⟨⟨satisfies, same θ satisfies ▸ equal⟩, Valuation.solves_nil⟩,
        fun _ ⟨satisfies, equal⟩ _ => ⟨satisfies, same θ satisfies ▸ equal⟩⟩
  | @reduce goals? _ does tidy' solves =>
      cases goals? with
      | none => cases does
      | some goals =>
          cases does
          refine ⟨tidy, tidy' _ rfl, fun _ widens => widens, fun θ splices => ⟨fun satisfies equal => ?_,
            fun _ satisfies solved => ⟨satisfies, (solves θ splices satisfies).mpr ⟨_, rfl, solved⟩⟩⟩⟩
          exact ⟨satisfies, by simpa using (solves θ splices satisfies).mp equal⟩

theorem Advances.fail (advances : Advances R s t u .fail) (splices : θ.Splices R)
    (satisfies : θ.Satisfies s.bindings) : (θ.value t).same (θ.value u) = false := by
  cases advances with
  | @reduce goals? _ does _ solves =>
      cases goals? with
      | none => simpa using solves θ splices satisfies
      | some goals => cases does

end Act

end PolicyLogic
