import PolicyLogic.Proofs.Conditions.Search
import PolicyLogic.Proofs.Resolution.Reflection

/-!
# A store with an open variable and one with its value

A search in which a variable is open is followed by one in which it has a value. The two draw their
own names, so a relation of names comes with two stores: related variables are both free, or one
stands for a scalar or a path and the other for what the value has there (`Counterpart`).

* `Counterpart.bind`: related variables are bound alike;
* `Counterpart.add`, `Counterpart.record`: there may be more filters, if they hold;
* `Counterpart.extend`: the names of two copies of a rule may be related as well.
-/

namespace PolicyLogic

/-- A lookup on the open variable is one that its value has a field for. -/
def Reading.Defines (reading : Reading) (s : Store) : Goal → Prop
  | .query (.mk _ (.operation .dot [object, field, _])) =>
    IsPath reading.root (s.bindings.walk object) →
      (reading.valueOf (.operation .dot [s.bindings.walk object, field])).isSome
  | _ => True

/-! ## Corresponding values -/

/-- The ends of walks from related variables: free variables that are related, or a scalar or path
and what it stands for. -/
inductive Corresponds (reading : Reading) (R : String → String → Prop) (b b' : Bindings) :
    Term → Term → Prop
  | free (o o' : Option Nat) {x y : String} : R x y → IsFree reading.root b x → b'.value? y = none →
    Corresponds reading R b b' (.mk o (.var x)) (.mk o' (.var y))
  | value {t u : Term} : IsValue reading.root t → reading.valueOf t = some u → IsData u →
    Corresponds reading R b b' t u

/-- One store has a variable open, in the other it has a value of which all filters recorded hold.
Otherwise they are alike, up to the names of variables. -/
structure Counterpart (reading : Reading) (R : String → String → Prop) (n n' : Nat) (s : Store)
    (terms : List Term) (c : Store) : Prop where
  opens : s.Opens reading.root terms
  holds : ∀ t ∈ terms, reading.holds t = true
  closed : c.residual = {}
  walkable : c.bindings.Walkable
  related : ∀ o o' x y, R x y → Corresponds reading R s.bindings c.bindings
    (s.bindings.walk (.mk o (.var x))) (c.bindings.walk (.mk o' (.var y)))
  apart : ∀ x y x' y', R x y → R x' y' → IsFree reading.root s.bindings x →
    IsFree reading.root s.bindings x' → c.bindings.value? y = none → c.bindings.value? y' = none →
    (x = x' ↔ y = y')
  older : ∀ x y, R x y → Older n x ∧ Older n' y
  openOlder : Older n reading.root
  bound : ∀ x u, s.bindings.value? x = some u → Older n x
  bound' : ∀ y u, c.bindings.value? y = some u → Older n' y

/-- Two operands that are the same but for names. -/
inductive Like (R : String → String → Prop) : Term → Term → Prop
  | scalar {t : Term} : IsScalar t → Like R t t
  | var (o o' : Option Nat) {x y : String} : R x y → Like R (.mk o (.var x)) (.mk o' (.var y))

theorem Like.operand {R : String → String → Prop} {t u : Term} (like : Like R t u) : IsOperand t := by
  cases like with
  | scalar scalar => exact .scalar scalar
  | var o o' _ => exact .var o _

section Corresponds

variable {reading : Reading} {R R' : String → String → Prop} {b b' : Bindings} {t u : Term}
  {n n' : Nat} {s c : Store} {terms : List Term}

theorem Reading.valueOf_data (data : IsData reading.value) (value : IsValue reading.root t)
    (found : reading.valueOf t = some u) : IsData u := by
  rcases value with scalar | path
  · rw [scalar.valueOf] at found
    cases found
    exact scalar.data
  · induction path generalizing u with
    | root o =>
        rw [Reading.valueOf, if_pos rfl] at found
        cases found
        exact data
    | field o o' field _ ih =>
        rw [Reading.valueOf] at found
        split at found
        · rename_i fields known
          exact (ih known).fields _ (mem_of_lookup found)
        · cases found

theorem Corresponds.mono (weaker : ∀ x y, R x y → R' x y)
    (corresponds : Corresponds reading R b b' t u) : Corresponds reading R' b b' t u := by
  cases corresponds with
  | free o o' related free unbound => exact .free o o' (weaker _ _ related) free unbound
  | value value found data => exact .value value found data

theorem Corresponds.settled (corresponds : Corresponds reading R b b' t u) :
    Settled reading.root b t := by
  cases corresponds with
  | free o _ _ free _ => exact .free o free
  | value value _ _ => exact .value value

/-- What corresponds to a free variable is a free variable. -/
theorem Corresponds.of_free {o : Option Nat} {x : String}
    (corresponds : Corresponds reading R b b' (.mk o (.var x)) u) (other : x ≠ reading.root) :
    ∃ o' y, u = .mk o' (.var y) ∧ R x y ∧ b'.value? y = none := by
  cases corresponds with
  | free _ o' related _ unbound => exact ⟨o', _, rfl, related, unbound⟩
  | value value => exact absurd (value.eq_root rfl) other

/-- What corresponds to a value is what it stands for. -/
theorem Corresponds.of_value (corresponds : Corresponds reading R b b' t u)
    (value : IsValue reading.root t) : reading.valueOf t = some u ∧ IsData u := by
  cases corresponds with
  | free _ _ _ free _ => exact absurd (value.eq_root rfl) free.other
  | value _ found data => exact ⟨found, data⟩

/-- Bindings of other variables do not matter. -/
theorem Corresponds.bind {x y : String} {w w' : Term} (corresponds : Corresponds reading R b b' t u)
    (other : t.symbol? ≠ some x) (other' : u.symbol? ≠ some y) :
    Corresponds reading R (b.bind x w) (b'.bind y w') t u := by
  cases corresponds with
  | @free o o' z z' related free unbound =>
      refine .free o o' related ⟨free.other, ?_⟩ ?_
      · rw [Bindings.value?_bind, if_neg fun same => other (congrArg some same.symm), free.unbound]
      · rw [Bindings.value?_bind, if_neg fun same => other' (congrArg some same.symm), unbound]
  | value value found data => exact .value value found data

namespace Counterpart

variable (counterpart : Counterpart reading R n n' s terms c)
include counterpart

theorem corresponds (like : Like R t u) : Corresponds reading R s.bindings c.bindings
    (s.bindings.walk t) (c.bindings.walk u) := by
  cases like with
  | scalar scalar =>
      have stays : ∀ b : Bindings, b.walk t = t := scalar.data.walk
      rw [stays, stays]
      exact .value (.inl scalar) scalar.valueOf scalar.data
  | var o o' related => exact counterpart.related o o' _ _ related

theorem weaken {k k' : Nat} (le : n ≤ k) (le' : n' ≤ k') :
    Counterpart reading R k k' s terms c :=
  { counterpart with
    older := fun x y related => (counterpart.older x y related).imp
      (fun older => older.weaken le) fun older => older.weaken le'
    openOlder := counterpart.openOlder.weaken le
    bound := fun x u bound => (counterpart.bound x u bound).weaken le
    bound' := fun y u bound => (counterpart.bound' y u bound).weaken le' }

/-- Ends of walks are the same variable in both stores or in none. -/
theorem same_variable {a a' : Term} {x y : String}
    (corresponds : Corresponds reading R s.bindings c.bindings a a') (related : R x y)
    (free : IsFree reading.root s.bindings x) (unbound : c.bindings.value? y = none) :
    a.symbol? = some x ↔ a'.symbol? = some y := by
  cases corresponds with
  | free o o' related' free' unbound' =>
      have same := counterpart.apart _ _ _ _ related' related free' free unbound' unbound
      exact ⟨fun named => congrArg some (same.mp (Option.some.inj named)),
        fun named => congrArg some (same.mpr (Option.some.inj named))⟩
  | value value _ data =>
      rw [data.symbol?]
      exact ⟨fun named => absurd (value.eq_root named) free.other, fun named => by cases named⟩

/-- Related free variables are bound to corresponding terms. -/
theorem bind {x y : String} {w w' : Term} (related : R x y)
    (free : IsFree reading.root s.bindings x) (unbound : c.bindings.value? y = none)
    (value : Corresponds reading R s.bindings c.bindings w w') (other : w.symbol? ≠ some x) :
    Counterpart reading R n n' ⟨s.bindings.bind x w, s.residual⟩ terms
      ⟨c.bindings.bind y w', c.residual⟩ := by
  have other' : w'.symbol? ≠ some y := fun named =>
    other ((counterpart.same_variable value related free unbound).mpr named)
  have settled : ∀ z, w.symbol? = some z → s.bindings.value? z = none ∧ x ≠ z := fun z named =>
    ⟨value.settled.unbound counterpart.opens.unbound named, fun same => other (same ▸ named)⟩
  have settled' : ∀ z, w'.symbol? = some z → c.bindings.value? z = none ∧ y ≠ z := by
    intro z named
    refine ⟨?_, fun same => other' (same ▸ named)⟩
    cases value with
    | free _ _ _ _ unbound =>
        cases named
        exact unbound
    | value _ _ data =>
        rw [data.symbol?] at named
        cases named
  obtain ⟨_, walks⟩ := counterpart.opens.walkable.bind free.unbound settled
  obtain ⟨walkable, walks'⟩ := counterpart.walkable.bind unbound settled'
  refine {
    opens := counterpart.opens.bind free value.settled other
    holds := counterpart.holds
    closed := counterpart.closed
    walkable
    related := fun o o' z z' related' => ?_
    apart := fun z z' v v' first second free₁ free₂ unbound₁ unbound₂ => ?_
    older := counterpart.older
    openOlder := counterpart.openOlder
    bound := fun z u bound => ?_
    bound' := fun z u bound => ?_ }
  · have before := counterpart.related o o' z z' related'
    have named := counterpart.same_variable before related free unbound
    show Corresponds reading R (s.bindings.bind x w) (c.bindings.bind y w')
      ((s.bindings.bind x w).walk _) ((c.bindings.bind y w').walk _)
    rw [walks, walks']
    by_cases here : (s.bindings.walk (.mk o (.var z))).symbol? = some x
    · rw [if_pos here, if_pos (named.mp here)]
      exact value.bind other other'
    · rw [if_neg here, if_neg fun there => here (named.mpr there)]
      exact before.bind here fun there => here (named.mpr there)
  · have before : ∀ {z}, IsFree reading.root (s.bindings.bind x w) z →
        IsFree reading.root s.bindings z := by
      intro z free
      have unbound := free.unbound
      rw [Bindings.value?_bind] at unbound
      split at unbound
      · cases unbound
      · exact ⟨free.other, unbound⟩
    have before' : ∀ {z}, (c.bindings.bind y w').value? z = none → c.bindings.value? z = none := by
      intro z unbound
      rw [Bindings.value?_bind] at unbound
      split at unbound
      · cases unbound
      · exact unbound
    exact counterpart.apart z z' v v' first second (before free₁) (before free₂) (before' unbound₁)
      (before' unbound₂)
  · have bound : (s.bindings.bind x w).value? z = some u := bound
    rw [Bindings.value?_bind] at bound
    split at bound
    · rename_i same
      exact same ▸ (counterpart.older x y related).1
    · exact counterpart.bound z u bound
  · have bound : (c.bindings.bind y w').value? z = some u := bound
    rw [Bindings.value?_bind] at bound
    split at bound
    · rename_i same
      exact same ▸ (counterpart.older x y related).2
    · exact counterpart.bound' z u bound

/-- One more filter, one that holds. -/
theorem add {filter : Term} (isFilter : IsFilter reading.root filter)
    (holds : reading.holds filter = true) :
    Counterpart reading R n n' ⟨s.bindings, s.residual.add (.constraint 0 filter)⟩
      (terms ++ [filter]) c :=
  { counterpart with
    opens := counterpart.opens.add isFilter
    holds := List.forall_mem_append.mpr ⟨counterpart.holds, List.forall_mem_singleton.mpr holds⟩ }

/-- Other filters that hold as well. -/
theorem record {s' : Store} {more : List Term} (opens : s'.Opens reading.root (terms ++ more))
    (same : s'.bindings = s.bindings) (holds : ∀ t ∈ more, reading.holds t = true) :
    Counterpart reading R n n' s' (terms ++ more) c where
  opens := opens
  holds := List.forall_mem_append.mpr ⟨counterpart.holds, holds⟩
  closed := counterpart.closed
  walkable := counterpart.walkable
  related := by rw [same]; exact counterpart.related
  apart := by rw [same]; exact counterpart.apart
  older := counterpart.older
  openOlder := counterpart.openOlder
  bound := by rw [same]; exact counterpart.bound
  bound' := counterpart.bound'

end Counterpart

/-! ## Copies of rules -/

/-- A name that is drawn is older than the counter is afterwards, but not than it was. -/
theorem older_of_drawn {m : Nat} {x v : String}
    (drawn : ∃ id, n ≤ id ∧ id < m ∧ x = generatedName v id) : Older m x ∧ ¬ Older n x := by
  obtain ⟨id, ge, less, rfl⟩ := drawn
  refine ⟨fun stem id' same => ?_, fun older => absurd (older v id rfl) (Nat.not_lt.mpr ge)⟩
  rwa [← id_of_generatedName same]

/-- The names of two copies of a rule are related when they stand for the same variable of it. -/
def Joins (R : String → String → Prop) (r : Rule) (g g' : String → String) (x y : String) : Prop :=
  R x y ∨ ∃ v, r.Mentions v ∧ x = g v ∧ y = g' v

/-- Copies of a rule have names of their own, which are free. -/
theorem Counterpart.extend (counterpart : Counterpart reading R n n' s terms c) {r : Rule}
    {g g' : String → String} {m m' : Nat} (le : n ≤ m) (le' : n' ≤ m')
    (drawn : ∀ v, r.Mentions v → ∃ id, n ≤ id ∧ id < m ∧ g v = generatedName v id)
    (drawn' : ∀ v, r.Mentions v → ∃ id, n' ≤ id ∧ id < m' ∧ g' v = generatedName v id)
    (injective : ∀ v w, r.Mentions v → r.Mentions w → g v = g w → v = w)
    (injective' : ∀ v w, r.Mentions v → r.Mentions w → g' v = g' w → v = w) :
    Counterpart reading (Joins R r g g') m m' s terms c := by
  have young := fun v inside => (older_of_drawn (drawn v inside)).2
  have young' := fun v inside => (older_of_drawn (drawn' v inside)).2
  have later := counterpart.weaken le le'
  have unbound : ∀ v, r.Mentions v → s.bindings.value? (g v) = none := by
    intro v inside
    cases bound : s.bindings.value? (g v) with
    | none => rfl
    | some u => exact absurd (counterpart.bound _ u bound) (young v inside)
  have unbound' : ∀ v, r.Mentions v → c.bindings.value? (g' v) = none := by
    intro v inside
    cases bound : c.bindings.value? (g' v) with
    | none => rfl
    | some u => exact absurd (counterpart.bound' _ u bound) (young' v inside)
  refine {
    later with
    related := fun o o' x y related => ?_
    apart := fun x y x' y' first second free free' unbound₁ unbound₂ => ?_
    older := fun x y related => ?_ }
  · rcases related with before | ⟨v, inside, rfl, rfl⟩
    · exact (counterpart.related o o' x y before).mono fun _ _ => .inl
    · rw [Bindings.walk_of_unbound rfl (unbound v inside),
        Bindings.walk_of_unbound rfl (unbound' v inside)]
      refine .free o o' (.inr ⟨v, inside, rfl, rfl⟩) ⟨fun same => young v inside ?_, unbound v inside⟩
        (unbound' v inside)
      rw [same]
      exact counterpart.openOlder
  · rcases first with before | ⟨v, inside, rfl, rfl⟩ <;>
      rcases second with before' | ⟨w, inside', rfl, rfl⟩
    · exact counterpart.apart x y x' y' before before' free free' unbound₁ unbound₂
    · obtain ⟨old, old'⟩ := counterpart.older x y before
      exact ⟨fun same => absurd (same ▸ old) (young w inside'),
        fun same => absurd (same ▸ old') (young' w inside')⟩
    · obtain ⟨old, old'⟩ := counterpart.older x' y' before'
      exact ⟨fun same => absurd (same ▸ old) (young v inside),
        fun same => absurd (same ▸ old') (young' v inside)⟩
    · exact ⟨fun same => congrArg g' (injective v w inside inside' same),
        fun same => congrArg g (injective' v w inside inside' same)⟩
  · rcases related with before | ⟨v, inside, rfl, rfl⟩
    · exact later.older x y before
    · exact ⟨(older_of_drawn (drawn v inside)).1, (older_of_drawn (drawn' v inside)).1⟩

end Corresponds

end PolicyLogic
