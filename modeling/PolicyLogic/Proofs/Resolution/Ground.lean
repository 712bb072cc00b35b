import PolicyLogic.Proofs.Residual.Data
import PolicyLogic.Proofs.Resolution.Matching

/-!
# Matching data

Where what is matched has no variables, matching comes to an end (`settles_unify`, `settles_pattern`):
each goal leaves goals about parts of the datum (`TakesApart.fed`). Variables are bound to data on the way and
nothing else is, so the log stays without loops (`Store.Gains.loopless`).
-/

namespace PolicyLogic

open Bindings

/-- A tidy term without variables. -/
structure Term.IsDatum (R : String → Prop) (t : Term) : Prop where
  tidy : t.Tidy R
  ground : ∀ y, ¬t.Mentions y

/-- A tidy term whose variables are among the given ones. -/
structure Term.Among (R N : String → Prop) (t : Term) : Prop where
  tidy : t.Tidy R
  names : ∀ y, t.Mentions y → N y

section Data

variable {R N : String → Prop} {t u : Term} {o : Option Nat} {ts : List Term}

/-- Data are terms over any variables. -/
theorem Term.IsDatum.among (datum : t.IsDatum R) : t.Among R N :=
  ⟨datum.tidy, fun y mentioned => absurd mentioned (datum.ground y)⟩

theorem Term.IsDatum.isData (datum : t.IsDatum R) : IsData t := by
  refine ⟨?_, datum.ground⟩
  obtain ⟨tidy, ground⟩ := datum
  induction tidy with
  | var => exact absurd (mentions_var.mpr rfl) (ground _)
  | number o _ => exact .number o _
  | text o s => exact .text o s
  | boolean o b => exact .boolean o b
  | list o _ ih =>
      exact .list o fun t member => ih t member fun y inside =>
        ground y (mentions_list.mpr ⟨t, member, inside⟩)
  | listRest =>
      exact absurd (mentions_list.mpr
        ⟨_, List.mem_append_right _ List.mem_cons_self, mentions_rest.mpr rfl⟩) (ground _)
  | dictionary o order _ ih =>
      exact .dictionary o order fun field member => ih field member fun y inside =>
        ground y (mentions_dictionary.mpr ⟨field, member, inside⟩)

theorem Term.IsDatum.not_symbol (datum : t.IsDatum R) : t.symbol? = none := datum.isData.symbol?

/-- A walk from a datum stays there. -/
theorem Term.IsDatum.walk (datum : t.IsDatum R) (b : Bindings) : b.walk t = t := datum.isData.walk b

/-- A datum stands for itself. -/
theorem Term.IsDatum.value (datum : t.IsDatum R) {σ : Valuation} : σ.value t = t :=
  datum.isData.pure.expand_eq_self fun _ x found => absurd found (datum.ground x)

/-- A datum is no variable. -/
theorem Term.IsDatum.differs (datum : t.IsDatum R) (u : Term) :
    Machine.sameVariable u t = false ∧ Machine.sameVariable t u = false := by
  obtain ⟨o, value⟩ := t
  obtain ⟨o', value'⟩ := u
  cases value with
  | var x => exact absurd (mentions_var.mpr rfl) (datum.ground x)
  | _ => cases value' <;> exact ⟨rfl, rfl⟩

/-- The parts of a datum are data. -/
theorem Term.IsDatum.part {part : Term} (datum : t.IsDatum R) (member : part ∈ t.parts) :
    part.IsDatum R := by
  refine ⟨?_, fun y inside => datum.ground y (mentions_iff_parts.mpr (.inr ⟨part, member, inside⟩))⟩
  obtain ⟨tidy, ground⟩ := datum
  cases tidy with
  | list o each => exact each part member
  | listRest o o' each rest =>
      exact absurd (mentions_list.mpr ⟨_, List.mem_append_right _ List.mem_cons_self, mentions_rest.mpr rfl⟩)
        (ground _)
  | dictionary o order each =>
      obtain ⟨field, inside, rfl⟩ := List.mem_map.mp member
      exact each field inside
  | _ => cases member

/-- What a pattern takes out of a datum are data. -/
theorem Term.IsDatum.matched {shape : Pattern} {pairs : List (Term × Term)} (datum : t.IsDatum R)
    (tidy : shape.Tidy R) (found : matchPairs? t.value shape = some pairs) {pair : Term × Term}
    (member : pair ∈ pairs) : pair.1.IsDatum R :=
  ⟨(datum.tidy.matchPairs? tidy found pair member).1, fun y mentioned =>
    datum.ground y ((mentions_of_matchPairs? found member).1 mentioned)⟩

theorem isDatum_list (each : ∀ t ∈ ts, t.IsDatum R) : (Term.mk o (.list ts)).IsDatum R :=
  ⟨.list o fun t member => (each t member).tidy, fun y mentioned => by
    obtain ⟨t, member, inside⟩ := mentions_list.mp mentioned
    exact (each t member).ground y inside⟩

/-- The elements of a list are among the names, and so is its rest variable. -/
theorem Term.Among.splitRest (among : (Term.mk o (.list ts)).Among R N) :
    (∀ t ∈ (PolicyLogic.splitRest ts).1, t.Among R N) ∧ ∀ x ∈ (PolicyLogic.splitRest ts).2, N x := by
  obtain ⟨tidy, names⟩ := among
  cases tidy with
  | list _ each =>
      rw [splitRest_plain fun t member => (each t member).not_rest]
      exact ⟨fun t member => ⟨each t member, fun y inside => names y (mentions_list.mpr ⟨t, member, inside⟩)⟩,
        nofun⟩
  | listRest _ o' each rest =>
      rw [splitRest_some rfl]
      refine ⟨fun t member => ⟨each t member, fun y inside =>
        names y (mentions_list.mpr ⟨t, List.mem_append_left _ member, inside⟩)⟩, ?_⟩
      rintro _ ⟨⟩
      exact names _ (mentions_list.mpr
        ⟨_, List.mem_append_right _ List.mem_cons_self, mentions_rest.mpr rfl⟩)

end Data

/-- A goal that unifies a part of the datum, or what is left of a list of data. -/
inductive Goal.Fed (R N : String → Prop) (d : Term) : Goal → Prop
  | right {t u : Term} : t.Among R N → u ∈ d.parts → Fed R N d (.unify t u)
  | left {t u : Term} : t ∈ d.parts → u.Among R N → Fed R N d (.unify t u)
  | rest {x : String} {ts : List Term} : N x → (∀ t ∈ ts, t.IsDatum R) →
    Fed R N d (.unify (.rest x) (.list ts))

section Fed

variable {R N : String → Prop} {w d : Term}

/-- The goals for two maps unify a value of each. -/
theorem mem_unifyFields {fields fields' : List (String × Term)} {goal : Goal}
    (member : goal ∈ unifyFields fields fields') :
    ∃ field ∈ fields, ∃ field' ∈ fields', goal = .unify field.2 field'.2 := by
  obtain ⟨field, inside, found⟩ := List.mem_filterMap.mp member
  obtain ⟨value, looked, rfl⟩ := Option.map_eq_some_iff.mp found
  exact ⟨field, inside, _, mem_of_lookup looked, rfl⟩

/-- What is left to unify of two lists, one of them of data, is about its elements. -/
theorem fed_elements {o o' : Option Nat} {ts us : List Term} (among : (Term.mk o (.list ts)).Among R N)
    (datum : (Term.mk o' (.list us)).IsDatum R) :
    (∀ goals ∈ unifyElements? ts us, ∀ goal ∈ goals, goal.Fed R N (.mk o' (.list us))) ∧
      ∀ goals ∈ unifyElements? us ts, ∀ goal ∈ goals, goal.Fed R N (.mk o' (.list us)) := by
  have data : ∀ u ∈ us, u.IsDatum R := fun u member => datum.part member
  obtain ⟨each, rest⟩ := among.splitRest
  rcases split : splitRest ts with ⟨init, r⟩
  rw [split] at each rest
  have split' : splitRest us = (us, none) := splitRest_plain fun u member => (data u member).tidy.not_rest
  have last : ∀ (k : Nat) (goals? : Option (List Goal)) (vs : List Term),
      goals? = restGoals? vs (us.drop k) r none ∨ goals? = restGoals? (us.drop k) vs none r →
      ∀ goals ∈ goals?, ∀ goal ∈ goals, goal.Fed R N (.mk o' (.list us)) := by
    rintro k _ vs kind goals same goal member
    have left : goal ∈ (r.map fun x => Goal.unify (.rest x) (.list (us.drop k))).toList := by
      rcases kind with rfl | rfl <;> cases r <;> rw [restGoals?] at same <;> split at same <;> cases same
      all_goals exact member
    obtain ⟨x, rfl, rfl⟩ : ∃ x, r = some x ∧ goal = .unify (.rest x) (.list (us.drop k)) := by
      cases r with
      | none => cases left
      | some x => exact ⟨x, rfl, List.mem_singleton.mp left⟩
    exact .rest (rest x rfl) fun u inside => data u (List.mem_of_mem_drop inside)
  constructor
  · intro goals same goal member
    rw [unifyElements?_eq split split'] at same
    obtain ⟨_, found, rfl⟩ := Option.mem_map.mp same
    rcases List.mem_append.mp member with member | member
    · obtain ⟨t, inside, u, inside', rfl⟩ := mem_unifyAll member
      exact .right (each t inside) inside'
    · exact last _ _ _ (.inl rfl) _ found goal member
  · intro goals same goal member
    rw [unifyElements?_eq split' split] at same
    obtain ⟨_, found, rfl⟩ := Option.mem_map.mp same
    rcases List.mem_append.mp member with member | member
    · obtain ⟨u, inside, t, inside', rfl⟩ := mem_unifyAll member
      exact .left inside (each t inside')
    · exact last _ _ _ (.inr rfl) _ found goal member

/-- What is left to unify of two dictionaries, one of them of data, is about its fields. -/
theorem fed_fields {o o' : Option Nat} {fields fields' : List (String × Term)}
    (among : (Term.mk o (.dictionary fields)).Among R N) :
    (∀ goal ∈ unifyFields fields fields', goal.Fed R N (.mk o' (.dictionary fields'))) ∧
      ∀ goal ∈ unifyFields fields' fields, goal.Fed R N (.mk o' (.dictionary fields')) := by
  have values : ∀ field ∈ fields, field.2.Among R N := fun field member => by
    obtain ⟨tidy, names⟩ := among
    cases tidy with
    | dictionary _ _ each =>
        exact ⟨each field member, fun y inside => names y (mentions_dictionary.mpr ⟨field, member, inside⟩)⟩
  constructor
  · intro goal member
    obtain ⟨field, inside, other, inside', rfl⟩ := mem_unifyFields member
    exact .right (values field inside) (List.mem_map_of_mem inside')
  · intro goal member
    obtain ⟨other, inside', field, inside, rfl⟩ := mem_unifyFields member
    exact .left (List.mem_map_of_mem inside') (values field inside)

/-- What is left of the equation of a value and a datum is about parts of the datum. -/
theorem TakesApart.fed {goals? : Option (List Goal)} (apart : TakesApart w d goals?) (among : w.Among R N)
    (datum : d.IsDatum R) : ∀ goals ∈ goals?, ∀ goal ∈ goals, goal.Fed R N d := by
  cases apart with
  | test =>
      intro goals same
      split at same <;> cases same
      exact nofun
  | lists => exact (fed_elements among datum).1
  | dictionaries =>
      intro goals same
      split at same <;> cases same
      exact (fed_fields among).1

/-- Data are taken apart the same way on either side. -/
theorem TakesApart.fed_swapped {goals? : Option (List Goal)} (apart : TakesApart d w goals?)
    (among : w.Among R N) (datum : d.IsDatum R) : ∀ goals ∈ goals?, ∀ goal ∈ goals, goal.Fed R N d := by
  cases apart with
  | test =>
      intro goals same
      split at same <;> cases same
      exact nofun
  | lists => exact (fed_elements among datum).2
  | dictionaries =>
      intro goals same
      split at same <;> cases same
      exact (fed_fields among).2

end Fed

/-- A variable without a value takes on a datum. -/
theorem act_unify_datum {kb : KnowledgeBase} {R : String → Prop} {s : Store} {o : Option Nat} {x : String}
    {t : Term} (noConstants : kb.constants = []) (closed : s.residual = {})
    (unbound : s.bindings.value? x = none) (datum : t.IsDatum R) :
    s.act kb (.unify (.mk o (.var x)) t) = .go ⟨s.bindings.bind x t, s.residual⟩ [] := by
  have named : (Term.mk o (.var x)).symbol? = some x := rfl
  rw [act_unify noConstants closed, walk_of_unbound named unbound, datum.walk]
  simp only [(datum.differs _).1, Bool.false_eq_true, if_false, named]

/-! ## Matching ends -/

/-- The store is tidy, and the variables of the given names stand for data if they have values. -/
structure Store.Feeds (R N : String → Prop) (s : Store) : Prop where
  tidy : s.Tidy R
  data : ∀ y, N y → ∀ v, s.bindings.value? y = some v → v.IsDatum R

/-- The second store is tidy and has no new values but data, for variables of the given names. -/
structure Store.Gains (R N : String → Prop) (s last : Store) : Prop where
  tidy : last.Tidy R
  data : ∀ x u, last.bindings.value? x = some u → s.bindings.value? x = some u ∨ N x ∧ u.IsDatum R

/-- The goal comes to an end, and gives data as values. -/
def Goal.Settles (kb : KnowledgeBase) (R N : String → Prop) (goal : Goal) : Prop :=
  ∀ s : Store, s.Feeds R N → ∃ holds last, Completes kb s [goal] holds last ∧ s.Gains R N last

section Settles

variable {kb : KnowledgeBase} {R N : String → Prop} {s mid last : Store} {goal : Goal} {goals : List Goal}
  {t u d : Term} {x : String}

/-- What is gained twice is gained. -/
theorem Store.Gains.trans (first : s.Gains R N mid) (second : mid.Gains R N last) : s.Gains R N last :=
  ⟨second.tidy, fun x u bound => (second.data x u bound).elim (first.data x u) .inr⟩

theorem Store.Feeds.gains (feeds : s.Feeds R N) (gains : s.Gains R N last) : last.Feeds R N :=
  ⟨gains.tidy, fun y name v bound => (gains.data y v bound).elim (feeds.data y name v) And.right⟩

/-- Gaining values makes no loops. -/
theorem Store.Gains.loopless (gains : s.Gains R N last) (loopless : s.bindings.Loopless) :
    last.bindings.Loopless :=
  loopless.imp fun _ layered x u bound y used => (gains.data x u bound).elim
    (fun before => layered x u before y used) fun gained => absurd used.mentions (gained.2.ground y)

/-- Fewer names are fed as well. -/
theorem Store.Feeds.mono {N' : String → Prop} (feeds : s.Feeds R N) (fewer : ∀ x, N' x → N x) :
    s.Feeds R N' :=
  ⟨feeds.tidy, fun y name => feeds.data y (fewer y name)⟩

theorem Store.Gains.mono {N' : String → Prop} (gains : s.Gains R N last) (more : ∀ x, N x → N' x) :
    s.Gains R N' last :=
  ⟨gains.tidy, fun x u bound => (gains.data x u bound).imp_right (And.imp_left (more x))⟩

/-- Other variables have the values that they had. -/
theorem Store.Gains.unbound (gains : s.Gains R N last) (unbound : s.bindings.value? x = none) (other : ¬N x) :
    last.bindings.value? x = none := by
  by_contra bound
  obtain ⟨u, bound⟩ := Option.ne_none_iff_exists'.mp bound
  rcases gains.data x u bound with before | ⟨name, -⟩
  · rw [unbound] at before
    cases before
  · exact other name

/-- A variable is bound to a datum. -/
theorem Store.Tidy.gains_bind (tidy : s.Tidy R) (name : N x) (unbound : s.bindings.value? x = none)
    (datum : d.IsDatum R) (rest : R x → ∃ ts, d.elements? = some ts) :
    s.Gains R N ⟨s.bindings.bind x d, s.residual⟩ := by
  refine ⟨tidy.bind unbound datum.tidy (fun y named => ?_) rest, fun y u bound => ?_⟩
  · rw [datum.not_symbol] at named
    cases named
  · rw [value?_bind] at bound
    split at bound
    · cases bound
      subst x
      exact .inr ⟨name, datum⟩
    · exact .inl bound

theorem exists_completes_settles (each : ∀ goal ∈ goals, goal.Settles kb R N) (feeds : s.Feeds R N) :
    ∃ holds last, Completes kb s goals holds last ∧ s.Gains R N last := by
  induction goals generalizing s with
  | nil => exact ⟨true, s, .done s, feeds.tidy, fun _ _ => .inl⟩
  | cons goal goals ih =>
      obtain ⟨first, others⟩ := List.forall_mem_cons.mp each
      obtain ⟨holds, mid, completes, gains⟩ := first s feeds
      cases holds with
      | false => exact ⟨false, mid, completes.fail_append goals, gains⟩
      | true =>
          obtain ⟨holds, last, completes', gains'⟩ := ih others (feeds.gains gains)
          exact ⟨holds, last, completes.append completes', gains.trans gains'⟩

/-- A goal ends if those do that it leaves. -/
theorem exists_completes_after {goals? : Option (List Goal)} (feeds : s.Feeds R N)
    (acts : s.act kb goal = s.after goals?) (each : ∀ goals ∈ goals?, ∀ goal ∈ goals, goal.Settles kb R N) :
    ∃ holds last, Completes kb s [goal] holds last ∧ s.Gains R N last := by
  cases goals? with
  | none => exact ⟨false, s, .fail acts, feeds.tidy, fun _ _ => .inl⟩
  | some goals =>
      obtain ⟨holds, last, completes, gains⟩ := exists_completes_settles (each goals rfl) feeds
      exact ⟨holds, last, .go acts (by rwa [List.append_nil]), gains⟩

/-- The walk from a term ends at the term, or it leads to a datum. -/
theorem Store.Feeds.walk (feeds : s.Feeds R N) (among : t.Among R N) :
    (s.bindings.walk t).Among R N ∧ ∀ x, (s.bindings.walk t).symbol? = some x →
      N x ∧ s.bindings.value? x = none ∧ ¬R x := by
  have settled : (s.bindings.walk t).Tidy R := feeds.tidy.walk among.tidy
  have names : ∀ y, (s.bindings.walk t).Mentions y → N y := fun y mentioned => ?_
  refine ⟨⟨settled, names⟩, fun x named => ⟨names x (Term.mentions_of_symbol? named),
    feeds.tidy.walkable.walk_settled named, (settled.eq_var named).1⟩⟩
  cases named : t.symbol? with
  | none =>
      rw [walk_of_not_symbol named] at mentioned
      exact among.names y mentioned
  | some x =>
      cases bound : s.bindings.value? x with
      | none =>
          rw [walk_of_unbound named bound] at mentioned
          exact among.names y mentioned
      | some v =>
          have datum := feeds.data x (among.names x (Term.mentions_of_symbol? named)) v bound
          rw [feeds.tidy.walkable.walk_of_bound named bound, datum.walk] at mentioned
          exact absurd mentioned (datum.ground y)

/-- The goal binds a variable to the datum, or it leaves goals about parts of the datum. -/
def Store.Descends (kb : KnowledgeBase) (R N : String → Prop) (s : Store) (d : Term) (goal : Goal) : Prop :=
  (∃ x, (N x ∧ s.bindings.value? x = none ∧ ¬R x) ∧
    s.act kb goal = .go ⟨s.bindings.bind x d, s.residual⟩ []) ∨
  ∃ goals?, s.act kb goal = s.after goals? ∧ ∀ goals ∈ goals?, ∀ goal ∈ goals, goal.Fed R N d

theorem Store.Descends.completes (descends : s.Descends kb R N d goal) (feeds : s.Feeds R N)
    (datum : d.IsDatum R) (fed : ∀ goal : Goal, goal.Fed R N d → goal.Settles kb R N) :
    ∃ holds last, Completes kb s [goal] holds last ∧ s.Gains R N last := by
  obtain ⟨x, ⟨name, unbound, plain⟩, binds⟩ | ⟨goals?, acts, each⟩ := descends
  · exact ⟨true, _, .go binds (.done _),
      feeds.tidy.gains_bind name unbound datum fun rest => absurd rest plain⟩
  · exact exists_completes_after feeds acts fun goals same goal member => fed goal (each goals same goal member)

variable (noConstants : kb.constants = [])
include noConstants

/-- Unifying with a datum, either way round, binds a variable to the datum or leaves goals about its
parts. -/
theorem Store.Feeds.descends (feeds : s.Feeds R N) (datum : d.IsDatum R) (among : t.Among R N) :
    s.Descends kb R N d (.unify t d) ∧ s.Descends kb R N d (.unify d t) := by
  obtain ⟨here, there⟩ := feeds.walk among
  obtain ⟨different, different'⟩ := datum.differs (s.bindings.walk t)
  rw [Store.Descends, Store.Descends, act_unify noConstants feeds.tidy.closed,
    act_unify noConstants feeds.tidy.closed, datum.walk]
  simp only [different, different', Bool.false_eq_true, if_false, datum.not_symbol]
  cases named : (s.bindings.walk t).symbol? with
  | some x => exact ⟨.inl ⟨x, there x named, rfl⟩, .inl ⟨x, there x named, rfl⟩⟩
  | none =>
      obtain ⟨goals?, acts, apart⟩ := exists_takesApart kb s here.tidy datum.tidy named datum.not_symbol
      obtain ⟨goals?', acts', apart'⟩ := exists_takesApart kb s datum.tidy here.tidy datum.not_symbol named
      exact ⟨.inr ⟨goals?, acts, apart.fed here datum⟩, .inr ⟨goals?', acts', apart'.fed_swapped here datum⟩⟩

/-- Unifying with a datum ends, if it does for what may be left of a list. -/
theorem settles_unify_of (rests : ∀ x ts, N x → (∀ t ∈ ts, t.IsDatum R) →
      (Goal.unify (.rest x) (.list ts)).Settles kb R N) (datum : d.IsDatum R) (among : t.Among R N) :
    (Goal.unify t d).Settles kb R N ∧ (Goal.unify d t).Settles kb R N := by
  induction d using Term.parts_induction generalizing t with
  | step d ih =>
      have fed : ∀ goal : Goal, goal.Fed R N d → goal.Settles kb R N := fun goal fed => by
        cases fed with
        | right among member => exact (ih _ member (datum.part member) among).1
        | left member among => exact (ih _ member (datum.part member) among).2
        | rest name data => exact rests _ _ name data
      exact ⟨fun s feeds => (feeds.descends noConstants datum among).1.completes feeds datum fed,
        fun s feeds => (feeds.descends noConstants datum among).2.completes feeds datum fed⟩

/-- What is left of a list of data goes to a rest variable, or is compared with what the variable has. -/
theorem settles_rest {ts : List Term} (name : N x) (data : ∀ t ∈ ts, t.IsDatum R) :
    (Goal.unify (.rest x) (.list ts)).Settles kb R N := fun s feeds => by
  have datum : (Term.list ts).IsDatum R := isDatum_list data
  have named : (Term.rest x).symbol? = some x := rfl
  cases bound : s.bindings.value? x with
  | none =>
      have binds : s.act kb (.unify (.rest x) (.list ts)) = .go ⟨s.bindings.bind x (.list ts), s.residual⟩ [] := by
        rw [act_unify noConstants feeds.tidy.closed, walk_of_unbound named bound, datum.walk]
        rfl
      exact ⟨true, _, .go binds (.done _), feeds.tidy.gains_bind name bound datum fun _ => ⟨ts, rfl⟩⟩
  | some v =>
      have value := feeds.data x name v bound
      obtain ⟨holds, last, completes, gains⟩ := (settles_unify_of (N := fun _ => False) noConstants
        (fun _ _ no => no.elim) datum value.among).1 s (feeds.mono fun _ => False.elim)
      refine ⟨holds, last, completes.congr ?_, gains.mono fun _ => False.elim⟩
      rw [act_unify noConstants feeds.tidy.closed, act_unify noConstants feeds.tidy.closed,
        feeds.tidy.walkable.walk_of_bound named bound]

/-- Unifying with a datum ends. -/
theorem settles_unify (datum : d.IsDatum R) (among : t.Among R N) :
    (Goal.unify t d).Settles kb R N ∧ (Goal.unify d t).Settles kb R N :=
  settles_unify_of noConstants (fun _ _ => settles_rest noConstants) datum among

/-- Matching a datum ends. -/
theorem settles_isa (datum : d.IsDatum R) (among : t.Among R N) :
    (Goal.isa d t).Settles kb R N := fun s feeds =>
  have ⟨holds, last, completes, gains⟩ := (settles_unify noConstants datum among).2 s feeds
  ⟨holds, last, completes.congr (act_isa_term noConstants feeds.tidy among.tidy).symm, gains⟩

theorem settles_pattern {o : Option Nat} {shape : Pattern} (datum : d.IsDatum R)
    (among : ∀ field ∈ shape.fields, field.2.Among R N) :
    (Goal.isa d (.mk o (.pattern shape))).Settles kb R N := fun s feeds => by
  refine exists_completes_after feeds (act_isa_pattern noConstants feeds.tidy datum.tidy o shape)
    fun goals same goal member => ?_
  obtain ⟨pairs, found, rfl⟩ := Option.map_eq_some_iff.mp same
  obtain ⟨pair, inside, rfl⟩ := List.mem_map.mp member
  rw [datum.walk] at found
  obtain ⟨-, field, asked, matched⟩ := mem_matchPairs? found inside
  have part := datum.matched (fun field asked => (among field asked).tidy) found inside
  exact settles_isa noConstants part (matched ▸ among field asked)

end Settles

end PolicyLogic
