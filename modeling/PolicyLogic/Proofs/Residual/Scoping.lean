import PolicyLogic.Proofs.Machine.Notes
import PolicyLogic.Proofs.Residual.Complete
import PolicyLogic.Proofs.Residual.Rendering

/-!
# Where variables occur in a filter

The variable of a subquery stands for one value at a time, and it does so inside the conjunction
with the membership that introduces it. A filter in which it occurs elsewhere would speak about
another value (`Term.wellScoped`).

Filters are well scoped when what is recorded in a scope mentions the variables of that scope and of
the scopes around it only (`Residual.Recorded`, `filters_scoped`). Relations of paths are recorded in
the inner one of their scopes and so are of this kind, and the log of a run is made up like this if
its entries are about flat operands (`Machine.ReachableWith.recorded`). Two other things that are
recorded are not (`scopes_confused`): a list with paths in it is not looked into, and a negation is
recorded in the first of the scopes that its goal concerned.
-/

namespace PolicyLogic

/-! ## Terms whose variables are in scope -/

/-- The variables that memberships among some terms introduce. -/
def memberVariables (ts : List Term) : List String :=
  ts.filterMap fun t =>
    match t with
    | .mk _ (.operation .member [.mk _ (.var name), _]) => some name
    | _ => none

mutual

/-- Whether each variable of a term is known or occurs inside a conjunction with a membership that
introduces it. The variable of a membership itself need not be known. -/
def Term.wellScoped (known : List String) : Term → Bool
  | .mk _ (.var name) => known.contains name
  | .mk _ (.rest name) => known.contains name
  | .mk _ (.list elements) => wellScopedAll known elements
  | .mk _ (.dictionary fields) => wellScopedFields known fields
  | .mk _ (.handle _ (some origin) _) => origin.wellScoped known
  | .mk _ (.call _ args none) => wellScopedAll known args
  | .mk _ (.call _ args (some named)) => wellScopedAll known args && wellScopedFields known named
  | .mk _ (.pattern (.record fields)) => wellScopedFields known fields
  | .mk _ (.pattern (.object _ fields)) => wellScopedFields known fields
  | .mk _ (.operation .conj args) => wellScopedAll (memberVariables args ++ known) args
  | .mk _ (.operation .member [.mk _ (.var _), source]) => source.wellScoped known
  | .mk _ (.operation _ args) => wellScopedAll known args
  | _ => true

/-- Whether the variables of all terms of a list are in scope. -/
def wellScopedAll (known : List String) : List Term → Bool
  | [] => true
  | t :: ts => t.wellScoped known && wellScopedAll known ts

/-- Whether the variables of all terms of a map are in scope. -/
def wellScopedFields (known : List String) : List (String × Term) → Bool
  | [] => true
  | (_, t) :: fields => t.wellScoped known && wellScopedFields known fields

end

section Scopes

variable {known : List String}

theorem wellScopedAll_iff {ts : List Term} :
    wellScopedAll known ts = true ↔ ∀ t ∈ ts, t.wellScoped known = true := by
  induction ts with
  | nil => simp [wellScopedAll]
  | cons t ts ih => simp [wellScopedAll, ih]

theorem wellScopedFields_iff {fields : List (String × Term)} :
    wellScopedFields known fields = true ↔
      ∀ t ∈ fields.map (·.2), t.wellScoped known = true := by
  induction fields with
  | nil => simp [wellScopedFields]
  | cons field fields ih => simp [wellScopedFields, ih]

/-- The parts of a conjunction know what the memberships among them introduce. -/
theorem wellScoped_conj {o : Option Nat} {ts : List Term} :
    (Term.mk o (.operation .conj ts)).wellScoped known = true ↔
      ∀ t ∈ ts, t.wellScoped (memberVariables ts ++ known) = true := by
  rw [Term.wellScoped, wellScopedAll_iff]

theorem wellScoped_membership {o o' : Option Nat} {name : String} {source : Term} :
    (Term.mk o (.operation .member [.mk o' (.var name), source])).wellScoped known =
      source.wellScoped known := by
  rw [Term.wellScoped]

/-- A term is well scoped if its own variable is known and its parts are well scoped. -/
theorem wellScoped_of_parts {t : Term} (own : ∀ x, t.symbol? = some x → x ∈ known)
    (parts : ∀ (known' : List String), (∀ x ∈ known, x ∈ known') →
      ∀ part ∈ t.parts, part.wellScoped known' = true) : t.wellScoped known = true := by
  have here := parts known fun _ => id
  obtain ⟨o, value⟩ := t
  cases value with
  | var x => simpa [Term.wellScoped] using own x rfl
  | rest x => simpa [Term.wellScoped] using own x rfl
  | list ts => rw [Term.wellScoped, wellScopedAll_iff]; exact here
  | dictionary fields => rw [Term.wellScoped, wellScopedFields_iff]; exact here
  | handle id origin label =>
      cases origin with
      | none => rfl
      | some origin => rw [Term.wellScoped]; exact here origin List.mem_cons_self
  | call name args named =>
      cases named with
      | none => rw [Term.wellScoped, wellScopedAll_iff]; exact here
      | some named =>
          rw [Term.wellScoped, Bool.and_eq_true, wellScopedAll_iff, wellScopedFields_iff]
          exact ⟨fun t member => here t (List.mem_append_left _ member),
            fun t member => here t (List.mem_append_right _ member)⟩
  | pattern shape =>
      cases shape <;> rw [Term.wellScoped, wellScopedFields_iff] <;> exact here
  | operation op args =>
      unfold Term.wellScoped
      split
      all_goals simp_all [Term.parts, wellScopedAll_iff]
  | _ => rfl

end Scopes

/-- The variables of a term are plain ones that are visible, and no host object in it recalls a
call. -/
def Term.Within (visible : String → Prop) (t : Term) : Prop :=
  ∀ s ∈ t.preorder, s.recalls = false ∧ ∀ x, s.symbol? = some x → s.value = .var x ∧ visible x

/-- Terms over some variables, and what is made of them with memberships, conjunctions,
disjunctions and negations. A membership among the parts of a conjunction makes its variable visible
there; a conjunction of one part is as good as the part. -/
inductive Term.ScopedIn : (String → Prop) → Term → Prop
  | within {visible : String → Prop} {t : Term} : t.Within visible → ScopedIn visible t
  | membership {visible : String → Prop} (o o' : Option Nat) (name : String) {source : Term} :
    source.Within visible →
    ScopedIn visible (.mk o (.operation .member [.mk o' (.var name), source]))
  | single {visible : String → Prop} (o : Option Nat) {t : Term} :
    ScopedIn visible t → ScopedIn visible (.mk o (.operation .conj [t]))
  | conj {visible : String → Prop} (o : Option Nat) {ts : List Term} : ts.length ≠ 1 →
    (∀ t ∈ ts, ScopedIn (fun x => visible x ∨ x ∈ memberVariables ts) t) →
    ScopedIn visible (.mk o (.operation .conj ts))
  | disj {visible : String → Prop} (o : Option Nat) {ts : List Term} :
    (∀ t ∈ ts, ScopedIn visible t) → ScopedIn visible (.mk o (.operation .disj ts))
  | neg {visible : String → Prop} (o : Option Nat) {t : Term} :
    ScopedIn visible t → ScopedIn visible (.mk o (.operation .neg [t]))

/-- The name under which a filter shows a variable. -/
def shownName (root x : String) : String := if x == root then thisName else x

/-! ## Terms over visible variables -/

namespace Term.Within

variable {visible visible' : String → Prop} {root : String} {t : Term}

/-- A term is over visible variables if it is none or a visible one and its parts are. -/
theorem iff_parts : t.Within visible ↔
    (t.recalls = false ∧ ∀ x, t.symbol? = some x → t.value = .var x ∧ visible x) ∧
      ∀ part ∈ t.parts, part.Within visible := by
  simp only [Term.Within, mem_preorder (t := t)]
  constructor
  · exact fun all => ⟨all t (.inl rfl), fun part member s inside => all s (.inr ⟨part, member, inside⟩)⟩
  · rintro ⟨own, parts⟩ s (rfl | ⟨part, member, inside⟩)
    · exact own
    · exact parts part member s inside

theorem mono (within : t.Within visible) (wider : ∀ x, visible x → visible' x) :
    t.Within visible' :=
  fun s inside => ⟨(within s inside).1, fun x named =>
    ⟨((within s inside).2 x named).1, wider x ((within s inside).2 x named).2⟩⟩

theorem operation {o : Option Nat} {op : Operator} {args : List Term}
    (all : ∀ t ∈ args, t.Within visible) : (Term.mk o (.operation op args)).Within visible :=
  iff_parts.mpr ⟨⟨rfl, fun _ named => by cases named⟩, all⟩

/-- What collapses is a conjunction of one part; the parts of any other term collapse on their
own. -/
theorem collapse (within : t.Within visible) : t.collapse.Within visible := by
  have each : ∀ {ts : List Term}, (∀ t ∈ ts, t.collapse.Within visible) →
      ∀ t ∈ collapseAll ts, t.Within visible := fun all t member => by
    rw [collapseAll_eq_map] at member
    obtain ⟨t, inside, rfl⟩ := List.mem_map.mp member
    exact all t inside
  have entries : ∀ {fields : List (String × Term)},
      (∀ t ∈ fields.map (·.2), t.collapse.Within visible) →
      ∀ t ∈ (collapseFields fields).map (·.2), t.Within visible := by
    intro fields all
    induction fields with
    | nil => exact fun t member => by cases member
    | cons field fields ih =>
        rw [collapseFields, List.map_cons, List.forall_mem_cons]
        rw [List.map_cons, List.forall_mem_cons] at all
        exact ⟨all.1, ih all.2⟩
  induction t using Term.parts_induction with
  | step t ih =>
      obtain ⟨⟨known, own⟩, parts⟩ := iff_parts.mp within
      have parts := fun part member => ih part member (parts part member)
      clear ih
      have plain : ∀ {u : Term}, u.recalls = false → u.symbol? = none →
          (∀ part ∈ u.parts, part.Within visible) → u.Within visible := fun known none all =>
        iff_parts.mpr ⟨⟨known, fun x named => by rw [none] at named; cases named⟩, all⟩
      obtain ⟨o, value⟩ := t
      cases value with
      | list ts => rw [Term.collapse]; exact plain rfl rfl (each parts)
      | dictionary fields => rw [Term.collapse]; exact plain rfl rfl (entries parts)
      | call name args named =>
          cases named with
          | none => rw [Term.collapse]; exact plain rfl rfl (each parts)
          | some named =>
              rw [Term.collapse]
              refine plain rfl rfl fun t member => ?_
              rcases List.mem_append.mp member with arg | named
              · exact each (fun t inside => parts t (List.mem_append_left _ inside)) t arg
              · exact entries (fun t inside => parts t (List.mem_append_right _ inside)) t named
      | pattern shape =>
          cases shape <;> rw [Term.collapse] <;> exact plain rfl rfl (entries parts)
      | operation op args =>
          by_cases single : op = .conj ∧ args.length = 1
          · obtain ⟨rfl, single⟩ := single
            obtain ⟨t, rfl⟩ := List.length_eq_one_iff.mp single
            rw [Term.collapse]
            exact parts t List.mem_cons_self
          · rw [collapse_operation (by grind), ← collapseAll_eq_map]
            exact plain rfl rfl (each parts)
      | var x => rw [Term.collapse] <;> first | exact within | simp
      | rest x => rw [Term.collapse] <;> first | exact within | simp
      | number n => exact (IsScalar.number o n).collapse ▸ within
      | text s => exact (IsScalar.text o s).collapse ▸ within
      | boolean b => exact (IsScalar.boolean o b).collapse ▸ within
      | handle id origin label => rw [Term.collapse] <;> first | exact within | simp

/-- A renamed term is over the renamed variables. -/
theorem asThis (within : t.Within visible) (shows : ∀ x, visible x → visible' (shownName root x)) :
    (t.asThis root).Within visible' := by
  induction t using Term.parts_induction with
  | step t ih =>
      obtain ⟨⟨known, own⟩, parts⟩ := iff_parts.mp within
      refine iff_parts.mpr ⟨⟨by rw [Term.asThis, recalls_rename]; exact known, ?_⟩, ?_⟩
      · intro x named
        obtain ⟨o, value⟩ := t
        cases value with
        | var y =>
            have shown : (Term.mk o (.var y)).asThis root = .mk o (.var (shownName root y)) := by
              simp [Term.asThis, Term.rename, Term.renameM, shownName]
            rw [shown] at named ⊢
            cases named
            exact ⟨rfl, shows y (own y rfl).2⟩
        | rest y => cases (own y rfl).1
        | call name args given => cases given <;> cases named
        | pattern shape => cases shape <;> cases named
        | _ => cases named
      · intro part member
        rw [Term.asThis, parts_rename known] at member
        obtain ⟨u, inside, rfl⟩ := List.mem_map.mp member
        exact ih u inside (parts u inside)

/-- A term over known variables is well scoped. -/
theorem wellScoped {known : List String} (within : t.Within visible)
    (all : ∀ x, visible x → x ∈ known) : t.wellScoped known = true := by
  induction t using Term.parts_induction generalizing known with
  | step t ih =>
      obtain ⟨⟨_, own⟩, parts⟩ := iff_parts.mp within
      exact wellScoped_of_parts (fun x named => all x (own x named).2) fun known' more part member =>
        ih part member (parts part member) fun x seen => more x (all x seen)

end Term.Within

/-! ## Terms whose memberships introduce variables -/

theorem mem_memberVariables {ts : List Term} {x : String} :
    x ∈ memberVariables ts ↔
      ∃ o o' source, Term.mk o (.operation .member [.mk o' (.var x), source]) ∈ ts := by
  rw [memberVariables, List.mem_filterMap]
  constructor
  · rintro ⟨t, member, named⟩
    split at named
    · cases named
      exact ⟨_, _, _, member⟩
    · cases named
  · rintro ⟨o, o', source, member⟩
    exact ⟨_, member, rfl⟩

/-- A membership keeps its variable when it is simplified. -/
theorem collapse_membership (o o' : Option Nat) (x : String) (source : Term) :
    (Term.mk o (.operation .member [.mk o' (.var x), source])).collapse =
      .mk o (.operation .member [.mk o' (.var x), source.collapse]) := by
  have kept : (Term.mk o' (.var x)).collapse = .mk o' (.var x) := by
    rw [Term.collapse] <;> simp
  rw [collapse_operation (.inl (by simp)), List.map_cons, List.map_cons, List.map_nil, kept]

theorem asThis_membership (root : String) (o o' : Option Nat) (x : String) (source : Term) :
    (Term.mk o (.operation .member [.mk o' (.var x), source])).asThis root =
      .mk o (.operation .member [.mk o' (.var (shownName root x)), source.asThis root]) := by
  have shown : (Term.mk o' (.var x)).asThis root = .mk o' (.var (shownName root x)) := by
    simp [Term.asThis, Term.rename, Term.renameM, shownName]
  rw [Term.asThis, rename_operation, List.map_cons, List.map_cons, List.map_nil]
  show Term.mk o (.operation .member [(Term.mk o' (.var x)).asThis root, source.asThis root]) = _
  rw [shown]

/-- Simplifying keeps what memberships introduce. -/
theorem memberVariables_collapse {ts : List Term} {x : String} (member : x ∈ memberVariables ts) :
    x ∈ memberVariables (ts.map Term.collapse) := by
  obtain ⟨o, o', source, inside⟩ := mem_memberVariables.mp member
  exact mem_memberVariables.mpr ⟨o, o', source.collapse,
    collapse_membership o o' x source ▸ List.mem_map_of_mem inside⟩

theorem memberVariables_asThis {root : String} {ts : List Term} {x : String}
    (member : x ∈ memberVariables ts) :
    shownName root x ∈ memberVariables (ts.map (Term.asThis root)) := by
  obtain ⟨o, o', source, inside⟩ := mem_memberVariables.mp member
  exact mem_memberVariables.mpr ⟨o, o', source.asThis root,
    asThis_membership root o o' x source ▸ List.mem_map_of_mem inside⟩

namespace Term.ScopedIn

variable {visible visible' : String → Prop} {root : String} {t : Term}

theorem mono (placed : t.ScopedIn visible) (wider : ∀ x, visible x → visible' x) :
    t.ScopedIn visible' := by
  induction placed generalizing visible' with
  | within within => exact .within (within.mono wider)
  | membership o o' name source => exact .membership o o' name (source.mono wider)
  | single o _ ih => exact .single o (ih wider)
  | conj o several _ ih =>
      exact .conj o several fun t member => ih t member fun x => .imp_left (wider x)
  | disj o _ ih => exact .disj o fun t member => ih t member wider
  | neg o _ ih => exact .neg o (ih wider)

theorem collapse (placed : t.ScopedIn visible) : t.collapse.ScopedIn visible := by
  induction placed with
  | within within => exact .within within.collapse
  | membership o o' name source =>
      rw [collapse_membership]
      exact .membership o o' name source.collapse
  | single o _ ih =>
      rw [Term.collapse]
      exact ih
  | @conj visible o ts several _ ih =>
      rw [collapse_operation (.inr several)]
      refine .conj o (by rwa [List.length_map]) fun t member => ?_
      obtain ⟨u, inside, rfl⟩ := List.mem_map.mp member
      exact (ih u inside).mono fun x => .imp_right memberVariables_collapse
  | disj o _ ih =>
      rw [collapse_operation (.inl (by simp))]
      refine .disj o fun t member => ?_
      obtain ⟨u, inside, rfl⟩ := List.mem_map.mp member
      exact ih u inside
  | neg o _ ih =>
      rw [collapse_operation (.inl (by simp))]
      exact .neg o ih

/-- Renaming a root renames what is visible. -/
theorem asThis (placed : t.ScopedIn visible)
    (shows : ∀ x, visible x → visible' (shownName root x)) : (t.asThis root).ScopedIn visible' := by
  have operation : ∀ o op args, (Term.mk o (.operation op args)).asThis root =
      .mk o (.operation op (args.map (Term.asThis root))) := fun o op args =>
    rename_operation _ o op args
  induction placed generalizing visible' with
  | within within => exact .within (within.asThis shows)
  | membership o o' name source =>
      rw [asThis_membership]
      exact .membership o o' _ (source.asThis shows)
  | single o _ ih =>
      rw [operation]
      exact .single o (ih shows)
  | @conj visible o ts several _ ih =>
      rw [operation]
      refine .conj o (by rwa [List.length_map]) fun t member => ?_
      obtain ⟨u, inside, rfl⟩ := List.mem_map.mp member
      exact ih u inside fun x => .imp (shows x) memberVariables_asThis
  | disj o _ ih =>
      rw [operation]
      refine .disj o fun t member => ?_
      obtain ⟨u, inside, rfl⟩ := List.mem_map.mp member
      exact ih u inside shows
  | neg o _ ih =>
      rw [operation]
      exact .neg o (ih shows)

/-- And so is what is made of such terms, since memberships introduce their variables. -/
theorem wellScoped {known : List String} (placed : t.ScopedIn visible)
    (all : ∀ x, visible x → x ∈ known) : t.wellScoped known = true := by
  induction placed generalizing known with
  | within within => exact within.wellScoped all
  | membership o o' name source =>
      rw [wellScoped_membership]
      exact source.wellScoped all
  | single o _ ih =>
      rw [wellScoped_conj]
      intro t member
      rw [List.mem_singleton.mp member]
      exact ih fun x seen => List.mem_append_right _ (all x seen)
  | conj o _ _ ih =>
      rw [wellScoped_conj]
      refine fun t member => ih t member fun x seen => ?_
      exact List.mem_append.mpr (seen.symm.imp_right (all x))
  | disj o _ ih =>
      rw [Term.wellScoped, wellScopedAll_iff]
      · exact fun t member => ih t member all
      · simp
      · simp
  | neg o _ ih =>
      rw [Term.wellScoped, wellScopedAll_iff]
      · exact List.forall_mem_singleton.mpr (ih all)
      · simp
      · simp

/-- Scoped terms may be joined by a conjunction. -/
theorem conjunctionOf {ts : List Term} (all : ∀ t ∈ ts, t.ScopedIn visible) :
    (conjunctionOf ts).ScopedIn visible := by
  by_cases single : ts.length = 1
  · obtain ⟨t, rfl⟩ := List.length_eq_one_iff.mp single
    exact .single none (all t List.mem_cons_self)
  · exact .conj none single fun t member => (all t member).mono fun x => .inl

theorem joined {ts : List Term} (all : ∀ t ∈ ts, t.ScopedIn visible) :
    (joined ts).ScopedIn visible := by
  by_cases single : ts.length = 1
  · obtain ⟨t, rfl⟩ := List.length_eq_one_iff.mp single
    exact all t List.mem_cons_self
  · rw [joined_of_length single]
    exact conjunctionOf all

/-- Scoped terms may be negated together. -/
theorem noneOf {ts : List Term} (all : ∀ t ∈ ts, t.ScopedIn visible) :
    (noneOf ts).ScopedIn visible := by
  have parts : ∀ t ∈ withoutRepeats ts, t.ScopedIn visible := fun t member =>
    all t (mem_of_mem_withoutRepeats member)
  rw [PolicyLogic.noneOf]
  split
  · rename_i single same
    rw [same] at parts
    exact .neg none (parts single List.mem_cons_self)
  · exact .neg none (.disj none parts)

end Term.ScopedIn

/-- A path mentions the variable that it starts from. -/
theorem IsPath.within {name : String} {t : Term} (path : IsPath name t) : t.Within (· = name) := by
  induction path with
  | root o =>
      exact Term.Within.iff_parts.mpr
        ⟨⟨rfl, fun x named => by cases named; exact ⟨rfl, rfl⟩⟩, fun part member => by cases member⟩
  | field o o' field _ ih =>
      refine .operation (List.forall_mem_cons.mpr ⟨ih, List.forall_mem_singleton.mpr ?_⟩)
      exact Term.Within.iff_parts.mpr
        ⟨⟨rfl, fun x named => by cases named⟩, fun part member => by cases member⟩

namespace Residual

/-! ## Which variables a scope sees -/

/-- The variable of a scope and those of the scopes around it. -/
inductive Sees (r : Residual) : ScopeId → String → Prop
  | own {scope : ScopeId} {x : String} : r.scopeVar? scope = some x → Sees r scope x
  | outer {scope parent : ScopeId} {name : String} {source : Term} {tag : Option String}
    {x : String} : r.entries[scope]? = some (.subquery parent name source tag) →
    Sees r parent x → Sees r scope x

variable {r : Residual} {b : Bindings}

/-- What is recorded later changes nothing about what a scope sees. -/
theorem Sees.grow {later : Residual} (longer : r.entries <+: later.entries) {scope : ScopeId}
    {x : String} (sees : r.Sees scope x) : later.Sees scope x := by
  obtain ⟨more, grown⟩ := longer
  induction sees with
  | own named =>
      have opened : (r.scopeVar? _).isSome := Option.isSome_iff_exists.mpr ⟨_, named⟩
      have kept := scopeVar?_of_prefix ⟨more, grown⟩ opened
      exact .own (kept.trans named)
  | outer found _ ih =>
      have inside := (List.getElem?_eq_some_iff.mp found).1
      exact .outer (by rw [← grown, List.getElem?_append_left inside, found]) ih

theorem Sees.add {scope : ScopeId} {x : String} (sees : r.Sees scope x) (entry : ResidualEntry) :
    (r.add entry).Sees scope x := sees.grow (List.prefix_append _ _)

/-- Cutting the log back changes nothing about what an older scope sees. -/
theorem Sees.backtrack (built : r.Built) {scope mark : Nat} {x : String} (sees : r.Sees scope x)
    (below : scope < mark) : (r.backtrack mark).Sees scope x := by
  induction sees with
  | own named => exact .own ((scopeVar?_backtrack below).trans named)
  | outer found _ ih =>
      have less := (built.concerns found rfl).1
      exact .outer ((List.getElem?_take_of_lt below).trans found) (ih (Nat.lt_trans less below))

/-- The scope of a root sees the root alone. -/
theorem Sees.eq_of_root {scope : ScopeId} {name : String} {tag : Option String}
    (opened : r.entries[scope]? = some (.root name tag)) {x : String} (sees : r.Sees scope x) :
    x = name := by
  cases sees with
  | own named =>
      rw [scopeVar?, opened] at named
      exact (Option.some.inj named).symm
  | outer found _ =>
      rw [opened] at found
      cases found

/-- A subquery sees its variable and what the scope around it sees. -/
theorem Sees.of_subquery {i : Nat} {parent : ScopeId} {name : String} {source : Term}
    {tag : Option String} (opened : r.entries[i]? = some (.subquery parent name source tag))
    {x : String} (sees : r.Sees i x) : x = name ∨ r.Sees parent x := by
  cases sees with
  | own named =>
      rw [scopeVar?, opened] at named
      exact .inl (Option.some.inj named).symm
  | outer found sees =>
      rw [opened] at found
      cases found
      exact .inr sees

/-- A scope sees what the scopes around it see. -/
theorem Sees.of_isWithin {inner outer : ScopeId} {x : String}
    (within : r.isWithin inner outer = true) (sees : r.Sees outer x) : r.Sees inner x := by
  have up : ∀ fuel inner, r.isWithinFor outer fuel inner = true → r.Sees inner x := by
    intro fuel
    induction fuel with
    | zero => exact fun inner none => by cases none
    | succ fuel ih =>
        intro inner within
        rw [isWithinFor, Bool.or_eq_true, beq_iff_eq] at within
        rcases within with rfl | above
        · exact sees
        · rw [parent?] at above
          cases found : r.entries[inner]? with
          | none => simp [found] at above
          | some entry =>
              cases entry with
              | subquery parent name source tag =>
                  simp only [found] at above
                  exact .outer found (ih parent above)
              | _ => simp [found] at above
  exact up _ inner within

/-- What is recorded in a scope is about the variables that the scope sees. -/
structure Scoped (r : Residual) (b : Bindings) : Prop where
  constraint : ∀ {i : Nat} {scope : ScopeId} {t : Term},
    r.entries[i]? = some (.constraint scope t) → (b.deref t).ScopedIn (r.Sees scope)
  source : ∀ {i : Nat} {parent : ScopeId} {name : String} {source : Term} {tag : Option String},
    r.entries[i]? = some (.subquery parent name source tag) →
    (b.deref source).Within (r.Sees parent)

/-! ## Rendering -/

/-- A subquery is about the variables that the scope around it sees. -/
theorem Scoped.joined_rows (placed : r.Scoped b) (built : r.Built) {i : Nat} {parent : ScopeId}
    {name : String} {source : Term} {tag : Option String}
    (found : r.entries[i]? = some (.subquery parent name source tag))
    (rows : ∀ row ∈ r.rowsOf b i, row.ScopedIn (r.Sees i)) :
    (joined (r.rowsOf b i)).ScopedIn (r.Sees parent) := by
  obtain ⟨others, begins⟩ := (built.rows b).begins found
  by_cases single : (r.rowsOf b i).length = 1
  · have alone : r.rowsOf b i = [membership name (b.deref source)] := by
      rw [begins] at single ⊢
      rw [List.length_eq_zero_iff.mp (Nat.succ.inj single)]
    rw [alone]
    exact .membership none none name (placed.source found)
  · rw [joined_of_length single]
    refine .conj none single fun row inside => (rows row inside).mono fun x sees => ?_
    rcases sees.of_subquery found with rfl | around
    · refine .inr (mem_memberVariables.mpr ⟨none, none, b.deref source, ?_⟩)
      rw [begins]
      exact List.mem_cons_self
    · exact .inl around

/-- The rows of a scope are about the variables that the scope sees. -/
theorem Scoped.rows (placed : r.Scoped b) (built : r.Built) {scope : Nat} {row : Term}
    (member : row ∈ r.rowsOf b scope) : row.ScopedIn (r.Sees scope) := by
  -- The rows of a subquery come later in the log than the scope that it is in.
  induction later : r.size - scope using Nat.strongRecOn generalizing scope row with
  | ind left ih =>
      rcases (built.rows b).origin member with ⟨i, t, found, rfl⟩ |
        ⟨i, name, source, tag, found, rfl⟩ | ⟨parent, name, source, tag, found, rfl⟩
      · exact placed.constraint found
      · have less : scope < i := (built.concerns found rfl).1
        have known : i < r.size := (List.getElem?_eq_some_iff.mp found).1
        have closer : r.size - i < left := by omega
        exact placed.joined_rows built found fun row inside => ih (r.size - i) closer inside rfl
      · exact .membership none none name ((placed.source found).mono fun x => .outer found)

/-- The filter of a root is well scoped. -/
theorem Scoped.filterOf (placed : r.Scoped b) (built : r.Built) {root : ScopeId} {name : String}
    {tag : Option String} (opened : r.entries[root]? = some (.root name tag)) {filter : Term}
    (rendered : r.filterOf b root = .ok filter) : filter.wellScoped [thisName] = true := by
  rw [(filterOf_eq opened rendered).1]
  have rows : ∀ row ∈ (r.rowsOf b root).map Term.collapse, row.ScopedIn (r.Sees root) := by
    intro row member
    obtain ⟨u, inside, rfl⟩ := List.mem_map.mp member
    exact (placed.rows built inside).collapse
  have shows : ((conjunctionOf ((r.rowsOf b root).map Term.collapse)).asThis name).ScopedIn
      (· = thisName) := (Term.ScopedIn.conjunctionOf rows).asThis fun x sees => by
    rw [sees.eq_of_root opened, shownName, if_pos (beq_self_eq_true name)]
  exact shows.wellScoped fun x this => by simp [this]

/-- Of the scopes from before a mark, what was recorded since then concerns one alone. -/
def ConcernsOnly (r : Residual) (mark : Nat) (scope : ScopeId) : Prop :=
  ∀ (i : Nat) (entry : ResidualEntry) (concerned : ScopeId), mark ≤ i →
    r.entries[i]? = some entry → entry.scope? = some concerned → concerned < mark →
    concerned = scope

/-- What was recorded since a mark is about the variables of the scope that it concerned, if this was
the only one from before the mark. -/
theorem Scoped.since (placed : r.Scoped b) (built : r.Built) {mark : Nat} {scope : ScopeId} {t : Term}
    (found : r.since b mark = some (scope, t)) (only : r.ConcernsOnly mark scope) :
    scope < mark ∧ (r.scopeVar? scope).isSome ∧ t.ScopedIn ((r.backtrack mark).Sees scope) := by
  obtain ⟨below, opened⟩ := built.since_opened found
  refine ⟨below, opened, ?_⟩
  rw [since_eq_some found]
  refine Term.ScopedIn.collapse (.joined fun row member => ?_)
  rcases (r.rowsSince b mark).origin member with ⟨i, s, t, late, early, inside, rfl⟩ |
    ⟨i, parent, name, source, tag, late, early, inside, rfl⟩
  · cases only i _ s late inside rfl early
    exact (placed.constraint inside).mono fun x sees => sees.backtrack built early
  · cases only i _ parent late inside rfl early
    exact (placed.joined_rows built inside fun row within => placed.rows built within).mono
      fun x sees => sees.backtrack built early

/-! ## Recording -/

/-- An operand that mentions no variable but that of its scope. -/
def Flat (r : Residual) (b : Bindings) (t : Term) : Prop :=
  (b.deref t).Within fun x => ∃ scope, r.scopeOf? t = some scope ∧ r.scopeVar? scope = some x

/-- The logs that come of leaving variables open, recording relations and class checks of flat
operands, opening subqueries, negating what was recorded about one scope, and cutting back. -/
inductive Recorded (b : Bindings) : Residual → Prop
  | empty : Recorded b {}
  | opened {r : Residual} {name : String} {patterns : List Pattern} : Recorded b r →
    (∀ shape ∈ patterns,
      (b.deref (.operation .isa [.var name, .pattern shape])).Within (· = name)) →
    Recorded b (r.addRoot name patterns)
  | relation {r r' : Residual} {op : Operator} {left right : Term} : Recorded b r →
    r.Flat b left → r.Flat b right → r.constrain op left right = .ok r' → Recorded b r'
  | subquery {r r' : Residual} {kb : KnowledgeBase} {name : String} {source : Term} :
    Recorded b r → r.Flat b source → r.openSubquery kb name source = .ok r' → Recorded b r'
  | ofClass {r r' : Residual} {path : Term} {tag : String} {narrow : Bool} : Recorded b r →
    r.Flat b path → r.recordClass path tag narrow = .ok r' → Recorded b r'
  | negation {r : Residual} {scope : ScopeId} {ts : List Term} : Recorded b r →
    (r.scopeVar? scope).isSome → (∀ t ∈ ts, (b.deref t).ScopedIn (r.Sees scope)) →
    Recorded b (r.add (.constraint scope (noneOf ts)))
  | backtrack {r : Residual} (mark : Nat) : Recorded b r → Recorded b (r.backtrack mark)

theorem deref_operation (b : Bindings) (o : Option Nat) (op : Operator) (args : List Term) :
    b.deref (.mk o (.operation op args)) = .mk o (.operation op (args.map b.deref)) :=
  expand_operation o op args

/-- The negation of some terms together is about what they are about. -/
theorem scopedIn_deref_noneOf {visible : String → Prop} {ts : List Term}
    (all : ∀ t ∈ ts, (b.deref t).ScopedIn visible) : (b.deref (noneOf ts)).ScopedIn visible := by
  have parts : ∀ t ∈ (withoutRepeats ts).map b.deref, t.ScopedIn visible := fun t member => by
    obtain ⟨u, inside, rfl⟩ := List.mem_map.mp member
    exact all u (mem_of_mem_withoutRepeats inside)
  rw [noneOf]
  split
  · rename_i single same
    rw [same] at parts
    rw [Term.operation, Term.of, deref_operation]
    exact .neg none (parts _ List.mem_cons_self)
  · rw [Term.operation, Term.of, deref_operation, List.map_cons, List.map_nil, Term.operation,
      Term.of, deref_operation]
    exact .neg none (.disj none parts)

/-- A term whose variables have no values is dereferenced already. -/
theorem deref_of_unbound {t : Term} (unbound : ∀ x, t.Mentions x → b.value? x = none) :
    b.deref t = t := by
  refine Term.expand_eq_self (fun s inside named => ?_) fun s inside x kind => ?_
  · obtain ⟨x, named⟩ := Option.isSome_iff_exists.mp named
    rw [Bindings.walk_of_unbound named (unbound x ⟨s, inside, named⟩)]
    simp [named]
  · have free := unbound x ⟨s, inside, by rw [Term.symbol?, kind]⟩
    rw [Bindings.walk_of_unbound (t := .var x) rfl free]
    rfl

namespace Scoped

/-- One more constraint on a scope that is open. -/
theorem addConstraint (placed : r.Scoped b) {scope : ScopeId} {t : Term}
    (about : (b.deref t).ScopedIn (r.Sees scope)) : (r.add (.constraint scope t)).Scoped b where
  constraint found := by
    rcases getElem?_add found with early | ⟨rfl, same⟩
    · exact (placed.constraint early).mono fun x sees => sees.add _
    · cases same
      exact about.mono fun x sees => sees.add _
  source found := by
    rcases getElem?_add found with early | ⟨_, same⟩
    · exact (placed.source early).mono fun x sees => sees.add _
    · cases same

/-- A subquery about what its parent sees may be opened. -/
theorem addSubquery (placed : r.Scoped b) {parent : ScopeId} {name : String} {source : Term}
    {tag : Option String} (about : (b.deref source).Within (r.Sees parent)) :
    (r.add (.subquery parent name source tag)).Scoped b where
  constraint found := by
    rcases getElem?_add found with early | ⟨_, same⟩
    · exact (placed.constraint early).mono fun x sees => sees.add _
    · cases same
  source found := by
    rcases getElem?_add found with early | ⟨_, same⟩
    · exact (placed.source early).mono fun x sees => sees.add _
    · cases same
      exact about.mono fun x sees => sees.add _

/-- An entry that concerns no scope says nothing about variables. -/
theorem addOther (placed : r.Scoped b) {entry : ResidualEntry} (other : entry.scope? = none) :
    (r.add entry).Scoped b where
  constraint found := by
    rcases getElem?_add found with early | ⟨_, rfl⟩
    · exact (placed.constraint early).mono fun x sees => sees.add _
    · cases other
  source found := by
    rcases getElem?_add found with early | ⟨_, rfl⟩
    · exact (placed.source early).mono fun x sees => sees.add _
    · cases other

/-- Several constraints on one scope may be recorded. -/
theorem constraints (placed : r.Scoped b) (scope : ScopeId) (ts : List Term)
    (about : ∀ t ∈ ts, (b.deref t).Within (r.Sees scope)) :
    (ts.foldl (fun r t => r.add (.constraint scope t)) r).Scoped b := by
  induction ts generalizing r with
  | nil => exact placed
  | cons t ts ih =>
      exact ih (placed.addConstraint (.within (about t List.mem_cons_self))) fun u member =>
        (about u (List.mem_cons_of_mem _ member)).mono fun x sees => sees.add _

/-- A variable may be left open. -/
theorem addRoot (placed : r.Scoped b) {name : String} {patterns : List Pattern}
    (about : ∀ shape ∈ patterns,
      (b.deref (.operation .isa [.var name, .pattern shape])).Within (· = name)) :
    (r.addRoot name patterns).Scoped b := by
  rw [Residual.addRoot]
  generalize (patterns.findSome? _) = tag
  have sees : (r.add (.root name tag)).Sees r.size name :=
    .own (by rw [scopeVar?, getElem?_add_size]; rfl)
  have opened : (r.add (.root name tag)).Scoped b := placed.addOther rfl
  have recorded := opened.constraints r.size
    (patterns.map fun shape => .operation .isa [.var name, .pattern shape])
    (List.forall_mem_map.mpr fun shape member => (about shape member).mono fun x same => same ▸ sees)
  rwa [List.foldl_map] at recorded

/-- The log may be cut back. -/
theorem backtrack (placed : r.Scoped b) (built : r.Built) (mark : Nat) :
    (r.backtrack mark).Scoped b := by
  have kept : ∀ {i : Nat} {entry : ResidualEntry} {scope : ScopeId},
      (r.backtrack mark).entries[i]? = some entry → entry.scope? = some scope →
      r.entries[i]? = some entry ∧ ∀ x, r.Sees scope x → (r.backtrack mark).Sees scope x := by
    intro i entry scope found concerned
    rw [Residual.backtrack, List.getElem?_take] at found
    split at found
    · have less := (built.concerns found concerned).1
      exact ⟨found, fun x sees => sees.backtrack built (Nat.lt_trans less ‹i < mark›)⟩
    · cases found
  exact ⟨fun found => (placed.constraint (kept found rfl).1).mono (kept found rfl).2,
    fun found => (placed.source (kept found rfl).1).mono (kept found rfl).2⟩

end Scoped

theorem Flat.within {t : Term} (flat : r.Flat b t) {scope : ScopeId}
    (seen : ∀ inner x, r.scopeOf? t = some inner → r.Sees inner x → r.Sees scope x) :
    (b.deref t).Within (r.Sees scope) :=
  flat.mono fun x ⟨inner, found, named⟩ => seen inner x found (.own named)

/-- A path from an open variable, which has no value, is flat. -/
theorem Flat.of_path {name : String} {t : Term} (path : IsPath name t)
    (isOpen : r.isScopeVar name = true) (unbound : b.value? name = none) : r.Flat b t := by
  obtain ⟨scope, opens⟩ := Option.isSome_iff_exists.mp isOpen
  have place : r.scopeOf? t = some scope := by
    induction path with
    | root o => rw [scopeOf?, opens]
    | field o o' field _ ih => rw [scopeOf?, ih]
  have stays : b.deref t = t := deref_of_unbound fun x occurs => by
    obtain ⟨s, inside, named⟩ := occurs
    exact ((path.within s inside).2 x named).2 ▸ unbound
  rw [Flat, stays]
  exact path.within.mono fun x same => ⟨scope, place, same ▸ scopeVar?_of_scopeOfVar? opens⟩

/-- A scalar has no variables. -/
theorem Flat.of_scalar {t : Term} (scalar : IsScalar t) : r.Flat b t := by
  have closed : ∀ s ∈ t.preorder, s.recalls = false ∧ s.symbol? = none := by
    cases scalar <;> simp [Term.preorder, Term.recalls, Term.symbol?, Term.value]
  have stays : b.deref t = t := deref_of_unbound fun x occurs => by
    obtain ⟨s, inside, named⟩ := occurs
    rw [(closed s inside).2] at named
    cases named
  rw [Flat, stays]
  exact fun s inside => ⟨(closed s inside).1, fun x named => by
    rw [(closed s inside).2] at named
    cases named⟩

theorem within_class {visible : String → Prop} (tag : String) :
    (b.deref (.pattern (.ofClass tag))).Within visible := by
  have kept : b.deref (.pattern (.ofClass tag)) = .pattern (.ofClass tag) := rfl
  rw [kept]
  exact Term.Within.iff_parts.mpr
    ⟨⟨rfl, fun x named => by cases named⟩, fun part member => by cases member⟩

/-- A relation belongs to a scope that sees what the scopes of both operands see. -/
theorem sees_of_relationScope {op : Operator} {left right : Term} {scope : ScopeId}
    (found : r.relationScope op left right = .ok scope) {t : Term} (operand : t = left ∨ t = right)
    {inner : ScopeId} {x : String} (place : r.scopeOf? t = some inner) (sees : r.Sees inner x) :
    r.Sees scope x := by
  have around : ∀ {outer : ScopeId}, r.Sees outer x → r.isWithin scope outer = true →
      r.Sees scope x := fun seen within => .of_isWithin within seen
  unfold relationScope at found
  grind

/-- A relation of flat operands is about what its scope sees. -/
theorem Flat.relation {op : Operator} {left right : Term} {scope : ScopeId} (flat : r.Flat b left)
    (flat' : r.Flat b right) (found : r.relationScope op left right = .ok scope) :
    (b.deref (.operation op [left, right])).Within (r.Sees scope) := by
  rw [Term.operation, Term.of, deref_operation]
  refine .operation (List.forall_mem_cons.mpr ⟨?_, List.forall_mem_singleton.mpr ?_⟩)
  · exact flat.within fun inner x => sees_of_relationScope found (.inl rfl)
  · exact flat'.within fun inner x => sees_of_relationScope found (.inr rfl)

/-- What is recorded about flat operands is about the variables that its scope sees. -/
theorem Recorded.scoped (recorded : r.Recorded b) : r.Built ∧ r.Scoped b := by
  induction recorded with
  | empty => exact ⟨.empty, ⟨fun found => by simp at found, fun found => by simp at found⟩⟩
  | opened _ about ih => exact ⟨ih.1.addRoot _ _, ih.2.addRoot about⟩
  | @relation r r' op left right _ flat flat' done ih =>
      refine ⟨ih.1.constrain done, ?_⟩
      rw [Residual.constrain] at done
      cases concerned : r.relationScope op left right with
      | error e => rw [concerned] at done; cases done
      | ok scope =>
          rw [concerned] at done
          cases done
          exact ih.2.addConstraint (.within (flat.relation flat' concerned))
  | @subquery r r' kb name source _ flat done ih =>
      refine ⟨ih.1.openSubquery done, ?_⟩
      rw [Residual.openSubquery] at done
      cases concerned : r.scopeOf? source with
      | none => rw [concerned] at done; cases done
      | some parent =>
          rw [concerned] at done
          cases done
          refine ih.2.addSubquery (flat.within fun inner x place sees => ?_)
          rw [concerned] at place
          cases place
          exact sees
  | @ofClass r r' path tag narrow _ flat done ih =>
      refine ⟨ih.1.recordClass done, ?_⟩
      rw [Residual.recordClass] at done
      cases concerned : r.scopeOf? path with
      | none => rw [concerned] at done; cases done
      | some scope =>
          rw [concerned] at done
          have constrained : (r.add (.constraint scope
              (.operation .isa [path, .pattern (.ofClass tag)]))).Scoped b := by
            refine ih.2.addConstraint (.within ?_)
            rw [Term.operation, Term.of, deref_operation]
            refine .operation (List.forall_mem_cons.mpr ⟨flat.within fun inner x place sees => ?_,
              List.forall_mem_singleton.mpr (within_class tag)⟩)
            rw [concerned] at place
            cases place
            exact sees
          cases narrow with
          | true => cases done; exact constrained.addOther rfl
          | false => cases done; exact constrained
  | negation _ opened about ih =>
      exact ⟨ih.1.constraint _ opened, ih.2.addConstraint (scopedIn_deref_noneOf about)⟩
  | backtrack mark _ ih => exact ⟨ih.1.backtrack mark, ih.2.backtrack ih.1 mark⟩

/-- What a solution of a negated goal recorded, when this concerned one scope. -/
def Noted (r : Residual) (scope : ScopeId) (record : ScopeId × Term) : Prop :=
  record.1 = scope ∧ ∃ (r' : Residual) (b' : Bindings), r'.Recorded b' ∧ r'.backtrack r.size = r ∧
    r'.since b' r.size = some record ∧ r'.ConcernsOnly r.size scope

/-- A negation whose solutions concerned one scope alone is recorded in that scope. -/
theorem Recorded.conclude {s : Store} (recorded : s.residual.Recorded b) {scope : ScopeId}
    {found : List (ScopeId × Term)} (noted : ∀ record ∈ found, s.residual.Noted scope record)
    (unbound : ∀ record ∈ found, ∀ x, record.2.Mentions x → b.value? x = none) :
    (s.conclude found).residual.Recorded b := by
  have each : ∀ record ∈ found, (s.residual.scopeVar? scope).isSome ∧
      (b.deref record.2).ScopedIn (s.residual.Sees scope) := by
    rintro ⟨concerned, t⟩ member
    obtain ⟨rfl, r', b', inner, same, since, only⟩ := noted _ member
    obtain ⟨below, opened, about⟩ := inner.scoped.2.since inner.scoped.1 since only
    rw [← scopeVar?_backtrack below, same] at opened
    rw [same] at about
    rw [deref_of_unbound (unbound _ member)]
    exact ⟨opened, about⟩
  cases found with
  | nil => exact recorded
  | cons record others =>
      obtain ⟨concerned, t⟩ := record
      cases (noted _ List.mem_cons_self).1
      refine .negation recorded (each _ List.mem_cons_self).1 fun u member => ?_
      rcases List.mem_cons.mp member with rfl | later
      · exact (each _ List.mem_cons_self).2
      · obtain ⟨record, inside, rfl⟩ := List.mem_map.mp later
        exact (each record (List.mem_cons_of_mem _ inside)).2

/-- When what is recorded is about flat operands, and each negation about one scope, every variable
in a filter is `_this` or stands inside the conjunction that introduces it. -/
theorem filters_scoped (recorded : r.Recorded b) {root : ScopeId} {name : String}
    {tag : Option String} (opened : r.entries[root]? = some (.root name tag)) {filter : Term}
    (rendered : r.filterOf b root = .ok filter) : filter.wellScoped [thisName] = true :=
  recorded.scoped.2.filterOf recorded.scoped.1 opened rendered

theorem filters_scoped_taggedThrice :
    taggedThrice.Recorded .empty ∧ taggedThrice.entries[0]? = some (.root "r" none) ∧
      ∃ filter, taggedThrice.filterOf .empty 0 = .ok filter ∧
        filter.wellScoped [thisName] = true := by
  have path : ∀ field, IsPath "r" (.operation .dot [.var "r", .text field]) := fun field =>
    .field none none field (.root none)
  have opened : Recorded .empty (({} : Residual).addRoot "r" []) :=
    .opened .empty fun shape member => by cases member
  have tags := @Recorded.subquery .empty _ _ {} "t" _ opened (.of_path (path "tags") rfl rfl) rfl
  have third := @Recorded.relation .empty _ _ .unify (.var "t") _ tags
    (.of_path (.root none) rfl rfl) (.of_scalar (.number none (.integer 3))) rfl
  have recorded : taggedThrice.Recorded .empty :=
    third.relation (.of_path (path "a") rfl rfl) (.of_scalar (.number none (.integer 1))) rfl
  have computed : (taggedThrice.filterOf .empty 0).isOk = true := by decide +kernel
  cases rendered : taggedThrice.filterOf .empty 0 with
  | error e => rw [rendered] at computed; cases computed
  | ok filter => exact ⟨recorded, rfl, filter, rfl, filters_scoped recorded rfl rendered⟩

/-! ## Logs of runs -/

/-- What a run records is about flat operands, or a negation of what its scope sees. -/
inductive FlatEntry (r : Residual) (b : Bindings) : ResidualEntry → Prop
  | root (name : String) (tag : Option String) : FlatEntry r b (.root name tag)
  | relation {scope : ScopeId} {op : Operator} {left right : Term} : r.Flat b left →
    r.Flat b right → r.relationScope op left right = .ok scope →
    FlatEntry r b (.constraint scope (.operation op [left, right]))
  | negation {scope : ScopeId} {ts : List Term} :
    (∀ t ∈ ts, (b.deref t).ScopedIn (r.Sees scope)) → FlatEntry r b (.constraint scope (noneOf ts))
  | subquery {parent : ScopeId} {source : Term} (name : String) (tag : Option String) :
    r.Flat b source → FlatEntry r b (.subquery parent name source tag)
  | narrow (path : Term) (tag : String) : FlatEntry r b (.narrow path tag)

/-- Every entry is of this kind, given what was recorded before it. -/
def RecordsFlat (r : Residual) (b : Bindings) : Prop :=
  ∀ i entry, r.entries[i]? = some entry → FlatEntry (r.backtrack i) b entry

theorem recordsFlat_taggedThrice : taggedThrice.RecordsFlat .empty := by
  have path : ∀ field, IsPath "r" (.operation .dot [.var "r", .text field]) := fun field =>
    .field none none field (.root none)
  have number : ∀ (r : Residual) n, r.Flat .empty (.integer n) := fun r n =>
    .of_scalar (.number none (.integer n))
  intro i entry found
  match i with
  | 0 => cases found; exact .root "r" none
  | 1 => cases found; exact .subquery "t" none (.of_path (path "tags") rfl rfl)
  | 2 => cases found; exact .relation (.of_path (.root none) rfl rfl) (number _ 3) rfl
  | 3 => cases found; exact .relation (.of_path (path "a") rfl rfl) (number _ 1) rfl
  | i + 4 => cases found

/-- What came first in such a log is such a log. -/
theorem RecordsFlat.shorter {later : Residual} (flat : later.RecordsFlat b)
    (longer : r.entries <+: later.entries) : r.RecordsFlat b := by
  intro i entry found
  obtain ⟨more, grown⟩ := longer
  have inside := (List.getElem?_eq_some_iff.mp found).1
  have before : r.backtrack i = later.backtrack i := by
    rw [backtrack, backtrack, ← grown, List.take_append_of_le_length (Nat.le_of_lt inside)]
  rw [before]
  refine flat i entry ?_
  rw [← grown, List.getElem?_append_left inside, found]

/-- What is recorded next is of this kind too. -/
theorem RecordsFlat.next {later : Residual} {entry : ResidualEntry} (flat : later.RecordsFlat b)
    (longer : (r.add entry).entries <+: later.entries) : FlatEntry r b entry := by
  have last := flat.shorter longer r.entries.length entry (by simp [add])
  have before : (r.add entry).backtrack r.entries.length = r := by
    rw [backtrack, add, List.take_left]
  rwa [before] at last

/-- A negation has one operand. -/
theorem noneOf_ne_binary (ts : List Term) (op : Operator) (left right : Term) :
    noneOf ts ≠ .operation op [left, right] := by
  rw [noneOf]
  split <;> simp [Term.operation, Term.of]

/-- A relation of two operands is of this kind if the operands are flat. -/
theorem FlatEntry.operands {scope : ScopeId} {op : Operator} {left right : Term}
    (flat : FlatEntry r b (.constraint scope (.operation op [left, right]))) :
    r.Flat b left ∧ r.Flat b right := by
  generalize same : Term.operation op [left, right] = t at flat
  cases flat with
  | relation flatLeft flatRight _ =>
      cases same
      exact ⟨flatLeft, flatRight⟩
  | negation _ => exact absurd same.symm (noneOf_ne_binary _ _ _ _)

/-- A flat operand that is no path has no variables. -/
theorem Flat.of_scopeless {t : Term} (flat : r.Flat b t) (scopeless : r.scopeOf? t = none)
    (visible : String → Prop) : (b.deref t).Within visible :=
  flat.mono fun x ⟨scope, found, _⟩ => by cases scopeless.symm.trans found

/-- Leaving a variable open records every class that it is declared with. -/
theorem mem_addRoot (r : Residual) (name : String) {patterns : List Pattern} {shape : Pattern}
    (declared : shape ∈ patterns) :
    .constraint r.size (.operation .isa [.var name, .pattern shape]) ∈
      (r.addRoot name patterns).entries := by
  have constraints : ∀ (scope : ScopeId) (patterns : List Pattern) (r : Residual),
      (patterns.foldl (fun r shape =>
        r.add (.constraint scope (.operation .isa [.var name, .pattern shape]))) r).entries =
      r.entries ++ patterns.map fun shape =>
        .constraint scope (.operation .isa [.var name, .pattern shape]) := by
    intro scope patterns
    induction patterns with
    | nil => simp
    | cons shape patterns ih =>
        intro r
        rw [List.foldl_cons, ih, add, List.map_cons, List.append_assoc]
        rfl
  rw [addRoot, constraints]
  exact List.mem_append_right _ (List.mem_map_of_mem declared)

/-- The classes that a variable is declared with are about this variable. -/
theorem Recorded.root {name : String} {patterns : List Pattern} (recorded : r.Recorded b)
    (flat : (r.addRoot name patterns).RecordsFlat b) : (r.addRoot name patterns).Recorded b := by
  refine .opened recorded fun shape declared => ?_
  obtain ⟨i, found⟩ := List.mem_iff_getElem?.mp (mem_addRoot r name declared)
  obtain ⟨flatVar, flatShape⟩ := (flat i _ found).operands
  rw [Term.operation, Term.of, deref_operation]
  refine .operation (List.forall_mem_cons.mpr ⟨flatVar.mono ?_, List.forall_mem_singleton.mpr ?_⟩)
  · rintro x ⟨scope, place, named⟩
    exact Option.some.inj (named.symm.trans (scopeVar?_of_scopeOfVar? place))
  · exact flatShape.of_scopeless rfl _

end Residual

/-- The log of constraints that a run has written is one of those that are made of flat operands if
its entries are. -/
theorem Store.Written.recorded {kb : KnowledgeBase} {initial : List (String × Term)} {s : Store}
    {b : Bindings} (written : Store.Written kb initial s) (flat : s.residual.RecordsFlat b) :
    s.residual.Recorded b := by
  induction written with
  | given given =>
      induction given with
      | nothing => exact .empty
      | value _ ih => exact ih flat
      | @root _ s name _ patterns _ _ ih =>
          obtain ⟨tag, more, grown⟩ := Machine.entries_addRoot s.residual name patterns
          exact (ih (flat.shorter ⟨_, grown.symm⟩)).root flat
      | abort _ ih => exact ih flat
  | bind _ _ _ ih => exact ih flat
  | @relate s op left right residual _ done ih =>
      have before := ih (flat.shorter (Residual.continues_constrain done).longer)
      have whole := done
      rw [Residual.constrain] at done
      cases concerned : s.residual.relationScope op left right with
      | error e => rw [concerned] at done; cases done
      | ok scope =>
          rw [concerned] at done
          cases done
          obtain ⟨flatLeft, flatRight⟩ := (flat.next (List.prefix_refl _)).operands
          exact .relation before flatLeft flatRight whole
  | @subquery s t source name residual _ _ _ done ih =>
      have before := ih (flat.shorter (Residual.continues_openSubquery done).longer)
      have whole := done
      rw [Residual.openSubquery] at done
      cases concerned : s.residual.scopeOf? source with
      | none => rw [concerned] at done; cases done
      | some parent =>
          rw [concerned] at done
          cases done
          cases flat.next (List.prefix_refl _) with
          | subquery _ _ flatSource => exact .subquery before flatSource whole
  | @classify s path tag narrow residual _ done ih =>
      have before := ih (flat.shorter (Residual.continues_recordClass done).longer)
      have whole := done
      rw [Residual.recordClass] at done
      cases concerned : s.residual.scopeOf? path with
      | none => rw [concerned] at done; cases done
      | some scope =>
          rw [concerned] at done
          cases done
          have longer : (s.residual.add (.constraint scope
              (.operation .isa [path, .pattern (.ofClass tag)]))).entries <+:
              (if narrow = true then (s.residual.add (.constraint scope
                (.operation .isa [path, .pattern (.ofClass tag)]))).add (.narrow path tag)
              else s.residual.add (.constraint scope
                (.operation .isa [path, .pattern (.ofClass tag)]))).entries := by
            split
            · exact List.prefix_append _ _
            · exact List.prefix_refl _
          exact .ofClass before (flat.next longer).operands.1 whole
  | @negation s scope t _ opened ih =>
      have before := ih (flat.shorter (List.prefix_append _ _))
      cases flat.next (List.prefix_refl _) with
      | @relation _ op left right flatLeft flatRight concerned =>
          refine @Residual.Recorded.relation _ _ _ op _ _ before flatLeft flatRight ?_
          rw [Residual.constrain, concerned]
          rfl
      | negation about => exact .negation before opened about
  | abort _ ih => exact ih flat
  | alike _ _ ih => exact ih flat

/-- So it is for what calls from outside can lead to. -/
theorem Machine.ReachableWith.recorded {m : Machine} {initial : List (String × Term)}
    (reachable : m.ReachableWith initial) (flat : m.residual.RecordsFlat m.bindings) :
    m.residual.Recorded m.bindings :=
  reachable.orderly.1.accounted.written.recorded flat

/-- And then the filter of every open variable is well scoped. -/
theorem Machine.ReachableWith.wellScoped {m : Machine} {initial : List (String × Term)}
    (reachable : m.ReachableWith initial) (flat : m.residual.RecordsFlat m.bindings)
    {root : ScopeId} {name : String} {tag : Option String}
    (opened : m.residual.entries[root]? = some (.root name tag)) {filter : Term}
    (rendered : m.residual.filterOf m.bindings root = .ok filter) :
    filter.wellScoped [thisName] = true := by
  obtain ⟨built, placed⟩ := (reachable.recorded flat).scoped
  exact placed.filterOf built opened rendered

/-- The variable of a subquery occurs outside of the conjunction that introduces it after a negation
that concerned the root first, and in a list that is related to a path of the root. -/
theorem scopes_confused :
    (∃ bindings filter,
      firstReport? "t in r.tags and t.c = 3 and not (r.a = 1 and t.b = 2)" "r" 200 = some bindings ∧
        bindings.lookup "r" = some filter ∧ filter.wellScoped [thisName] = false) ∧
    ∃ bindings filter,
      firstReport? "t in r.tags and t.c = 3 and r.x = [t.c]" "r" 200 = some bindings ∧
        bindings.lookup "r" = some filter ∧ filter.wellScoped [thisName] = false := by
  have misplaced : ∀ reported : Option (List (String × Term)),
      ((reported.bind (·.lookup "r")).any fun filter => !filter.wellScoped [thisName]) = true →
      ∃ bindings filter, reported = some bindings ∧ bindings.lookup "r" = some filter ∧
        filter.wellScoped [thisName] = false := by
    intro reported computed
    cases found : reported.bind (·.lookup "r") with
    | none => rw [found] at computed; cases computed
    | some filter =>
        obtain ⟨bindings, rfl, shown⟩ := Option.bind_eq_some_iff.mp found
        rw [found] at computed
        exact ⟨bindings, filter, rfl, shown, by simpa using computed⟩
  exact ⟨misplaced _ (by decide +kernel), misplaced _ (by decide +kernel)⟩

end PolicyLogic
