import PolicyLogic.Proofs.Binding.Acyclic
import PolicyLogic.Proofs.Term.Expand

/-!
# Dereferencing terms with rest variables

In a log without loops dereferencing satisfies two equations for every term. A bound variable stands
for what its value stands for (`Loopless.deref_bound`), and a term is dereferenced by replacing each
variable by what it stands for, where a rest variable that stands for a list is replaced by the
elements of that list (`deref_eq_expand_spliced`). From these:

* dereferencing twice is dereferencing once (`Loopless.deref_idempotent`);
* a rest variable is spliced into its list however long the chain of variables to its elements is
  (`Loopless.deref_rest`);
* what is dereferenced early may be dereferenced again under more bindings
  (`Loopless.deref_later`).

The last needs that walking keeps apart the rest variables of lists and their plain elements
(`KeepsRests`). A rest variable that is bound to a plain variable turns into an element when it is
dereferenced before that variable has a value, and is spliced when it is dereferenced after.
-/

namespace PolicyLogic

namespace Bindings

/-- Values only use variables of lower rank. The call that a host object recalls does not count. -/
def Layered (b : Bindings) (rank : String → Nat) : Prop :=
  ∀ x u, b.value? x = some u → ∀ y, u.Uses y → rank y < rank x

/-- No variable leads back to itself when values are looked into. -/
def Loopless (b : Bindings) : Prop := ∃ rank, b.Layered rank

/-- The elements that a rest variable stands for. -/
def spliced (b : Bindings) (name : String) : Option (List Term) := (b.deref (.var name)).elements?

variable {b : Bindings} {rank : String → Nat}

/-- Layered values descend. -/
theorem Layered.descends (layered : b.Layered rank) : b.Descends rank :=
  fun x u bound y named => layered x u bound y (uses_of_symbol? named)

/-- Where there are no loops every walk ends. -/
theorem Loopless.walkable (loopless : b.Loopless) : b.Walkable :=
  loopless.imp fun _ layered => layered.descends

/-- An acyclic log has no loops. -/
theorem Acyclic.loopless (acyclic : b.Acyclic) : b.Loopless :=
  acyclic.imp fun _ ranked x u bound y used => ranked x u bound y used.mentions

/-- The bindings of a log, one by one, show that it has no loops. -/
theorem loopless_of_log (rank : String → Nat)
    (each : ∀ binding ∈ b.log.toList, ∀ y ∈ binding.2.variableNames, rank y < rank binding.1) :
    b.Loopless := by
  refine ⟨rank, fun x u bound y used => ?_⟩
  rw [value?_eq, valuesIn] at bound
  have member := List.mem_of_head? bound
  simp only [List.mem_reverse, List.mem_map, List.mem_filter] at member
  obtain ⟨⟨name, _⟩, ⟨inside, named⟩, rfl⟩ := member
  have same : name = x := by simpa using named
  exact same ▸ each _ inside y (mem_variableNames.mpr used.mentions)

/-- Induction along a log without loops: over the parts of a term and the values of variables. -/
theorem Loopless.induction (loopless : b.Loopless) {P : Term → Prop}
    (parts : ∀ t, t.symbol? = none → (∀ part ∈ t.openParts, P part) → P t)
    (unbound : ∀ t x, t.symbol? = some x → b.value? x = none → P t)
    (bound : ∀ t x u, t.symbol? = some x → b.value? x = some u → P u → P t) (t : Term) : P t := by
  obtain ⟨rank, layered⟩ := loopless
  obtain ⟨k, below⟩ := exists_rank_bound rank t
  replace below : ∀ x, t.Uses x → rank x < k := fun x used => below x used.mentions
  induction k using Nat.strong_induction_on generalizing t with
  | _ k ih =>
      induction t using Term.openParts_induction with
      | step t inner =>
          cases named : t.symbol? with
          | none =>
              exact parts t named fun part member =>
                inner part member fun x used => below x (uses_of_part member used)
          | some x =>
              cases value : b.value? x with
              | none => exact unbound t x named value
              | some u =>
                  exact bound t x u named value
                    (ih (rank x) (below x (uses_of_symbol? named)) u (layered x u value))

/-! ## The two equations -/

/-- The elements that a rest variable stands for, dereferenced through values nested at most so
deep. -/
def splicedFor (b : Bindings) (n : Nat) (name : String) : Option (List Term) :=
  match (b.walk (.var name)).value with
  | .list elements => (b.derefFor n (.list elements)).elements?
  | _ => none

theorem derefFor_succ_eq (n : Nat) (t : Term) :
    b.derefFor (n + 1) t = t.expand (b.settledFor n) (b.splicedFor n) := rfl

theorem deref_eq_expand_for (t : Term) :
    b.deref t = t.expand (b.settledFor b.size) (b.splicedFor b.size) := rfl

/-- A variable is dereferenced to what it settles at. -/
theorem deref_symbol {t : Term} {x : String} (named : t.symbol? = some x) :
    b.deref t = b.settledFor b.size t := by
  rw [deref_eq_expand_for, expand_symbol named]

/-- A variable without a value stays. -/
theorem deref_unbound {t : Term} {x : String} (named : t.symbol? = some x)
    (unbound : b.value? x = none) : b.deref t = t := by
  rw [deref_symbol named, settledFor, walk_of_unbound named unbound, named]
  rfl

theorem symbol?_derefFor {n : Nat} {t : Term} (plain : t.symbol? = none) :
    (b.derefFor n t).symbol? = none := by
  cases n with
  | zero => exact plain
  | succ n => rw [derefFor_succ_eq, symbol?_expand plain]

theorem elements?_derefFor {n : Nat} {t : Term} (plain : t.symbol? = none)
    (single : t.elements? = none) : (b.derefFor n t).elements? = none := by
  cases n with
  | zero => exact single
  | succ n => rw [derefFor_succ_eq, elements?_expand plain single]

theorem elements?_derefFor_list (n : Nat) (o o' : Option Nat) (ts : List Term) :
    (b.derefFor n (.mk o (.list ts))).elements? = (b.derefFor n (.mk o' (.list ts))).elements? := by
  cases n <;> rfl

/-- A rest variable is spliced if its walk ends at a list. -/
theorem splicedFor_eq (n : Nat) (name : String) : b.splicedFor n name =
    if (b.walk (.var name)).symbol?.isSome then none
    else (b.derefFor n (b.walk (.var name))).elements? := by
  rw [splicedFor]
  generalize b.walk (.var name) = walked
  cases named : walked.symbol? with
  | some x =>
      obtain ⟨o, value⟩ := walked
      cases value <;> first | rfl | cases named
  | none =>
      cases elements : walked.elements? with
      | some ts =>
          obtain ⟨o, rfl⟩ := exists_list_of_elements? elements
          exact elements?_derefFor_list n none o ts
      | none =>
          simp only [Option.isSome_none, Bool.false_eq_true, if_false]
          rw [elements?_derefFor named elements]
          obtain ⟨o, value⟩ := walked
          cases value <;> first | rfl | cases elements

theorem splicedFor_size : b.splicedFor b.size = b.spliced := by
  funext name
  rw [splicedFor_eq, spliced, deref_symbol (t := .var name) rfl, settledFor]
  split
  · rename_i named
    obtain ⟨x, named⟩ := Option.isSome_iff_exists.mp named
    rw [elements?_of_symbol? named]
  · rfl

/-- A term is dereferenced by replacing each of its variables by what the variable stands for. -/
theorem deref_eq_expand_spliced (t : Term) : b.deref t = t.expand b.deref b.spliced := by
  rw [deref_eq_expand_for, splicedFor_size]
  refine Term.expand_congr (fun s _ named => ?_) fun _ _ _ _ => rfl
  obtain ⟨x, named⟩ := Option.isSome_iff_exists.mp named
  exact (deref_symbol named).symm

/-- What a walk from a bound variable reaches uses variables of lower rank. -/
theorem Layered.walk_uses (layered : b.Layered rank) {t : Term} {x : String}
    (named : t.symbol? = some x) {u : Term} (bound : b.value? x = some u) :
    ∀ y, (b.walk t).Uses y → rank y < rank x := by
  have walkable : b.Walkable := ⟨rank, layered.descends⟩
  rw [walkable.walk_of_bound named bound]
  revert named bound
  refine walkable.walk_induction (P := fun v w => ∀ {t : Term} {x : String}, t.symbol? = some x →
    b.value? x = some v → ∀ y, w.Uses y → rank y < rank x) ?_ ?_ u
  · exact fun v _ t x _ bound => layered x v bound
  · intro v z w named' bound' ih t x _ bound y used
    exact (ih named' bound' y used).trans (layered x v bound z (uses_of_symbol? named'))

/-- With more nested values than bound variables below it, dereferencing comes to its end. -/
theorem Layered.derefFor_stable (layered : b.Layered rank) :
    ∀ (n k : Nat) (t : Term), (∀ x, t.Uses x → rank x < k) → b.boundBelow rank k < n →
      b.derefFor (n + 1) t = b.derefFor n t := by
  intro n
  induction n with
  | zero => intro k t _ few; omega
  | succ n ih =>
      intro k t low few
      have walked : ∀ s x, s.symbol? = some x → rank x < k → (b.walk s).symbol? = none →
          b.derefFor (n + 1) (b.walk s) = b.derefFor n (b.walk s) := by
        intro s x named less value
        cases bound : b.value? x with
        | none =>
            rw [walk_of_unbound named bound, named] at value
            cases value
        | some u =>
            have fewer := boundBelow_lt bound less
            exact ih (rank x) _ (layered.walk_uses named bound) (by omega)
      rw [derefFor_succ_eq, derefFor_succ_eq]
      refine Term.expand_congr (fun s shown named => ?_) fun s x shown kind => ?_
      · obtain ⟨x, named⟩ := Option.isSome_iff_exists.mp named
        rw [settledFor, settledFor]
        split
        · rfl
        · rename_i value
          exact walked s x named (low x ⟨s, shown, named⟩) (by simpa using value)
      · rw [splicedFor_eq, splicedFor_eq]
        split
        · rfl
        · rename_i value
          have named : s.symbol? = some x := by rw [Term.symbol?, kind]
          rw [walked (.var x) x rfl (low x ⟨s, shown, named⟩) (by simpa using value)]

/-- A bound variable stands for what its value stands for. -/
theorem Loopless.deref_bound (loopless : b.Loopless) {t u : Term} {x : String}
    (named : t.symbol? = some x) (bound : b.value? x = some u) : b.deref t = b.deref u := by
  obtain ⟨rank, layered⟩ := id loopless
  have follow := loopless.walkable.walk_of_bound named bound
  rw [deref_symbol named, settledFor, follow]
  cases named' : u.symbol? with
  | some y => rw [deref_symbol named', settledFor]
  | none =>
      have few := (boundBelow_lt bound (Nat.lt_succ_self (rank x))).trans_le
        (b.boundBelow_le_size rank _)
      rw [walk_of_not_symbol named', named']
      exact (layered.derefFor_stable b.size (rank x) u (layered x u bound) few).symm

/-- Walking first makes no difference. -/
theorem Loopless.deref_walk_eq (loopless : b.Loopless) (t : Term) : b.deref (b.walk t) = b.deref t :=
  loopless.walkable.walk_induction (P := fun t w => b.deref w = b.deref t) (fun _ _ => rfl)
    (fun _ _ _ named bound ih => ih.trans (loopless.deref_bound named bound).symm) t

/-- What a rest variable is spliced as are the elements of what it stands for. -/
theorem Loopless.elements?_deref_rest (loopless : b.Loopless) {t : Term} {x : String}
    (named : t.symbol? = some x) : (b.deref t).elements? = b.spliced x := by
  rw [spliced]
  cases bound : b.value? x with
  | none =>
      rw [deref_unbound named bound, deref_unbound (t := .var x) rfl bound, elements?_of_symbol? named]
      rfl
  | some u =>
      rw [loopless.deref_bound named bound, loopless.deref_bound (t := .var x) rfl bound]

/-- The elements of a list are dereferenced with rests spliced in. -/
theorem deref_elements (o : Option Nat) (ts : List Term) :
    b.deref (.mk o (.list ts)) = .mk o (.list (expandElements b.deref b.spliced ts)) := by
  rw [deref_eq_expand_spliced, expand_elements]

theorem expand_deref_spliced : Term.expand b.deref b.spliced = b.deref :=
  funext fun t => (deref_eq_expand_spliced t).symm

/-- A term that is no variable and no list is dereferenced part by part. -/
theorem deref_eq_withParts {t : Term} (plain : t.symbol? = none) (single : t.elements? = none) :
    b.deref t = t.withParts (t.openParts.map b.deref) := by
  rw [deref_eq_expand_spliced, expand_eq_withParts plain single, expand_deref_spliced]

theorem symbol?_deref {t : Term} (plain : t.symbol? = none) : (b.deref t).symbol? = none := by
  rw [deref_eq_expand_spliced, symbol?_expand plain]

/-! ## Dereferencing twice -/

/-- What remains after dereferencing has no value. -/
theorem Loopless.unbound_of_uses_deref (loopless : b.Loopless) {t : Term} {y : String}
    (used : (b.deref t).Uses y) : b.value? y = none := by
  revert used
  refine loopless.induction (P := fun t => (b.deref t).Uses y → b.value? y = none) ?_ ?_ ?_ t
  · intro t plain ih used
    cases elements : t.elements? with
    | some ts =>
        obtain ⟨o, rfl⟩ := exists_list_of_elements? elements
        rw [deref_elements, uses_iff, openParts_list] at used
        rcases used with named | ⟨part, member, used⟩
        · cases named
        · rcases mem_expandElements member with ⟨s, inside, rfl⟩ | ⟨s, inside, x, us, kind, stands, found⟩
          · rw [expand_deref_spliced] at used
            exact ih s inside used
          · -- The part is an element of the list that the rest variable `s` stands for.
            have named : s.symbol? = some x := by rw [Term.symbol?, kind]
            rw [← loopless.elements?_deref_rest named] at stands
            obtain ⟨o', same⟩ := exists_list_of_elements? stands
            refine ih s inside ?_
            rw [same]
            exact uses_of_part found used
    | none =>
        rw [deref_eq_withParts plain elements, uses_iff, symbol?_withParts, plain,
          openParts_withParts (List.length_map _)] at used
        rcases used with named | ⟨_, member, used⟩
        · cases named
        · obtain ⟨part, inside, rfl⟩ := List.mem_map.mp member
          exact ih part inside used
  · intro t x named unbound used
    rw [deref_unbound named unbound, uses_symbol_iff named] at used
    exact used ▸ unbound
  · intro t x u named bound ih used
    rw [loopless.deref_bound named bound] at used
    exact ih used

/-- A term whose variables have no values stays. -/
theorem deref_eq_self {t : Term} (settled : ∀ x, t.Uses x → b.value? x = none) : b.deref t = t := by
  rw [deref_eq_expand_spliced]
  refine Term.expand_eq_self_of_shows (fun s shown named => ?_) fun s x shown kind => ?_
  · obtain ⟨x, named⟩ := Option.isSome_iff_exists.mp named
    exact deref_unbound named (settled x ⟨s, shown, named⟩)
  · have named : s.symbol? = some x := by rw [Term.symbol?, kind]
    rw [spliced, deref_unbound (t := .var x) rfl (settled x ⟨s, shown, named⟩)]
    rfl

/-- Dereferencing twice is dereferencing once. -/
theorem Loopless.deref_idempotent (loopless : b.Loopless) (t : Term) :
    b.deref (b.deref t) = b.deref t :=
  deref_eq_self fun _ used => loopless.unbound_of_uses_deref used

/-! ## Splicing -/

theorem deref_list_append {init : List Term} (plain : ∀ t ∈ init, ∀ x, t.value ≠ .rest x)
    (o : Option Nat) (ts : List Term) :
    b.deref (.mk o (.list (init ++ ts))) =
      .mk o (.list (init.map b.deref ++ expandElements b.deref b.spliced ts)) := by
  rw [deref_elements, expandElements_append plain, expand_deref_spliced]

/-- Without rest variables the elements are dereferenced in their places. -/
theorem deref_list_plain {ts : List Term} (plain : ∀ t ∈ ts, ∀ x, t.value ≠ .rest x)
    (o : Option Nat) : b.deref (.mk o (.list ts)) = .mk o (.list (ts.map b.deref)) := by
  rw [deref_elements, expandElements_eq_map plain, expand_deref_spliced]

/-- However a rest variable is bound to a list, the elements of that list take its place. -/
theorem Loopless.deref_rest (loopless : b.Loopless) {init : List Term}
    (plain : ∀ t ∈ init, ∀ x, t.value ≠ .rest x) (o : Option Nat) {e : Term} {r : String}
    (kind : e.value = .rest r) {ts : List Term} (reached : (b.walk e).elements? = some ts) :
    ∃ spread, b.deref (.list ts) = .list spread ∧
      b.deref (.mk o (.list (init ++ [e]))) = .mk o (.list (init.map b.deref ++ spread)) := by
  obtain ⟨o', walked⟩ := exists_list_of_elements? reached
  have named : e.symbol? = some r := by rw [Term.symbol?, kind]
  have stands : b.spliced r = some (expandElements b.deref b.spliced ts) := by
    rw [← loopless.elements?_deref_rest named, ← loopless.deref_walk_eq, walked, deref_elements]
    rfl
  refine ⟨_, deref_elements none ts, ?_⟩
  rw [deref_list_append plain, expandElements_rest kind, stands]
  rfl

/-! ## Dereferencing early -/

/-- In the lists that a term shows rest variables stand at the end only, and walking leads neither
from a rest variable to a plain variable without a value nor from another element to a rest
variable. -/
def KeepsRests (b : Bindings) (t : Term) : Prop :=
  ∀ s, t.Shows s → ∀ ts, s.elements? = some ts →
    (∀ e ∈ ts.dropLast, ∀ x, e.value ≠ .rest x) ∧
    (∀ e ∈ ts, ∀ x, e.value = .rest x → ∀ y, (b.walk e).value ≠ .var y) ∧
    ∀ e ∈ ts, (∀ x, e.value ≠ .rest x) → ∀ y, (b.walk e).value ≠ .rest y

theorem keepsRests_of_parts {t : Term} (parts : ∀ part ∈ t.openParts, b.KeepsRests part)
    (own : ∀ ts, t.elements? = some ts → (∀ e ∈ ts.dropLast, ∀ x, e.value ≠ .rest x) ∧
      (∀ e ∈ ts, ∀ x, e.value = .rest x → ∀ y, (b.walk e).value ≠ .var y) ∧
      ∀ e ∈ ts, (∀ x, e.value ≠ .rest x) → ∀ y, (b.walk e).value ≠ .rest y) :
    b.KeepsRests t := by
  intro s shown
  rcases shown.cases_self with rfl | ⟨part, member, inside⟩
  · exact own
  · exact parts part member s inside

/-- The parts of a term that keeps its rests keep theirs. -/
theorem KeepsRests.part {t part : Term} (keeps : b.KeepsRests t) (member : part ∈ t.openParts) :
    b.KeepsRests part :=
  fun s shown => keeps s (.part member shown)

/-- What a term stands for is a variable only if a walk from the term ends at it. -/
theorem Loopless.deref_eq_walk (loopless : b.Loopless) {t : Term} {y : String}
    (named : (b.deref t).symbol? = some y) : b.deref t = b.walk t := by
  rw [← loopless.deref_walk_eq] at named ⊢
  cases last : (b.walk t).symbol? with
  | none =>
      rw [symbol?_deref last] at named
      cases named
  | some x => exact deref_unbound last (loopless.walkable.walk_settled last)

/-- What is no list becomes none. -/
theorem elements?_deref {t : Term} (plain : t.symbol? = none) (single : t.elements? = none) :
    (b.deref t).elements? = none := by
  rw [deref_eq_expand_spliced, elements?_expand plain single]

variable {b' : Bindings}

/-- The end of a list may be dereferenced early, if that does not turn a rest variable into a plain
variable or another element into a rest variable. -/
theorem Loopless.expandElements_deref (loopless : b.Loopless) (loopless' : b'.Loopless) {e : Term}
    (same : b'.deref (b.deref e) = b'.deref e)
    (fromRest : ∀ x, e.value = .rest x → ∀ y, (b.walk e).value ≠ .var y)
    (toRest : (∀ x, e.value ≠ .rest x) → ∀ y, (b.walk e).value ≠ .rest y) :
    expandElements b'.deref b'.spliced (expandElements b.deref b.spliced [e]) =
      expandElements b'.deref b'.spliced [e] := by
  by_cases plain : ∀ x, e.value ≠ .rest x
  · have plain' : ∀ y, (b.deref e).value ≠ .rest y := fun y kind => by
      have named : (b.deref e).symbol? = some y := by rw [Term.symbol?, kind]
      exact toRest plain y (loopless.deref_eq_walk named ▸ kind)
    rw [expandElements_plain plain, expandElements_plain plain, expand_deref_spliced,
      expandElements_plain plain', expand_deref_spliced, same]
  · push Not at plain
    obtain ⟨x, kind⟩ := plain
    have named : e.symbol? = some x := by rw [Term.symbol?, kind]
    have early := loopless.elements?_deref_rest named
    have late := loopless'.elements?_deref_rest named
    rw [expandElements_rest kind, expandElements_rest kind, expand_deref_spliced,
      expand_deref_spliced, ← early, ← late, ← same]
    cases elements : (b.deref e).elements? with
    | some spread =>
        obtain ⟨o, list⟩ := exists_list_of_elements? elements
        rw [list, deref_elements]
        rfl
    | none =>
        rw [Option.getD_none]
        by_cases plain' : ∀ y, (b.deref e).value ≠ .rest y
        · -- A walk from a rest variable that does not end at one ends at a value.
          have value : (b.deref e).symbol? = none := by
            cases named' : (b.deref e).symbol? with
            | none => rfl
            | some y =>
                have walked := loopless.deref_eq_walk named'
                rw [walked] at plain' named'
                generalize b.walk e = w at plain' named' fromRest
                obtain ⟨o, v⟩ := w
                cases v with
                | var y => exact absurd rfl (fromRest x kind y)
                | rest y => exact absurd rfl (plain' y)
                | _ => cases named'
          rw [expandElements_plain plain', expand_deref_spliced, elements?_deref value elements]
          rfl
        · push Not at plain'
          obtain ⟨y, kind'⟩ := plain'
          have named' : (b.deref e).symbol? = some y := by rw [Term.symbol?, kind']
          rw [expandElements_rest kind', expand_deref_spliced, loopless'.elements?_deref_rest named']

/-- Under more bindings, what was dereferenced early stands for what the term itself stands for. -/
theorem Loopless.deref_later (loopless : b.Loopless) (loopless' : b'.Loopless)
    (later : ∀ x u, b.value? x = some u → b'.value? x = some u)
    (values : ∀ x u, b.value? x = some u → b.KeepsRests u) {t : Term} (keeps : b.KeepsRests t) :
    b'.deref (b.deref t) = b'.deref t := by
  revert keeps
  refine loopless.induction (P := fun t => b.KeepsRests t → b'.deref (b.deref t) = b'.deref t)
    ?parts ?unbound ?bound t
  case unbound =>
    intro t x named unbound _
    rw [deref_unbound named unbound]
  case bound =>
    intro t x u named bound ih _
    rw [loopless.deref_bound named bound, loopless'.deref_bound named (later x u bound),
      ih (values x u bound)]
  case parts =>
    intro t plain ih keeps
    have parts : ∀ part ∈ t.openParts, b'.deref (b.deref part) = b'.deref part :=
      fun part member => ih part member (keeps.part member)
    cases elements : t.elements? with
    | none =>
        have single : (t.withParts (t.openParts.map b.deref)).elements? = none :=
          elements?_withParts elements
        have length : (t.openParts.map b.deref).length = t.openParts.length := List.length_map _
        rw [deref_eq_withParts plain elements, deref_eq_withParts plain elements,
          deref_eq_withParts (by rw [symbol?_withParts, plain]) single,
          openParts_withParts length, withParts_of_openParts length, List.map_map]
        exact congrArg _ (List.map_congr_left parts)
    | some ts =>
        obtain ⟨o, rfl⟩ := exists_list_of_elements? elements
        obtain ⟨front, fromRest, toRest⟩ := keeps _ (.self _) ts rfl
        rcases ts.eq_nil_or_concat' with rfl | ⟨init, e, rfl⟩
        · rfl
        · have plain : ∀ t ∈ init, ∀ x, t.value ≠ .rest x := by simpa using front
          have plain' : ∀ t ∈ init.map b.deref, ∀ x, t.value ≠ .rest x := by
            intro t member x kind
            obtain ⟨s, inside, rfl⟩ := List.mem_map.mp member
            have named : (b.deref s).symbol? = some x := by rw [Term.symbol?, kind]
            exact toRest s (List.mem_append_left _ inside) (plain s inside) x
              (loopless.deref_eq_walk named ▸ kind)
          have each : (init.map b.deref).map b'.deref = init.map b'.deref := by
            rw [List.map_map]
            exact List.map_congr_left fun s inside => parts s (List.mem_append_left _ inside)
          have last := loopless.expandElements_deref loopless' (parts e (by simp))
            (fromRest e (by simp)) (toRest e (by simp))
          rw [deref_list_append plain, deref_list_append plain', each, last,
            deref_list_append plain]

/-! ## Early or late -/

/-- Dereferencing twice is dereferencing once; a rest variable is spliced however it is bound to its
list; and where walking keeps rest variables and plain elements apart, dereferencing under fewer
bindings first makes no difference under more. -/
theorem deref_early_or_late (loopless : b.Loopless) (loopless' : b'.Loopless)
    (later : ∀ x u, b.value? x = some u → b'.value? x = some u) :
    (∀ t, b.deref (b.deref t) = b.deref t) ∧
    (∀ (o : Option Nat) (init : List Term) (e : Term) (r : String) (ts : List Term),
      (∀ t ∈ init, ∀ x, t.value ≠ .rest x) → e.value = .rest r →
      (b.walk e).elements? = some ts →
      ∃ spread, b.deref (.list ts) = .list spread ∧
        b.deref (.mk o (.list (init ++ [e]))) = .mk o (.list (init.map b.deref ++ spread))) ∧
    ∀ t, (∀ x u, b.value? x = some u → b.KeepsRests u) → b.KeepsRests t →
      b'.deref (b.deref t) = b'.deref t :=
  ⟨loopless.deref_idempotent,
    fun o _ _ _ _ plain kind reached => loopless.deref_rest plain o kind reached,
    fun _ values keeps => loopless.deref_later loopless' later values keeps⟩

/-- The rest variable `r` stands for what the rest variable `s` stands for. -/
def restToRest : Bindings := Bindings.empty.bind "r" (.rest "s")

/-- Later `s` stands for a list. -/
def restToList : Bindings := restToRest.bind "s" (.list [.integer 2])

theorem keepsRests_restToRest : restToRest.KeepsRests (.list [.integer 1, .rest "r"]) := by
  refine keepsRests_of_parts (fun part member => ?_) fun ts same => ?_
  · have leaf : part.openParts = [] ∧ part.elements? = none := by
      rcases List.mem_pair.mp member with rfl | rfl <;> exact ⟨rfl, rfl⟩
    refine keepsRests_of_parts (by simp [leaf.1]) fun ts same => ?_
    rw [leaf.2] at same
    cases same
  · obtain rfl : [.integer 1, .rest "r"] = ts := Option.some.inj same
    have walked : restToRest.walk (.rest "r") = .rest "s" := rfl
    refine ⟨by simp [Term.integer, Term.value, Term.of], fun e member x kind y => ?_,
      fun e member plain y => ?_⟩
    · rcases List.mem_pair.mp member with rfl | rfl
      · cases kind
      · rw [walked]
        simp [Term.rest, Term.of, Term.value]
    · rcases List.mem_pair.mp member with rfl | rfl
      · rw [walk_of_not_symbol rfl]
        simp [Term.integer, Term.of, Term.value]
      · exact absurd rfl (plain "r")

/-- `[1, *r]` may be dereferenced before `s` has a value; it is `[1, 2]` all the same. -/
theorem deref_early_or_late_restToList :
    restToList.deref (restToRest.deref (.list [.integer 1, .rest "r"])) =
        restToList.deref (.list [.integer 1, .rest "r"]) ∧
      (restToList.deref (.list [.integer 1, .rest "r"])).same
        (.list [.integer 1, .integer 2]) = true := by
  have loopless : restToRest.Loopless :=
    loopless_of_log (fun x => if x = "r" then 1 else 0) (by decide +kernel)
  have loopless' : restToList.Loopless :=
    loopless_of_log (fun x => if x = "r" then 2 else if x = "s" then 1 else 0) (by decide +kernel)
  have later : ∀ x u, restToRest.value? x = some u → restToList.value? x = some u := by
    intro x u bound
    rw [restToList, value?_bind]
    split
    · rename_i here
      rw [← here] at bound
      cases bound
    · exact bound
  have values : ∀ x u, restToRest.value? x = some u → restToRest.KeepsRests u := by
    intro x u bound
    rw [restToRest, value?_bind, value?_empty] at bound
    split at bound
    · cases bound
      refine keepsRests_of_parts (fun part member => by cases member) fun ts same => ?_
      cases same
    · cases bound
  exact ⟨(deref_early_or_late loopless loopless' later).2.2 _ values keepsRests_restToRest,
    by decide +kernel⟩

/-- The rest variable `r` is bound to the plain variable `y`. -/
def restToPlain : Bindings := Bindings.empty.bind "r" (.var "y")

/-- Later `y` stands for a list. -/
def plainToList : Bindings := restToPlain.bind "y" (.list [.integer 2])

/-- Dereferenced before `y` has a value, `[1, *r]` becomes `[1, y]` and in the end `[1, [2]]`;
dereferenced after, it is `[1, 2]`. -/
theorem rest_turns_into_element :
    restToPlain.Loopless ∧ plainToList.Loopless ∧
      plainToList.log.toList = restToPlain.log.toList ++ [("y", .list [.integer 2])] ∧
      restToPlain.value? "y" = none ∧
      (plainToList.deref (restToPlain.deref (.list [.integer 1, .rest "r"]))).same
        (.list [.integer 1, .list [.integer 2]]) = true ∧
      (plainToList.deref (.list [.integer 1, .rest "r"])).same
        (.list [.integer 1, .integer 2]) = true ∧
      (plainToList.deref (restToPlain.deref (.list [.integer 1, .rest "r"]))).same
        (plainToList.deref (.list [.integer 1, .rest "r"])) = false := by
  refine ⟨loopless_of_log (fun x => if x = "r" then 1 else 0) (by decide +kernel),
    loopless_of_log (fun x => if x = "r" then 1 else 0) (by decide +kernel), bind_log, ?_,
    by decide +kernel, by decide +kernel, by decide +kernel⟩
  rw [restToPlain, value?_bind, value?_empty, if_neg (by decide)]

end Bindings

end PolicyLogic
