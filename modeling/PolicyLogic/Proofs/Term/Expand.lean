import PolicyLogic.Proofs.Term.Rebuild

/-!
# Replacing variables, by the parts of a term

`Term.expand` looks into every part of a term except the call that a host object recalls; `openParts`
are the parts it looks into, and a term shows what it reaches that way. A term that is neither a
variable nor a list is replaced part by part (`expand_eq_withParts`). In a list the last element
counts: if it is a rest variable, the elements that it stands for take its place
(`expandElements_rest`), and the elements before it are replaced one by one
(`expandElements_append`).
-/

namespace PolicyLogic

/-- The parts of a term that are looked into when variables are replaced. -/
def Term.openParts (t : Term) : List Term := if t.recalls then [] else t.parts

/-- A term shows itself and what its open parts show. -/
inductive Term.Shows : Term → Term → Prop
  | self (t : Term) : t.Shows t
  | part {t part s : Term} : part ∈ t.openParts → part.Shows s → t.Shows s

/-- A variable of this name would be replaced in the term. -/
def Term.Uses (t : Term) (name : String) : Prop := ∃ s, t.Shows s ∧ s.symbol? = some name

section Parts

variable {t part : Term}

theorem mem_parts_of_mem_openParts (member : part ∈ t.openParts) : part ∈ t.parts := by
  unfold Term.openParts at member
  split at member
  · cases member
  · exact member

theorem openParts_of_recalls (recalls : t.recalls = true) : t.openParts = [] := if_pos recalls

theorem openParts_of_known (known : t.recalls = false) : t.openParts = t.parts :=
  if_neg (by simp [known])

@[simp] theorem openParts_list (o : Option Nat) (ts : List Term) :
    (Term.mk o (.list ts)).openParts = ts := rfl

theorem openParts_of_symbol? {x : String} (named : t.symbol? = some x) : t.openParts = [] := by
  obtain ⟨o, value⟩ := t
  cases value <;> first | rfl | cases named

/-- What holds of a term when it holds of its open parts holds of all terms. -/
theorem Term.openParts_induction {P : Term → Prop}
    (step : ∀ t, (∀ part ∈ t.openParts, P part) → P t) (t : Term) : P t :=
  Term.parts_induction (fun t parts => step t fun part member =>
    parts part (mem_parts_of_mem_openParts member)) t

theorem openParts_withParts {ps : List Term} (same : ps.length = t.openParts.length) :
    (t.withParts ps).openParts = ps := by
  cases recalls : t.recalls with
  | true =>
      rw [openParts_of_recalls recalls] at same
      rw [openParts_of_recalls (by simpa using recalls), List.length_eq_zero_iff.mp same]
  | false =>
      rw [openParts_of_known recalls] at same
      rw [openParts_of_known (by simpa using recalls), parts_withParts recalls same]

theorem withParts_of_openParts {ps qs : List Term} (same : ps.length = t.openParts.length) :
    (t.withParts ps).withParts qs = t.withParts qs := by
  cases recalls : t.recalls with
  | true =>
      obtain ⟨o, kind⟩ := t
      cases kind <;> first | rfl | cases recalls
  | false => exact withParts_withParts (by rw [same, openParts_of_known recalls])

theorem Term.Shows.cases_self {s : Term} (shown : t.Shows s) :
    s = t ∨ ∃ part ∈ t.openParts, part.Shows s := by
  cases shown with
  | self => exact .inl rfl
  | part member inside => exact .inr ⟨_, member, inside⟩

theorem Term.Shows.mem_preorder {s : Term} (shown : t.Shows s) : s ∈ t.preorder := by
  induction shown with
  | self t => exact PolicyLogic.mem_preorder.mpr (.inl rfl)
  | part member _ ih => exact mem_preorder_of_part (mem_parts_of_mem_openParts member) ih

theorem uses_iff {x : String} :
    t.Uses x ↔ t.symbol? = some x ∨ ∃ part ∈ t.openParts, part.Uses x := by
  constructor
  · rintro ⟨s, shown, named⟩
    rcases shown.cases_self with rfl | ⟨part, member, inside⟩
    · exact .inl named
    · exact .inr ⟨part, member, s, inside, named⟩
  · rintro (named | ⟨part, member, s, inside, named⟩)
    · exact ⟨t, .self t, named⟩
    · exact ⟨s, .part member inside, named⟩

theorem uses_of_symbol? {x : String} (named : t.symbol? = some x) : t.Uses x :=
  uses_iff.mpr (.inl named)

theorem uses_of_part {x : String} (member : part ∈ t.openParts) (inside : part.Uses x) : t.Uses x :=
  uses_iff.mpr (.inr ⟨part, member, inside⟩)

theorem uses_symbol_iff {x y : String} (named : t.symbol? = some x) : t.Uses y ↔ x = y := by
  rw [uses_iff, named, openParts_of_symbol? named]
  simp

theorem Term.Uses.mentions {x : String} (used : t.Uses x) : t.Mentions x := by
  obtain ⟨s, shown, named⟩ := used
  exact ⟨s, shown.mem_preorder, named⟩

end Parts

/-! ## Lists -/

section Elements

variable {value : Term → Term} {tail : String → Option (List Term)}

theorem exists_list_of_elements? {t : Term} {ts : List Term} (elements : t.elements? = some ts) :
    ∃ o, t = .mk o (.list ts) := by
  obtain ⟨o, kind⟩ := t
  cases kind <;> first | cases elements; exact ⟨o, rfl⟩ | cases elements

@[simp] theorem elements?_list (o : Option Nat) (ts : List Term) :
    (Term.mk o (.list ts)).elements? = some ts := rfl

theorem elements?_of_symbol? {t : Term} {x : String} (named : t.symbol? = some x) :
    t.elements? = none := by
  obtain ⟨o, kind⟩ := t
  cases kind <;> first | rfl | cases named

theorem symbol?_of_elements? {t : Term} {ts : List Term} (elements : t.elements? = some ts) :
    t.symbol? = none := by
  obtain ⟨o, rfl⟩ := exists_list_of_elements? elements
  rfl

/-- The elements before the end of a list are replaced one by one. -/
theorem expandElements_append {init : List Term} (plain : ∀ t ∈ init, ∀ x, t.value ≠ .rest x)
    (ts : List Term) : expandElements value tail (init ++ ts) =
      init.map (Term.expand value tail) ++ expandElements value tail ts := by
  induction init with
  | nil => rfl
  | cons t init ih =>
      have later := ih fun s member => plain s (List.mem_cons_of_mem _ member)
      have first := plain t List.mem_cons_self
      rw [List.cons_append, expandElements, later, List.map_cons, List.cons_append]
      split
      · rename_i none
        rw [none]
        split
        · rename_i x kind
          exact absurd kind (first x)
        · rfl
      · rfl

theorem expandElements_rest {t : Term} {x : String} (kind : t.value = .rest x) :
    expandElements value tail [t] = (tail x).getD [t.expand value tail] := by
  simp only [expandElements]
  rw [kind]

theorem expandElements_plain {t : Term} (plain : ∀ x, t.value ≠ .rest x) :
    expandElements value tail [t] = [t.expand value tail] :=
  expandElements_eq_map (by simpa using plain)

/-- The elements of a replaced list are its replaced elements and what its rest variables stand
for. -/
theorem mem_expandElements {ts : List Term} {u : Term}
    (member : u ∈ expandElements value tail ts) :
    (∃ t ∈ ts, u = t.expand value tail) ∨
      ∃ t ∈ ts, ∃ x us, t.value = .rest x ∧ tail x = some us ∧ u ∈ us := by
  induction ts with
  | nil => cases member
  | cons t ts ih =>
      have later : u ∈ expandElements value tail ts →
          (∃ s ∈ t :: ts, u = s.expand value tail) ∨
            ∃ s ∈ t :: ts, ∃ x us, s.value = .rest x ∧ tail x = some us ∧ u ∈ us := by
        intro found
        rcases ih found with ⟨s, inside, same⟩ | ⟨s, inside, rest⟩
        · exact .inl ⟨s, List.mem_cons_of_mem _ inside, same⟩
        · exact .inr ⟨s, List.mem_cons_of_mem _ inside, rest⟩
      have single : u = t.expand value tail →
          (∃ s ∈ t :: ts, u = s.expand value tail) ∨
            ∃ s ∈ t :: ts, ∃ x us, s.value = .rest x ∧ tail x = some us ∧ u ∈ us :=
        fun same => .inl ⟨t, List.mem_cons_self, same⟩
      rw [expandElements] at member
      split at member
      · split at member
        · rename_i x kind
          cases stands : tail x with
          | none => exact single (by simpa [stands] using member)
          | some us => exact .inr ⟨t, List.mem_cons_self, x, us, kind, stands, by simpa [stands] using member⟩
        · exact single (by simpa using member)
      · rcases List.mem_cons.mp member with same | found
        · exact single same
        · exact later found

theorem expandElements_congr {f g : Term → Term} {tail tail' : String → Option (List Term)}
    {ts : List Term} (each : ∀ t ∈ ts, t.expand f tail = t.expand g tail')
    (tails : ∀ t ∈ ts, ∀ x, t.value = .rest x → tail x = tail' x) :
    expandElements f tail ts = expandElements g tail' ts := by
  induction ts with
  | nil => rfl
  | cons t ts ih =>
      rw [expandElements, expandElements, each t List.mem_cons_self,
        ih (fun s member => each s (List.mem_cons_of_mem _ member))
          fun s member => tails s (List.mem_cons_of_mem _ member)]
      split
      · split
        · rename_i x kind
          rw [tails t List.mem_cons_self x kind]
        · rfl
      · rfl

end Elements

/-! ## Terms -/

section Expand

variable {value : Term → Term} {tail : String → Option (List Term)} {t : Term}

theorem expand_symbol {x : String} (named : t.symbol? = some x) :
    t.expand value tail = value t := by
  obtain ⟨o, kind⟩ := t
  cases kind <;> first | rfl | cases named

theorem expand_elements (o : Option Nat) (ts : List Term) :
    (Term.mk o (.list ts)).expand value tail = .mk o (.list (expandElements value tail ts)) := rfl

/-- A term that is no variable and no list is replaced part by part. -/
theorem expand_eq_withParts (plain : t.symbol? = none) (single : t.elements? = none) :
    t.expand value tail = t.withParts (t.openParts.map (Term.expand value tail)) := by
  have values : ∀ fields : List (String × Term), expandFields value tail fields =
      withValues fields ((fields.map (·.2)).map (Term.expand value tail)) := by
    intro fields
    induction fields with
    | nil => rfl
    | cons field fields ih =>
        rw [expandFields, List.map_cons, List.map_cons, withValues_cons, ← ih]
  obtain ⟨o, kind⟩ := t
  cases kind with
  | var x => cases plain
  | rest x => cases plain
  | list ts => cases single
  | dictionary fields => rw [Term.expand, values]; rfl
  | operation op args => rw [Term.expand, expandAll_eq_map]; rfl
  | pattern shape => cases shape <;> rw [Term.expand, values] <;> rfl
  | call name args named =>
      cases named with
      | none => rw [Term.expand, expandAll_eq_map]; rfl
      | some named =>
          rw [Term.expand, values, expandAll_eq_map, openParts_of_known rfl, Term.parts,
            List.map_append, Term.withParts, List.take_left' (List.length_map _),
            List.drop_left' (List.length_map _)]
  | handle id origin label => cases origin <;> rfl
  | number n => rfl
  | text s => rfl
  | boolean b => rfl

/-- What is replaced depends on the variables that the term uses only. -/
theorem Term.expand_congr {f g : Term → Term} {tail tail' : String → Option (List Term)} {t : Term}
    (values : ∀ s, t.Shows s → s.symbol?.isSome → f s = g s)
    (tails : ∀ s x, t.Shows s → s.value = .rest x → tail x = tail' x) :
    t.expand f tail = t.expand g tail' := by
  induction t using Term.openParts_induction with
  | step t ih =>
      have each : ∀ part ∈ t.openParts, part.expand f tail = part.expand g tail' :=
        fun part member => ih part member (fun s shown => values s (.part member shown))
          fun s x shown => tails s x (.part member shown)
      cases named : t.symbol? with
      | some x =>
          rw [expand_symbol named, expand_symbol named]
          exact values t (.self t) (by simp [named])
      | none =>
          cases elements : t.elements? with
          | some ts =>
              obtain ⟨o, rfl⟩ := exists_list_of_elements? elements
              have same : expandElements f tail ts = expandElements g tail' ts :=
                expandElements_congr each fun s member x kind =>
                  tails s x (.part member (.self s)) kind
              rw [expand_elements, expand_elements, same]
          | none =>
              rw [expand_eq_withParts named elements, expand_eq_withParts named elements,
                List.map_congr_left each]

/-- A term without variables to replace stays. -/
theorem Term.expand_eq_self_of_shows
    (values : ∀ s, t.Shows s → s.symbol?.isSome → value s = s)
    (tails : ∀ s x, t.Shows s → s.value = .rest x → tail x = none) :
    t.expand value tail = t :=
  calc t.expand value tail
      = t.expand (fun s => s) fun _ => none := Term.expand_congr values tails
    _ = t := Term.expand_eq_self (fun _ _ _ => rfl) fun _ _ _ _ => rfl

theorem elements?_withParts {ps : List Term} (single : t.elements? = none) :
    (t.withParts ps).elements? = none := by
  obtain ⟨o, kind⟩ := t
  cases kind with
  | list ts => cases single
  | pattern shape => cases shape <;> rfl
  | call name args named => cases named <;> rfl
  | _ => rfl

/-- Replacing variables makes no list of a term that is no variable and no list. -/
theorem elements?_expand (plain : t.symbol? = none) (single : t.elements? = none) :
    (t.expand value tail).elements? = none := by
  rw [expand_eq_withParts plain single, elements?_withParts single]

/-- Replacing variables makes no variable of a term that is none. -/
theorem symbol?_expand (plain : t.symbol? = none) : (t.expand value tail).symbol? = none := by
  cases elements : t.elements? with
  | some ts =>
      obtain ⟨o, rfl⟩ := exists_list_of_elements? elements
      rfl
  | none => rw [expand_eq_withParts plain elements, symbol?_withParts, plain]

end Expand

end PolicyLogic
