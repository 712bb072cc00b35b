import PolicyLogic.Proofs.Rule.Copies

/-!
# Terms that need no host

A term needs no host if there are no objects in it, no constructors and no classes but the ones that
are built in, and if its variables are among names of which none stands for an object
(`Term.IsDomestic`). A rule that is made of such terms has copies that are (`isDomestic_apart`).
-/

namespace PolicyLogic

variable {names : String → Prop}

/-- The value, apart from the terms inside, needs no host. -/
def Value.IsDomestic (names : String → Prop) : Value → Prop
  | .handle _ _ _ => False
  | .pattern (.object tag _) => tag ∈ builtinTags
  | .operation op _ => op ≠ .new
  | .var x => names x
  | .rest x => names x
  | _ => True

/-- Nothing in the term needs a host. -/
def Term.IsDomestic (names : String → Prop) (t : Term) : Prop :=
  ∀ s ∈ t.preorder, s.value.IsDomestic names

/-- Nothing in the rule needs a host. -/
def Rule.IsDomestic (names : String → Prop) (r : Rule) : Prop :=
  ∀ t ∈ r.terms, t.IsDomestic names

theorem Term.isDomestic_iff {t : Term} :
    t.IsDomestic names ↔ t.value.IsDomestic names ∧ ∀ part ∈ t.parts, part.IsDomestic names :=
  forall_preorder_iff

namespace Term.IsDomestic

variable {t : Term} {o : Option Nat}

theorem part (domestic : t.IsDomestic names) {part : Term} (member : part ∈ t.parts) :
    part.IsDomestic names :=
  (isDomestic_iff.mp domestic).2 part member

theorem head (domestic : t.IsDomestic names) : t.value.IsDomestic names :=
  (isDomestic_iff.mp domestic).1

theorem symbol? (domestic : t.IsDomestic names) {x : String} (named : t.symbol? = some x) :
    names x := by
  have head := domestic.head
  obtain ⟨o, value⟩ := t
  cases value <;> cases named <;> exact head

theorem recalls (domestic : t.IsDomestic names) : t.recalls = false := by
  have head := domestic.head
  obtain ⟨o, value⟩ := t
  cases value <;> first | rfl | cases head

/-! What the machine makes of such terms. -/

theorem number (o : Option Nat) (n : Numeral) : (Term.mk o (.number n)).IsDomestic names :=
  isDomestic_iff.mpr ⟨trivial, nofun⟩

theorem text (o : Option Nat) (s : String) : (Term.mk o (.text s)).IsDomestic names :=
  isDomestic_iff.mpr ⟨trivial, nofun⟩

theorem var {x : String} (known : names x) : (Term.mk o (.var x)).IsDomestic names :=
  isDomestic_iff.mpr ⟨known, nofun⟩

theorem rest {x : String} (known : names x) : (Term.mk o (.rest x)).IsDomestic names :=
  isDomestic_iff.mpr ⟨known, nofun⟩

theorem list {ts : List Term} (each : ∀ t ∈ ts, t.IsDomestic names) :
    (Term.mk o (.list ts)).IsDomestic names :=
  isDomestic_iff.mpr ⟨trivial, each⟩

theorem operation {op : Operator} {ts : List Term} (inside : op ≠ .new)
    (each : ∀ t ∈ ts, t.IsDomestic names) : (Term.mk o (.operation op ts)).IsDomestic names :=
  isDomestic_iff.mpr ⟨inside, each⟩

/-- Renaming keeps to names that need no host. -/
theorem renamed {ρ : String → String} (keeps : ∀ x, names x → names (ρ x))
    (domestic : t.IsDomestic names) : (t.renamed ρ).IsDomestic names := by
  induction t using Term.parts_induction with
  | step t ih =>
      refine isDomestic_iff.mpr ⟨?_, fun part member => ?_⟩
      · have head := domestic.head
        obtain ⟨o, value⟩ := t
        cases value with
        | var x => exact keeps x head
        | rest x => exact keeps x head
        | call name args named => cases named <;> trivial
        | pattern shape => cases shape <;> exact head
        | handle id origin label => cases head
        | operation op args => exact head
        | _ => trivial
      · rw [Term.renamed, parts_rename domestic.recalls] at member
        obtain ⟨part, inside, rfl⟩ := List.mem_map.mp member
        exact ih part inside (domestic.part inside)

end Term.IsDomestic

namespace Rule.IsDomestic

variable {r : Rule} {p : Parameter}

theorem param (domestic : r.IsDomestic names) (member : p ∈ r.params) : p.term.IsDomestic names :=
  domestic _ (List.mem_append_left _ (List.mem_flatMap.mpr ⟨p, member, List.mem_cons_self⟩))

theorem shape (domestic : r.IsDomestic names) (member : p ∈ r.params) {shape : Pattern}
    (carried : p.specializer = some shape) : (Term.pattern shape).IsDomestic names := by
  have inside : Term.pattern shape ∈ p.terms :=
    List.mem_cons_of_mem _ (by simp [Parameter.shapes, carried])
  exact domestic _ (List.mem_append_left _ (List.mem_flatMap.mpr ⟨p, member, inside⟩))

theorem body (domestic : r.IsDomestic names) : r.body.IsDomestic names :=
  domestic _ (List.mem_append_right _ List.mem_cons_self)

end Rule.IsDomestic

/-- The names that are drawn need no host. -/
def IncludesDrawn (names : String → Prop) : Prop := ∀ stem id, names (generatedName stem id)

/-- A copy of a rule that needs no host needs none. -/
theorem isDomestic_apart (drawn : IncludesDrawn names) (kb : KnowledgeBase) {r : Rule}
    (domestic : r.IsDomestic names) (next : Nat) : ((r.apart kb).run next).1.IsDomestic names := by
  obtain ⟨renames, next', _, given, same⟩ := apart_spec kb r next
  rw [same renames.toRenaming renames.follows_toRenaming given.keeps]
  intro t member
  rw [Rule.terms_renamed] at member
  obtain ⟨t, inside, rfl⟩ := List.mem_map.mp member
  refine (domestic t inside).renamed fun x known => ?_
  cases found : renames.lookup x with
  | none => simpa [Renames.toRenaming, found] using known
  | some y =>
      obtain ⟨id, _, _, rfl⟩ := given.drawn x y found
      simpa [Renames.toRenaming, found] using drawn x id

end PolicyLogic
