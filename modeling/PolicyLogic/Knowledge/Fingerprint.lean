import PolicyLogic.Digest.Blake3
import PolicyLogic.Rule.Renaming

/-!
# Fingerprints of knowledge bases

The fingerprint is the digest of a text that has every rule and every constant on a line of its
own. Generated variables are numbered by first occurrence within their rule, so the text does not
depend on the state of the counter when the rules were loaded.
-/

namespace PolicyLogic

/-- The number of a temporary variable within its rule; other variables keep their names. -/
def numberTemporary (kind : VarKind) (name : String) : StateM Renames String := do
  if kind = .rest || !isTemporary name then return name
  let renames ← get
  match renames.lookup name with
  | some numbered => return numbered
  | none =>
    let count := renames.length
    let numbered := s!"_{count}"
    set ((name, numbered) :: renames)
    return numbered

/-- The text of a rule with its temporaries numbered. -/
def Rule.canonicalText (r : Rule) : String :=
  ((r.renameM numberTemporary).run []).1.render

/-- The text of a constant. A labelled handle is its label. -/
def constantText (value : Term) : String :=
  match value.value with
  | .handle _ _ (some label) => label
  | _ => value.render

namespace KnowledgeBase

/-- The names that have rules, in order. -/
def ruleNames (kb : KnowledgeBase) : List String :=
  (distinct (kb.rules.map (·.name))).mergeSort fun a b => decide (a ≤ b)

/-- The lines of the text that stands for a knowledge base. -/
def canonicalLines (kb : KnowledgeBase) : List String :=
  (kb.ruleNames.flatMap fun name => (byArity (kb.named name)).map Rule.canonicalText) ++
    kb.constants.map fun constant => constant.1 ++ "=" ++ constantText constant.2

/-- The text that stands for a knowledge base. -/
def canonicalText (kb : KnowledgeBase) : String :=
  String.join (kb.canonicalLines.map (· ++ "\n"))

/-- The fingerprint of a knowledge base. -/
def fingerprint (kb : KnowledgeBase) : String :=
  Digest.blake3 kb.canonicalText.toUTF8.toList

end KnowledgeBase

end PolicyLogic
