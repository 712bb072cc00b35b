import PolicyLogic.Knowledge.Base
import PolicyLogic.Term.Traversal

/-!
# Warnings about rules

A rule is suspect if a named variable occurs in it only once, or if a specializer names a class
that is neither registered nor built in. Warnings are about the rule as it was written.
-/

namespace PolicyLogic

/-- All occurrences of variables in a rule: parameters, specializers and body. -/
def Rule.occurrences (r : Rule) : List String :=
  let inParameter (p : Parameter) : List Term :=
    p.term.preorder ++ match p.specializer with
      | none => []
      | some shape => (Term.pattern shape).preorder
  (r.params.flatMap inParameter ++ r.body.preorder).filterMap Term.symbol?

/-- The named variables that occur exactly once, in order of their names. -/
def Rule.singletons (kb : KnowledgeBase) (r : Rule) : List String :=
  let names := r.occurrences
  let once := names.filter fun name =>
    names.count name == 1 && !isTemporary name && !kb.isConstant name
  once.mergeSort fun a b => decide (a ≤ b)

/-- The classes in specializers that are not known, in order of the parameters. -/
def Rule.unknownTags (kb : KnowledgeBase) (r : Rule) : List String :=
  r.params.filterMap fun p =>
    match p.specializer with
    | some (.object tag _) => if kb.isKnownTag tag then none else some tag
    | _ => none

/-- Where a rule stands, in the words of a warning. -/
def Rule.location (r : Rule) : String :=
  match r.offset with
  | none => ""
  | some offset => " (rule " ++ r.name ++ s!" at offset {offset})"

/-- The warnings about a rule. -/
def Rule.warnings (kb : KnowledgeBase) (r : Rule) : List String :=
  (r.singletons kb).map (fun name =>
    s!"Singleton variable {name} is unused or undefined; did you mean _{name}?" ++ r.location) ++
  (r.unknownTags kb).map (fun tag =>
    s!"Unknown specializer {tag}: it is neither a registered class nor a builtin type" ++
      r.location)

end PolicyLogic
