import PolicyLogic.Knowledge.Base
import PolicyLogic.Residual.Log

/-!
# Recording constraints

Lookups on an open variable build paths, comparisons record constraints in the scope they concern,
membership in a path opens a subquery, and class checks narrow what is known about a path. What
cannot be expressed as a constraint is an error.
-/

namespace PolicyLogic

/-- The name under which an open variable is shown to the host. -/
def thisName : String := "_this"

/-- The patterns of a declaration `And(Isa(_this, P), ...)`, which leaves a query variable open. -/
def declaredPatterns? (t : Term) : Option (List Pattern) :=
  match t.value with
  | .operation .conj args =>
    args.mapM fun arg =>
      match arg.value with
      | .operation .isa [subject, shape] =>
        match subject.value, shape.value with
        | .var name, .pattern shape => if name == thisName then some shape else none
        | _, _ => none
      | _ => none
  | _ => none

/-- The declaration that leaves a query variable open with the given classes. -/
def declaration (tags : List String) : Term :=
  .operation .conj (tags.map fun tag =>
    .operation .isa [.var thisName, .pattern (.ofClass tag)])

/-- How a class check on a path can be settled. -/
inductive ClassStep where
  /-- The path is known to be of the class. -/
  | holds
  /-- The path is known not to be of the class. -/
  | fails
  /-- Nothing is known: from now on the path is of the class. -/
  | narrows
  /-- The host must compare the class with the one known so far. -/
  | askSubclass (current : String)
  /-- The host must follow the fields from a class. -/
  | askPath (base : String) (fields : List Term)

namespace Residual

/-- Leaves a query variable open, with the patterns it must match. -/
def addRoot (r : Residual) (name : String) (patterns : List Pattern) : Residual :=
  let tag := patterns.findSome? fun shape =>
    match shape with
    | .object tag _ => some tag
    | .record _ => none
  let scope := r.size
  patterns.foldl
    (fun r shape => r.add (.constraint scope (.operation .isa [.var name, .pattern shape])))
    (r.add (.root name tag))

/-- The class of a path, as far as it is known. -/
def pathTag? (r : Residual) (kb : KnowledgeBase) : Term → Option String
  | t@(.mk _ (.var name)) =>
    match r.narrowed? t with
    | some tag => some tag
    | none => (r.scopeOfVar? name).bind r.scopeTag?
  | t@(.mk _ (.operation .dot [base, field])) =>
    match r.narrowed? t with
    | some tag => some tag
    | none => do
      let tag ← r.pathTag? kb base
      match field.value with
      | .text name => return ((← (← kb.classFields? tag).lookup name).target)
      | _ => none
  | t => r.narrowed? t

/-- The path of a lookup. A field that the class of the base does not declare is an error. -/
def dot (r : Residual) (kb : KnowledgeBase) (base field : Term) : Except Error Term :=
  match field.value with
  | .text name =>
    match r.pathTag? kb base with
    | none => .ok (.operation .dot [base, field])
    | some tag =>
      match kb.classFields? tag with
      | none => .ok (.operation .dot [base, field])
      | some fields =>
        if Fields.has fields name then .ok (.operation .dot [base, field])
        else
          .error (.unsupported (tag ++ " has no field " ++ Text.quote name ++ " (in " ++
            base.render ++ ")"))
  | .call _ _ _ => .ok (.operation .dot [base, field])
  | _ => .error (.unsupported ("lookup of " ++ field.render ++ " on a partial"))

/-- The scope in which a relation between two walked terms belongs. Of two scopes, one of which is
inside the other, it is the inner one. -/
def relationScope (r : Residual) (op : Operator) (left right : Term) : Except Error ScopeId :=
  let shown := left.render ++ " " ++ op.name ++ " " ++ right.render
  let isOrder := match op with
    | .lt | .leq | .gt | .geq => true
    | _ => false
  let isVar (t : Term) : Bool := match t.value with
    | .var _ => true
    | _ => false
  match r.scopeOf? left, r.scopeOf? right with
  | some l, some s =>
    if isOrder then
      .error (.unsupported ("comparison of two partial expressions: " ++ shown))
    else if l = s then .ok l
    else if isVar left && isVar right then
      .error (.unsupported ("cannot relate two different partials: " ++ shown))
    else if r.isWithin l s then .ok l
    else if r.isWithin s l then .ok s
    else .error (.unsupported ("cannot relate two different partials: " ++ shown))
  | some l, none => .ok l
  | none, some s => .ok s
  | none, none => .error (.invalidState "constraint without a partial")

/-- Records a relation between two walked terms, at least one of them symbolic. -/
def constrain (r : Residual) (op : Operator) (left right : Term) : Except Error Residual := do
  let scope ← r.relationScope op left right
  return r.add (.constraint scope (.operation op [left, right]))

/-- Opens a subquery for a variable that ranges over the values at a path. -/
def openSubquery (r : Residual) (kb : KnowledgeBase) (name : String) (source : Term) :
    Except Error Residual :=
  match r.scopeOf? source with
  | none => .error (.invalidState "subquery source is not symbolic")
  | some parent => .ok (r.add (.subquery parent name source (r.pathTag? kb source)))

/-- The class at the root of a path and the fields that lead from it. -/
def baseAndFields? (r : Residual) : Term → Option (String × List Term)
  | .mk _ (.var name) => do
    let scope ← r.scopeOfVar? name
    return (← r.scopeTag? scope, [])
  | .mk _ (.operation .dot [base, field]) => do
    let (tag, fields) ← r.baseAndFields? base
    return (tag, fields ++ [field])
  | _ => none

/-- How a class check on a path can be settled. -/
def classStep (r : Residual) (kb : KnowledgeBase) (path : Term) (tag : String) : ClassStep :=
  match r.pathTag? kb path with
  | some current =>
    if current == tag then .holds
    else if builtinTags.contains current || builtinTags.contains tag then .fails
    else .askSubclass current
  | none =>
    match r.baseAndFields? path with
    | some (base, field :: fields) => .askPath base (field :: fields)
    | _ => .narrows

/-- Records that a path is of a class, and narrows what is known about the path if asked to. -/
def recordClass (r : Residual) (path : Term) (tag : String) (narrow : Bool) :
    Except Error Residual :=
  match r.scopeOf? path with
  | none => .error (.invalidState "isa on a non-symbolic term")
  | some scope =>
    let recorded :=
      r.add (.constraint scope (.operation .isa [path, .pattern (.ofClass tag)]))
    .ok (if narrow then recorded.add (.narrow path tag) else recorded)

end Residual

end PolicyLogic
