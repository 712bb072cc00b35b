import PolicyLogic.Knowledge.Base
import PolicyLogic.Wire.Decode

/-!
# Field types on the wire

The declared types of the fields of a class.
-/

namespace PolicyLogic

/-- Whether a relation leads to one row or to many. -/
def RelationKind.toJson : RelationKind → Json
  | .one => .text "One"
  | .many => .text "Many"

/-- Reads a kind of relation. -/
def RelationKind.ofJson? (j : Json) : Option RelationKind :=
  match j.bareVariant? with
  | some "One" => some .one
  | some "Many" => some .many
  | _ => none

/-- The type of a field. -/
def FieldType.toJson : FieldType → Json
  | .base tag => .tagged "Base" (.object [("class_tag", .text tag)])
  | .relation kind tag mine theirs =>
    .tagged "Relation" (.object
      [("kind", kind.toJson), ("other_class_tag", .text tag), ("my_field", .text mine),
        ("other_field", .text theirs)])

/-- Reads the type of a field. -/
def FieldType.ofJson? (j : Json) : Option FieldType := do
  match ← j.fullVariant? with
  | ("Base", content) =>
    return .base (← (← content.objectRecord? ["class_tag"]).get? "class_tag" Json.text?)
  | ("Relation", content) =>
    let record ← content.objectRecord? ["kind", "other_class_tag", "my_field", "other_field"]
    return .relation (← record.get? "kind" RelationKind.ofJson?)
      (← record.get? "other_class_tag" Json.text?) (← record.get? "my_field" Json.text?)
      (← record.get? "other_field" Json.text?)
  | _ => none

/-- Reads the types of the fields of a class. -/
def ClassFields.ofJson? (j : Json) : Option ClassFields := j.fields? FieldType.ofJson?

end PolicyLogic
