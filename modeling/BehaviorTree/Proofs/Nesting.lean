import BehaviorTree.Proofs.Contents

/-!
# Brackets that may be open

What is read from a document does not depend on how many brackets may be open, if they are as many
as it opens at once (`Json.value_depth`, `Json.children_depth`, `Json.objectNode_depth`).
-/

namespace BehaviorTree.Json

mutual

/-- The number of brackets that are open at once in a document. -/
def Document.nesting : Document → Nat
  | .array items _ => nestingItems items + 1
  | .object members _ => nestingMembers members + 1
  | _ => 0

def Document.nestingItems : List Document → Nat
  | [] => 0
  | item :: rest => max item.nesting (nestingItems rest)

def Document.nestingMembers : List (StringLiteral × Document) → Nat
  | [] => 0
  | (_, value) :: rest => max value.nesting (nestingMembers rest)

end

namespace Document

theorem nesting_le_of_mem_items : ∀ {items : List Document} {item : Document}, item ∈ items →
    item.nesting ≤ nestingItems items
  | next :: rest, item, h => by
    rw [nestingItems]
    rcases List.mem_cons.1 h with rfl | h
    · exact Nat.le_max_left _ _
    · exact Nat.le_trans (nesting_le_of_mem_items h) (Nat.le_max_right _ _)

theorem nesting_le_of_mem_members : ∀ {members : List (StringLiteral × Document)}
    {member : StringLiteral × Document}, member ∈ members →
    member.2.nesting ≤ nestingMembers members
  | next :: rest, member, h => by
    rw [nestingMembers]
    rcases List.mem_cons.1 h with rfl | h
    · exact Nat.le_max_left _ _
    · exact Nat.le_trans (nesting_le_of_mem_members h) (Nat.le_max_right _ _)

theorem exists_of_nesting_array_le {items : List Document} {closed : Bool} {depth : Nat}
    (h : (array items closed).nesting ≤ depth) : ∃ n, depth = n + 1 ∧ nestingItems items ≤ n := by
  rw [nesting] at h
  exact ⟨depth - 1, by omega, by omega⟩

theorem exists_of_nesting_object_le {members : List (StringLiteral × Document)} {closed : Bool}
    {depth : Nat} (h : (object members closed).nesting ≤ depth) :
    ∃ n, depth = n + 1 ∧ nestingMembers members ≤ n := by
  rw [nesting] at h
  exact ⟨depth - 1, by omega, by omega⟩

end Document

mutual

theorem value_depth : ∀ (document : Document) {a b : Nat}, document.nesting ≤ a →
    document.nesting ≤ b → value a document = value b document
  | .null, _, _, _, _ | .bool _, _, _, _, _ | .number _, _, _, _, _ | .string _, _, _, _, _
  | .fault, _, _, _, _ => by simp only [value]
  | .array items _, a, b, ha, hb => by
    obtain ⟨a, rfl, ha'⟩ := Document.exists_of_nesting_array_le ha
    obtain ⟨b, rfl, hb'⟩ := Document.exists_of_nesting_array_le hb
    rw [value, value, valueItems_depth items ha' hb']
  | .object members _, a, b, ha, hb => by
    obtain ⟨a, rfl, ha'⟩ := Document.exists_of_nesting_object_le ha
    obtain ⟨b, rfl, hb'⟩ := Document.exists_of_nesting_object_le hb
    rw [value, value, valueMembers_depth members ha' hb']

theorem valueItems_depth : ∀ (items : List Document) {a b : Nat},
    Document.nestingItems items ≤ a → Document.nestingItems items ≤ b →
    valueItems a items = valueItems b items
  | [], _, _, _, _ => by rw [valueItems, valueItems]
  | item :: rest, a, b, ha, hb => by
    rw [Document.nestingItems, Nat.max_le] at ha hb
    rw [valueItems, valueItems, value_depth item ha.1 hb.1, valueItems_depth rest ha.2 hb.2]

theorem valueMembers_depth : ∀ (members : List (StringLiteral × Document)) {a b : Nat},
    Document.nestingMembers members ≤ a → Document.nestingMembers members ≤ b →
    valueMembers a members = valueMembers b members
  | [], _, _, _, _ => by rw [valueMembers, valueMembers]
  | (key, document) :: rest, a, b, ha, hb => by
    rw [Document.nestingMembers, Nat.max_le] at ha hb
    rw [valueMembers, valueMembers, value_depth document ha.1 hb.1,
      valueMembers_depth rest ha.2 hb.2]

end

section Fields

variable {document : Document} {a b : Nat} (ha : document.nesting ≤ a) (hb : document.nesting ≤ b)
include ha hb

theorem scopeField_depth : scopeField a document = scopeField b document := by
  cases document with
  | object members closed =>
    obtain ⟨a, rfl, ha'⟩ := Document.exists_of_nesting_object_le ha
    obtain ⟨b, rfl, hb'⟩ := Document.exists_of_nesting_object_le hb
    rw [scopeField, scopeField, valueMembers_depth members ha' hb']
  | _ => simp only [scopeField]

theorem thresholdField_depth : thresholdField a document = thresholdField b document := by
  unfold thresholdField
  rw [value_depth document ha hb]

theorem optional_depth {α : Type} {read : Nat → Document → Except Misfit α}
    (h : read a document = read b document) :
    optional (read a) document = optional (read b) document := by
  cases document with
  | null => rfl
  | _ => exact congrArg (some <$> ·) h

theorem fieldContent_depth (hchildren : children a document = children b document) (field : Field) :
    fieldContent a field document = fieldContent b field document := by
  cases field with
  | children field => exact hchildren
  | scope => exact optional_depth ha hb (scopeField_depth ha hb)
  | maxSuccess | maxFail => exact optional_depth ha hb (thresholdField_depth ha hb)
  | _ => rfl

end Fields

mutual

theorem children_depth : ∀ (document : Document) {a b : Nat}, document.nesting ≤ a →
    document.nesting ≤ b → children a document = children b document
  | .null, _, _, _, _ | .bool _, _, _, _, _ | .number _, _, _, _, _ | .string _, _, _, _, _
  | .fault, _, _, _, _ => by simp only [children]
  | .array items _, a, b, ha, hb => by
    obtain ⟨a, rfl, ha'⟩ := Document.exists_of_nesting_array_le ha
    obtain ⟨b, rfl, hb'⟩ := Document.exists_of_nesting_array_le hb
    rw [children, children, childItems_depth items ha' hb']
  | .object members _, a, b, ha, hb => by
    obtain ⟨a, rfl, ha'⟩ := Document.exists_of_nesting_object_le ha
    obtain ⟨b, rfl, hb'⟩ := Document.exists_of_nesting_object_le hb
    rw [children, children, objectNode_depth members ha' hb']

theorem childItems_depth : ∀ (items : List Document) {a b : Nat},
    Document.nestingItems items ≤ a → Document.nestingItems items ≤ b →
    childItems a items = childItems b items
  | [], _, _, _, _ => by rw [childItems, childItems]
  | item :: rest, a, b, ha, hb => by
    rw [Document.nestingItems, Nat.max_le] at ha hb
    rw [childItems, childItems, child_depth item ha.1 hb.1, childItems_depth rest ha.2 hb.2]

theorem child_depth : ∀ (document : Document) {a b : Nat}, document.nesting ≤ a →
    document.nesting ≤ b → child a document = child b document
  | .null, _, _, _, _ | .bool _, _, _, _, _ | .number _, _, _, _, _ | .string _, _, _, _, _
  | .fault, _, _, _, _ => by simp only [child]
  | .array items _, a, b, ha, hb => by
    obtain ⟨a, rfl, ha'⟩ := Document.exists_of_nesting_array_le ha
    obtain ⟨b, rfl, hb'⟩ := Document.exists_of_nesting_array_le hb
    simp only [child]
  | .object members _, a, b, ha, hb => by
    obtain ⟨a, rfl, ha'⟩ := Document.exists_of_nesting_object_le ha
    obtain ⟨b, rfl, hb'⟩ := Document.exists_of_nesting_object_le hb
    rw [child, child, objectNode_depth members ha' hb']

theorem objectNode_depth : ∀ (members : List (StringLiteral × Document)) {a b : Nat},
    Document.nestingMembers members ≤ a → Document.nestingMembers members ≤ b →
    objectNode a members = objectNode b members
  | [], _, _, _, _ => by
    funext seen d
    rw [objectNode, objectNode]
  | (key, document) :: rest, a, b, ha, hb => by
    rw [Document.nestingMembers, Nat.max_le] at ha hb
    have hfield := fieldContent_depth ha.1 hb.1 (children_depth document ha.1 hb.1)
    funext seen d
    rw [objectNode, objectNode, objectNode_depth rest ha.2 hb.2]
    simp only [setField_eq, hfield]

end

end BehaviorTree.Json
