import BehaviorTree.Proofs.WrittenValues

/-!
# The same definition in other texts

A document says the same if the members of one of its nodes stand in another order, if there are
other members between them that no node has, or null fields, if a lone child is written as a list,
or if the outermost node is written as an array (`Document.Restated`). The two documents are read as
the same definition, or neither is a definition (`Source.load_of_restated`). The names in a node are
texts: a name that spells none, because a surrogate stands alone in it, is no JSON to the reader.
-/

namespace BehaviorTree

namespace Json

section Restated

/-- Members with others put between them, whose names no node has. -/
inductive Extended :
    List (StringLiteral × Document) → List (StringLiteral × Document) → Prop
  | nil : Extended [] []
  | keep {members others : List (StringLiteral × Document)} (member : StringLiteral × Document)
    (h : Extended members others) : Extended (member :: members) (member :: others)
  | extra {members others : List (StringLiteral × Document)} {key : String}
    (hkey : key ∉ Field.all.map Field.name) (document : Document) (h : Extended members others) :
    Extended members ((some key, document) :: others)

/-- The documents under the names of all fields, null for those that no member has. -/
def fieldDocuments (members : List (StringLiteral × Document)) : List Document :=
  Field.all.map fun field => (members.lookup (some field.name)).getD .null

mutual

/-- The members of a node, restated by one change at the node or at a node below it. -/
inductive MembersRestated :
    List (StringLiteral × Document) → List (StringLiteral × Document) → Prop
  | permuted {members others : List (StringLiteral × Document)} (h : members.Perm others) :
    MembersRestated members others
  | extended {members others : List (StringLiteral × Document)} (h : Extended members others) :
    MembersRestated members others
  | null {before after : List (StringLiteral × Document)} {field : Field}
    (h : ∀ member ∈ before ++ after, member.1 ≠ some field.name) :
    MembersRestated (before ++ after) (before ++ (some field.name, .null) :: after)
  | children {before after : List (StringLiteral × Document)} {field : ChildField}
    {document other : Document} (h : ChildrenRestated document other) :
    MembersRestated (before ++ (some field.name, document) :: after)
      (before ++ (some field.name, other) :: after)

/-- What stands under a field for children, restated by one change there or at a node below it. -/
inductive ChildrenRestated : Document → Document → Prop
  | lonePath (literal : StringLiteral) :
    ChildrenRestated (.string literal) (.array [.string literal] true)
  | loneNode (members : List (StringLiteral × Document)) :
    ChildrenRestated (.object members true) (.array [.object members true] true)
  | node {members others : List (StringLiteral × Document)} (h : MembersRestated members others) :
    ChildrenRestated (.object members true) (.object others true)
  | item {before after : List Document} {members others : List (StringLiteral × Document)}
    (h : MembersRestated members others) :
    ChildrenRestated (.array (before ++ .object members true :: after) true)
      (.array (before ++ .object others true :: after) true)

end

/-- A document of a definition, restated by one change at one of its nodes. -/
inductive Document.Restated : Document → Document → Prop
  | node {members others : List (StringLiteral × Document)} (h : MembersRestated members others) :
    Restated (.object members true) (.object others true)
  | array {members : List (StringLiteral × Document)} (hnames : ∀ member ∈ members, member.1.isSome)
    (hdistinct : ((known members).map Prod.fst).Nodup) :
    Restated (.object members true) (.array (fieldDocuments members) true)
  | children {before after : List Document} {field : ChildField} {document other : Document}
    (hfield : Field.all[before.length]? = some (.children field))
    (h : ChildrenRestated document other) :
    Restated (.array (before ++ document :: after) true) (.array (before ++ other :: after) true)

end Restated

section Results

variable {ε α β : Type}

theorem toOption_eq_iff {x y : Except ε α} :
    x.toOption = y.toOption ↔ ∀ a, x = .ok a ↔ y = .ok a := by
  cases x with
  | error e => cases y <;> simp [Except.toOption]
  | ok a => cases y <;> simp [Except.toOption, eq_comm]

theorem toOption_bind (x : Except ε α) (f : α → Except ε β) :
    (x >>= f).toOption = x.toOption.bind fun a => (f a).toOption := by
  cases x <;> rfl

theorem toOption_bind_congr {x y : Except ε α} (h : x.toOption = y.toOption) (f : α → Except ε β) :
    (x >>= f).toOption = (y >>= f).toOption := by
  rw [toOption_bind, toOption_bind, h]

end Results

section Members

variable {depth : Nat} {members others before after : List (StringLiteral × Document)}

theorem known_append : known (before ++ after) = known before ++ known after :=
  List.filterMap_append

theorem known_cons_name (field : Field) (document : Document) :
    known ((some field.name, document) :: after) = (field, document) :: known after := by
  refine List.filterMap_cons_some (b := (field, document)) ?_
  simp [known?, Field.ofName?_name]

theorem objectNode_toOption_congr
    (hnames : (∀ member ∈ members, member.1.isSome) ↔ ∀ member ∈ others, member.1.isSome)
    (hgive : ∀ e, Give depth [] {} (known members) e ↔ Give depth [] {} (known others) e) :
    (objectNode depth members [] {}).toOption = (objectNode depth others [] {}).toOption :=
  toOption_eq_iff.2 fun e => by rw [objectNode_eq_ok_iff, objectNode_eq_ok_iff, hnames, hgive e]

theorem objectNode_of_perm (h : members.Perm others) :
    (objectNode depth members [] {}).toOption = (objectNode depth others [] {}).toOption := by
  have hknown : (known members).Perm (known others) := h.filterMap known?
  exact objectNode_toOption_congr (forall_congr' fun member => imp_congr_left h.mem_iff)
    fun e => ⟨.perm hknown, .perm hknown.symm⟩

theorem Extended.known_eq (h : Extended members others) : known others = known members := by
  induction h with
  | nil => rfl
  | @keep members others member _ ih =>
    rw [known, known, List.filterMap_cons, List.filterMap_cons, ← known, ← known, ih]
  | extra hkey document _ ih =>
    rw [known, List.filterMap_cons_none, ← known, ih]
    simp [known?, Field.ofName?_eq_none_iff.2 hkey]

theorem Extended.names_iff (h : Extended members others) :
    (∀ member ∈ members, member.1.isSome) ↔ ∀ member ∈ others, member.1.isSome := by
  induction h with
  | nil => rfl
  | keep member _ ih => rw [List.forall_mem_cons, List.forall_mem_cons, ih]
  | extra _ _ _ ih =>
    rw [List.forall_mem_cons, ih]
    exact (and_iff_right rfl).symm

theorem objectNode_of_extended (h : Extended members others) :
    (objectNode depth members [] {}).toOption = (objectNode depth others [] {}).toOption :=
  objectNode_toOption_congr h.names_iff fun e => by rw [h.known_eq]

theorem objectNode_of_null {field : Field}
    (h : ∀ member ∈ before ++ after, member.1 ≠ some field.name) :
    (objectNode depth (before ++ after) [] {}).toOption
      = (objectNode depth (before ++ (some field.name, .null) :: after) [] {}).toOption := by
  have hperm : (before ++ (some field.name, Document.null) :: after).Perm
      ((some field.name, .null) :: (before ++ after)) := List.perm_middle
  have hfresh : field ∉ (known (before ++ after)).map Prod.fst := fun hmem => by
    obtain ⟨member, hmember, rfl⟩ := List.mem_map.1 hmem
    exact h _ (mem_of_mem_known hmember) rfl
  rw [objectNode_of_perm hperm]
  refine objectNode_toOption_congr (by simp) fun e => ?_
  rw [known_cons_name, Give.null_iff hfresh]

theorem objectNode_of_children {field : ChildField} {document other : Document}
    (h : (children depth document).toOption = (children depth other).toOption) :
    (objectNode depth (before ++ (some (Field.children field).name, document) :: after)
        [] {}).toOption
      = (objectNode depth (before ++ (some (Field.children field).name, other) :: after)
          [] {}).toOption := by
  refine objectNode_toOption_congr (by
    simp only [List.forall_mem_append, List.forall_mem_cons, Option.isSome_some]) fun e => ?_
  rw [known_append, known_append, known_cons_name, known_cons_name]
  exact ⟨.replace fun content => (toOption_eq_iff.1 h content).1,
    .replace fun content => (toOption_eq_iff.1 h content).2⟩

end Members

section Items

variable {depth : Nat} {item other : Document}

theorem childItems_toOption_congr (h : (child depth item).toOption = (child depth other).toOption)
    (after : List Document) : ∀ before : List Document,
      (childItems depth (before ++ item :: after)).toOption
        = (childItems depth (before ++ other :: after)).toOption
  | [] => by
    rw [List.nil_append, List.nil_append, childItems, childItems]
    exact toOption_bind_congr h _
  | first :: before => by
    have ih := childItems_toOption_congr h after before
    rw [List.cons_append, List.cons_append, childItems, childItems, toOption_bind, toOption_bind]
    refine congrArg _ (funext fun c => ?_)
    exact toOption_bind_congr ih _

end Items

mutual

/-- A node restated is read as the same node, or neither is a node. -/
theorem MembersRestated.objectNode {members others : List (StringLiteral × Document)}
    (h : MembersRestated members others) {depth : Nat}
    (hmembers : Document.nestingMembers members ≤ depth)
    (hothers : Document.nestingMembers others ≤ depth) :
    (Json.objectNode depth members [] {}).toOption
      = (Json.objectNode depth others [] {}).toOption := by
  cases h with
  | permuted h => exact objectNode_of_perm h
  | extended h => exact objectNode_of_extended h
  | null h => exact objectNode_of_null h
  | children h =>
    have hdocument := (Document.nesting_le_of_mem_members (List.mem_append_right _
      List.mem_cons_self)).trans hmembers
    have hother := (Document.nesting_le_of_mem_members (List.mem_append_right _
      List.mem_cons_self)).trans hothers
    exact objectNode_of_children (h.children hdocument hother)

theorem ChildrenRestated.children {document other : Document} (h : ChildrenRestated document other)
    {depth : Nat} (hdocument : document.nesting ≤ depth) (hother : other.nesting ≤ depth) :
    (Json.children depth document).toOption = (Json.children depth other).toOption := by
  cases h with
  | lonePath literal =>
    obtain ⟨depth, rfl, -⟩ := Document.exists_of_nesting_array_le hother
    cases literal <;> simp only [Json.children, childItems, child] <;> rfl
  | loneNode members =>
    obtain ⟨depth, rfl, hitems⟩ := Document.exists_of_nesting_array_le hother
    have hnesting : (Document.object members true).nesting ≤ depth :=
      (Document.nesting_le_of_mem_items List.mem_cons_self).trans hitems
    rw [children_depth (.object members true) hdocument (Nat.le_succ_of_le hnesting)]
    obtain ⟨depth, rfl, hmembers⟩ := Document.exists_of_nesting_object_le hnesting
    rw [Json.children, Json.children, childItems, childItems, child,
      objectNode_depth members (Nat.le_succ_of_le hmembers) hmembers]
    cases Json.objectNode depth members [] {} <;> rfl
  | node h =>
    obtain ⟨depth, rfl, hmembers⟩ := Document.exists_of_nesting_object_le hdocument
    obtain ⟨_, heq, hothers⟩ := Document.exists_of_nesting_object_le hother
    obtain rfl := Nat.succ.inj heq
    rw [Json.children, Json.children]
    exact toOption_bind_congr (h.objectNode hmembers hothers) _
  | @item before after members others h =>
    obtain ⟨depth, rfl, hitems⟩ := Document.exists_of_nesting_array_le hdocument
    obtain ⟨_, heq, hothers⟩ := Document.exists_of_nesting_array_le hother
    obtain rfl := Nat.succ.inj heq
    have hchild := h.child ((Document.nesting_le_of_mem_items (by simp)).trans hitems)
      ((Document.nesting_le_of_mem_items (by simp)).trans hothers)
    rw [Json.children, Json.children]
    exact toOption_bind_congr (childItems_toOption_congr hchild after before) _

/-- A node among other children, restated, is read as the same child, or neither is a child. -/
theorem MembersRestated.child {members others : List (StringLiteral × Document)}
    (h : MembersRestated members others) {depth : Nat}
    (hmembers : (Document.object members true).nesting ≤ depth)
    (hothers : (Document.object others true).nesting ≤ depth) :
    (Json.child depth (.object members true)).toOption
      = (Json.child depth (.object others true)).toOption := by
  obtain ⟨depth, rfl, hmembers'⟩ := Document.exists_of_nesting_object_le hmembers
  obtain ⟨_, heq, hothers'⟩ := Document.exists_of_nesting_object_le hothers
  obtain rfl := Nat.succ.inj heq
  rw [Json.child, Json.child]
  exact toOption_bind_congr (h.objectNode hmembers' hothers') _

end

section Root

variable {depth : Nat} {members : List (StringLiteral × Document)}

theorem lookup_known (field : Field) : ∀ members : List (StringLiteral × Document),
    members.lookup (some field.name) = (known members).lookup field
  | [] => rfl
  | (none, document) :: rest => by
    rw [known, List.filterMap_cons_none rfl, ← known, ← lookup_known field rest, List.lookup_cons]
    rfl
  | (some key, document) :: rest => by
    have ih := lookup_known field rest
    rw [List.lookup_cons]
    cases hkey : Field.ofName? key with
    | none =>
      have hne : some field.name ≠ some key := fun heq => by
        rw [← Option.some.inj heq, Field.ofName?_name] at hkey
        cases hkey
      rw [known, List.filterMap_cons_none (by simp [known?, hkey]), ← known, ← ih,
        beq_false_of_ne hne]
    | some other =>
      obtain rfl := Field.ofName?_eq_some_iff.1 hkey
      have hiff : field.name = other.name ↔ field = other :=
        ⟨fun heq => Option.some.inj (by rw [← Field.ofName?_name, heq, Field.ofName?_name]),
          congrArg _⟩
      rw [known_cons_name, List.lookup_cons, ← ih]
      simp [hiff, beq_eq_decide]

theorem zip_fieldDocuments : Field.all.zip (fieldDocuments members)
    = Field.all.map fun field => (field, ((known members).lookup field).getD .null) := by
  unfold fieldDocuments
  simp only [lookup_known]
  rw [List.map_prod_left_eq_zip]

theorem lookup_of_mem {fields : List (Field × Document)} (hdistinct : (fields.map Prod.fst).Nodup)
    {field : Field} {document : Document} (h : (field, document) ∈ fields) :
    fields.lookup field = some document := by
  obtain ⟨before, after, rfl⟩ := List.append_of_mem h
  refine List.lookup_eq_some_iff.2 ⟨before, after, rfl, fun other hother => bne_iff_ne.2 ?_⟩
  rw [List.map_append, List.nodup_append] at hdistinct
  exact (hdistinct.2.2 _ (List.mem_map_of_mem hother) field (by simp)).symm

theorem lookup_of_not_mem {fields : List (Field × Document)} {field : Field}
    (h : field ∉ fields.map Prod.fst) : fields.lookup field = none := by
  refine List.lookup_eq_none_iff.2 fun other hother => bne_iff_ne.2 ?_
  rintro rfl
  exact h (List.mem_map_of_mem hother)

/-- The documents of all fields give what the members give. -/
theorem give_fieldDocuments_iff {e : Definition}
    (hdistinct : ((known members).map Prod.fst).Nodup) :
    Give depth [] {} (known members) e
      ↔ Give depth [] {} (Field.all.zip (fieldDocuments members)) e := by
  rw [zip_fieldDocuments]
  have hall : (Field.all.map fun field => (field, ((known members).lookup field).getD .null)).map
      Prod.fst = Field.all := by
    rw [List.map_map]
    exact List.map_id _
  constructor
  · intro h
    refine ⟨nofun, hall ▸ Field.nodup_all, fun member hmember => ?_, fun field hfield =>
      absurd field.mem_all (hall ▸ hfield)⟩
    obtain ⟨field, -, rfl⟩ := List.mem_map.1 hmember
    by_cases hknown : field ∈ (known members).map Prod.fst
    · obtain ⟨⟨_, document⟩, hmem, rfl⟩ := List.mem_map.1 hknown
      rw [lookup_of_mem hdistinct hmem]
      exact h.present _ hmem
    · rw [lookup_of_not_mem hknown, h.absent field hknown, Definition.content_empty]
      exact fieldContent_null depth field
  · intro h
    have hheld : ∀ field, fieldContent depth field (((known members).lookup field).getD .null)
        = .ok (e.content field) := fun field =>
      h.present _ (List.mem_map.2 ⟨field, field.mem_all, rfl⟩)
    refine ⟨nofun, hdistinct, fun member hmember => ?_, fun field hfield => ?_⟩
    · have hfield := hheld member.1
      rwa [lookup_of_mem hdistinct hmember] at hfield
    · have hnull := hheld field
      rw [lookup_of_not_mem hfield, Option.getD_none, fieldContent_null] at hnull
      rw [← Except.ok.inj hnull, Definition.content_empty]

theorem rootNode_object_eq_ok_iff {e : Definition} : rootNode (.object members true) = .ok e
    ↔ (∀ member ∈ members, member.1.isSome) ∧ Give (maxDepth - 1) [] {} (known members) e := by
  rw [← objectNode_eq_ok_iff, rootNode]
  cases objectNode (maxDepth - 1) members [] {} <;> rfl

theorem rootNode_array_eq_ok_iff {items : List Document} {e : Definition} :
    rootNode (.array items true) = .ok e ↔ items.length = Field.all.length
      ∧ Give (maxDepth - 1) [] {} (Field.all.zip items) e := by
  rw [rootNode, arrayNode_eq_ok_iff Field.nodup_all fun _ _ => List.not_mem_nil]

theorem rootNode_of_array (hnames : ∀ member ∈ members, member.1.isSome)
    (hdistinct : ((known members).map Prod.fst).Nodup) :
    (rootNode (.object members true)).toOption
      = (rootNode (.array (fieldDocuments members) true)).toOption := by
  refine toOption_eq_iff.2 fun e => ?_
  rw [rootNode_object_eq_ok_iff, rootNode_array_eq_ok_iff, and_iff_right hnames,
    give_fieldDocuments_iff hdistinct, fieldDocuments, List.length_map, and_iff_right rfl]

theorem rootNode_of_children {before after : List Document} {field : ChildField}
    {document other : Document} (hfield : Field.all[before.length]? = some (.children field))
    (h : (children (maxDepth - 1) document).toOption = (children (maxDepth - 1) other).toOption) :
    (rootNode (.array (before ++ document :: after) true)).toOption
      = (rootNode (.array (before ++ other :: after) true)).toOption := by
  obtain ⟨hlt, hget⟩ := List.getElem?_eq_some_iff.1 hfield
  have hall : Field.all
      = Field.all.take before.length ++ .children field :: Field.all.drop (before.length + 1) := by
    rw [← hget, ← List.drop_eq_getElem_cons hlt, List.take_append_drop]
  have hzip : ∀ document : Document, Field.all.zip (before ++ document :: after)
      = (Field.all.take before.length).zip before ++ (.children field, document)
        :: (Field.all.drop (before.length + 1)).zip after := fun document => by
    conv_lhs => rw [hall]
    rw [List.zip_append (by simp; omega), List.zip_cons_cons]
  refine toOption_eq_iff.2 fun e => ?_
  rw [rootNode_array_eq_ok_iff, rootNode_array_eq_ok_iff, hzip, hzip, List.length_append,
    List.length_append, List.length_cons, List.length_cons]
  exact and_congr_right fun _ => ⟨.replace fun content => (toOption_eq_iff.1 h content).1,
    .replace fun content => (toOption_eq_iff.1 h content).2⟩

/-- A document restated is read as the same definition, or neither is a definition. -/
theorem Document.Restated.rootNode {document other : Document} (h : document.Restated other)
    (hdocument : document.nesting ≤ maxDepth) (hother : other.nesting ≤ maxDepth) :
    (Json.rootNode document).toOption = (Json.rootNode other).toOption := by
  cases h with
  | node h =>
    rw [Json.rootNode, Json.rootNode]
    exact toOption_bind_congr (h.objectNode (Nat.le_of_succ_le_succ hdocument)
      (Nat.le_of_succ_le_succ hother)) _
  | array hnames hdistinct => exact rootNode_of_array hnames hdistinct
  | children hfield h =>
    refine rootNode_of_children hfield (h.children ?_ ?_)
    · exact (nesting_le_of_mem_items (by simp)).trans (Nat.le_of_succ_le_succ hdocument)
    · exact (nesting_le_of_mem_items (by simp)).trans (Nat.le_of_succ_le_succ hother)

end Root

end Json

open Json

/-- Texts of documents that say the same are loaded as the same definition, or neither is loaded. -/
theorem Source.load_of_restated {text other : String} {document restated : Document}
    (htext : Document.Spells text document) (hother : Document.Spells other restated)
    (h : document.Restated restated) (hdocument : document.nesting ≤ 127)
    (hrestated : restated.nesting ≤ 127) (files : Files) :
    ((Source.text .json text).load files).toOption
      = ((Source.text .json other).load files).toOption := by
  have hroot := h.rootNode hdocument hrestated
  rw [load_of_spells htext, load_of_spells hother]
  revert hroot
  cases rootNode document <;> cases rootNode restated <;> simp [Except.toOption, Except.mapError]

/-- A sequence of one inverter, whose child is written as it is and as a list. -/
theorem Source.load_of_restated_inverter :
    let document : Document :=
      .object [(some "seq", .object [(some "invert", .string (some "a"))] true)] true
    let restated : Document :=
      .object [(some "seq", .object [(some "invert", .array [.string (some "a")] true)] true)] true
    let text := "\x7b\"seq\":\x7b\"invert\":\"a\"\x7d\x7d"
    let other := "\x7b\"seq\":\x7b\"invert\":[\"a\"]\x7d\x7d"
    let d : Definition := { seq := some [.node { invert := some [.path "a"] }] }
    let files : Files := fun _ => .error .missing
    Document.Spells text document ∧ Document.Spells other restated ∧ document.Restated restated
      ∧ document.nesting ≤ 127 ∧ restated.nesting ≤ 127
      ∧ ((Source.text .json text).load files).toOption = some d
      ∧ ((Source.text .json other).load files).toOption = some d := by
  intro document restated text other d files
  have ha : (Document.string (some "a")).Spelled (writeString "a") :=
    .string (writeString_spelled "a")
  have htext : Document.Spells text document :=
    ⟨[], _, [], .nil, .object (.last .nil (writeString_spelled "seq") .nil .nil (.object
      (.last .nil (writeString_spelled "invert") .nil .nil ha .nil)) .nil), .nil, by decide⟩
  have hother : Document.Spells other restated :=
    ⟨[], _, [], .nil, .object (.last .nil (writeString_spelled "seq") .nil .nil (.object
      (.last .nil (writeString_spelled "invert") .nil .nil (.array (.last .nil ha .nil)) .nil))
      .nil), .nil, by decide⟩
  have hchild (field : ChildField) {before after : Document} (h : ChildrenRestated before after) :
      MembersRestated [(some (Field.children field).name, before)]
        [(some (Field.children field).name, after)] := by
    rw [← List.nil_append [(_, before)], ← List.nil_append [(_, after)]]
    exact .children h
  have hrestated : document.Restated restated :=
    .node (hchild .seq (.node (hchild .invert (.lonePath (some "a")))))
  have hload := load_of_restated htext hother hrestated (by decide) (by decide) files
  have hseq : Field.ofName? "seq" = some (.children .seq) := by decide
  have hinvert : Field.ofName? "invert" = some (.children .invert) := by decide
  have hroot : rootNode document = .ok d := by
    simp [document, d, rootNode, objectNode, literalText, hseq, hinvert, setField, children,
      maxDepth, bind, Except.bind, whenClosed, Definition.setChildren, pure, Except.pure]
  have hd : ((Source.text .json text).load files).toOption = some d := by
    rw [load_of_spells htext, hroot]
    rfl
  exact ⟨htext, hother, hrestated, by decide, by decide, hd, hload ▸ hd⟩

end BehaviorTree
