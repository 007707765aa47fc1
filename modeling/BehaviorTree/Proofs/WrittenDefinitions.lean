import BehaviorTree.Proofs.Contents
import BehaviorTree.Proofs.WrittenValues

/-!
# Definitions survive their text

A definition is written as an object that has its present fields under their names, in any order,
with its children in lists (`Definition.document`). If it has no action given on the spot and no
float in its scopes (`Definition.Writable`), some text spells that object, and whatever text does is
read as the definition again (`Definition.load_of_spells_document`), unless it opens more brackets
than may be open at once.
-/

namespace BehaviorTree

open Json

def Threshold.document : Threshold → Document
  | never => .bool false
  | all => .bool true
  | count n => .number (.ofInt n)

namespace Definition

/-- What is written for a field if it is present, given what is written for lists of children. -/
def fieldDocument (d : Definition) (listed : ChildField → Option Document) :
    Field → Option Document
  | .kind => d.kind.map fun text => .string (some text)
  | .title => d.title.map fun text => .string (some text)
  | .scope => d.scope.map fun table => (Value.map table.entries).document
  | .actionType => d.actionType.map fun text => .string (some text)
  | .debug => d.debug.map .bool
  | .action =>
    match d.action with
    | some (.path path) => some (.string (some path))
    | _ => none
  | .children field => listed field
  | .maxSuccess => d.maxSuccess.map Threshold.document
  | .maxFail => d.maxFail.map Threshold.document
  | .waitForAll => d.waitForAll.map .bool
  | .waitForMe => d.waitForMe.map .bool

variable (order : Definition → List Field)

mutual

/-- The object of a definition, with the present ones of some fields in their order. -/
def document : Definition → Document
  | d@⟨_, _, _, _, _, _, seq, sel, par, invert, success, failure, nodes, _, _, _, _⟩ =>
    let listed : ChildField → Option Document
      | .seq => documentUnder seq
      | .sel => documentUnder sel
      | .par => documentUnder par
      | .invert => documentUnder invert
      | .success => documentUnder success
      | .failure => documentUnder failure
      | .nodes => documentUnder nodes
    .object ((order d).filterMap fun field =>
      (d.fieldDocument listed field).map (some field.name, ·)) true

def documentUnder : Option (List (Child Definition)) → Option Document
  | none => none
  | some cs => some (.array (childDocuments cs) true)

def childDocuments : List (Child Definition) → List Document
  | [] => []
  | c :: rest => childDocument c :: childDocuments rest

def childDocument : Child Definition → Document
  | .path path => .string (some path)
  | .node d => d.document

end

/-- What is written for a field, if it is present. -/
def written (d : Definition) (field : Field) : Option Document :=
  d.fieldDocument (fun field => documentUnder order (d.children field)) field

def members (d : Definition) : List (StringLiteral × Document) :=
  (order d).filterMap fun field => (d.written order field).map (some field.name, ·)

theorem document_eq (d : Definition) : d.document order = .object (d.members order) true := by
  obtain ⟨⟩ := d
  rw [document, members]
  unfold written
  congr 3
  funext field
  congr 2
  funext field
  cases field <;> rfl

theorem childDocuments_eq_map : ∀ cs : List (Child Definition),
    childDocuments order cs = cs.map (childDocument order)
  | [] => rfl
  | c :: rest => by rw [childDocuments, childDocuments_eq_map rest, List.map_cons]

theorem written_children {d : Definition} {field : ChildField} {document : Document}
    (h : d.written order (.children field) = some document) :
    ∃ cs, d.children field = some cs ∧ document = .array (childDocuments order cs) true := by
  rw [written, fieldDocument] at h
  cases hcs : d.children field with
  | none =>
    rw [hcs] at h
    cases h
  | some cs =>
    rw [hcs] at h
    cases h
    exact ⟨cs, rfl, rfl⟩

/-- A definition without actions given on the spot and floats, with thresholds of 64 bits. -/
inductive Writable : Definition → Prop
  | mk {d : Definition} (haction : ∀ action, d.action ≠ some (.inline action))
    (hscope : ∀ entry ∈ d.declared.entries, entry.2.Plain)
    (hthreshold : ∀ n, some (.count n) ∈ [d.maxSuccess, d.maxFail] → n < 2 ^ 64)
    (hchildren : ∀ field cs e, d.children field = some cs → .node e ∈ cs → Writable e) : Writable d

section Written

variable {order : Definition → List Field} {d : Definition}

theorem Writable.plain_scope (hd : d.Writable) {table : Table Value} (h : d.scope = some table) :
    (Value.map table.entries).Plain := by
  obtain ⟨-, hscope, -, -⟩ := hd
  rw [declared, h] at hscope
  exact .map table.ordered hscope

theorem scopeField_document {table : Table Value} (h : (Value.map table.entries).Plain)
    {depth : Nat} (hdepth : (Value.map table.entries).document.nesting ≤ depth) :
    scopeField depth (Value.map table.entries).document = .ok table := by
  obtain ⟨depth, rfl, hle⟩ := Document.exists_of_nesting_object_le hdepth
  obtain _ | _ | _ | _ | _ | ⟨-, hentries⟩ := h
  have hread := valueMembers_entryDocuments fun entry hentry =>
    value_document (hentries entry hentry)
      ((Document.nesting_le_of_mem_members (Value.mem_entryDocuments hentry)).trans hle)
  rw [Value.document, scopeField, hread]
  exact congrArg Except.ok table.ofList_entries

theorem thresholdField_document {threshold : Threshold} (h : ∀ n, threshold = .count n → n < 2 ^ 64)
    (depth : Nat) : thresholdField depth threshold.document = .ok threshold := by
  cases threshold with
  | never | all => rfl
  | count n =>
    have hlt := h n rfl
    have hread := read?_ofInt (i := n) (by omega) (by omega)
    simp only [thresholdField, Threshold.document, value, number, hread]
    rfl

/-- What is written for a field says what the field holds; for children, if their lists do. -/
theorem fieldContent_written (hd : d.Writable) {depth : Nat}
    (hlisted : ∀ field cs, d.children field = some cs →
      (Document.array (childDocuments order cs) true).nesting ≤ depth →
      Json.children depth (.array (childDocuments order cs) true) = .ok (some cs))
    {field : Field} {document : Document} (h : d.written order field = some document)
    (hnesting : document.nesting ≤ depth) :
    fieldContent depth field document = .ok (d.content field) := by
  cases field with
  | children field =>
    obtain ⟨cs, hcs, rfl⟩ := written_children order h
    rw [fieldContent, hlisted field cs hcs hnesting, content, hcs]
  | kind | title | actionType | debug | waitForAll | waitForMe =>
    obtain ⟨held, hheld, rfl⟩ := Option.map_eq_some_iff.1 h
    rw [content, hheld]
    rfl
  | scope =>
    obtain ⟨table, htable, rfl⟩ := Option.map_eq_some_iff.1 h
    rw [content, htable]
    exact congrArg (some <$> ·) (scopeField_document (hd.plain_scope htable) hnesting)
  | action =>
    rw [written, fieldDocument] at h
    rw [content]
    split at h
    · rename_i path hpath
      cases h
      rw [hpath]
      rfl
    · cases h
  | maxSuccess | maxFail =>
    obtain ⟨-, -, hthreshold, -⟩ := hd
    obtain ⟨threshold, hheld, rfl⟩ := Option.map_eq_some_iff.1 h
    rw [content, hheld, fieldContent]
    have hread : thresholdField depth threshold.document = .ok threshold :=
      thresholdField_document (fun n hn => hthreshold n (by simp [hheld, hn])) depth
    cases threshold <;> exact congrArg (some <$> ·) hread

/-- What is not written for a field is not held by it. -/
theorem content_of_written_eq_none (hd : d.Writable) {field : Field}
    (h : d.written order field = none) : d.content field = none := by
  cases field with
  | children field =>
    rw [written, fieldDocument] at h
    rw [content]
    cases hcs : d.children field with
    | none => rfl
    | some cs =>
      rw [hcs] at h
      cases h
  | action =>
    obtain ⟨haction, -, -, -⟩ := hd
    rw [written, fieldDocument] at h
    rw [content]
    cases hheld : d.action with
    | none => rfl
    | some ref =>
      cases ref with
      | path path =>
        rw [hheld] at h
        cases h
      | inline action => exact absurd hheld (haction action)
  | _ => exact Option.map_eq_none_iff.1 h

theorem known_members : known (d.members order)
    = (order d).filterMap fun field => (d.written order field).map (field, ·) := by
  rw [known, members, List.filterMap_filterMap]
  refine List.filterMap_congr fun field _ => ?_
  cases d.written order field with
  | none => rfl
  | some document =>
    show (Field.ofName? field.name).map (·, document) = _
    rw [Field.ofName?_name]
    rfl

theorem map_fst_known_members : (known (d.members order)).map Prod.fst
    = (order d).filter fun field => (d.written order field).isSome := by
  rw [known_members, List.map_filterMap, ← List.filterMap_eq_filter]
  refine List.filterMap_congr fun field _ => ?_
  cases h : d.written order field <;> simp [Option.guard, h]

theorem written_of_mem_known {member : Field × Document} (h : member ∈ known (d.members order)) :
    d.written order member.1 = some member.2 := by
  rw [known_members, List.mem_filterMap] at h
  obtain ⟨field, -, hmember⟩ := h
  obtain ⟨document, hdocument, rfl⟩ := Option.map_eq_some_iff.1 hmember
  exact hdocument

theorem child_childDocument {c : Child Definition} (h : ∀ e, c = .node e → ∀ {depth : Nat},
      Document.nestingMembers (e.members order) ≤ depth →
      objectNode depth (e.members order) [] {} = .ok e) {depth : Nat}
    (hnesting : (childDocument order c).nesting ≤ depth) :
    child depth (childDocument order c) = .ok c := by
  cases c with
  | path path => simp only [childDocument, child, literalText, Functor.map, Except.map]
  | node e =>
    rw [childDocument, document_eq] at hnesting ⊢
    obtain ⟨depth, rfl, hle⟩ := Document.exists_of_nesting_object_le hnesting
    rw [child, h e rfl hle]
    rfl

theorem childItems_childDocuments : ∀ {cs : List (Child Definition)},
    (∀ e, .node e ∈ cs → ∀ {depth : Nat}, Document.nestingMembers (e.members order) ≤ depth →
      objectNode depth (e.members order) [] {} = .ok e) → ∀ {depth : Nat},
    Document.nestingItems (childDocuments order cs) ≤ depth →
    childItems depth (childDocuments order cs) = .ok cs
  | [], _, _, _ => by rw [childDocuments, childItems]
  | c :: rest, h, depth, hnesting => by
    rw [childDocuments, Document.nestingItems, Nat.max_le] at hnesting
    have hchild := child_childDocument (c := c) (fun e he => h e (he ▸ List.mem_cons_self))
      hnesting.1
    have hrest := childItems_childDocuments (fun e he => h e (List.mem_cons_of_mem c he)) hnesting.2
    rw [childDocuments, childItems, hchild, hrest]
    rfl

variable (horder : ∀ d, (order d).Perm Field.all)
include horder

theorem objectNode_members (hd : d.Writable) {depth : Nat}
    (hlisted : ∀ field cs, d.children field = some cs →
      (Document.array (childDocuments order cs) true).nesting ≤ depth →
      Json.children depth (.array (childDocuments order cs) true) = .ok (some cs))
    (hnesting : Document.nestingMembers (d.members order) ≤ depth) :
    objectNode depth (d.members order) [] {} = .ok d := by
  have hnames : ∀ member ∈ d.members order, member.1.isSome := by
    intro member hmember
    obtain ⟨field, -, hfield⟩ := List.mem_filterMap.1 hmember
    obtain ⟨document, -, rfl⟩ := Option.map_eq_some_iff.1 hfield
    rfl
  have hdistinct : ((known (d.members order)).map Prod.fst).Nodup := by
    rw [map_fst_known_members]
    exact ((horder d).nodup_iff.2 Field.nodup_all).filter _
  refine objectNode_eq_ok_iff.2 ⟨hnames, ⟨nofun, hdistinct, fun member hmember => ?_,
    fun field hfield => ?_⟩⟩
  · exact fieldContent_written hd hlisted (written_of_mem_known hmember)
      ((Document.nesting_le_of_mem_members (mem_of_mem_known hmember)).trans hnesting)
  · rw [map_fst_known_members, List.mem_filter, and_iff_right ((horder d).mem_iff.2 field.mem_all),
      Bool.not_eq_true, Option.isSome_eq_false_iff, Option.isNone_iff_eq_none] at hfield
    rw [content_empty, content_of_written_eq_none hd hfield]

/-- The object of a definition is read as the definition. -/
theorem Writable.objectNode_members (hd : d.Writable) : ∀ {depth : Nat},
    Document.nestingMembers (d.members order) ≤ depth →
    objectNode depth (d.members order) [] {} = .ok d := by
  induction hd with
  | @mk d haction hscope hthreshold hchildren ih =>
    intro depth hnesting
    refine Definition.objectNode_members horder ⟨haction, hscope, hthreshold, hchildren⟩ ?_ hnesting
    intro field cs hcs hle
    obtain ⟨depth, rfl, hitems⟩ := Document.exists_of_nesting_array_le hle
    rw [Json.children, childItems_childDocuments (fun e he => ih field cs e hcs he) hitems]
    rfl

omit horder

section Text

theorem exists_itemsSpelled : ∀ {items : List Document}, items ≠ [] →
    (∀ item ∈ items, ∃ cs, item.Spelled cs) → ∃ cs, Document.ItemsSpelled items cs
  | [item], _, h => by
    obtain ⟨cs, hcs⟩ := h item List.mem_cons_self
    exact ⟨_, .last .nil hcs .nil⟩
  | item :: next :: rest, _, h => by
    obtain ⟨hitem, hrest⟩ := List.forall_mem_cons.1 h
    obtain ⟨cs, hcs⟩ := hitem
    obtain ⟨more, hmore⟩ := exists_itemsSpelled (List.cons_ne_nil next rest) hrest
    exact ⟨_, .cons .nil hcs .nil hmore⟩

theorem exists_membersSpelled : ∀ {members : List (StringLiteral × Document)}, members ≠ [] →
    (∀ member ∈ members, member.1.isSome ∧ ∃ cs, member.2.Spelled cs) →
    ∃ cs, Document.MembersSpelled members cs
  | [(none, _)], _, h | (none, _) :: _ :: _, _, h => nomatch (h _ List.mem_cons_self).1
  | [(some key, document)], _, h => by
    obtain ⟨-, cs, hcs⟩ := h _ List.mem_cons_self
    exact ⟨_, .last .nil (writeString_spelled key) .nil .nil hcs .nil⟩
  | (some key, document) :: next :: rest, _, h => by
    obtain ⟨hmember, hrest⟩ := List.forall_mem_cons.1 h
    obtain ⟨-, cs, hcs⟩ := hmember
    obtain ⟨more, hmore⟩ := exists_membersSpelled (List.cons_ne_nil next rest) hrest
    exact ⟨_, .cons .nil (writeString_spelled key) .nil .nil hcs .nil hmore⟩

theorem exists_spelled_array {items : List Document} (h : ∀ item ∈ items, ∃ cs, item.Spelled cs) :
    ∃ cs, (Document.array items true).Spelled cs := by
  cases items with
  | nil => exact ⟨_, .emptyArray .nil⟩
  | cons item rest =>
    obtain ⟨cs, hcs⟩ := exists_itemsSpelled (List.cons_ne_nil item rest) h
    exact ⟨_, .array hcs⟩

theorem exists_spelled_object {members : List (StringLiteral × Document)}
    (h : ∀ member ∈ members, member.1.isSome ∧ ∃ cs, member.2.Spelled cs) :
    ∃ cs, (Document.object members true).Spelled cs := by
  cases members with
  | nil => exact ⟨_, .emptyObject .nil⟩
  | cons member rest =>
    obtain ⟨cs, hcs⟩ := exists_membersSpelled (List.cons_ne_nil member rest) h
    exact ⟨_, .object hcs⟩

theorem exists_spelled_written (hd : d.Writable)
    (hlisted : ∀ field cs e, d.children field = some cs → .node e ∈ cs →
      ∃ cs, (e.document order).Spelled cs)
    {field : Field} {document : Document} (h : d.written order field = some document) :
    ∃ cs, document.Spelled cs := by
  cases field with
  | children field =>
    obtain ⟨cs, hcs, rfl⟩ := written_children order h
    rw [childDocuments_eq_map]
    refine exists_spelled_array fun item hitem => ?_
    obtain ⟨c, hc, rfl⟩ := List.mem_map.1 hitem
    cases c with
    | path path => exact ⟨_, .string (writeString_spelled path)⟩
    | node e => exact hlisted field cs e hcs hc
  | kind | title | actionType =>
    obtain ⟨text, -, rfl⟩ := Option.map_eq_some_iff.1 h
    exact ⟨_, .string (writeString_spelled text)⟩
  | debug | waitForAll | waitForMe =>
    obtain ⟨flag, -, rfl⟩ := Option.map_eq_some_iff.1 h
    cases flag
    · exact ⟨_, .false⟩
    · exact ⟨_, .true⟩
  | scope =>
    obtain ⟨table, htable, rfl⟩ := Option.map_eq_some_iff.1 h
    exact ⟨_, write_spelled (hd.plain_scope htable)⟩
  | action =>
    rw [written, fieldDocument] at h
    split at h
    · cases h
      exact ⟨_, .string (writeString_spelled _)⟩
    · cases h
  | maxSuccess | maxFail =>
    obtain ⟨threshold, -, rfl⟩ := Option.map_eq_some_iff.1 h
    cases threshold with
    | never => exact ⟨_, .false⟩
    | all => exact ⟨_, .true⟩
    | count n => exact ⟨_, .number (ofInt_spelled n)⟩

variable (order) in
/-- The object of a definition can be spelled. -/
theorem Writable.exists_spelled (hd : d.Writable) : ∃ cs, (d.document order).Spelled cs := by
  induction hd with
  | @mk d haction hscope hthreshold hchildren ih =>
    rw [document_eq]
    refine exists_spelled_object fun member hmember => ?_
    obtain ⟨field, -, hfield⟩ := List.mem_filterMap.1 hmember
    obtain ⟨document, hdocument, rfl⟩ := Option.map_eq_some_iff.1 hfield
    exact ⟨rfl, exists_spelled_written ⟨haction, hscope, hthreshold, hchildren⟩ ih hdocument⟩

end Text

end Written

/-- A definition without actions given on the spot and floats is written as a text, and from every
text of its object, with its fields in any order, it is loaded as it was. -/
theorem load_of_spells_document {order : Definition → List Field}
    (horder : ∀ d, (order d).Perm Field.all) {d : Definition} (hd : d.Writable)
    (hnesting : (d.document order).nesting ≤ 127) (files : Files) :
    (∃ text, Document.Spells text (d.document order)) ∧
      ∀ text, Document.Spells text (d.document order) →
        (Source.text .json text).load files = .ok d := by
  constructor
  · obtain ⟨cs, hcs⟩ := hd.exists_spelled order
    exact ⟨String.ofList cs, [], cs, [], .nil, hcs, .nil, by simp⟩
  · intro text htext
    rw [document_eq, Document.nesting] at hnesting
    have hroot := hd.objectNode_members horder (Nat.le_of_succ_le_succ hnesting)
    rw [Source.load_of_spells htext, document_eq, rootNode, maxDepth, hroot]
    rfl

/-- A parallel node over a path and a sequence without children, written from its last field to its
first. -/
theorem load_of_spells_document_nested :
    let empty : Definition := { seq := some [], scope := some {} }
    let d : Definition :=
      { par := some [.path "a\"b", .node empty], maxSuccess := some (.count (2 ^ 64 - 1))
        maxFail := some .never, debug := some false }
    let order : Definition → List Field := fun _ => Field.all.reverse
    let inner : Document :=
      .object [(some "seq", .array [] true), (some "scope", .object [] true)] true
    (∀ e, (order e).Perm Field.all) ∧ d.Writable ∧ (d.document order).nesting ≤ 127
      ∧ d.document order = .object [(some "maxFail", .bool false),
          (some "maxSuccess", .number (.ofInt (2 ^ 64 - 1))),
          (some "par", .array [.string (some "a\"b"), inner] true),
          (some "debug", .bool false)] true
      ∧ ∃ text, Document.Spells text (d.document order)
        ∧ (Source.text .json text).load (fun _ => .error .missing) = .ok d := by
  intro empty d order inner
  have horder : ∀ e, (order e).Perm Field.all := fun _ => List.reverse_perm _
  have hempty : empty.Writable := by
    refine ⟨nofun, nofun, by simp [empty], fun field cs e hcs he => ?_⟩
    cases field <;> cases hcs
    cases he
  have hd : d.Writable := by
    refine ⟨nofun, nofun, by simp [d], fun field cs e hcs he => ?_⟩
    cases field <;> cases hcs
    obtain rfl : e = empty := by simpa using he
    exact hempty
  have hnesting : (d.document order).nesting ≤ 127 := by decide
  obtain ⟨⟨text, htext⟩, hload⟩ :=
    load_of_spells_document horder hd hnesting fun _ => .error .missing
  exact ⟨horder, hd, hnesting, rfl, text, htext, hload text htext⟩

end Definition

end BehaviorTree
