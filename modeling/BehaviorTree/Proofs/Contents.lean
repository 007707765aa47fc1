import BehaviorTree.Json.Reader

/-!
# Fields and what they hold

A definition is what its fields hold (`Definition.ext_content`). Reading a node puts what each
member gives into its field, so a node is read from its members exactly if their names are texts, no
field is named twice, and each known member gives what its field holds in the end
(`Json.objectNode_eq_ok_iff`). The order of the members and the members of other names do not come
into it, and an array of all fields is read in the same way (`Json.arrayNode_eq_ok_iff`).
-/

namespace BehaviorTree

/-- What a field holds, where it is present. -/
abbrev Field.Content : Field → Type
  | kind | title | actionType => String
  | scope => Table Value
  | debug | waitForAll | waitForMe => Bool
  | action => ActionRef
  | children _ => List (Child Definition)
  | maxSuccess | maxFail => Threshold

namespace Definition

/-- What a field of a definition holds, if it is present. -/
def content (d : Definition) : (field : Field) → Option field.Content
  | .kind => d.kind
  | .title => d.title
  | .scope => d.scope
  | .actionType => d.actionType
  | .debug => d.debug
  | .action => d.action
  | .children field => d.children field
  | .maxSuccess => d.maxSuccess
  | .maxFail => d.maxFail
  | .waitForAll => d.waitForAll
  | .waitForMe => d.waitForMe

def setContent (d : Definition) : (field : Field) → Option field.Content → Definition
  | .kind, content => { d with kind := content }
  | .title, content => { d with title := content }
  | .scope, content => { d with scope := content }
  | .actionType, content => { d with actionType := content }
  | .debug, content => { d with debug := content }
  | .action, content => { d with action := content }
  | .children field, content => d.setChildren field content
  | .maxSuccess, content => { d with maxSuccess := content }
  | .maxFail, content => { d with maxFail := content }
  | .waitForAll, content => { d with waitForAll := content }
  | .waitForMe, content => { d with waitForMe := content }

theorem content_setContent_self (d : Definition) (field : Field) (content : Option field.Content) :
    (d.setContent field content).content field = content := by
  cases field with
  | children field => cases field <;> rfl
  | _ => rfl

theorem content_setContent_of_ne (d : Definition) {field other : Field} (h : other ≠ field)
    (content : Option field.Content) :
    (d.setContent field content).content other = d.content other := by
  cases field with
  | children field =>
    cases other with
    | children other => cases field <;> cases other <;> first | rfl | exact absurd rfl h
    | _ => cases field <;> rfl
  | _ =>
    cases other with
    | children other => cases other <;> rfl
    | _ => first | rfl | exact absurd rfl h

theorem ext_content {d e : Definition} (h : ∀ field, d.content field = e.content field) :
    d = e := by
  obtain ⟨⟩ := d
  obtain ⟨⟩ := e
  simp only [mk.injEq]
  exact ⟨h .kind, h .title, h .scope, h .actionType, h .debug, h .action, h (.children .seq),
    h (.children .sel), h (.children .par), h (.children .invert), h (.children .success),
    h (.children .failure), h (.children .nodes), h .maxSuccess, h .maxFail, h .waitForAll,
    h .waitForMe⟩

theorem content_empty (field : Field) : ({} : Definition).content field = none := by
  cases field with
  | children field => cases field <;> rfl
  | _ => rfl

end Definition

namespace Field

theorem mem_all (field : Field) : field ∈ all := by
  cases field with
  | children field => cases field <;> decide
  | _ => decide

theorem nodup_all : all.Nodup := by decide

theorem ofName?_eq_some_iff {name : String} {field : Field} :
    ofName? name = some field ↔ field.name = name := by
  constructor
  · intro h
    simpa using List.find?_some h
  · rintro rfl
    exact ofName?_name field

theorem ofName?_eq_none_iff {name : String} : ofName? name = none ↔ name ∉ all.map Field.name := by
  rw [Option.eq_none_iff_forall_not_mem]
  simp only [Option.mem_def, ofName?_eq_some_iff, List.mem_map, mem_all, true_and, not_exists]

end Field

namespace Json

/-- What a document gives for a field; nothing if it is null. -/
def fieldContent (depth : Nat) : (field : Field) → Document → Except Misfit (Option field.Content)
  | .kind, document => optional stringField document
  | .title, document => optional stringField document
  | .scope, document => optional (scopeField depth) document
  | .actionType, document => optional stringField document
  | .debug, document => optional boolField document
  | .action, document => (optional stringField document).map (·.map .path)
  | .children _, document => children depth document
  | .maxSuccess, document => optional (thresholdField depth) document
  | .maxFail, document => optional (thresholdField depth) document
  | .waitForAll, document => optional boolField document
  | .waitForMe, document => optional boolField document

theorem setField_eq (depth : Nat) (d : Definition) (field : Field) (document : Document) :
    setField depth d field document
      = (fieldContent depth field document).map (d.setContent field) := by
  cases field with
  | action =>
    rw [setField, fieldContent]
    cases optional stringField document <;> rfl
  | children field =>
    rw [setField, fieldContent]
    cases children depth document <;> rfl
  | kind | title | actionType =>
    rw [setField, fieldContent]
    cases optional stringField document <;> rfl
  | debug | waitForAll | waitForMe =>
    rw [setField, fieldContent]
    cases optional boolField document <;> rfl
  | scope =>
    rw [setField, fieldContent]
    cases optional (scopeField depth) document <;> rfl
  | maxSuccess | maxFail =>
    rw [setField, fieldContent]
    cases optional (thresholdField depth) document <;> rfl

theorem fieldContent_null (depth : Nat) (field : Field) :
    fieldContent depth field .null = .ok none := by
  cases field with
  | children field => rw [fieldContent, children]
  | _ => rfl

/-- The field that a member names, if it names one, with its document. -/
def known? (member : StringLiteral × Document) : Option (Field × Document) :=
  (member.1.bind Field.ofName?).map (·, member.2)

/-- The members that name a field. -/
def known (members : List (StringLiteral × Document)) : List (Field × Document) :=
  members.filterMap known?

theorem mem_of_mem_known {members : List (StringLiteral × Document)} {member : Field × Document}
    (h : member ∈ known members) : (some member.1.name, member.2) ∈ members := by
  obtain ⟨⟨literal, document⟩, hmember, hknown⟩ := List.mem_filterMap.1 h
  obtain ⟨field, hfield, rfl⟩ := Option.map_eq_some_iff.1 hknown
  obtain ⟨key, rfl, hname⟩ := Option.bind_eq_some_iff.1 hfield
  rw [Field.ofName?_eq_some_iff.1 hname]
  exact hmember

/-- Some known members, put into a definition after some fields were, give another definition. -/
structure Give (depth : Nat) (seen : List Field) (d : Definition)
    (members : List (Field × Document)) (e : Definition) : Prop where
  fresh : ∀ member ∈ members, member.1 ∉ seen
  distinct : (members.map Prod.fst).Nodup
  present : ∀ member ∈ members, fieldContent depth member.1 member.2 = .ok (e.content member.1)
  absent : ∀ field ∉ members.map Prod.fst, e.content field = d.content field

namespace Give

variable {depth : Nat} {seen : List Field} {d e : Definition} {members : List (Field × Document)}

theorem nil_iff : Give depth seen d [] e ↔ e = d := by
  refine ⟨fun h => Definition.ext_content fun field => h.absent field List.not_mem_nil, ?_⟩
  rintro rfl
  exact ⟨nofun, .nil, nofun, fun _ _ => rfl⟩

theorem cons_iff {field : Field} {document : Document} :
    Give depth seen d ((field, document) :: members) e ↔ field ∉ seen
      ∧ ∃ content, fieldContent depth field document = .ok content
        ∧ Give depth (field :: seen) (d.setContent field content) members e := by
  constructor
  · intro h
    obtain ⟨hfield, hfresh⟩ := List.forall_mem_cons.1 h.fresh
    obtain ⟨hcontent, hpresent⟩ := List.forall_mem_cons.1 h.present
    obtain ⟨hnot, hdistinct⟩ := List.nodup_cons.1 h.distinct
    refine ⟨hfield, e.content field, hcontent, ⟨fun member hmember hseen => ?_, hdistinct, hpresent,
      fun other hother => ?_⟩⟩
    · rcases List.mem_cons.1 hseen with heq | hseen
      · have hnamed : member.1 ∈ members.map Prod.fst := List.mem_map_of_mem hmember
        exact hnot (heq ▸ hnamed)
      · exact hfresh member hmember hseen
    · by_cases heq : other = field
      · subst heq
        exact (d.content_setContent_self other _).symm
      · rw [d.content_setContent_of_ne heq]
        refine h.absent other fun hmem => ?_
        exact (List.mem_cons.1 hmem).elim heq hother
  · rintro ⟨hfield, content, hcontent, h⟩
    have hnot : field ∉ members.map Prod.fst := fun hmem => by
      obtain ⟨member, hmember, rfl⟩ := List.mem_map.1 hmem
      exact h.fresh member hmember List.mem_cons_self
    have hheld : e.content field = content :=
      (h.absent field hnot).trans (d.content_setContent_self field content)
    refine ⟨List.forall_mem_cons.2 ⟨hfield, fun member hmember hseen =>
      h.fresh member hmember (List.mem_cons_of_mem _ hseen)⟩, List.nodup_cons.2 ⟨hnot, h.distinct⟩,
      List.forall_mem_cons.2 ⟨hheld ▸ hcontent, h.present⟩, fun other hother => ?_⟩
    obtain ⟨hne, hother⟩ := not_or.1 (mt List.mem_cons.2 hother)
    exact (h.absent other hother).trans (d.content_setContent_of_ne hne content)

theorem perm {others : List (Field × Document)} (hperm : members.Perm others)
    (h : Give depth seen d members e) : Give depth seen d others e := by
  have hmap := hperm.map Prod.fst
  exact ⟨fun member hmember => h.fresh member (hperm.mem_iff.2 hmember),
    hmap.nodup_iff.1 h.distinct, fun member hmember => h.present member (hperm.mem_iff.2 hmember),
    fun field hfield => h.absent field fun hmem => hfield (hmap.mem_iff.1 hmem)⟩

/-- It does not matter by what document a field is given what it holds. -/
theorem replace {before after : List (Field × Document)} {field : Field} {document other : Document}
    (hcontent : ∀ content, fieldContent depth field document = .ok content →
      fieldContent depth field other = .ok content)
    (h : Give depth seen d (before ++ (field, document) :: after) e) :
    Give depth seen d (before ++ (field, other) :: after) e := by
  have hmap : (before ++ (field, other) :: after).map Prod.fst
      = (before ++ (field, document) :: after).map Prod.fst := by simp
  have hheld := h.present (field, document) (by simp)
  refine ⟨fun member hmember => ?_, hmap ▸ h.distinct, fun member hmember => ?_,
    fun other hother => h.absent other (hmap ▸ hother)⟩
  · have hmem : member.1 ∈ (before ++ (field, document) :: after).map Prod.fst :=
      hmap ▸ List.mem_map_of_mem hmember
    obtain ⟨old, hold, heq⟩ := List.mem_map.1 hmem
    exact heq ▸ h.fresh old hold
  · simp only [List.mem_append, List.mem_cons] at hmember
    rcases hmember with hmember | rfl | hmember
    · exact h.present member (by simp [hmember])
    · exact hcontent _ hheld
    · exact h.present member (by simp [hmember])

/-- A field that is null gives nothing. -/
theorem null_iff {field : Field} (hfresh : field ∉ members.map Prod.fst) :
    Give depth [] {} ((field, .null) :: members) e ↔ Give depth [] {} members e := by
  constructor
  · intro h
    have hheld := (h.present _ List.mem_cons_self).symm.trans (fieldContent_null depth field)
    refine ⟨nofun, (List.nodup_cons.1 h.distinct).2, fun member hmember =>
      h.present member (List.mem_cons_of_mem _ hmember), fun other hother => ?_⟩
    by_cases heq : other = field
    · subst heq
      rw [Except.ok.inj hheld, Definition.content_empty]
    · refine h.absent other fun hmem => ?_
      exact (List.mem_cons.1 hmem).elim heq hother
  · intro h
    refine ⟨nofun, List.nodup_cons.2 ⟨hfresh, h.distinct⟩, List.forall_mem_cons.2 ⟨?_, h.present⟩,
      fun other hother => h.absent other fun hmem => hother (List.mem_cons_of_mem _ hmem)⟩
    rw [fieldContent_null, h.absent field hfresh, Definition.content_empty]

end Give

/-- A node is read from the members of an object if their names are texts and those that name
fields give it. -/
theorem objectNode_eq_ok_iff {depth : Nat} {e : Definition} :
    ∀ {members : List (StringLiteral × Document)} {seen : List Field} {d : Definition},
      objectNode depth members seen d = .ok e
        ↔ (∀ member ∈ members, member.1.isSome) ∧ Give depth seen d (known members) e
  | [], seen, d => by
    rw [objectNode, known, List.filterMap_nil, Give.nil_iff, Except.ok.injEq]
    exact ⟨fun h => ⟨List.forall_mem_nil _, h.symm⟩, fun h => h.2.symm⟩
  | (none, document) :: rest, seen, d => by
    have hunread : objectNode depth ((none, document) :: rest) seen d ≠ .ok e := by
      rw [objectNode]
      intro h
      cases h
    refine ⟨fun h => absurd h hunread, fun h => ?_⟩
    cases h.1 _ List.mem_cons_self
  | (some key, document) :: rest, seen, d => by
    rw [List.forall_mem_cons, objectNode]
    simp only [Option.isSome_some, true_and, literalText, bind, Except.bind]
    cases hfield : Field.ofName? key with
    | none =>
      have hknown : known ((some key, document) :: rest) = known rest := by
        rw [known, List.filterMap_cons_none (by simp [known?, hfield])]
        rfl
      rw [hknown]
      exact objectNode_eq_ok_iff
    | some field =>
      have hknown : known ((some key, document) :: rest) = (field, document) :: known rest := by
        rw [known, List.filterMap_cons_some (b := (field, document)) (by simp [known?, hfield])]
        rfl
      rw [hknown, Give.cons_iff]
      by_cases hseen : field ∈ seen
      · simp [hseen]
      · simp only [hseen, if_false, not_false_eq_true, true_and, setField_eq]
        cases hcontent : fieldContent depth field document with
        | error misfit => simp [Except.map]
        | ok content =>
          show objectNode depth rest (field :: seen) (d.setContent field content) = _ ↔ _
          rw [objectNode_eq_ok_iff]
          simp

/-- A node is read from an array that has a document for each field and gives the fields these. -/
theorem arrayNode_eq_ok_iff {depth : Nat} {items : List Document} {e : Definition} :
    ∀ {fields : List Field} {rest : List Document} {seen : List Field} {d : Definition},
      fields.Nodup → (∀ field ∈ fields, field ∉ seen) →
      (arrayNode depth items true fields rest d = .ok e
        ↔ rest.length = fields.length ∧ Give depth seen d (fields.zip rest) e)
  | [], [], seen, d, _, _ => by
    rw [arrayNode, List.zip_nil_left, Give.nil_iff]
    simp [whenClosed, eq_comm]
  | [], _ :: _, seen, d, _, _ => by simp [arrayNode, whenClosed]
  | _ :: _, [], seen, d, _, _ => by simp [arrayNode]
  | field :: fields, item :: rest, seen, d, hdistinct, hfresh => by
    obtain ⟨hnot, hdistinct⟩ := List.nodup_cons.1 hdistinct
    obtain ⟨hfield, hfresh⟩ := List.forall_mem_cons.1 hfresh
    have hseen : ∀ other ∈ fields, other ∉ field :: seen := fun other hother hmem =>
      (List.mem_cons.1 hmem).elim (fun heq => hnot (heq ▸ hother)) (hfresh other hother)
    rw [arrayNode, List.zip_cons_cons, Give.cons_iff, setField_eq]
    cases hcontent : fieldContent depth field item with
    | error misfit => simp [Except.map, bind, Except.bind]
    | ok content =>
      show arrayNode depth items true fields rest (d.setContent field content) = _ ↔ _
      rw [arrayNode_eq_ok_iff hdistinct hseen]
      simp [hfield]

end Json

end BehaviorTree
