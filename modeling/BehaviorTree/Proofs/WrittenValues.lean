import BehaviorTree.Json.Writer
import BehaviorTree.Proofs.Grammar
import BehaviorTree.Proofs.Nesting
import BehaviorTree.Proofs.Tables

/-!
# Values survive their text

A value without floats has a document (`Value.document`), and its compact text spells it
(`write_spelled`), as any other text may. What spells the document of a value is read as that value
(`valueOfText_of_spells`), unless it opens more brackets than may be open at once.
-/

namespace BehaviorTree

/-- A value with no float in it and with the names of every map in order, each of them once. -/
inductive Value.Plain : Value → Prop
  | null : Plain null
  | bool (b : Bool) : Plain (bool b)
  | int (i : Int64) : Plain (int i)
  | str (s : String) : Plain (str s)
  | list {items : List Value} (h : ∀ item ∈ items, Plain item) : Plain (list items)
  | map {entries : Entries Value} (hordered : entries.Ordered)
    (h : ∀ entry ∈ entries, Plain entry.2) : Plain (map entries)

namespace Value

mutual

/-- The number of lists and maps that are open at once in a value. -/
def nesting : Value → Nat
  | list items => nestingItems items + 1
  | map entries => nestingEntries entries + 1
  | _ => 0

def nestingItems : List Value → Nat
  | [] => 0
  | item :: rest => max item.nesting (nestingItems rest)

def nestingEntries : List (String × Value) → Nat
  | [] => 0
  | (_, value) :: rest => max value.nesting (nestingEntries rest)

end

end Value

namespace Json

/-- The literal of an integer: a minus sign if it is negative, and its digits. -/
def NumberLiteral.ofInt (i : Int) : NumberLiteral :=
  { negative := i < 0, whole := writeNat i.natAbs }

end Json

open Json

namespace Value

mutual

/-- The document of a value. There is none for a float. -/
def document : Value → Document
  | null => .null
  | bool b => .bool b
  | int i => .number (.ofInt i.toInt)
  | float _ => .fault
  | str s => .string (some s)
  | list items => .array (itemDocuments items) true
  | map entries => .object (entryDocuments entries) true

def itemDocuments : List Value → List Document
  | [] => []
  | item :: rest => item.document :: itemDocuments rest

def entryDocuments : List (String × Value) → List (StringLiteral × Document)
  | [] => []
  | (key, value) :: rest => (some key, value.document) :: entryDocuments rest

end

theorem mem_itemDocuments {item : Value} : ∀ {items : List Value}, item ∈ items →
    item.document ∈ itemDocuments items
  | next :: rest, h => by
    rcases List.mem_cons.1 h with rfl | h
    · exact List.mem_cons_self
    · exact List.mem_cons_of_mem _ (mem_itemDocuments h)

theorem mem_entryDocuments {entry : String × Value} : ∀ {entries : List (String × Value)},
    entry ∈ entries → (some entry.1, entry.2.document) ∈ entryDocuments entries
  | next :: rest, h => by
    rcases List.mem_cons.1 h with rfl | h
    · exact List.mem_cons_self
    · exact List.mem_cons_of_mem _ (mem_entryDocuments h)

mutual

theorem nesting_document : ∀ v : Value, v.document.nesting = v.nesting
  | null | bool _ | int _ | float _ | str _ => rfl
  | list items => by rw [document, Document.nesting, nesting, nestingItems_document items]
  | map entries => by rw [document, Document.nesting, nesting, nestingMembers_document entries]

theorem nestingItems_document : ∀ items : List Value,
    Document.nestingItems (itemDocuments items) = nestingItems items
  | [] => rfl
  | item :: rest => by
    rw [itemDocuments, Document.nestingItems, nestingItems, nesting_document item,
      nestingItems_document rest]

theorem nestingMembers_document : ∀ entries : List (String × Value),
    Document.nestingMembers (entryDocuments entries) = nestingEntries entries
  | [] => rfl
  | (key, value) :: rest => by
    rw [entryDocuments, Document.nestingMembers, nestingEntries, nesting_document value,
      nestingMembers_document rest]

end

end Value

namespace Json

section Integers

theorem eq_nil_of_writeNat {n : Nat} :
    ∀ {rest : List Char}, writeNat n = '0' :: rest → rest = [] := by
  induction n using Nat.strong_induction_on with
  | _ n ih =>
    intro rest h
    rw [writeNat, Nat.toDigits_eq_if (by decide)] at h
    split at h
    · exact (List.cons.inj h).2.symm
    · rename_i hlarge
      obtain ⟨d, ds, hds⟩ := List.exists_cons_of_ne_nil (@Nat.toDigits_ne_nil (n / 10) 10)
      rw [hds, List.cons_append] at h
      obtain ⟨rfl, -⟩ := List.cons.inj h
      obtain rfl := ih (n / 10) (by omega) hds
      have hzero : n / 10 = 0 := by
        rw [← @Nat.ofDigitChars_ten_toDigits (n / 10), hds]
        rfl
      omega

theorem ofInt_spelled (i : Int) : (NumberLiteral.ofInt i).Spelled (writeInt i) := by
  refine ⟨Nat.toDigits_ne_nil, fun c hc => ?_, fun rest => eq_nil_of_writeNat, nofun,
    [], .none, ?_⟩
  · exact Nat.isDigit_of_mem_toDigits (by decide) (by decide) hc
  · by_cases h : i < 0 <;> simp [writeInt, NumberLiteral.ofInt, h]

theorem natOfDigits_writeNat (n : Nat) : NumberLiteral.natOfDigits (writeNat n) = n :=
  Nat.ofDigitChars_ten_toDigits

/-- An integer of 64 bits is read from its digits as an integer. -/
theorem read?_ofInt {i : Int} (hlow : -2 ^ 63 ≤ i) (hhigh : i < 2 ^ 64) :
    (NumberLiteral.ofInt i).read? = some (.integer i) := by
  have hbound : UInt64.size = 2 ^ 64 := rfl
  have hsize : i.natAbs < UInt64.size := by
    rcases i.natAbs_eq with h | h <;> omega
  simp only [NumberLiteral.read?, NumberLiteral.ofInt, natOfDigits_writeNat, List.isEmpty_nil,
    Option.isNone_none, Bool.and_true, decide_eq_true hsize, if_true]
  by_cases h : i < 0
  · have hsmall : ¬(i.natAbs = 0 ∨ 2 ^ 63 < i.natAbs) := by omega
    have heq : -(i.natAbs : Int) = i := by omega
    rw [if_neg (by simpa using h), if_neg (by simpa using hsmall), heq]
  · have heq : (i.natAbs : Int) = i := by omega
    rw [if_pos (by simpa using h), heq]

theorem value_int (i : Int64) (depth : Nat) :
    value depth (Value.int i).document = .ok (.int i) := by
  have hlow := i.minValue_le_toInt
  have hhigh := i.toInt_le
  have hmin : Int64.minValue.toInt = -2 ^ 63 := by decide
  have hmax : Int64.maxValue.toInt = 2 ^ 63 - 1 := by decide
  have hread := read?_ofInt (i := i.toInt) (by omega) (by omega)
  rw [Value.document, value, number, hread]
  simp only [Functor.map, Except.map, valueOfNumber]
  rw [if_pos (by omega), Int64.ofInt_toInt]

end Integers

section Strings

theorem isHex_digitChar : ∀ n < 16, IsHex (Nat.digitChar n) n := by
  unfold IsHex
  decide

/-- A character is written as a piece that stands for it. -/
theorem exists_piece (c : Char) : ∃ piece : Document.Piece, piece.Spelled (escape c)
    ∧ ∀ pieces cs, Document.Joined pieces cs → Document.Joined (piece :: pieces) (c :: cs) := by
  have hletter : ∀ e, shortEscape? c = some e → (e, c) ∈ Document.escapes := by
    intro e h
    unfold shortEscape? at h
    split_ifs at h <;> cases h <;> subst c <;> decide
  have hplain : shortEscape? c = none → c ≠ '"' ∧ c ≠ '\\' := by
    intro h
    constructor <;> rintro rfl <;> exact absurd h (by decide)
  unfold escape
  cases hescape : shortEscape? c with
  | some e => exact ⟨.char c, .escaped (hletter e hescape), fun _ _ => .char c⟩
  | none =>
    obtain ⟨hquote, hslash⟩ := hplain hescape
    by_cases hcontrol : c.toNat < 0x20
    · have hunit := Document.Piece.Spelled.unit (isHex_digitChar 0 (by decide))
        (isHex_digitChar 0 (by decide)) (isHex_digitChar (c.toNat / 16 % 16) (by omega))
        (isHex_digitChar (c.toNat % 16) (by omega))
      have hcode : ((0 * 16 + 0) * 16 + c.toNat / 16 % 16) * 16 + c.toNat % 16 = c.toNat := by omega
      rw [hcode] at hunit
      simp only [if_pos hcontrol]
      exact ⟨.unit c.toNat, hunit, fun _ _ => .unit c⟩
    · simp only [if_neg hcontrol]
      exact ⟨.char c, .plain (by omega) hquote hslash, fun _ _ => .char c⟩

theorem exists_pieces : ∀ cs : List Char,
    ∃ pieces, Document.PiecesSpelled pieces (cs.flatMap escape) ∧ Document.Joined pieces cs
  | [] => ⟨[], .nil, .nil⟩
  | c :: cs => by
    obtain ⟨piece, hpiece, hjoined⟩ := exists_piece c
    obtain ⟨pieces, hpieces, hrest⟩ := exists_pieces cs
    exact ⟨piece :: pieces, .cons hpiece hpieces, hjoined pieces cs hrest⟩

theorem writeString_spelled (s : String) : StringLiteral.Spelled (some s) (writeString s) := by
  obtain ⟨pieces, hpieces, hjoined⟩ := exists_pieces s.toList
  refine ⟨pieces, s.toList.flatMap escape, hpieces, rfl, fun text => ?_⟩
  rw [Option.some.injEq]
  constructor
  · rintro rfl
    exact hjoined
  · intro h
    have heq := (Document.joinPieces?_of_joined hjoined).symm.trans
      (Document.joinPieces?_of_joined h)
    exact String.toList_injective (Option.some.inj heq)

end Strings

section Writer

theorem writeItems_spelled : ∀ {items : List Value}, items ≠ [] →
    (∀ item ∈ items, item.document.Spelled (write item)) →
    Document.ItemsSpelled (Value.itemDocuments items) (writeItems items)
  | [item], _, h => by
    have hlast : Document.ItemsSpelled [item.document] ([] ++ write item ++ []) :=
      .last .nil (h item List.mem_cons_self) .nil
    simpa [Value.itemDocuments, writeItems] using hlast
  | item :: next :: rest, _, h => by
    obtain ⟨hitem, hrest⟩ := List.forall_mem_cons.1 h
    have hcons : Document.ItemsSpelled (item.document :: Value.itemDocuments (next :: rest))
        ([] ++ write item ++ [] ++ ',' :: writeItems (next :: rest)) :=
      .cons .nil hitem .nil (writeItems_spelled (List.cons_ne_nil next rest) hrest)
    simpa [Value.itemDocuments, writeItems] using hcons

theorem writeEntries_spelled : ∀ {entries : List (String × Value)}, entries ≠ [] →
    (∀ entry ∈ entries, entry.2.document.Spelled (write entry.2)) →
    Document.MembersSpelled (Value.entryDocuments entries) (writeEntries entries)
  | [(key, value)], _, h => by
    have hlast : Document.MembersSpelled [(some key, value.document)]
        ([] ++ writeString key ++ [] ++ ':' :: ([] ++ write value ++ [])) :=
      .last .nil (writeString_spelled key) .nil .nil (h _ List.mem_cons_self) .nil
    simpa [Value.entryDocuments, writeEntries] using hlast
  | (key, value) :: next :: rest, _, h => by
    obtain ⟨hvalue, hrest⟩ := List.forall_mem_cons.1 h
    have hcons : Document.MembersSpelled
        ((some key, value.document) :: Value.entryDocuments (next :: rest))
        ([] ++ writeString key ++ [] ++ ':' :: ([] ++ write value ++ [] ++ ',' ::
          writeEntries (next :: rest))) :=
      .cons .nil (writeString_spelled key) .nil .nil hvalue .nil
        (writeEntries_spelled (List.cons_ne_nil next rest) hrest)
    simpa [Value.entryDocuments, writeEntries] using hcons

/-- The compact text of a value spells its document. -/
theorem write_spelled {v : Value} (h : v.Plain) : v.document.Spelled (write v) := by
  induction h with
  | null => exact .null
  | bool b => cases b <;> constructor
  | int i => exact .number (ofInt_spelled i.toInt)
  | str s => exact .string (writeString_spelled s)
  | @list items _ ih =>
    cases items with
    | nil => exact .emptyArray .nil
    | cons item rest => exact .array (writeItems_spelled (List.cons_ne_nil item rest) ih)
  | @map entries _ _ ih =>
    cases entries with
    | nil => exact .emptyObject .nil
    | cons entry rest => exact .object (writeEntries_spelled (List.cons_ne_nil entry rest) ih)

theorem text_spells {v : Value} (h : v.Plain) : Document.Spells (text v) v.document :=
  ⟨[], write v, [], .nil, write_spelled h, .nil, by simp [text]⟩

end Writer

section Reader

theorem valueItems_itemDocuments {depth : Nat} : ∀ {items : List Value},
    (∀ item ∈ items, value depth item.document = .ok item) →
    valueItems depth (Value.itemDocuments items) = .ok items
  | [], _ => rfl
  | item :: rest, h => by
    obtain ⟨hitem, hrest⟩ := List.forall_mem_cons.1 h
    rw [Value.itemDocuments, valueItems, hitem, valueItems_itemDocuments hrest]
    rfl

theorem valueMembers_entryDocuments {depth : Nat} : ∀ {entries : List (String × Value)},
    (∀ entry ∈ entries, value depth entry.2.document = .ok entry.2) →
    valueMembers depth (Value.entryDocuments entries) = .ok entries
  | [], _ => rfl
  | (key, v) :: rest, h => by
    obtain ⟨hvalue, hrest⟩ := List.forall_mem_cons.1 h
    rw [Value.entryDocuments, valueMembers, hvalue, valueMembers_entryDocuments hrest]
    rfl

/-- The document of a value is read as that value, if so many brackets may be open. -/
theorem value_document {v : Value} (h : v.Plain) : ∀ {depth : Nat}, v.document.nesting ≤ depth →
    value depth v.document = .ok v := by
  induction h with
  | null | bool | str => exact fun _ => rfl
  | int i => exact fun _ => value_int i _
  | @list items _ ih =>
    intro depth hdepth
    obtain ⟨depth, rfl, hle⟩ := Document.exists_of_nesting_array_le hdepth
    have hitems : valueItems depth (Value.itemDocuments items) = .ok items :=
      valueItems_itemDocuments fun item hitem => ih item hitem
        ((Document.nesting_le_of_mem_items (Value.mem_itemDocuments hitem)).trans hle)
    rw [Value.document, value, hitems]
    rfl
  | @map entries hordered _ ih =>
    intro depth hdepth
    obtain ⟨depth, rfl, hle⟩ := Document.exists_of_nesting_object_le hdepth
    have hentries : valueMembers depth (Value.entryDocuments entries) = .ok entries :=
      valueMembers_entryDocuments fun entry hentry => ih entry hentry
        ((Document.nesting_le_of_mem_members (Value.mem_entryDocuments hentry)).trans hle)
    rw [Value.document, value, hentries]
    show Except.ok (Value.map (Entries.ofList entries)) = _
    rw [Entries.ofList_of_ordered hordered]

/-- A text that spells the document of a value is read as that value. -/
theorem valueOfText_of_spells {v : Value} (h : v.Plain) (hnesting : v.nesting ≤ maxDepth)
    {t : String} (ht : Document.Spells t v.document) : valueOfText t = .ok v := by
  rw [valueOfText, Document.ofText_of_spells ht]
  show (value maxDepth v.document >>= fun v => whenClosed true v) = _
  rw [value_document h ((Value.nesting_document v).trans_le hnesting)]
  rfl

end Reader

/-- A value without floats, with no more than 127 lists and maps open at once, is read from its
compact text as it was. -/
theorem valueOfText_text {v : Value} (hplain : v.Plain) (hnesting : v.nesting ≤ 127) :
    valueOfText (text v) = .ok v :=
  valueOfText_of_spells hplain hnesting (text_spells hplain)

/-- A map of lists, under an empty name and under a name that is escaped. -/
theorem valueOfText_text_of_map :
    let inner : Value := .list [.int Int64.minValue, .null, .map [], .str "\x08/\"\\😀"]
    let v : Value := .map [("", .list []), ("\n", inner)]
    v.Plain ∧ v.nesting ≤ 127
      ∧ text v = "\x7b\"\":[],\"\\n\":[-9223372036854775808,null,\x7b\x7d,\"\\b/\\\"\\\\😀\"]\x7d"
      ∧ valueOfText (text v) = .ok v := by
  intro inner v
  have hinner : inner.Plain := by
    refine .list fun item hitem => ?_
    simp only [List.mem_cons, List.not_mem_nil, or_false] at hitem
    rcases hitem with rfl | rfl | rfl | rfl
    · exact .int _
    · exact .null
    · exact .map .nil nofun
    · exact .str _
  have hplain : v.Plain := by
    refine .map (by unfold Entries.Ordered; decide) fun entry hentry => ?_
    simp only [List.mem_cons, List.not_mem_nil, or_false] at hentry
    rcases hentry with rfl | rfl
    · exact .list nofun
    · exact hinner
  have hnesting : v.nesting ≤ 127 := by decide
  exact ⟨hplain, hnesting, by decide, valueOfText_text hplain hnesting⟩

end Json

end BehaviorTree
