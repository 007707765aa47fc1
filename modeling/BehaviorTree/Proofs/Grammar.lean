import BehaviorTree.Source
import Mathlib.Data.List.DropRight
import Mathlib.Data.List.TakeDrop
import Mathlib.Data.List.TakeWhile
import Mathlib.Tactic.IntervalCases

/-!
# The grammar of JSON

A text spells a document if it is made of it by the rules of JSON, with blanks where they may stand,
any escapes in strings and any sign and letter of an exponent (`Document.Spelled`). A string literal
that spells no text, because a surrogate stands alone in it, is a string literal all the same. Every
text that spells a document is read as that document to its end (`Document.ofText_of_spells`), so it
is loaded as the document is read (`Source.load_of_spells`).
-/

namespace BehaviorTree.Json

/-- No characters but blanks. -/
def Blank (cs : List Char) : Prop :=
  ∀ c ∈ cs, c ∈ [' ', '\t', '\n', '\r']

theorem Blank.nil : Blank [] :=
  nofun

/-- No characters but digits. -/
def Digits (cs : List Char) : Prop :=
  ∀ c ∈ cs, c.isDigit

/-- A hexadecimal digit of some value. -/
def IsHex (c : Char) (n : Nat) : Prop :=
  ['0', '1', '2', '3', '4', '5', '6', '7', '8', '9', 'a', 'b', 'c', 'd', 'e', 'f'][n]? = some c
    ∨ ['0', '1', '2', '3', '4', '5', '6', '7', '8', '9', 'A', 'B', 'C', 'D', 'E', 'F'][n]? = some c

namespace Document

/-- The letters after a backslash, with the characters that they stand for. -/
def escapes : List (Char × Char) :=
  [('"', '"'), ('\\', '\\'), ('/', '/'), ('b', '\x08'), ('f', '\x0c'), ('n', '\n'), ('r', '\r'),
    ('t', '\t')]

/-- A piece of a string literal, as it is written. -/
inductive Piece.Spelled : Piece → List Char → Prop
  | plain {c : Char} (hcontrol : 0x20 ≤ c.toNat) (hquote : c ≠ '"') (hslash : c ≠ '\\') :
    Spelled (.char c) [c]
  | escaped {e c : Char} (h : (e, c) ∈ escapes) : Spelled (.char c) ['\\', e]
  | unit {a b c d : Char} {i j k l : Nat} (ha : IsHex a i) (hb : IsHex b j) (hc : IsHex c k)
    (hd : IsHex d l) : Spelled (.unit (((i * 16 + j) * 16 + k) * 16 + l)) ['\\', 'u', a, b, c, d]

/-- The pieces of a string literal, as they are written one after the other. -/
inductive PiecesSpelled : List Piece → List Char → Prop
  | nil : PiecesSpelled [] []
  | cons {piece : Piece} {pieces : List Piece} {cs rest : List Char} (hpiece : piece.Spelled cs)
    (hrest : PiecesSpelled pieces rest) : PiecesSpelled (piece :: pieces) (cs ++ rest)

/-- The characters that some pieces stand for: a unit is the code of a character, or a high and a
low surrogate are that of one character together. -/
inductive Joined : List Piece → List Char → Prop
  | nil : Joined [] []
  | char {pieces : List Piece} {cs : List Char} (c : Char) (h : Joined pieces cs) :
    Joined (.char c :: pieces) (c :: cs)
  | unit {pieces : List Piece} {cs : List Char} (c : Char) (h : Joined pieces cs) :
    Joined (.unit c.toNat :: pieces) (c :: cs)
  | pair {pieces : List Piece} {cs : List Char} {c : Char} {high low : Nat}
    (hhigh : 0xd800 ≤ high ∧ high ≤ 0xdbff) (hlow : 0xdc00 ≤ low ∧ low ≤ 0xdfff)
    (hc : c.toNat = 0x10000 + (high - 0xd800) * 0x400 + (low - 0xdc00)) (h : Joined pieces cs) :
    Joined (.unit high :: .unit low :: pieces) (c :: cs)

end Document

/-- A string literal between its quotes. It has a text unless a surrogate stands alone in it. -/
def StringLiteral.Spelled (literal : StringLiteral) (cs : List Char) : Prop :=
  ∃ pieces body, Document.PiecesSpelled pieces body ∧ cs = '"' :: body ++ ['"']
    ∧ ∀ text, literal = some text ↔ Document.Joined pieces text.toList

/-- An exponent, if there is one: a letter, a sign that may be left out, and digits. -/
inductive ExponentSpelled : Option (Bool × List Char) → List Char → Prop
  | none : ExponentSpelled none []
  | some {letter : Char} {negative : Bool} {sign ds : List Char} (hletter : letter ∈ ['e', 'E'])
    (hsign : (negative, sign) ∈ [(true, ['-']), (false, ['+']), (false, [])]) (hsome : ds ≠ [])
    (hdigits : Digits ds) : ExponentSpelled (some (negative, ds)) (letter :: sign ++ ds)

/-- A number literal: a sign, digits that begin with a zero only if it stands alone, and then a
point with digits and an exponent, which both may be left out. -/
structure NumberLiteral.Spelled (literal : NumberLiteral) (cs : List Char) : Prop where
  whole_ne_nil : literal.whole ≠ []
  whole : Digits literal.whole
  zero : ∀ rest, literal.whole = '0' :: rest → rest = []
  fraction : Digits literal.fraction
  eq : ∃ exponent, ExponentSpelled literal.exponent exponent
    ∧ cs = (if literal.negative then ['-'] else []) ++ literal.whole
      ++ (if literal.fraction = [] then [] else '.' :: literal.fraction) ++ exponent

namespace Document

mutual

/-- A document as it is written, without blanks around it. -/
inductive Spelled : Document → List Char → Prop
  | null : Spelled null ['n', 'u', 'l', 'l']
  | true : Spelled (bool true) ['t', 'r', 'u', 'e']
  | false : Spelled (bool false) ['f', 'a', 'l', 's', 'e']
  | number {literal : NumberLiteral} {cs : List Char} (h : literal.Spelled cs) :
    Spelled (number literal) cs
  | string {literal : StringLiteral} {cs : List Char} (h : literal.Spelled cs) :
    Spelled (string literal) cs
  | emptyArray {blanks : List Char} (h : Blank blanks) :
    Spelled (array [] true) ('[' :: blanks ++ [']'])
  | array {items : List Document} {cs : List Char} (h : ItemsSpelled items cs) :
    Spelled (array items true) ('[' :: cs ++ [']'])
  | emptyObject {blanks : List Char} (h : Blank blanks) :
    Spelled (object [] true) ('\x7b' :: blanks ++ ['\x7d'])
  | object {members : List (StringLiteral × Document)} {cs : List Char}
    (h : MembersSpelled members cs) : Spelled (object members true) ('\x7b' :: cs ++ ['\x7d'])

/-- Items with commas between them. -/
inductive ItemsSpelled : List Document → List Char → Prop
  | last {item : Document} {before cs after : List Char} (hbefore : Blank before)
    (hitem : Spelled item cs) (hafter : Blank after) :
    ItemsSpelled [item] (before ++ cs ++ after)
  | cons {item : Document} {items : List Document} {before cs after rest : List Char}
    (hbefore : Blank before) (hitem : Spelled item cs) (hafter : Blank after)
    (hitems : ItemsSpelled items rest) :
    ItemsSpelled (item :: items) (before ++ cs ++ after ++ ',' :: rest)

/-- Members with commas between them. -/
inductive MembersSpelled : List (StringLiteral × Document) → List Char → Prop
  | last {key : StringLiteral} {value : Document} {before name colon between cs after : List Char}
    (hbefore : Blank before) (hkey : key.Spelled name) (hcolon : Blank colon)
    (hbetween : Blank between) (hvalue : Spelled value cs) (hafter : Blank after) :
    MembersSpelled [(key, value)]
      (before ++ name ++ colon ++ ':' :: (between ++ cs ++ after))
  | cons {key : StringLiteral} {value : Document} {members : List (StringLiteral × Document)}
    {before name colon between cs after rest : List Char} (hbefore : Blank before)
    (hkey : key.Spelled name) (hcolon : Blank colon) (hbetween : Blank between)
    (hvalue : Spelled value cs) (hafter : Blank after) (hmembers : MembersSpelled members rest) :
    MembersSpelled ((key, value) :: members)
      (before ++ name ++ colon ++ ':' :: (between ++ cs ++ after ++ ',' :: rest))

end

/-- A text that spells a document, with blanks around it. -/
def Spells (text : String) (document : Document) : Prop :=
  ∃ before cs after, Blank before ∧ document.Spelled cs ∧ Blank after
    ∧ text.toList = before ++ cs ++ after

section Blanks

theorem isBlank_iff {c : Char} : isBlank c ↔ c ∈ [' ', '\t', '\n', '\r'] := by
  simp [isBlank, or_assoc]

theorem skipBlanks_append {blanks : List Char} (h : Blank blanks) (cs : List Char) :
    skipBlanks (blanks ++ cs) = skipBlanks cs :=
  List.dropWhile_append_of_pos fun c hc => isBlank_iff.2 (h c hc)

theorem skipBlanks_cons {c : Char} (h : ¬isBlank c) (cs : List Char) :
    skipBlanks (c :: cs) = c :: cs :=
  List.dropWhile_cons_of_neg h

theorem skipBlanks_blanks_cons {blanks : List Char} (h : Blank blanks) {c : Char}
    (hc : ¬isBlank c) (cs : List Char) : skipBlanks (blanks ++ c :: cs) = c :: cs := by
  rw [skipBlanks_append h, skipBlanks_cons hc]

/-- What may follow a value is found after blanks. -/
theorem skipBlanks_blanks_stop {blanks : List Char} (h : Blank blanks) {stop : Char}
    (hstop : stop ∈ [',', ']', '\x7d']) (rest : List Char) :
    skipBlanks (blanks ++ stop :: rest) = stop :: rest := by
  refine skipBlanks_blanks_cons h (fun hblank => ?_) rest
  simp only [List.mem_cons, List.not_mem_nil, or_false] at hstop
  rcases hstop with rfl | rfl | rfl <;> cases hblank

theorem skipBlanks_skipBlanks (cs : List Char) : skipBlanks (skipBlanks cs) = skipBlanks cs :=
  List.dropWhile_idempotent isBlank cs

theorem skipBlanks_blanks {blanks : List Char} (h : Blank blanks) : skipBlanks blanks = [] := by
  rw [← List.append_nil blanks, skipBlanks_append h]
  rfl

end Blanks

section Strings

theorem hexValue?_of_isHex {c : Char} {n : Nat} (h : IsHex c n) :
    hexValue? c = some n ∧ n < 16 := by
  have hlt : n < 16 := by
    rcases h with h | h <;> exact (List.getElem?_eq_some_iff.1 h).1
  refine ⟨?_, hlt⟩
  rcases h with h | h <;> interval_cases n <;> cases h <;> decide

theorem escapedChar?_of_mem {e c : Char} (h : (e, c) ∈ escapes) :
    escapedChar? e = some c ∧ e ≠ 'u' := by
  simp only [escapes, List.mem_cons, Prod.mk.injEq, List.not_mem_nil, or_false] at h
  rcases h with h | h | h | h | h | h | h | h <;> obtain ⟨rfl, rfl⟩ := h <;> decide

/-- The next piece is read from its characters. -/
theorem pieces?_append {piece : Piece} {cs : List Char} (h : piece.Spelled cs) (rest : List Char) :
    pieces? (cs ++ rest) = (pieces? rest).map fun (pieces, rest) => (piece :: pieces, rest) := by
  cases h with
  | @plain c hcontrol hquote hslash =>
    have hlow : ¬(c.toNat < 0x20 ∨ c = '\\') := fun h => h.elim (by omega) hslash
    simp only [List.cons_append, List.nil_append]
    rw [pieces?]
    · rw [if_neg (by simpa using hlow)]
      cases pieces? rest <;> rfl
    · exact fun h => hquote h
    · exact fun _ _ _ _ _ h _ => hslash h
    · exact fun _ _ h _ => hslash h
  | @escaped e c h =>
    obtain ⟨hc, hu⟩ := escapedChar?_of_mem h
    simp only [List.cons_append, List.nil_append]
    rw [pieces?]
    · rw [hc]
      cases pieces? rest <;> rfl
    · exact fun _ _ _ _ _ h _ => hu h
  | unit ha hb hc hd =>
    simp only [List.cons_append, List.nil_append]
    rw [pieces?, (hexValue?_of_isHex ha).1, (hexValue?_of_isHex hb).1, (hexValue?_of_isHex hc).1,
      (hexValue?_of_isHex hd).1]
    cases pieces? rest <;> rfl

theorem pieces?_of_spelled {pieces : List Piece} {body : List Char}
    (h : PiecesSpelled pieces body) (rest : List Char) :
    pieces? (body ++ '"' :: rest) = some (pieces, rest) := by
  induction h with
  | nil => rfl
  | cons hpiece _ ih => rw [List.append_assoc, pieces?_append hpiece, ih]; rfl

theorem lt_of_mem_pieces {pieces : List Piece} {body : List Char} (h : PiecesSpelled pieces body)
    {n : Nat} (hn : Piece.unit n ∈ pieces) : n < 0x10000 := by
  induction h with
  | nil => cases hn
  | cons hpiece _ ih =>
    rcases List.mem_cons.1 hn with rfl | hn
    · cases hpiece with
      | unit ha hb hc hd =>
        have := (hexValue?_of_isHex ha).2
        have := (hexValue?_of_isHex hb).2
        have := (hexValue?_of_isHex hc).2
        have := (hexValue?_of_isHex hd).2
        omega
    · exact ih hn

theorem isHighSurrogate_iff {n : Nat} : isHighSurrogate n ↔ 0xd800 ≤ n ∧ n ≤ 0xdbff := by
  simp [isHighSurrogate]

theorem isLowSurrogate_iff {n : Nat} : isLowSurrogate n ↔ 0xdc00 ≤ n ∧ n ≤ 0xdfff := by
  simp [isLowSurrogate]

theorem toNat_valid (c : Char) : c.toNat < 0xd800 ∨ 0xdfff < c.toNat ∧ c.toNat < 0x110000 :=
  c.valid

theorem joinPieces?_of_joined {pieces : List Piece} {cs : List Char} (h : Joined pieces cs) :
    joinPieces? pieces = some cs := by
  induction h with
  | nil => rfl
  | char c _ ih => rw [joinPieces?, ih]; rfl
  | unit c _ ih =>
    have hc := toNat_valid c
    have hhigh : ¬isHighSurrogate c.toNat := fun h => by
      have := isHighSurrogate_iff.1 h
      omega
    have hlow : ¬isLowSurrogate c.toNat := fun h => by
      have := isLowSurrogate_iff.1 h
      omega
    rw [joinPieces?.eq_def]
    simp only []
    rw [if_neg hhigh, if_neg hlow, ih, Char.ofNat_toNat]
    rfl
  | pair hhigh hlow hc _ ih =>
    simp only [joinPieces?]
    rw [if_pos (isHighSurrogate_iff.2 hhigh), if_pos (isLowSurrogate_iff.2 hlow), ih, ← hc,
      Char.ofNat_toNat]
    rfl

theorem toNat_ofNat {n : Nat} (h : n < 0xd800 ∨ 0xdfff < n ∧ n < 0x110000) :
    (Char.ofNat n).toNat = n := by
  have hvalid : n.isValidChar := h
  rw [Char.ofNat, dif_pos hvalid]
  rfl

/-- Pieces that are joined to some characters stand for them. -/
theorem joined_of_joinPieces? : ∀ {pieces : List Piece} {cs : List Char},
    (∀ n, Piece.unit n ∈ pieces → n < 0x10000) → joinPieces? pieces = some cs → Joined pieces cs
  | [], cs, _, h => by
    cases h
    exact .nil
  | .char c :: pieces, cs, hlt, h => by
    obtain ⟨rest, hrest, rfl⟩ := Option.map_eq_some_iff.1 (by simpa only [joinPieces?] using h)
    exact .char c (joined_of_joinPieces? (fun n hn => hlt n (List.mem_cons_of_mem _ hn)) hrest)
  | .unit n :: pieces, cs, hlt, h => by
    have hn := hlt n List.mem_cons_self
    rw [joinPieces?.eq_def] at h
    simp only [] at h
    split at h
    · rename_i hhigh
      have hhigh := isHighSurrogate_iff.1 hhigh
      split at h
      · rename_i m pieces
        split at h
        · rename_i hlow
          have hlow := isLowSurrogate_iff.1 hlow
          obtain ⟨rest, hrest, rfl⟩ := Option.map_eq_some_iff.1 h
          refine .pair hhigh hlow (toNat_ofNat ?_) (joined_of_joinPieces? (fun k hk =>
            hlt k (List.mem_cons_of_mem _ (List.mem_cons_of_mem _ hk))) hrest)
          omega
        · cases h
      · cases h
    · rename_i hhigh
      split at h
      · cases h
      · rename_i hlow
        obtain ⟨rest, hrest, rfl⟩ := Option.map_eq_some_iff.1 h
        have hvalid : (Char.ofNat n).toNat = n := by
          refine toNat_ofNat ?_
          rw [isHighSurrogate_iff] at hhigh
          rw [isLowSurrogate_iff] at hlow
          omega
        rw [← hvalid] at hlt ⊢
        rw [Char.ofNat_toNat]
        exact .unit _ (joined_of_joinPieces? (fun k hk => hlt k (List.mem_cons_of_mem _ hk)) hrest)

theorem string?_of_spelled {literal : StringLiteral} {cs : List Char} (h : literal.Spelled cs) :
    ∃ body, cs = '"' :: body ∧ ∀ rest, string? (body ++ rest) = some (literal, rest) := by
  obtain ⟨pieces, body, hpieces, rfl, htext⟩ := h
  refine ⟨body ++ ['"'], rfl, fun rest => ?_⟩
  have hjoined : (joinPieces? pieces).map String.ofList = literal := by
    refine Option.ext fun text => ?_
    rw [Option.map_eq_some_iff]
    constructor
    · rintro ⟨cs, hcs, rfl⟩
      refine (htext _).2 ?_
      rw [String.toList_ofList]
      exact joined_of_joinPieces? (fun _ => lt_of_mem_pieces hpieces) hcs
    · intro hliteral
      exact ⟨_, joinPieces?_of_joined ((htext text).1 hliteral), String.ofList_toList⟩
  rw [List.append_assoc, string?, List.singleton_append, pieces?_of_spelled hpieces]
  simp only [Option.map_some, hjoined]

end Strings

section Numbers

/-- What can stand after a value. -/
def Stops (rest : List Char) : Prop :=
  ∀ c ∈ rest.head?, isBlank c ∨ c ∈ [',', ']', '\x7d']

theorem Stops.blanks {blanks rest : List Char} (h : Blank blanks) (hrest : Stops rest) :
    Stops (blanks ++ rest) := by
  cases blanks with
  | nil => exact hrest
  | cons b blanks =>
    intro c hc
    cases hc
    exact .inl (isBlank_iff.2 (h b List.mem_cons_self))

theorem Stops.cons {c : Char} (h : c ∈ [',', ']', '\x7d']) (rest : List Char) :
    Stops (c :: rest) := by
  intro c' hc'
  cases hc'
  exact .inr h

/-- What stands after a value goes on with no number. -/
theorem Stops.not_number {rest : List Char} (h : Stops rest) {c : Char} (hc : c ∈ rest.head?) :
    ¬c.isDigit ∧ c ∉ ['.', 'e', 'E'] := by
  have hmem : c ∈ [' ', '\t', '\n', '\r', ',', ']', '\x7d'] := by
    rcases h c hc with hblank | hstop
    · exact List.mem_append_left [',', ']', '\x7d'] (isBlank_iff.1 hblank)
    · exact List.mem_append_right [' ', '\t', '\n', '\r'] hstop
  have hall : [' ', '\t', '\n', '\r', ',', ']', '\x7d'].all
      fun c => !(c.isDigit || ['.', 'e', 'E'].contains c) := by decide
  simpa using List.all_eq_true.1 hall c hmem

theorem ne_of_isDigit {d c : Char} (hd : d.isDigit) (hc : ¬c.isDigit) : d ≠ c :=
  fun h => hc (h ▸ hd)

theorem digits_append {ds rest : List Char} (hds : Digits ds)
    (hrest : ∀ c ∈ rest.head?, ¬c.isDigit) : digits (ds ++ rest) = (ds, rest) := by
  have hdrop : rest.dropWhile Char.isDigit = rest := by
    cases rest with
    | nil => rfl
    | cons c rest => exact List.dropWhile_cons_of_neg (hrest c rfl)
  have htake : rest.takeWhile Char.isDigit = [] := by
    cases rest with
    | nil => rfl
    | cons c rest => exact List.takeWhile_cons_of_neg (hrest c rfl)
  rw [digits, List.span_eq_takeWhile_dropWhile, List.takeWhile_append_of_pos hds,
    List.dropWhile_append_of_pos hds, hdrop, htake, List.append_nil]

theorem exponent?_append {exponent : Option (Bool × List Char)} {cs rest : List Char}
    (h : ExponentSpelled exponent cs) (hrest : Stops rest) :
    exponent? (cs ++ rest) = some (exponent, rest) := by
  cases h with
  | none =>
    cases rest with
    | nil => rfl
    | cons c rest =>
      have hc := (hrest.not_number rfl).2
      have hne : ¬(c = 'e' ∨ c = 'E') := fun h => hc (by rcases h with rfl | rfl <;> decide)
      rw [List.nil_append, exponent?.eq_def]
      simp only []
      rw [if_neg (by simpa using hne)]
  | @some letter negative sign ds hletter hsign hsome hdigits =>
    have hds := digits_append hdigits fun c hc => (hrest.not_number hc).1
    obtain ⟨d, tail, rfl⟩ := List.exists_cons_of_ne_nil hsome
    have hd : d.isDigit := hdigits d List.mem_cons_self
    have hletter : (letter = 'e' || letter = 'E') = true := by simpa using hletter
    simp only [List.mem_cons, Prod.mk.injEq, List.not_mem_nil, or_false] at hsign
    rw [List.append_assoc, List.cons_append]
    rcases hsign with ⟨rfl, rfl⟩ | ⟨rfl, rfl⟩ | ⟨rfl, rfl⟩
    · rw [List.singleton_append, exponent?, if_pos hletter, hds]
    · rw [List.singleton_append, exponent?, if_pos hletter, hds]
    · rw [List.nil_append, exponent?, if_pos hletter, hds]
      · exact fun cs h => ne_of_isDigit hd (by decide) (List.cons.inj h).1
      · exact fun cs h => ne_of_isDigit hd (by decide) (List.cons.inj h).1

/-- A number literal is read after its sign. -/
theorem number?_of_spelled {literal : NumberLiteral} {cs : List Char} (h : literal.Spelled cs) :
    ∃ d tail, d.isDigit ∧ cs = (if literal.negative then ['-'] else []) ++ d :: tail
      ∧ ∀ rest, Stops rest →
        number? literal.negative (d :: tail ++ rest) = some (literal, rest) := by
  obtain ⟨negative, whole, fraction, exponent⟩ := literal
  obtain ⟨hsome, hwhole, hzero, hfraction, spelled, hexponent, rfl⟩ := h
  simp only [] at hsome hwhole hzero hfraction hexponent ⊢
  obtain ⟨d, ds, rfl⟩ := List.exists_cons_of_ne_nil hsome
  refine ⟨d, ds ++ (if fraction = [] then [] else '.' :: fraction) ++ spelled,
    hwhole d List.mem_cons_self, by simp, fun rest hrest => ?_⟩
  have hspelled : ∀ c ∈ (spelled ++ rest).head?, ¬c.isDigit ∧ c ≠ '.' := by
    intro c hc
    cases hexponent with
    | none =>
      obtain ⟨hdigit, hletter⟩ := hrest.not_number hc
      exact ⟨hdigit, fun h => hletter (by rw [h]; decide)⟩
    | some hletter =>
      cases hc
      revert hletter
      simp only [List.mem_cons, List.not_mem_nil, or_false]
      rintro (rfl | rfl) <;> decide
  have hfirst : ∀ c ∈ ((if fraction = [] then [] else '.' :: fraction) ++ (spelled ++ rest)).head?,
      ¬c.isDigit := by
    split
    · exact fun c hc => (hspelled c hc).1
    · rintro c hc
      cases hc
      decide
  have hdigits : digits (d :: ds ++ _) = _ := digits_append hwhole hfirst
  have hstart : d :: (ds ++ (if fraction = [] then [] else '.' :: fraction) ++ spelled) ++ rest
      = d :: ds ++ ((if fraction = [] then [] else '.' :: fraction) ++ (spelled ++ rest)) := by
    simp
  rw [hstart, number?, hdigits]
  split
  · rename_i heq
    cases heq
  · rename_i heq
    obtain ⟨heq, -⟩ := Prod.mk.inj heq
    obtain ⟨rfl, rfl⟩ := List.cons.inj heq
    cases hzero _ rfl
  · rename_i heq
    obtain ⟨rfl, rfl⟩ := Prod.mk.inj heq
    by_cases hempty : fraction = []
    · subst hempty
      rw [if_pos rfl, List.nil_append]
      split
      · rename_i heq
        exact absurd rfl (hspelled '.' (by rw [heq]; rfl)).2
      · simp [exponent?_append hexponent hrest]
    · rw [if_neg hempty, List.cons_append]
      simp only [digits_append hfraction fun c hc => (hspelled c hc).1]
      obtain ⟨f, fs, rfl⟩ := List.exists_cons_of_ne_nil hempty
      simp [exponent?_append hexponent hrest]

end Numbers

section Read

/-- What the writing of a document begins with. -/
theorem Spelled.exists_cons {document : Document} {cs : List Char} (h : document.Spelled cs) :
    ∃ c tail, cs = c :: tail ∧ ¬isBlank c ∧ c ≠ ']' := by
  cases h with
  | null | true | false | emptyArray | array | emptyObject | object =>
    exact ⟨_, _, rfl, by decide, by decide⟩
  | number h =>
    obtain ⟨d, tail, hd, rfl, -⟩ := number?_of_spelled h
    split
    · exact ⟨_, _, rfl, by decide, by decide⟩
    · refine ⟨d, tail, rfl, fun hblank => ?_, ne_of_isDigit hd (by decide)⟩
      have hmem := isBlank_iff.1 hblank
      simp only [List.mem_cons, List.not_mem_nil, or_false] at hmem
      rcases hmem with rfl | rfl | rfl | rfl <;> cases hd
  | string h =>
    obtain ⟨body, rfl, -⟩ := string?_of_spelled h
    exact ⟨_, _, rfl, by decide, by decide⟩

theorem ItemsSpelled.exists_skipBlanks {items : List Document} {cs : List Char}
    (h : ItemsSpelled items cs) (rest : List Char) :
    ∃ c tail, skipBlanks (cs ++ rest) = c :: tail ∧ c ≠ ']' := by
  cases h with
  | last hbefore hitem | cons hbefore hitem =>
    obtain ⟨c, tail, rfl, hblank, hc⟩ := hitem.exists_cons
    simp only [List.append_assoc, List.cons_append]
    exact ⟨c, _, skipBlanks_blanks_cons hbefore hblank _, hc⟩

theorem MembersSpelled.exists_skipBlanks {members : List (StringLiteral × Document)}
    {cs : List Char} (h : MembersSpelled members cs) (rest : List Char) :
    ∃ c tail, skipBlanks (cs ++ rest) = c :: tail ∧ c ≠ '\x7d' := by
  cases h with
  | last hbefore hkey | cons hbefore hkey =>
    obtain ⟨body, rfl, -⟩ := string?_of_spelled hkey
    simp only [List.append_assoc, List.cons_append]
    exact ⟨'"', _, skipBlanks_blanks_cons hbefore (by decide) _, by decide⟩

theorem read_scalar {cs tail : List Char} {c : Char} (h : skipBlanks cs = c :: tail)
    (harray : c ≠ '[') (hobject : c ≠ '\x7b') (fuel : Nat) :
    read (fuel + 1) cs = scalar (c :: tail) := by
  rw [read, h]
  split
  · rename_i heq
    exact absurd (List.cons.inj heq).1 harray
  · rename_i heq
    exact absurd (List.cons.inj heq).1 hobject
  · rfl

theorem scalar_number {literal : NumberLiteral} {cs rest : List Char} (h : literal.Spelled cs)
    (hrest : Stops rest) : scalar (cs ++ rest) = (number literal, some rest) := by
  obtain ⟨d, tail, hd, rfl, hread⟩ := number?_of_spelled h
  have hread := hread rest hrest
  cases hnegative : literal.negative with
  | true =>
    rw [hnegative, List.cons_append] at hread
    rw [if_pos rfl, List.singleton_append, List.cons_append, List.cons_append, scalar, hread]
    rfl
  | false =>
    rw [hnegative, List.cons_append] at hread
    have hother : ∀ {c : Char} {cs : List Char}, ¬c.isDigit → d :: (tail ++ rest) ≠ c :: cs :=
      fun hc heq => ne_of_isDigit hd hc (List.cons.inj heq).1
    rw [if_neg Bool.false_ne_true, List.nil_append, List.cons_append, scalar, hread]
    · rfl
    all_goals exact fun _ => hother (by decide)

theorem scalar_string {literal : StringLiteral} {cs : List Char} (h : literal.Spelled cs)
    (rest : List Char) : scalar (cs ++ rest) = (string literal, some rest) := by
  obtain ⟨body, rfl, hread⟩ := string?_of_spelled h
  rw [List.cons_append, scalar, hread]
  rfl

theorem readItems_skipBlanks (fuel : Nat) (cs : List Char) :
    readItems fuel (skipBlanks cs) = readItems fuel cs := by
  cases fuel with
  | zero => rfl
  | succ fuel => rw [readItems, readItems, skipBlanks_skipBlanks]

theorem readMembers_skipBlanks (fuel : Nat) (cs : List Char) :
    readMembers fuel (skipBlanks cs) = readMembers fuel cs := by
  cases fuel with
  | zero => rfl
  | succ fuel => rw [readMembers, readMembers, skipBlanks_skipBlanks]

theorem read_array {before cs tail rest : List Char} {c : Char} {items : List Document}
    {fuel : Nat} (hbefore : Blank before) (hfirst : skipBlanks cs = c :: tail) (hc : c ≠ ']')
    (hread : readItems fuel cs = (items, some rest)) :
    read (fuel + 1) (before ++ '[' :: cs) = (array items true, some rest) := by
  rw [← readItems_skipBlanks, hfirst] at hread
  rw [read, skipBlanks_blanks_cons hbefore (by decide)]
  simp only [hfirst]
  split
  · rename_i heq
    exact absurd (List.cons.inj heq).1 hc
  · rw [hread]
    rfl

theorem read_object {before cs tail rest : List Char} {c : Char}
    {members : List (StringLiteral × Document)} {fuel : Nat} (hbefore : Blank before)
    (hfirst : skipBlanks cs = c :: tail) (hc : c ≠ '\x7d')
    (hread : readMembers fuel cs = (members, some rest)) :
    read (fuel + 1) (before ++ '\x7b' :: cs) = (object members true, some rest) := by
  rw [← readMembers_skipBlanks, hfirst] at hread
  rw [read, skipBlanks_blanks_cons hbefore (by decide)]
  simp only [hfirst]
  split
  · rename_i heq
    exact absurd (List.cons.inj heq).1 hc
  · rw [hread]
    rfl

/-- An item is read up to the comma or the bracket after it. -/
theorem readItems_eq {before cs after rest : List Char} {stop : Char} {item : Document} {fuel : Nat}
    (hbefore : Blank before) (hitem : item.Spelled cs) (hafter : Blank after)
    (hstop : stop ∈ [',', ']', '\x7d'])
    (hread : read fuel (cs ++ (after ++ stop :: rest)) = (item, some (after ++ stop :: rest))) :
    readItems (fuel + 1) (before ++ (cs ++ (after ++ stop :: rest)))
      = match stop :: rest with
        | ',' :: rest => (item :: (readItems fuel rest).1, (readItems fuel rest).2)
        | ']' :: rest => ([item], some rest)
        | _ => ([item], none) := by
  obtain ⟨c, tail, rfl, hblank, hclose⟩ := hitem.exists_cons
  rw [readItems, List.cons_append, skipBlanks_blanks_cons hbefore hblank]
  rw [List.cons_append] at hread
  split
  · rename_i heq
    exact absurd (List.cons.inj heq).1 hclose
  · have hskip := skipBlanks_blanks_stop hafter hstop rest
    rw [hread]
    simp only []
    generalize skipBlanks (after ++ stop :: rest) = left at hskip ⊢
    subst hskip
    rfl

/-- A member is read up to the comma or the brace after it. -/
theorem readMembers_eq {before name colon cs after rest : List Char} {stop : Char}
    {key : StringLiteral} {value : Document} {fuel : Nat} (hbefore : Blank before)
    (hkey : key.Spelled name) (hcolon : Blank colon) (hafter : Blank after)
    (hstop : stop ∈ [',', ']', '\x7d'])
    (hread : read fuel (cs ++ (after ++ stop :: rest)) = (value, some (after ++ stop :: rest))) :
    readMembers (fuel + 1) (before ++ (name ++ (colon ++ ':' :: (cs ++ (after ++ stop :: rest)))))
      = match stop :: rest with
        | ',' :: rest => ((key, value) :: (readMembers fuel rest).1, (readMembers fuel rest).2)
        | '\x7d' :: rest => ([(key, value)], some rest)
        | _ => ([(key, value)], none) := by
  obtain ⟨body, rfl, hname⟩ := string?_of_spelled hkey
  rw [readMembers, List.cons_append, skipBlanks_blanks_cons hbefore (by decide)]
  simp only [hname, skipBlanks_blanks_cons hcolon (show ¬isBlank ':' by decide), hread]
  have hskip := skipBlanks_blanks_stop hafter hstop rest
  generalize skipBlanks (after ++ stop :: rest) = left at hskip ⊢
  subst hskip
  rfl

mutual

/-- A document is read as it is written, up to what cannot belong to it. The fuel is counted by
characters: every call after the first has one more behind it. -/
theorem Spelled.read {document : Document} {cs : List Char} (h : document.Spelled cs)
    {before rest : List Char} (hbefore : Blank before) (hrest : Stops rest) {fuel : Nat}
    (hfuel : 2 * cs.length ≤ fuel) :
    Document.read fuel (before ++ (cs ++ rest)) = (document, some rest) := by
  obtain ⟨c, tail, hcs, hblank, -⟩ := h.exists_cons
  obtain ⟨fuel, rfl⟩ : ∃ n, fuel = n + 1 := ⟨fuel - 1, by simp [hcs] at hfuel; omega⟩
  have hskip : skipBlanks (before ++ (cs ++ rest)) = c :: (tail ++ rest) := by
    rw [hcs, List.cons_append, skipBlanks_blanks_cons hbefore hblank]
  cases h with
  | null | true | false =>
    cases hcs
    rw [read_scalar hskip (by decide) (by decide)]
    rfl
  | number h =>
    have hscalar := scalar_number h hrest
    obtain ⟨d, digits, hd, heq, -⟩ := number?_of_spelled h
    have hc : c ≠ '[' ∧ c ≠ '\x7b' := by
      rw [heq] at hcs
      split at hcs <;> obtain ⟨rfl, -⟩ := List.cons.inj hcs
      · decide
      · exact ⟨ne_of_isDigit hd (by decide), ne_of_isDigit hd (by decide)⟩
    rw [read_scalar hskip hc.1 hc.2, ← List.cons_append, ← hcs, hscalar]
  | string h =>
    have hscalar := scalar_string h rest
    obtain ⟨body, heq, -⟩ := string?_of_spelled h
    obtain ⟨rfl, -⟩ := List.cons.inj (hcs.symm.trans heq)
    rw [read_scalar hskip (by decide) (by decide), ← List.cons_append, ← hcs, hscalar]
  | @emptyArray blanks h =>
    have hclose : skipBlanks (blanks ++ [']'] ++ rest) = ']' :: rest := by
      rw [List.append_assoc, List.singleton_append, skipBlanks_blanks_cons h (by decide)]
    rw [Document.read, List.cons_append, List.cons_append,
      skipBlanks_blanks_cons hbefore (by decide)]
    simp only [hclose]
  | @array items cs h =>
    obtain ⟨first, more, hfirst, hne⟩ := h.exists_skipBlanks (']' :: rest)
    have hread : Document.readItems fuel (cs ++ ']' :: rest) = (items, some rest) :=
      h.readItems rest (by simp at hfuel; omega)
    rw [List.cons_append, List.cons_append, List.append_assoc, List.singleton_append]
    exact read_array hbefore hfirst hne hread
  | @emptyObject blanks h =>
    have hclose : skipBlanks (blanks ++ ['\x7d'] ++ rest) = '\x7d' :: rest := by
      rw [List.append_assoc, List.singleton_append, skipBlanks_blanks_cons h (by decide)]
    rw [Document.read, List.cons_append, List.cons_append,
      skipBlanks_blanks_cons hbefore (by decide)]
    simp only [hclose]
  | @object members cs h =>
    obtain ⟨first, more, hfirst, hne⟩ := h.exists_skipBlanks ('\x7d' :: rest)
    have hread : Document.readMembers fuel (cs ++ '\x7d' :: rest) = (members, some rest) :=
      h.readMembers rest (by simp at hfuel; omega)
    rw [List.cons_append, List.cons_append, List.append_assoc, List.singleton_append]
    exact read_object hbefore hfirst hne hread

theorem ItemsSpelled.readItems {items : List Document} {cs : List Char} (h : ItemsSpelled items cs)
    (rest : List Char) {fuel : Nat} (hfuel : 2 * cs.length + 1 ≤ fuel) :
    Document.readItems fuel (cs ++ ']' :: rest) = (items, some rest) := by
  obtain ⟨fuel, rfl⟩ : ∃ n, fuel = n + 1 := ⟨fuel - 1, by omega⟩
  cases h with
  | @last item before cs after hbefore hitem hafter =>
    have hread : Document.read fuel ([] ++ (cs ++ (after ++ ']' :: rest))) = _ :=
      hitem.read .nil (.blanks hafter (.cons (by simp) rest)) (by simp at hfuel; omega)
    simpa only [List.append_assoc] using readItems_eq hbefore hitem hafter (by simp) hread
  | @cons item items before cs after more hbefore hitem hafter hitems =>
    have ih : Document.readItems fuel (more ++ ']' :: rest) = (items, some rest) :=
      hitems.readItems rest (by simp at hfuel; omega)
    have hread : Document.read fuel ([] ++ (cs ++ (after ++ ',' :: (more ++ ']' :: rest)))) = _ :=
      hitem.read .nil (.blanks hafter (.cons (by simp) _)) (by simp at hfuel; omega)
    simpa only [List.append_assoc, List.cons_append, ih]
      using readItems_eq hbefore hitem hafter (by simp) hread

theorem MembersSpelled.readMembers {members : List (StringLiteral × Document)} {cs : List Char}
    (h : MembersSpelled members cs) (rest : List Char) {fuel : Nat}
    (hfuel : 2 * cs.length + 1 ≤ fuel) :
    Document.readMembers fuel (cs ++ '\x7d' :: rest) = (members, some rest) := by
  obtain ⟨fuel, rfl⟩ : ∃ n, fuel = n + 1 := ⟨fuel - 1, by omega⟩
  cases h with
  | @last key value before name colon between cs after hbefore hkey hcolon hbetween hvalue hafter =>
    have hread : Document.read fuel (between ++ (cs ++ (after ++ '\x7d' :: rest))) = _ :=
      hvalue.read hbetween (.blanks hafter (.cons (by simp) rest)) (by simp at hfuel; omega)
    rw [← List.append_assoc] at hread
    simpa only [List.append_assoc, List.cons_append]
      using readMembers_eq hbefore hkey hcolon hafter (by simp) hread
  | @cons key value members before name colon between cs after more hbefore hkey hcolon hbetween
      hvalue hafter hmembers =>
    have ih : Document.readMembers fuel (more ++ '\x7d' :: rest) = (members, some rest) :=
      hmembers.readMembers rest (by simp at hfuel; omega)
    have hread : Document.read fuel (between ++ (cs ++ (after ++ ',' :: (more ++ '\x7d' :: rest))))
        = _ := hvalue.read hbetween (.blanks hafter (.cons (by simp) _)) (by simp at hfuel; omega)
    rw [← List.append_assoc] at hread
    simpa only [List.append_assoc, List.cons_append, ih]
      using readMembers_eq hbefore hkey hcolon hafter (by simp) hread

end

/-- A text that spells a document is read as that document, to its end. -/
theorem ofText_of_spells {text : String} {document : Document} (h : Spells text document) :
    ofText text = (document, true) := by
  obtain ⟨before, cs, after, hbefore, hcs, hafter, htext⟩ := h
  have hend : Stops (after ++ []) := .blanks hafter nofun
  rw [List.append_nil] at hend
  have hread : read (2 * text.toList.length + 2) (before ++ (cs ++ after)) = _ :=
    hcs.read hbefore hend (by simp [htext]; omega)
  rw [← List.append_assoc, ← htext] at hread
  rw [ofText]
  simp only [hread, skipBlanks_blanks hafter, List.isEmpty_nil]

end Read

end Document

end BehaviorTree.Json

namespace BehaviorTree

open Json

/-- A text is loaded as its document is read. -/
theorem Source.load_of_spells {text : String} {document : Document}
    (h : Document.Spells text document) (files : Files) :
    (Source.text .json text).load files = (rootNode document).mapError .json := by
  rw [load, parse, definitionOfText, Document.ofText_of_spells h]
  show ((rootNode document >>= whenClosed true).mapError SourceError.json) = _
  cases rootNode document <;> rfl

end BehaviorTree
