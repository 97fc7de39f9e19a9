import Breakthrough.Proofs.Turns

/-!
# Texts and numbers of moves

A text names a move exactly when the white space at its ends leaves four characters, a column letter and a row
digit for each of the two squares (`Move.parse_follows_grammar`). Reading looks at characters. A reader that works
on bytes, with a test of their number, a test that all of them are ASCII, and a cut in the middle, reads the same
and never cuts inside a character (`Move.parseBytes?_eq`). The number of a move keeps both squares.
-/

namespace Breakthrough

/-! ## Trimming -/

namespace Text

/-- What is left of a text when the white space at both ends is taken off. -/
structure IsCore (cs core : List Char) : Prop where
  within : ∃ before after, cs = before ++ core ++ after ∧ (∀ c ∈ before, isBlank c = true) ∧
    ∀ c ∈ after, isBlank c = true
  head : ∀ c, core.head? = some c → isBlank c = false
  last : ∀ c, core.getLast? = some c → isBlank c = false

theorem dropWhile_isBlank_of_head {cs : List Char} (h : ∀ c, cs.head? = some c → isBlank c = false) :
    cs.dropWhile isBlank = cs := by
  cases cs with
  | nil => rfl
  | cons c cs => rw [List.dropWhile_cons_of_neg (by simp [h c rfl])]

theorem IsCore.trimChars_eq {cs core : List Char} (h : IsCore cs core) : trimChars cs = core := by
  obtain ⟨before, after, rfl, hbefore, hafter⟩ := h.within
  rw [trimChars_append hbefore hafter, trimChars, dropWhile_isBlank_of_head h.head,
    dropWhile_isBlank_of_head (by simpa using h.last), List.reverse_reverse]

theorem isBlank_of_head?_dropWhile {cs : List Char} {c : Char} (h : (cs.dropWhile isBlank).head? = some c) :
    isBlank c = false := by
  have hnot := List.head?_dropWhile_not isBlank cs
  rwa [h] at hnot

theorem isCore_trimChars (cs : List Char) : IsCore cs (trimChars cs) := by
  let rest := cs.dropWhile isBlank
  let after := (rest.reverse.takeWhile isBlank).reverse
  have hrest : rest = trimChars cs ++ after := by
    rw [trimChars, ← List.reverse_append, List.takeWhile_append_dropWhile, List.reverse_reverse]
  refine ⟨⟨cs.takeWhile isBlank, after, ?_, fun c => List.mem_takeWhile_imp, fun c hc => ?_⟩, fun c hc => ?_,
    fun c hc => ?_⟩
  · rw [List.append_assoc, ← hrest, List.takeWhile_append_dropWhile]
  · exact List.mem_takeWhile_imp (List.mem_reverse.1 hc)
  · have hhead : rest.head? = some c := by simp [hrest, hc]
    exact isBlank_of_head?_dropWhile hhead
  · rw [trimChars, List.getLast?_reverse] at hc
    exact isBlank_of_head?_dropWhile hc

theorem isCore_iff {cs core : List Char} : IsCore cs core ↔ core = trimChars cs :=
  ⟨fun h => h.trimChars_eq.symm, fun h => h ▸ isCore_trimChars cs⟩

end Text

/-! ## Names of squares -/

namespace Square

def letters : List Char := ['a', 'b', 'c', 'd', 'e', 'f', 'g', 'h']

def digits : List Char := ['1', '2', '3', '4', '5', '6', '7', '8']

/-- The two characters are the names of the square's column and row. -/
def Named (s : Square) (letter digit : Char) : Prop :=
  letters[s.column.val]? = some letter ∧ digits[s.row.val]? = some digit

theorem named_iff {s : Square} {a b : Char} : s.Named a b ↔ s.chars = [a, b] := by
  have h : ∀ i : Fin 64, letters[(column ⟨i⟩).val]? = (chars ⟨i⟩)[0]? ∧ digits[(row ⟨i⟩).val]? = (chars ⟨i⟩)[1]? := by
    decide
  obtain ⟨hletter, hdigit⟩ := h s.index
  rw [Named, hletter, hdigit]
  simp [chars]

theorem exists_named_iff {a b : Char} : (∃ s : Square, s.Named a b) ↔ a ∈ letters ∧ b ∈ digits := by
  constructor
  · rintro ⟨s, ha, hb⟩
    exact ⟨List.mem_of_getElem? ha, List.mem_of_getElem? hb⟩
  · rintro ⟨ha, hb⟩
    obtain ⟨i, hi, rfl⟩ := List.getElem_of_mem ha
    obtain ⟨j, hj, rfl⟩ := List.getElem_of_mem hb
    refine ⟨of ⟨i, hi⟩ ⟨j, hj⟩, ?_, ?_⟩
    · rw [column_of]; exact List.getElem?_eq_getElem hi
    · rw [row_of]; exact List.getElem?_eq_getElem hj

theorem ofPair?_eq_some_iff {a b : Char} {s : Square} : ofPair? a b = some s ↔ s.Named a b := by
  rw [named_iff]
  constructor
  · intro h
    rw [ofPair?] at h
    split at h
    · rename_i hrange
      obtain rfl := Option.some.inj h
      have hchar : ∀ {x y : Char}, x ≤ y → Char.ofNat (x.toNat + (y.toNat - x.toNat)) = y := fun {x y} hxy => by
        have hle : x.toNat ≤ y.toNat := hxy
        rw [Nat.add_sub_cancel' hle, Char.ofNat_toNat]
      rw [chars, column_of, row_of, hchar hrange.1.1, hchar hrange.2.1]
    · cases h
  · intro h
    have hs := ofChars?_chars s
    rwa [h] at hs

end Square

/-! ## Texts of moves -/

namespace Move

theorem ofChars?_eq_some_iff {cs : List Char} {m : Move} : ofChars? cs = some m ↔ cs = m.chars := by
  constructor
  · intro h
    match cs, h with
    | [a, b, c, d], h =>
      simp only [ofChars?, bind, Option.bind_eq_some_iff, pure, Option.some.injEq] at h
      obtain ⟨source, hsource, target, htarget, rfl⟩ := h
      rw [Square.ofPair?_eq_some_iff, Square.named_iff] at hsource htarget
      rw [chars, hsource, htarget]
      rfl
  · rintro rfl
    exact ofChars?_chars m

/-- A text names the move that it is the text of once it is trimmed, and no other. -/
theorem parse_eq_ok_iff {s : String} {m : Move} : parse s = .ok m ↔ Text.trim s = m.text := by
  have htext : Text.trim s = m.text ↔ Text.trimChars s.toList = m.chars := String.ofList_inj
  rw [htext, ← ofChars?_eq_some_iff, parse, ofText?]
  cases ofChars? (Text.trimChars s.toList) with
  | none => simp
  | some n => simp

theorem parse_text (m : Move) : parse m.text = .ok m := by
  rw [parse, ofText?_text]

theorem parse_eq_error {s : String} (h : ∀ m : Move, Text.trim s ≠ m.text) :
    parse s = .error (.invalidMove (Text.trim s)) := by
  cases hs : ofText? s with
  | none => rw [parse, hs]
  | some m => exact absurd (parse_eq_ok_iff.1 (by rw [parse, hs])) (h m)

/-- A column letter and a row digit, twice. -/
def Grammar (cs : List Char) : Prop :=
  ∃ a b c d, cs = [a, b, c, d] ∧ a ∈ Square.letters ∧ b ∈ Square.digits ∧ c ∈ Square.letters ∧ d ∈ Square.digits

theorem chars_eq_iff {m : Move} {a b c d : Char} :
    m.chars = [a, b, c, d] ↔ m.source.Named a b ∧ m.target.Named c d := by
  rw [Square.named_iff, Square.named_iff, chars]
  simp [Square.chars, and_assoc]

/-- The four characters of a move name its squares. -/
theorem exists_chars_named (m : Move) :
    ∃ a b c d, m.chars = [a, b, c, d] ∧ m.source.Named a b ∧ m.target.Named c d := by
  obtain ⟨hsource, htarget⟩ := chars_eq_iff (m := m).1 rfl
  exact ⟨_, _, _, _, rfl, hsource, htarget⟩

theorem grammar_iff {cs : List Char} : Grammar cs ↔ ∃ m : Move, cs = m.chars := by
  constructor
  · rintro ⟨a, b, c, d, rfl, ha, hb, hc, hd⟩
    obtain ⟨source, hsource⟩ := Square.exists_named_iff.2 ⟨ha, hb⟩
    obtain ⟨target, htarget⟩ := Square.exists_named_iff.2 ⟨hc, hd⟩
    exact ⟨⟨source, target⟩, (chars_eq_iff.2 ⟨hsource, htarget⟩).symm⟩
  · rintro ⟨m, rfl⟩
    obtain ⟨a, b, c, d, hchars, hsource, htarget⟩ := m.exists_chars_named
    obtain ⟨ha, hb⟩ := Square.exists_named_iff.1 ⟨_, hsource⟩
    obtain ⟨hc, hd⟩ := Square.exists_named_iff.1 ⟨_, htarget⟩
    exact ⟨a, b, c, d, hchars, ha, hb, hc, hd⟩

end Move

/-! ## Reading by bytes -/

namespace Text

/-- Whether all bytes of a text are below 128. -/
def isAscii (s : String) : Bool := s.toUTF8.data.toList.all (· < 128)

/-- A text cut at a byte offset, unless the offset lies inside a character or behind the end. -/
def cutAt? (s : String) (offset : Nat) : Option (String × String) :=
  if h : (String.Pos.Raw.mk offset).IsValid s then
    let p := s.pos ⟨offset⟩ h
    some ((s.sliceTo p).copy, (s.sliceFrom p).copy)
  else none

theorem cutAt?_append (front back : String) :
    cutAt? (front ++ back) front.utf8ByteSize = some (front, back) := by
  have hvalid : (String.Pos.Raw.mk front.utf8ByteSize).IsValid (front ++ back) :=
    String.Pos.Raw.isValid_iff_exists_append.2 ⟨front, back, rfl, rfl⟩
  have hsplits : ((front ++ back).pos ⟨front.utf8ByteSize⟩ hvalid).Splits front back := ⟨rfl, rfl⟩
  obtain ⟨hfront, hback⟩ := (String.Pos.splits _).eq hsplits
  rw [cutAt?, dif_pos hvalid]
  exact congrArg some (Prod.ext hfront hback)

theorem utf8ByteSize_eq (s : String) : s.utf8ByteSize = (bytesOf s.toList).length := by
  rw [← bytesOf_toList]
  rfl

/-- The last byte of a character that takes more than one is above 127. -/
theorem forall_utf8EncodeChar_lt_iff {c : Char} : (∀ b ∈ String.utf8EncodeChar c, b < 128) ↔ c.utf8Size = 1 := by
  have hlast : ¬ UInt8.ofNat (c.val.toNat % 64 + 128) < 128 := by
    rw [UInt8.lt_iff_toNat_lt, UInt8.toNat_ofNat']
    change ¬ (c.val.toNat % 64 + 128) % 256 < 128
    omega
  rw [Char.utf8Size_eq_one_iff, UInt32.le_iff_toNat_le]
  unfold String.utf8EncodeChar
  dsimp only
  split_ifs with h1 h2 h3
  · have hfirst : UInt8.ofNat c.val.toNat < 128 := by
      rw [UInt8.lt_iff_toNat_lt, UInt8.toNat_ofNat']
      change c.val.toNat % 256 < 128
      omega
    exact iff_of_true (List.forall_mem_singleton.2 hfirst) h1
  · exact iff_of_false (fun h => hlast (h _ (by simp))) h1
  · exact iff_of_false (fun h => hlast (h _ (by simp))) h1
  · exact iff_of_false (fun h => hlast (h _ (by simp))) h1

theorem isAscii_iff {s : String} : isAscii s = true ↔ ∀ c ∈ s.toList, c.utf8Size = 1 := by
  rw [isAscii, bytesOf_toList, bytesOf, List.all_flatMap, List.all_eq_true]
  simp only [List.all_eq_true, decide_eq_true_eq, forall_utf8EncodeChar_lt_iff]

theorem length_bytesOf {cs : List Char} (h : ∀ c ∈ cs, c.utf8Size = 1) : (bytesOf cs).length = cs.length := by
  induction cs with
  | nil => rfl
  | cons c cs ih =>
    rw [List.forall_mem_cons] at h
    rw [bytesOf, List.flatMap_cons, List.length_append, String.length_utf8EncodeChar, h.1, List.length_cons,
      Nat.add_comm]
    exact congrArg (· + 1) (ih h.2)

/-- A text of ASCII characters can be cut behind each of them. -/
theorem cutAt?_ofList {front back : List Char} (h : ∀ c ∈ front, c.utf8Size = 1) :
    cutAt? (String.ofList (front ++ back)) front.length = some (String.ofList front, String.ofList back) := by
  have hsize : (String.ofList front).utf8ByteSize = front.length := by
    rw [utf8ByteSize_eq, String.toList_ofList, length_bytesOf h]
  rw [String.ofList_append, ← hsize, cutAt?_append]

end Text

namespace Move

/-- Reads a move from the bytes of its text: there have to be four of them, all ASCII, and each half is read as a
square. There is no answer at all where the cut would lie inside a character. -/
def parseBytes? (s : String) : Option (Except Error Move) :=
  let t := Text.trim s
  if t.utf8ByteSize ≠ 4 ∨ Text.isAscii t = false then some (.error (.invalidMove t))
  else
    (Text.cutAt? t 2).map fun (front, back) =>
      match Square.parse front, Square.parse back with
      | .ok source, .ok target => .ok ⟨source, target⟩
      | _, _ => .error (.invalidMove t)

theorem isAscii_text (m : Move) : Text.isAscii m.text = true := by
  have hsquare : ∀ i : Fin 64, (Square.chars ⟨i⟩).all (fun c => c.utf8Size = 1) = true := by decide
  rw [Text.isAscii_iff, text, String.toList_ofList, chars, List.forall_mem_append]
  constructor
  · simpa using hsquare m.source.index
  · simpa using hsquare m.target.index

theorem utf8ByteSize_text (m : Move) : m.text.utf8ByteSize = 4 := by
  rw [Text.utf8ByteSize_eq, Text.length_bytesOf (Text.isAscii_iff.1 m.isAscii_text), text, String.toList_ofList]
  rfl

/-- A text that passes both tests has four characters of one byte. -/
theorem exists_chars_of_tests {t : String} (hsize : t.utf8ByteSize = 4) (hascii : Text.isAscii t = true) :
    ∃ a b c d, t = String.ofList [a, b, c, d] ∧ ∀ x ∈ [a, b], x.utf8Size = 1 := by
  rw [Text.isAscii_iff] at hascii
  have hlength : t.toList.length = 4 := by rw [← Text.length_bytesOf hascii, ← Text.utf8ByteSize_eq, hsize]
  match hchars : t.toList, hlength with
  | [a, b, c, d], _ =>
    rw [hchars] at hascii
    refine ⟨a, b, c, d, ?_, fun x hx => hascii x (List.mem_append_left [c, d] hx)⟩
    rw [← hchars, String.ofList_toList]

/-- Reading by bytes always comes to an answer, and to the same one. -/
theorem parseBytes?_eq (s : String) : parseBytes? s = some (parse s) := by
  rw [parseBytes?]
  split
  · rename_i htests
    rw [parse_eq_error]
    intro m hm
    rw [hm, utf8ByteSize_text, isAscii_text] at htests
    simp at htests
  · rename_i htests
    rw [not_or, not_not, Bool.not_eq_false] at htests
    obtain ⟨a, b, c, d, ht, hab⟩ := exists_chars_of_tests htests.1 htests.2
    have hcut : Text.cutAt? (Text.trim s) 2 = some (String.ofList [a, b], String.ofList [c, d]) := by
      rw [ht]
      exact Text.cutAt?_ofList hab
    have hchars : Text.trimChars s.toList = [a, b, c, d] := String.ofList_inj.1 ht
    rw [hcut, parse, ofText?, hchars, ofChars?]
    simp only [Option.map_some, Square.parse, String.toList_ofList, Square.ofChars?]
    cases Square.ofPair? a b with
    | none => rfl
    | some source =>
      cases Square.ofPair? c d with
      | none => rfl
      | some target => rfl

/-! ## Numbers of moves -/

/-- The low byte of a move's number is its source; the mask takes six bits of it. -/
theorem code_and_mask (m : Move) : m.code &&& 63 = m.source.index.val := by
  have hmask : m.code &&& 63 = m.code % 64 := Nat.and_two_pow_sub_one_eq_mod m.code 6
  have hsource := m.source.index.isLt
  rw [hmask, code]
  omega

/-- The high byte of a move's number is its target. -/
theorem code_shiftRight (m : Move) : m.code >>> 8 = m.target.index.val := by
  have hsource := m.source.index.isLt
  rw [Nat.shiftRight_eq_div_pow, code]
  omega

/-! ## Every text -/

/-- **Texts of moves.** Take the white space off both ends of a text. It is read as a move exactly when what is
left is a column letter and a row digit, twice; the move then leads from the first of the squares so named to the
second and has what is left as its own text. So reading undoes writing, the number of a move keeps both squares,
and two texts name one move exactly when the same is left of them. Every other text, whatever its characters, is
refused with what is left of it, and a reader of bytes never cuts a character in two. -/
theorem parse_follows_grammar (s : String) :
    (∀ core, Text.IsCore s.toList core ↔ core = (Text.trim s).toList) ∧
    ((∃ m, parse s = .ok m) ↔ Grammar (Text.trim s).toList) ∧
    (∀ m, parse s = .ok m → m.text = Text.trim s ∧
      ∃ a b c d, (Text.trim s).toList = [a, b, c, d] ∧ m.source.Named a b ∧ m.target.Named c d) ∧
    (∀ m : Move, parse m.text = .ok m ∧ m.code &&& 63 = m.source.index.val ∧ m.code >>> 8 = m.target.index.val) ∧
    (∀ s' m m', parse s = .ok m → parse s' = .ok m' → (m = m' ↔ Text.trim s = Text.trim s')) ∧
    (¬ Grammar (Text.trim s).toList → parse s = .error (.invalidMove (Text.trim s))) ∧
    parseBytes? s = some (parse s) := by
  have hchars : (Text.trim s).toList = Text.trimChars s.toList := String.toList_ofList
  have htext : ∀ m : Move, parse s = .ok m ↔ (Text.trim s).toList = m.chars := fun m => by
    rw [parse_eq_ok_iff, ← String.toList_inj, text, String.toList_ofList]
  refine ⟨fun core => ?_, ?_, fun m hm => ⟨?_, ?_⟩, fun m => ⟨parse_text m, m.code_and_mask, m.code_shiftRight⟩,
    fun s' m m' hm hm' => ?_, fun hgrammar => ?_, parseBytes?_eq s⟩
  · rw [hchars, Text.isCore_iff]
  · rw [grammar_iff]
    exact exists_congr htext
  · exact (parse_eq_ok_iff.1 hm).symm
  · rw [(htext m).1 hm]
    exact m.exists_chars_named
  · constructor
    · rintro rfl
      exact (parse_eq_ok_iff.1 hm).trans (parse_eq_ok_iff.1 hm').symm
    · intro heq
      have hboth : parse s' = .ok m := parse_eq_ok_iff.2 (heq.symm.trans (parse_eq_ok_iff.1 hm))
      exact Except.ok.inj (hboth.symm.trans hm')
  · apply parse_eq_error
    intro m hm
    exact hgrammar (grammar_iff.2 ⟨m, (htext m).1 (parse_eq_ok_iff.2 hm)⟩)

example : parse "\u3000b2c3\r\n" = .ok ⟨⟨9⟩, ⟨18⟩⟩ := rfl

-- four bytes, but three characters
example : parse "b2é" = .error (.invalidMove "b2é") := rfl

end Move

end Breakthrough
