import Breakthrough.Turn
import Mathlib.Data.List.TakeWhile

/-!
# What an input says

The reader of turns sees an input as lines of bytes, and of each line its trimmed text. What the input
*says* are these texts without the empty ones (`said`). A line feed cuts what is said in two
(`said_append`), and one at the end says nothing (`said_feed`). So a text that shows rows, with white
space around them and blank lines anywhere (`Shows`), says these rows (`Shows.said_eq`).
-/

namespace Breakthrough

/-! ## Trimming -/

namespace Text

theorem trimChars_append {before after : List Char} (hbefore : ∀ c ∈ before, isBlank c = true)
    (hafter : ∀ c ∈ after, isBlank c = true) (cs : List Char) :
    trimChars (before ++ cs ++ after) = trimChars cs := by
  rw [trimChars, trimChars, List.append_assoc, List.dropWhile_append_of_pos hbefore, List.dropWhile_append]
  split
  · rename_i hcs
    rw [List.isEmpty_iff.1 hcs, List.dropWhile_eq_nil_iff.2 hafter]
  · rw [List.reverse_append, List.dropWhile_append_of_pos fun c hc => hafter c (List.mem_reverse.1 hc)]

theorem dropWhile_isBlank {cs : List Char} (h : ∀ c ∈ cs, isBlank c = false) : cs.dropWhile isBlank = cs :=
  List.dropWhile_eq_self_iff.2 fun hcs => by simp [h _ (List.getElem_mem hcs)]

theorem trimChars_eq_self {cs : List Char} (h : ∀ c ∈ cs, isBlank c = false) : trimChars cs = cs := by
  rw [trimChars, dropWhile_isBlank h, dropWhile_isBlank fun c hc => h c (List.mem_reverse.1 hc),
    List.reverse_reverse]

end Text

/-! ## Bytes -/

def bytesOf (cs : List Char) : List UInt8 := cs.flatMap String.utf8EncodeChar

theorem bytesOf_append (cs ds : List Char) : bytesOf (cs ++ ds) = bytesOf cs ++ bytesOf ds :=
  List.flatMap_append

theorem bytesOf_toList (s : String) : s.toUTF8.data.toList = bytesOf s.toList := by
  rw [String.toUTF8_eq_toByteArray, ← String.utf8Encode_toList, List.utf8Encode,
    List.toList_data_toByteArray]
  rfl

/-- No character but the line feed has its byte. -/
theorem feed_not_mem_utf8EncodeChar {c : Char} (h : c ≠ '\n') : 10 ∉ String.utf8EncodeChar c := by
  have hbyte : ∀ n : Nat, n % 256 ≠ 10 → 10 ≠ UInt8.ofNat n := by
    intro n hn heq
    exact hn (congrArg UInt8.toNat heq).symm
  have hc : c.val.toNat ≠ 10 := fun hval => h (Char.ext (UInt32.toNat.inj hval))
  unfold String.utf8EncodeChar
  dsimp only
  split_ifs <;> simp only [List.mem_cons, List.not_mem_nil, or_false, not_or]
  · exact hbyte _ (by omega)
  · exact ⟨hbyte _ (by omega), hbyte _ (by omega)⟩
  · exact ⟨hbyte _ (by omega), hbyte _ (by omega), hbyte _ (by omega)⟩
  · exact ⟨hbyte _ (by omega), hbyte _ (by omega), hbyte _ (by omega), hbyte _ (by omega)⟩

theorem lineText?_bytesOf (cs : List Char) :
    lineText? (bytesOf cs) = some (String.ofList (Text.trimChars cs)) := by
  have harray : (⟨(bytesOf cs).toArray⟩ : ByteArray) = cs.utf8Encode := by
    apply ByteArray.ext
    rw [List.utf8Encode, List.data_toByteArray]
    rfl
  have htext : String.fromUTF8? cs.utf8Encode = some (String.ofList cs) := by
    rw [String.fromUTF8?, dif_pos ByteArray.isValidUTF8_utf8Encode]
    rfl
  rw [lineText?, harray, htext, Option.map_some, Text.trim, String.toList_ofList]

/-! ## Lines -/

theorem splitLines_append {line : List UInt8} (h : 10 ∉ line) (rest : List UInt8) :
    splitLines (line ++ 10 :: rest) = (line ++ [10]) :: splitLines rest := by
  induction line with
  | nil => rfl
  | cons b line ih =>
    rw [List.mem_cons, not_or] at h
    rw [List.cons_append, splitLines, if_neg (Ne.symm h.1), ih h.2]
    rfl

theorem splitLines_singleton {line : List UInt8} (h : 10 ∉ line) (hne : line ≠ []) :
    splitLines line = [line] := by
  induction line with
  | nil => exact absurd rfl hne
  | cons b line ih =>
    rw [List.mem_cons, not_or] at h
    rw [splitLines, if_neg (Ne.symm h.1)]
    cases line with
    | nil => rfl
    | cons => rw [ih h.2 (List.cons_ne_nil _ _)]

/-- What lines say: their trimmed texts, `none` for a line that is no text, without the empty ones. -/
def said (lines : List Line) : List (Option String) :=
  (lines.map lineText?).filter (· ≠ some "")

theorem said_cons (line : Line) (lines : List Line) : said (line :: lines) = said [line] ++ said lines := by
  rw [said, said, said, ← List.filter_append, ← List.map_append]
  rfl

theorem feed_not_mem_bytesOf {cs : List Char} (h : '\n' ∉ cs) : 10 ∉ bytesOf cs := by
  intro hmem
  obtain ⟨c, hc, hbyte⟩ := List.mem_flatMap.1 hmem
  exact feed_not_mem_utf8EncodeChar (fun heq => h (heq ▸ hc)) hbyte

def saidBy (cs : List Char) : List (Option String) :=
  if Text.trimChars cs = [] then [] else [some (String.ofList (Text.trimChars cs))]

theorem said_bytesOf (cs : List Char) : said [bytesOf cs] = saidBy cs := by
  rw [said, List.map_singleton, lineText?_bytesOf, saidBy]
  by_cases h : Text.trimChars cs = []
  · rw [if_pos h, h]
    rfl
  · have hne : String.ofList (Text.trimChars cs) ≠ "" := fun heq =>
      h (by rw [← String.toList_ofList (l := Text.trimChars cs), heq]; rfl)
    rw [if_neg h, List.filter_cons_of_pos (by simpa using hne), List.filter_nil]

/-- A line feed cuts what is said in two. -/
theorem said_append {cs : List Char} (h : '\n' ∉ cs) (ds : List Char) :
    said (splitLines (bytesOf (cs ++ '\n' :: ds))) = saidBy cs ++ said (splitLines (bytesOf ds)) := by
  have hfeed : saidBy (cs ++ ['\n']) = saidBy cs := by
    have htrim : Text.trimChars ([] ++ cs ++ ['\n']) = Text.trimChars cs :=
      Text.trimChars_append (List.forall_mem_nil _) (List.forall_mem_singleton.2 rfl) cs
    rw [saidBy, saidBy, ← htrim, List.nil_append]
  have hbytes : bytesOf (cs ++ '\n' :: ds) = bytesOf cs ++ 10 :: bytesOf ds := bytesOf_append cs ('\n' :: ds)
  have hline : bytesOf cs ++ [10] = bytesOf (cs ++ ['\n']) := (bytesOf_append cs ['\n']).symm
  rw [hbytes, splitLines_append (feed_not_mem_bytesOf h), said_cons, hline, said_bytesOf, hfeed]

theorem said_line {cs : List Char} (h : '\n' ∉ cs) : said (splitLines (bytesOf cs)) = saidBy cs := by
  by_cases hcs : bytesOf cs = []
  · rw [← said_bytesOf, hcs]
    rfl
  · rw [splitLines_singleton (feed_not_mem_bytesOf h) hcs, said_bytesOf]

/-- A line feed at the end says nothing. -/
theorem said_feed (cs : List Char) :
    said (splitLines (bytesOf (cs ++ ['\n']))) = said (splitLines (bytesOf cs)) := by
  by_cases h : '\n' ∈ cs
  · obtain ⟨line, rest, hcs, hline⟩ := List.eq_append_cons_of_mem h
    rw [hcs, List.append_assoc, List.cons_append, said_append hline, said_append hline, said_feed rest]
  · rw [said_append h, said_line h]
    exact List.append_nil _
termination_by cs.length
decreasing_by
  rw [hcs, List.length_append, List.length_cons]
  omega

/-! ## Layout -/

def IsGap (cs : List Char) : Prop := ∀ c ∈ cs, Text.isBlank c = true ∧ c ≠ '\n'

instance (cs : List Char) : Decidable (IsGap cs) :=
  List.decidableBAll (fun c => Text.isBlank c = true ∧ c ≠ '\n') cs

/-- The lines show the rows one by one, with white space around them and blank lines anywhere. -/
inductive Shows : List String → List (List Char) → Prop
  | nil : Shows [] []
  | blank {rows : List String} {lines : List (List Char)} {gap : List Char} :
      IsGap gap → Shows rows lines → Shows rows (gap :: lines)
  | row {row : String} {rows : List String} {lines : List (List Char)} {before after : List Char} :
      IsGap before → IsGap after → Shows rows lines →
      Shows (row :: rows) ((before ++ row.toList ++ after) :: lines)

/-- The text of lines: each ends with a line feed, which the last one may lack. -/
def IsTextOf (text : String) (lines : List (List Char)) : Prop :=
  text.toList = lines.flatMap (· ++ ['\n']) ∨ text.toList ++ ['\n'] = lines.flatMap (· ++ ['\n'])

/-- The number of lines that are not blank. -/
def shownCount (lines : List (List Char)) : Nat := lines.countP fun line => !line.all Text.isBlank

/-- A row without white space, and not empty. -/
structure IsWord (row : String) : Prop where
  ne_nil : row.toList ≠ []
  solid : ∀ c ∈ row.toList, Text.isBlank c = false

namespace IsGap

variable {gap : List Char}

theorem isBlank (h : IsGap gap) : ∀ c ∈ gap, Text.isBlank c = true := fun c hc => (h c hc).1

theorem feed (h : IsGap gap) : '\n' ∉ gap := fun hmem => (h _ hmem).2 rfl

theorem saidBy_eq (h : IsGap gap) : saidBy gap = [] := by
  have htrim : Text.trimChars (gap ++ [] ++ []) = Text.trimChars [] :=
    Text.trimChars_append h.isBlank (List.forall_mem_nil _) []
  rw [List.append_nil, List.append_nil] at htrim
  rw [saidBy, htrim]
  rfl

end IsGap

namespace IsWord

variable {row : String} {before after : List Char}

theorem of_all (hne : row.toList ≠ []) (h : row.toList.all (fun c => !Text.isBlank c) = true) : IsWord row :=
  ⟨hne, fun c hc => by simpa using List.all_eq_true.1 h c hc⟩

theorem feed (h : IsWord row) : '\n' ∉ row.toList := fun hmem => by cases h.solid _ hmem

theorem saidBy_eq (h : IsWord row) (hbefore : IsGap before) (hafter : IsGap after) :
    saidBy (before ++ row.toList ++ after) = [some row] := by
  rw [saidBy, Text.trimChars_append hbefore.isBlank hafter.isBlank, Text.trimChars_eq_self h.solid,
    if_neg h.ne_nil, String.ofList_toList]

theorem all_isBlank (h : IsWord row) : (before ++ row.toList ++ after).all Text.isBlank = false := by
  obtain ⟨c, hc⟩ := List.exists_mem_of_ne_nil _ h.ne_nil
  rw [List.all_eq_false]
  exact ⟨c, List.mem_append_left _ (List.mem_append_right _ hc), by simp [h.solid c hc]⟩

end IsWord

theorem said_lines {lines : List (List Char)} (h : ∀ line ∈ lines, '\n' ∉ line) :
    said (splitLines (bytesOf (lines.flatMap (· ++ ['\n'])))) = lines.flatMap saidBy := by
  induction lines with
  | nil => rfl
  | cons line lines ih =>
    rw [List.forall_mem_cons] at h
    rw [List.flatMap_cons, List.append_assoc, List.singleton_append, said_append h.1, ih h.2, List.flatMap_cons]

theorem IsTextOf.said_eq {text : String} {lines : List (List Char)} (h : IsTextOf text lines)
    (hlines : ∀ line ∈ lines, '\n' ∉ line) :
    said (splitLines text.toUTF8.data.toList) = lines.flatMap saidBy := by
  rw [bytesOf_toList, ← said_lines hlines]
  rcases h with h | h
  · rw [h]
  · rw [← h, said_feed]

namespace Shows

variable {rows : List String} {lines : List (List Char)}

theorem feed (h : Shows rows lines) (hrows : ∀ row ∈ rows, IsWord row) : ∀ line ∈ lines, '\n' ∉ line := by
  induction h with
  | nil => exact List.forall_mem_nil _
  | blank hgap _ ih => exact List.forall_mem_cons.2 ⟨hgap.feed, ih hrows⟩
  | row hbefore hafter _ ih =>
    rw [List.forall_mem_cons] at hrows ⊢
    exact ⟨List.not_mem_append (List.not_mem_append hbefore.feed hrows.1.feed) hafter.feed, ih hrows.2⟩

theorem flatMap_saidBy (h : Shows rows lines) (hrows : ∀ row ∈ rows, IsWord row) :
    lines.flatMap saidBy = rows.map some := by
  induction h with
  | nil => rfl
  | blank hgap _ ih => rw [List.flatMap_cons, hgap.saidBy_eq, ih hrows, List.nil_append]
  | row hbefore hafter _ ih =>
    rw [List.forall_mem_cons] at hrows
    rw [List.flatMap_cons, hrows.1.saidBy_eq hbefore hafter, ih hrows.2]
    rfl

/-- A text that shows rows says them. -/
theorem said_eq {text : String} (h : Shows rows lines) (hrows : ∀ row ∈ rows, IsWord row)
    (htext : IsTextOf text lines) : said (splitLines text.toUTF8.data.toList) = rows.map some := by
  rw [htext.said_eq (h.feed hrows), h.flatMap_saidBy hrows]

/-- The first lines show the first rows. -/
theorem take (h : Shows rows lines) (hrows : ∀ row ∈ rows, IsWord row) (n : Nat) :
    Shows (rows.take (shownCount (lines.take n))) (lines.take n) := by
  induction h generalizing n with
  | nil => rw [List.take_nil, List.take_nil]; exact .nil
  | blank hgap h ih =>
    cases n with
    | zero => exact .nil
    | succ n =>
      rw [List.take_succ_cons, shownCount, List.countP_cons_of_neg (by simpa using hgap.isBlank)]
      exact .blank hgap (ih hrows n)
  | row hbefore hafter h ih =>
    rw [List.forall_mem_cons] at hrows
    cases n with
    | zero => exact .nil
    | succ n =>
      rw [List.take_succ_cons, shownCount, List.countP_cons_of_pos (by rw [hrows.1.all_isBlank]; rfl)]
      exact .row hbefore hafter (ih hrows.2 n)

end Shows

end Breakthrough
