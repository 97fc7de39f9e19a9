import Mathlib.Data.List.Forall2
import Mathlib.Data.Option.Basic
import Breakthrough.Json.Parser
import Breakthrough.Json.Printer
import Breakthrough.Proofs.Numerals

/-!
# Documents are read back

What is written over several lines is read as the same document. A text `Reads` as tokens if this is so whatever ends
it, and tokens `Parses` as a document if this is so whatever follows them. Both compose: parts with commas between them
read as the tokens of the parts with comma tokens between them (`reads_intercalate`), and these parse as the list of
what the parts parse as (`items_intercalate`, `fields_intercalate`). So a document means what its parts mean
(`Doc.means_list`, `Doc.means_object`), and what is left are strings, whose escapes are undone (`next?_escaped`), and
numbers, which are spelled out (`next?_chars`).
-/

namespace Breakthrough

namespace Text

/-! ## Hexadecimal digits -/

/-- The number that hexadecimal digits stand for. -/
def ofHex (digits : List Char) : Nat :=
  digits.foldl (fun n c => 16 * n + (Json.Token.hexDigit? c).getD 0) 0

theorem hexDigit?_digitChar {k : Nat} (hk : k < 16) : Json.Token.hexDigit? k.digitChar = some k := by
  have h : ∀ k : Fin 16, Json.Token.hexDigit? (Nat.digitChar k) = some k.val := by decide
  exact h ⟨k, hk⟩

theorem ofHex_concat_digitChar (digits : List Char) {k : Nat} (hk : k < 16) :
    ofHex (digits ++ [k.digitChar]) = 16 * ofHex digits + k := by
  simp [ofHex, hexDigit?_digitChar hk]

theorem ofHex_toDigits (n : Nat) : ofHex (Nat.toDigits 16 n) = n := by
  induction n using Nat.strongRecOn with
  | ind n ih =>
    rw [Nat.toDigits_eq_if (by decide)]
    split
    · rename_i hn
      exact (ofHex_concat_digitChar [] hn).trans (Nat.zero_add n)
    · rw [ofHex_concat_digitChar _ (Nat.mod_lt n (by decide)), ih (n / 16) (by omega)]
      exact Nat.div_add_mod n 16

theorem ofHex_replicate_append (k : Nat) (digits : List Char) :
    ofHex (List.replicate k '0' ++ digits) = ofHex digits := by
  have hzero : (Json.Token.hexDigit? '0').getD 0 = 0 := by decide
  induction k with
  | zero => rfl
  | succ k ih =>
    rw [List.replicate_succ, List.cons_append, ofHex, List.foldl_cons, hzero]
    exact ih

theorem ofHex_word64 (w : UInt64) : ofHex (word64 w).toList = w.toNat := by
  rw [word64, hexPadded, String.toList_ofList, ofHex_replicate_append, ofHex_toDigits]

/-- Different words have different texts. -/
theorem word64_injective : Function.Injective word64 := by
  intro v w h
  apply UInt64.toNat_inj.1
  rw [← ofHex_word64 v, h, ofHex_word64 w]

end Text

namespace Json

open Decimal (Spelling)

namespace Token

variable {cs ds rest : List Char} {ts us : List Token} {s : Spelling}

/-! ## Texts and their tokens -/

/-- Nothing that a token before it could take in: the end, a gap or a sign between tokens. -/
def Ends (cs : List Char) : Prop := ∀ c ∈ cs.head?, c ∈ [' ', '\n', '\t', '\r', ',', ':']

theorem ends_cons {c : Char} : Ends (c :: cs) ↔ c ∈ [' ', '\n', '\t', '\r', ',', ':'] := by
  simp [Ends]

/-- These are the tokens of a text. -/
inductive Scans : List Char → List Token → Prop
  | nil : Scans [] []
  | gap {c : Char} {cs : List Char} {ts : List Token} (hc : isGap c = true) (h : Scans cs ts) : Scans (c :: cs) ts
  | token {c : Char} {cs rest : List Char} {t : Token} {ts : List Token} (hc : isGap c = false)
      (hnext : next? (c :: cs) = some (t, rest)) (hlength : rest.length ≤ cs.length) (h : Scans rest ts) :
      Scans (c :: cs) (t :: ts)

theorem Scans.scan (h : Scans cs ts) {fuel : Nat} (hfuel : cs.length ≤ fuel) : scan fuel cs = some ts := by
  induction h generalizing fuel with
  | nil => cases fuel <;> rfl
  | gap hc _ ih =>
    have hrest := ih (Nat.le_of_succ_le hfuel)
    cases fuel with
    | zero => cases hfuel
    | succ fuel =>
      rw [Token.scan] at hrest ⊢
      rwa [List.dropWhile_cons_of_pos hc]
  | token hc hnext hlength _ ih =>
    cases fuel with
    | zero => cases hfuel
    | succ fuel =>
      have hrest := ih (Nat.le_trans hlength (Nat.le_of_succ_le_succ hfuel))
      rw [Token.scan, List.dropWhile_cons_of_neg (by simp [hc])]
      simp [hnext, hrest]

/-- A text stands for tokens wherever it ends. -/
def Reads (cs : List Char) (ts : List Token) : Prop :=
  ∀ rest us, Ends rest → Scans rest us → Scans (cs ++ rest) (ts ++ us)

theorem Reads.scans (h : Reads cs ts) : Scans cs ts := by
  have hend := h [] [] nofun .nil
  rwa [List.append_nil, List.append_nil] at hend

theorem Reads.append (h : Reads cs ts) (hu : Reads ds us)
    (hends : ∀ rest, Ends rest → Ends (ds ++ rest)) : Reads (cs ++ ds) (ts ++ us) := by
  intro rest vs hrest hv
  rw [List.append_assoc, List.append_assoc]
  exact h _ _ (hends rest hrest) (hu _ _ hrest hv)

theorem reads_nil : Reads [] [] := fun _ _ _ h => h

/-- A text that is one token. -/
theorem reads_token {c : Char} {t : Token} (hc : isGap c = false)
    (hnext : ∀ rest, Ends rest → next? (c :: cs ++ rest) = some (t, rest)) : Reads (c :: cs) [t] := by
  intro rest us hends h
  refine .token hc (hnext rest hends) ?_ h
  rw [List.append_eq, List.length_append]
  exact Nat.le_add_left _ _

/-- A character that is a token by itself, whatever follows it. -/
structure IsSign (c : Char) (t : Token) : Prop where
  isGap : isGap c = false
  next? : ∀ rest, next? (c :: rest) = some (t, rest)

theorem Reads.sign {c : Char} {t : Token} (hc : IsSign c t) (h : Reads cs ts) : Reads (c :: cs) (t :: ts) := by
  intro rest us hends hrest
  exact .token hc.isGap (hc.next? _) (Nat.le_refl _) (h _ _ hends hrest)

theorem Reads.gaps {gaps : List Char} (hgaps : ∀ c ∈ gaps, isGap c = true) (h : Reads cs ts) :
    Reads (gaps ++ cs) ts := by
  induction gaps with
  | nil => exact h
  | cons c gaps ih =>
    rw [List.forall_mem_cons] at hgaps
    intro rest us hends hrest
    exact .gap hgaps.1 (ih hgaps.2 _ _ hends hrest)

/-- Texts with commas and gaps between them. -/
theorem reads_intercalate {gaps : List Char} {css : List (List Char)} {tss : List (List Token)}
    (hgaps : ∀ c ∈ gaps, isGap c = true) (h : List.Forall₂ Reads css tss) :
    Reads ((',' :: gaps).intercalate css) ([comma].intercalate tss) := by
  induction h with
  | nil => exact reads_nil
  | @cons cs ts css tss hc htail ih =>
    cases htail with
    | nil =>
      rw [List.intercalate_singleton, List.intercalate_singleton]
      exact hc
    | cons =>
      rw [List.intercalate_cons_cons, List.intercalate_cons_cons, List.append_assoc, List.append_assoc]
      exact hc.append (.sign ⟨rfl, fun _ => rfl⟩ (ih.gaps hgaps)) fun rest _ => ends_cons.2 (by decide)

theorem isGap_newline (depth : Nat) : ∀ c ∈ (Doc.newline depth).toList, isGap c = true := by
  intro c hc
  simp only [Doc.newline, String.toList_append, String.toList_ofList, List.mem_append] at hc
  rcases hc with hc | hc
  · cases hc with
    | head => rfl
    | tail _ hc => cases hc
  · rw [List.eq_of_mem_replicate hc]
    rfl

theorem ends_newline (depth : Nat) (cs : List Char) : Ends ((Doc.newline depth).toList ++ cs) := by
  rw [Doc.newline, String.toList_append, List.append_assoc]
  exact ends_cons.2 (by decide)

/-- Parts between brackets, whether there are any or not. -/
theorem reads_block {o c : Char} {opening closing : String} {t u : Token} (ho : IsSign o t) (hc : IsSign c u)
    (hopening : opening.toList = [o]) (hclosing : closing.toList = [c]) {parts : List String}
    {tss : List (List Token)} (h : List.Forall₂ (fun part ts => Reads part.toList ts) parts tss) (depth : Nat) :
    Reads (Doc.block depth opening closing parts).toList (t :: ([comma].intercalate tss ++ [u])) := by
  have hend : Reads [c] [u] := .sign hc reads_nil
  rw [Doc.block]
  split
  · rename_i hparts
    rw [List.isEmpty_iff] at hparts
    subst hparts
    cases h
    rw [String.toList_append, hopening, hclosing]
    exact .sign ho hend
  · have hparts := reads_intercalate (isGap_newline (depth + 1)) (List.forall₂_map_left_iff.2 h)
    simp only [String.toList_append, String.toList_intercalate, hopening, hclosing, List.append_assoc,
      List.singleton_append]
    refine .sign ho (.gaps (isGap_newline (depth + 1)) (hparts.append (.gaps (isGap_newline depth) hend) ?_))
    intro rest _
    rw [List.append_assoc]
    exact ends_newline depth _

/-! ## Strings -/

/-- A first piece in front of others. -/
def withPiece (p : Piece) (r : List Piece × List Char) : List Piece × List Char := (p :: r.1, r.2)

theorem pieces_escape {e c : Char} (he : escape? e = some c) (cs : List Char) :
    pieces ('\\' :: e :: cs) = (pieces cs).map (withPiece (.char c)) := by
  have hu : e ≠ 'u' := by
    rintro rfl
    cases he
  simp [pieces, hu, he]
  cases pieces cs <;> rfl

theorem pieces_unit {n : Nat} (hn : n < 256) (cs : List Char) :
    pieces ('\\' :: 'u' :: '0' :: '0' :: (n / 16).digitChar :: (n % 16).digitChar :: cs) =
      (pieces cs).map (withPiece (.unit n)) := by
  have hzero : hexDigit? '0' = some 0 := by decide
  have hhigh := Text.hexDigit?_digitChar (show n / 16 < 16 by omega)
  have hlow := Text.hexDigit?_digitChar (show n % 16 < 16 by omega)
  simp [pieces, hzero, hhigh, hlow, Nat.div_add_mod]
  cases pieces cs <;> rfl

theorem pieces_plain {c : Char} (hquote : c ≠ '"') (hslash : c ≠ '\\') (hc : 0x20 ≤ c.toNat) (cs : List Char) :
    pieces (c :: cs) = (pieces cs).map (withPiece (.char c)) := by
  have hguard : (guard (0x20 ≤ c.toNat ∧ c ≠ '\\') : Option Unit) = some () := if_pos ⟨hc, hslash⟩
  rw [pieces.eq_5 c cs hquote (fun _ _ _ _ _ h => absurd h hslash) (fun _ _ h => absurd h hslash), hguard]
  cases pieces cs <;> rfl

theorem hexPadded_four {n : Nat} (hn : n < 32) :
    (Text.hexPadded 4 n).toList = ['0', '0', (n / 16).digitChar, (n % 16).digitChar] := by
  have h : ∀ n : Fin 32, (Text.hexPadded 4 n).toList = ['0', '0', (n.val / 16).digitChar, (n.val % 16).digitChar] := by
    decide
  exact h ⟨n, hn⟩

/-- An escaped character is one piece, which stands for the character. -/
theorem exists_piece_escapedChar (c : Char) (cs : List Char) :
    ∃ p, pieces ((escapedChar c).toList ++ cs) = (pieces cs).map (withPiece p) ∧
      ∀ ps, join (p :: ps) = (join ps).map (c :: ·) := by
  unfold escapedChar
  split
  case h_8 hquote hslash _ _ _ _ _ =>
    split
    case isTrue hc =>
      refine ⟨.unit c.toNat, ?_, fun ps => ?_⟩
      · rw [String.toList_append, hexPadded_four hc]
        exact pieces_unit (Nat.lt_trans hc (by decide)) cs
      · rw [join.eq_def]
        simp only [show c.toNat < 0xd800 by omega, true_or, if_true, Char.ofNat_toNat]
    case isFalse hc =>
      rw [Char.toString_eq_singleton, String.toList_singleton]
      exact ⟨.char c, pieces_plain hquote hslash (Nat.le_of_not_lt hc) cs, fun _ => rfl⟩
  all_goals exact ⟨.char _, pieces_escape rfl cs, fun _ => rfl⟩

theorem exists_pieces_escaped (cs rest : List Char) :
    ∃ ps, pieces (cs.flatMap (fun c => (escapedChar c).toList) ++ '"' :: rest) = some (ps, rest) ∧
      join ps = some cs := by
  induction cs with
  | nil => exact ⟨[], rfl, rfl⟩
  | cons c cs ih =>
    obtain ⟨ps, hps, hjoin⟩ := ih
    rw [List.flatMap_cons, List.append_assoc]
    obtain ⟨p, hp, hjoin'⟩ := exists_piece_escapedChar c (cs.flatMap (fun c => (escapedChar c).toList) ++ '"' :: rest)
    refine ⟨p :: ps, ?_, ?_⟩
    · rw [hp, hps]
      rfl
    · rw [hjoin', hjoin]
      rfl

theorem toList_escaped (s : String) :
    (escaped s).toList = '"' :: (s.toList.flatMap (fun c => (escapedChar c).toList) ++ ['"']) := by
  simp [escaped, String.toList_join, List.flatMap_map]

theorem next?_escaped (s : String) (rest : List Char) :
    next? ((escaped s).toList ++ rest) = some (string (some s), rest) := by
  obtain ⟨ps, hps, hjoin⟩ := exists_pieces_escaped s.toList rest
  rw [toList_escaped, List.cons_append, List.append_assoc, List.singleton_append, next?, hps]
  simp [hjoin]

theorem reads_escaped (s : String) : Reads (escaped s).toList [string (some s)] := by
  have hnext := next?_escaped s
  rw [toList_escaped] at hnext ⊢
  exact reads_token rfl fun rest _ => hnext rest

/-! ## Numbers -/

theorem someDigits_append (hds : Spelling.IsDigits ds) (hrest : ∀ c ∈ rest.head?, c.isDigit = false) :
    someDigits (ds ++ rest) = some (ds.map Spelling.digitValue, rest) := by
  have htake : rest.takeWhile Char.isDigit = [] := by
    cases rest with
    | nil => rfl
    | cons c rest => exact List.takeWhile_cons_of_neg (by simp [hrest c rfl])
  have hdrop : rest.dropWhile Char.isDigit = rest := by
    cases rest with
    | nil => rfl
    | cons c rest => exact List.dropWhile_cons_of_neg (by simp [hrest c rfl])
  have hdigits : digits (ds ++ rest) = (ds.map Spelling.digitValue, rest) := by
    rw [digits, List.takeWhile_append_of_pos hds.2, List.dropWhile_append_of_pos hds.2, htake, hdrop, List.append_nil]
    rfl
  rw [someDigits, hdigits]
  obtain ⟨c, ds, rfl⟩ := List.exists_cons_of_ne_nil hds.1
  rfl

/-- What ends a token ends a number. -/
theorem Ends.foreign (h : Ends cs) : ∀ c ∈ cs.head?, c.isDigit = false ∧ c ≠ '.' ∧ c ≠ 'e' ∧ c ≠ 'E' := by
  intro c hc
  have hmem := h c hc
  simp only [List.mem_cons, List.not_mem_nil, or_false] at hmem
  rcases hmem with rfl | rfl | rfl | rfl | rfl | rfl <;> decide

theorem places_point (hs : s.Valid) (hrest : ∀ c ∈ rest.head?, c.isDigit = false ∧ c ≠ '.') :
    places (s.point ++ rest) = some (s.places.map Spelling.digitValue, rest) := by
  rw [Spelling.point]
  split
  · rename_i hnone
    rw [hnone, List.nil_append]
    unfold places
    split
    · exact absurd rfl (hrest '.' rfl).2
    · rfl
  · rename_i hsome
    exact someDigits_append ⟨hsome, hs.places⟩ fun c hc => (hrest c hc).1

theorem exponent_power (hs : s.Valid) (hrest : Ends rest) :
    exponent (s.power ++ rest) = some (s.literal.exponent?, rest) := by
  rw [Spelling.power, Spelling.literal]
  cases he : s.exponent? with
  | none =>
    change exponent rest = some (none, rest)
    unfold exponent
    split
    · exact absurd rfl (hrest.foreign 'e' rfl).2.2.1
    · exact absurd rfl (hrest.foreign 'E' rfl).2.2.2
    · rfl
  | some e =>
    have hdigits := someDigits_append (hs.power e he) fun c hc => (hrest.foreign c hc).1
    obtain ⟨negative, ds⟩ := e
    cases negative <;> simp [exponent, exponentSign, hdigits]

theorem head?_power (s : Spelling) (hrest : Ends rest) :
    ∀ c ∈ (s.power ++ rest).head?, c.isDigit = false ∧ c ≠ '.' := by
  rw [Spelling.power]
  cases s.exponent? with
  | none => exact fun c hc => ⟨(hrest.foreign c hc).1, (hrest.foreign c hc).2.1⟩
  | some e =>
    rintro c ⟨⟩
    decide

theorem head?_point (s : Spelling) (hrest : ∀ c ∈ rest.head?, c.isDigit = false) :
    ∀ c ∈ (s.point ++ rest).head?, c.isDigit = false := by
  rw [Spelling.point]
  split
  · exact hrest
  · rintro c ⟨⟩
    decide

theorem digitValue_ne_zero {c : Char} (hdigit : c.isDigit = true) (hc : c ≠ '0') : Spelling.digitValue c ≠ 0 := by
  intro hzero
  have hle := (Char.isDigit_iff_toNat.1 hdigit).1
  exact hc (Char.toNat_inj.1 (Nat.le_antisymm (Nat.le_of_sub_eq_zero hzero) hle))

theorem numeral_chars (hs : s.Valid) (hrest : Ends rest) : numeral (s.chars ++ rest) = some (s.literal, rest) := by
  have hpower := head?_power s hrest
  have hwhole := someDigits_append hs.whole (head?_point s fun c hc => (hpower c hc).1)
  have hguard : (guard ((s.whole.map Spelling.digitValue).head? ≠ some 0 ∨
      (s.whole.map Spelling.digitValue).length = 1) : Option Unit) = some () := by
    refine if_pos (hs.lead.imp (fun h h0 => ?_) fun h => by rwa [List.length_map])
    rw [List.head?_map, Option.map_eq_some_iff] at h0
    obtain ⟨c, hc, hzero⟩ := h0
    exact digitValue_ne_zero (hs.whole.2 c (List.mem_of_mem_head? hc)) (fun h' => h (h' ▸ hc)) hzero
  have hbody : s.body ++ rest = s.whole ++ (s.point ++ (s.power ++ rest)) := by
    simp only [Spelling.body, List.append_assoc]
  have hminus : ∀ cs, s.body ++ rest ≠ '-' :: cs := by
    obtain ⟨c, ds, hc⟩ := List.exists_cons_of_ne_nil hs.whole.1
    intro cs h
    have hdigit := hs.whole.2 c (by simp [hc])
    rw [hbody, hc] at h
    cases h
    cases hdigit
  unfold numeral
  split
  rename_i negative cs heq
  have hsign : (negative, cs) = (s.negative, s.whole ++ (s.point ++ (s.power ++ rest))) := by
    rw [← heq, ← hbody, Spelling.chars]
    cases s.negative with
    | true => rfl
    | false =>
      split
      · rename_i h
        exact absurd h (hminus _)
      · rfl
  cases hsign
  refine Option.bind_eq_some_iff.2 ⟨_, hwhole, Option.bind_eq_some_iff.2 ⟨(), hguard, ?_⟩⟩
  refine Option.bind_eq_some_iff.2 ⟨_, places_point hs hpower, ?_⟩
  exact Option.bind_eq_some_iff.2 ⟨_, exponent_power hs hrest, rfl⟩

/-- A numeral begins with a sign or a digit. -/
theorem exists_chars_cons (hs : s.Valid) : ∃ c cs, s.chars = c :: cs ∧ (c = '-' ∨ c.isDigit = true) := by
  rw [Spelling.chars]
  cases s.negative with
  | true => exact ⟨'-', _, rfl, .inl rfl⟩
  | false =>
    obtain ⟨c, ds, hc⟩ := List.exists_cons_of_ne_nil hs.whole.1
    exact ⟨c, _, by rw [Spelling.body, hc]; rfl, .inr (hs.whole.2 c (by simp [hc]))⟩

theorem isGap_of_digit {c : Char} (hc : c = '-' ∨ c.isDigit = true) : isGap c = false := by
  rw [Bool.eq_false_iff]
  intro hgap
  simp only [isGap, Bool.or_eq_true, beq_iff_eq] at hgap
  rcases hgap with ((rfl | rfl) | rfl) | rfl <;> revert hc <;> decide

theorem next?_cons_of_digit {c : Char} (hc : c = '-' ∨ c.isDigit = true) (cs : List Char) :
    next? (c :: cs) = (numeral (c :: cs)).map fun (l, rest) => (number l, rest) := by
  unfold next?
  split
  all_goals first
    | rfl
    | (rename_i h; cases h; rcases hc with hc | hc <;> cases hc)

theorem next?_chars (hs : s.Valid) (hrest : Ends rest) : next? (s.chars ++ rest) = some (.number s.literal, rest) := by
  have hnumeral := numeral_chars hs hrest
  obtain ⟨c, cs, hchars, hc⟩ := exists_chars_cons hs
  rw [hchars, List.cons_append] at hnumeral ⊢
  rw [next?_cons_of_digit hc, hnumeral]
  rfl

theorem reads_chars (hs : s.Valid) : Reads s.chars [number s.literal] := by
  have hnext : ∀ rest, Ends rest → next? (s.chars ++ rest) = some (number s.literal, rest) := fun _ => next?_chars hs
  obtain ⟨c, cs, hchars, hc⟩ := exists_chars_cons hs
  rw [hchars] at hnext ⊢
  exact reads_token (isGap_of_digit hc) hnext

theorem reads_null : Reads "null".toList [null] := reads_token rfl fun _ _ => rfl

end Token

/-! ## Documents -/

/-- Tokens are those of a document, whatever follows them. Each of them pays for two calls of the parser. -/
def Parses (ts : List Token) (j : Json) : Prop :=
  ∀ fuel us, 2 * ts.length ≤ fuel → value fuel (ts ++ us) = some (j, us)

theorem parses_token {t : Token} {j : Json} (h : ∀ fuel us, value (fuel + 1) (t :: us) = some (j, us)) :
    Parses [t] j := by
  intro fuel us hfuel
  obtain ⟨fuel, rfl⟩ := Nat.exists_eq_add_of_le' (Nat.le_trans (by decide : 1 ≤ 2) hfuel)
  exact h fuel us

theorem value_openList {fuel : Nat} {ts us : List Token} {js : List Json} (h : items fuel ts = some (js, us)) :
    value (fuel + 1) (.openList :: ts) = some (.list js, us) := by
  -- an empty list is read by another branch, but no item begins with a closing bracket
  have hne : ∀ vs, ts ≠ .closeList :: vs := by
    rintro vs rfl
    cases fuel with
    | zero => cases h
    | succ fuel => cases fuel <;> cases h
  unfold value
  split <;> simp_all

/-- Items with commas between them are the documents of a list. -/
theorem items_intercalate {tss : List (List Token)} {js : List Json} (h : List.Forall₂ Parses tss js)
    (hne : tss ≠ []) {fuel : Nat} (hfuel : 2 * ([Token.comma].intercalate tss).length + 1 ≤ fuel) (us : List Token) :
    items fuel ([Token.comma].intercalate tss ++ .closeList :: us) = some (js, us) := by
  induction h generalizing fuel with
  | nil => exact absurd rfl hne
  | @cons ts j tss js hts htail ih =>
    obtain ⟨fuel, rfl⟩ := Nat.exists_eq_add_of_le' (Nat.le_trans (Nat.le_add_left 1 _) hfuel)
    -- the call for an item is paid for by the comma or the bracket behind it
    cases htail with
    | nil =>
      rw [List.intercalate_singleton] at hfuel ⊢
      rw [items, hts fuel _ (by omega)]
      rfl
    | cons =>
      rw [List.intercalate_cons_cons] at hfuel ⊢
      simp only [List.length_append, List.length_singleton] at hfuel
      rw [List.append_assoc, List.append_assoc, items, hts fuel _ (by omega)]
      have hrest := @ih nofun fuel (by omega)
      simp [hrest]

theorem value_openObject {fuel : Nat} {ts us : List Token} {fs : List (String × Json)}
    (h : fields fuel ts = some (some fs, us)) : value (fuel + 1) (.openObject :: ts) = some (.object fs, us) := by
  have hne : ∀ vs, ts ≠ .closeObject :: vs := by
    rintro vs rfl
    cases fuel <;> cases h
  unfold value
  split <;> simp_all

def ParsesField (ts : List Token) (f : String × Json) : Prop :=
  ∃ vs, ts = .string (some f.1) :: .colon :: vs ∧ Parses vs f.2

theorem fields_intercalate {tss : List (List Token)} {fs : List (String × Json)} (h : List.Forall₂ ParsesField tss fs)
    (hne : tss ≠ []) {fuel : Nat} (hfuel : 2 * ([Token.comma].intercalate tss).length + 1 ≤ fuel) (us : List Token) :
    fields fuel ([Token.comma].intercalate tss ++ .closeObject :: us) = some (some fs, us) := by
  induction h generalizing fuel with
  | nil => exact absurd rfl hne
  | @cons ts f tss fs hts htail ih =>
    obtain ⟨fuel, rfl⟩ := Nat.exists_eq_add_of_le' (Nat.le_trans (Nat.le_add_left 1 _) hfuel)
    obtain ⟨vs, rfl, hvs⟩ := hts
    cases htail with
    | nil =>
      rw [List.intercalate_singleton] at hfuel ⊢
      simp only [List.length_cons] at hfuel
      rw [List.cons_append, List.cons_append, fields, hvs fuel _ (by omega)]
      rfl
    | cons =>
      rw [List.intercalate_cons_cons] at hfuel ⊢
      simp only [List.length_append, List.length_cons] at hfuel
      rw [List.append_assoc, List.append_assoc, List.cons_append, List.cons_append, fields, hvs fuel _ (by omega)]
      have hrest := @ih nofun fuel (by omega)
      simp [hrest]

namespace Doc

/-- A document is written as a text that is read as `j`, at whatever depth. -/
def Means (d : Doc) (j : Json) : Prop :=
  ∃ ts, (∀ depth, Token.Reads (d.prettyAt depth).toList ts) ∧ Parses ts j

/-- Two relations in a row. -/
theorem exists_forall₂ {α β γ : Type} {R : α → β → Prop} {Q : β → γ → Prop} {as : List α} {cs : List γ}
    (h : List.Forall₂ (fun a c => ∃ b, R a b ∧ Q b c) as cs) : ∃ bs, List.Forall₂ R as bs ∧ List.Forall₂ Q bs cs := by
  induction h with
  | nil => exact ⟨[], .nil, .nil⟩
  | cons ha _ ih =>
    obtain ⟨b, hr, hq⟩ := ha
    obtain ⟨bs, hrs, hqs⟩ := ih
    exact ⟨b :: bs, .cons hr hrs, .cons hq hqs⟩

theorem prettyItems_eq_map (depth : Nat) (ds : List Doc) : prettyItems depth ds = ds.map (prettyAt depth) := by
  induction ds with
  | nil => rfl
  | cons d ds ih => rw [prettyItems, ih, List.map_cons]

theorem prettyFields_eq_map (depth : Nat) (fs : List (String × Doc)) :
    prettyFields depth fs = fs.map fun f => escaped f.1 ++ ": " ++ prettyAt depth f.2 := by
  induction fs with
  | nil => rfl
  | cons f fs ih => rw [prettyFields, ih, List.map_cons]

/-- **What is written is read back.** -/
theorem Means.parse?_pretty {d : Doc} {j : Json} (h : d.Means j) : parse? d.pretty = some j := by
  obtain ⟨ts, hreads, hparses⟩ := h
  have hscan := (hreads 0).scans.scan (Nat.le_refl _)
  have hvalue := hparses (2 * ts.length + 2) [] (Nat.le_add_right _ _)
  rw [List.append_nil] at hvalue
  simp [parse?, pretty, hscan, hvalue]

theorem means_string (s : String) : (string s).Means (.string s) :=
  ⟨[.string (some s)], fun _ => Token.reads_escaped s, parses_token fun _ _ => rfl⟩

theorem means_nat (n : Nat) : (nat n).Means (.number (Spelling.ofNat n).literal) := by
  refine ⟨[.number (Spelling.ofNat n).literal], fun _ => ?_, parses_token fun _ _ => rfl⟩
  have hreads := Token.reads_chars (Spelling.valid_ofNat n)
  rwa [Spelling.chars_ofNat] at hreads

/-- A double is written as a number or as null. -/
theorem exists_means_float (x : Float) : ∃ j, (float x).Means j := by
  unfold float
  cases Decimal.Binary.ofFloat x with
  | nan => exact ⟨.null, [.null], fun _ => Token.reads_null, parses_token fun _ _ => rfl⟩
  | infinite negative =>
    refine ⟨.null, [.null], fun _ => ?_, parses_token fun _ _ => rfl⟩
    cases negative <;> exact Token.reads_null
  | finite negative significand exponent narrow =>
    have hplus : floatLayout.plusSign = "+" := rfl
    obtain ⟨s, hs, hchars⟩ := Spelling.exists_render_eq hplus negative significand exponent narrow
    refine ⟨.number s.literal, [.number s.literal], fun _ => ?_, parses_token fun _ _ => rfl⟩
    rw [prettyAt, hchars]
    exact Token.reads_chars hs

theorem means_list {ds : List Doc} {js : List Json} (h : List.Forall₂ Means ds js) : (list ds).Means (.list js) := by
  obtain ⟨tss, hreads, hparses⟩ := exists_forall₂ h
  refine ⟨.openList :: ([.comma].intercalate tss ++ [.closeList]), fun depth => ?_, fun fuel us hfuel => ?_⟩
  · rw [prettyAt, prettyItems_eq_map]
    refine Token.reads_block ⟨rfl, fun _ => rfl⟩ ⟨rfl, fun _ => rfl⟩ rfl rfl ?_ depth
    exact List.forall₂_map_left_iff.2 (hreads.imp fun _ _ hread => hread (depth + 1))
  · simp only [List.length_cons, List.length_append] at hfuel
    obtain ⟨fuel, rfl⟩ := Nat.exists_eq_add_of_le' (show 1 ≤ fuel by omega)
    cases hparses with
    | nil => rfl
    | cons hts htss =>
      rw [List.cons_append, List.append_assoc]
      exact value_openList (items_intercalate (.cons hts htss) nofun (by omega) us)

/-- A field means what its value means. -/
def FieldMeans (f : String × Doc) (g : String × Json) : Prop := f.1 = g.1 ∧ f.2.Means g.2

theorem FieldMeans.exists_tokens {f : String × Doc} {g : String × Json} (h : FieldMeans f g) :
    ∃ ts, (∀ depth, Token.Reads (escaped f.1 ++ ": " ++ prettyAt depth f.2).toList ts) ∧ ParsesField ts g := by
  obtain ⟨key, d⟩ := f
  obtain ⟨_, j⟩ := g
  obtain ⟨rfl, ts, hreads, hparses⟩ := h
  refine ⟨.string (some key) :: .colon :: ts, fun depth => ?_, ts, rfl, hparses⟩
  have hvalue : Token.Reads (':' :: ([' '] ++ (prettyAt depth d).toList)) (.colon :: ts) :=
    .sign ⟨rfl, fun _ => rfl⟩ ((hreads depth).gaps (List.forall_mem_singleton.2 rfl))
  rw [String.toList_append, String.toList_append, List.append_assoc]
  exact (Token.reads_escaped key).append hvalue fun _ _ => Token.ends_cons.2 (by decide)

theorem means_object {fs : List (String × Doc)} {gs : List (String × Json)} (h : List.Forall₂ FieldMeans fs gs) :
    (object fs).Means (.object gs) := by
  obtain ⟨tss, hreads, hparses⟩ := exists_forall₂ (h.imp fun _ _ hf => hf.exists_tokens)
  refine ⟨.openObject :: ([.comma].intercalate tss ++ [.closeObject]), fun depth => ?_, fun fuel us hfuel => ?_⟩
  · rw [prettyAt, prettyFields_eq_map]
    refine Token.reads_block ⟨rfl, fun _ => rfl⟩ ⟨rfl, fun _ => rfl⟩ rfl rfl ?_ depth
    exact List.forall₂_map_left_iff.2 (hreads.imp fun _ _ hread => hread (depth + 1))
  · simp only [List.length_cons, List.length_append] at hfuel
    obtain ⟨fuel, rfl⟩ := Nat.exists_eq_add_of_le' (show 1 ≤ fuel by omega)
    cases hparses with
    | nil => rfl
    | cons hts htss =>
      rw [List.cons_append, List.append_assoc]
      exact value_openObject (fields_intercalate (.cons hts htss) nofun (by omega) us)

end Doc

end Json

end Breakthrough
