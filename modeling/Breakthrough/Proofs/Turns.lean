import Breakthrough.Proofs.Input

/-!
# Turns as the referee writes them

A turn is written in rows: the opponent's move or `None`, the number of our moves, and these moves
(`Turn.rows`). The reader goes by what its input says, text for text (`TurnReader.read_of_said_cons`),
so the turns of a text come back one after the other whatever its layout, and a turn that is cut
short comes back as a failure (`answers_of_layout`). The only failure that ends the run at once is a
count of moves that there is no room for (`readTurn_isFatal_iff`).
-/

namespace Breakthrough

/-! ## Counts -/

/-- Decimal digits, with a plus sign if need be, and their value. -/
def IsNumeral (text : String) (n : Nat) : Prop :=
  ∃ digits, (text.toList = digits ∨ text.toList = '+' :: digits) ∧ digits ≠ [] ∧
    (∀ c ∈ digits, c.isDigit = true) ∧ Nat.ofDigitChars 10 digits 0 = n

def countStep (n : Nat) (c : Char) : Except NumberProblem Nat :=
  if !c.isDigit then .error .invalidDigit
  else
    let n := 10 * n + (c.toNat - '0'.toNat)
    if n < UInt64.size then .ok n else .error .tooLarge

theorem le_ofDigitChars (digits : List Char) (n : Nat) : n ≤ Nat.ofDigitChars 10 digits n := by
  rw [Nat.ofDigitChars_eq_ofDigitChars_zero]
  have hpow : 0 < 10 ^ digits.length := Nat.pow_pos (by decide)
  exact Nat.le_add_right_of_le (Nat.le_mul_of_pos_left n hpow)

theorem countStep_eq_ok_iff {n m : Nat} {c : Char} :
    countStep n c = .ok m ↔
      c.isDigit = true ∧ 10 * n + (c.toNat - '0'.toNat) = m ∧ m < UInt64.size := by
  constructor
  · intro h
    simp only [countStep] at h
    split at h
    · cases h
    · split at h
      · cases h
        exact ⟨by simp_all, rfl, by assumption⟩
      · cases h
  · rintro ⟨hc, rfl, hfits⟩
    simp only [countStep, hc, Bool.not_true, Bool.false_eq_true, if_false, if_pos hfits]

/-- Digit after digit is taken as long as the value fits. -/
theorem foldlM_countStep {digits : List Char} {n m : Nat} (hn : n < UInt64.size) :
    digits.foldlM countStep n = .ok m ↔
      (∀ c ∈ digits, c.isDigit = true) ∧ Nat.ofDigitChars 10 digits n = m ∧ m < UInt64.size := by
  induction digits generalizing n with
  | nil =>
    rw [List.foldlM_nil, Nat.ofDigitChars_nil]
    constructor
    · intro h
      cases h
      exact ⟨List.forall_mem_nil _, rfl, hn⟩
    · rintro ⟨-, rfl, -⟩
      rfl
  | cons c digits ih =>
    rw [List.foldlM_cons, List.forall_mem_cons, Nat.ofDigitChars_cons]
    constructor
    · intro h
      cases hstep : countStep n c with
      | error e => rw [hstep] at h; cases h
      | ok k =>
        rw [hstep] at h
        obtain ⟨hc, rfl, hfits⟩ := countStep_eq_ok_iff.1 hstep
        obtain ⟨hdigits, hvalue⟩ := (ih hfits).1 h
        exact ⟨⟨hc, hdigits⟩, hvalue⟩
    · rintro ⟨⟨hc, hdigits⟩, hvalue, hm⟩
      -- A digit more never makes the value smaller, so it has fitted all along.
      have hle := le_ofDigitChars digits (10 * n + (c.toNat - '0'.toNat))
      have hfits : 10 * n + (c.toNat - '0'.toNat) < UInt64.size := by omega
      rw [countStep_eq_ok_iff.2 ⟨hc, rfl, hfits⟩]
      exact (ih hfits).2 ⟨hdigits, hvalue, hm⟩

theorem parseCount_eq_ok_iff {text : String} {n : Nat} :
    parseCount text = .ok n ↔ IsNumeral text n ∧ n < UInt64.size := by
  have hcount : ∀ digits : List Char,
      (if digits.isEmpty then .error .invalidDigit else digits.foldlM countStep 0) = .ok n ↔
        (digits ≠ [] ∧ (∀ c ∈ digits, c.isDigit = true) ∧ Nat.ofDigitChars 10 digits 0 = n) ∧
          n < UInt64.size := by
    intro digits
    by_cases hdigits : digits = []
    · simp [hdigits]
    · rw [if_neg (by simpa using hdigits), foldlM_countStep (by decide)]
      simp [hdigits, and_assoc]
  unfold parseCount IsNumeral
  split
  · rename_i rest htext
    rw [htext]
    refine (hcount rest).trans (and_congr_left fun _ => ⟨fun h => ⟨rest, .inr rfl, h⟩, ?_⟩)
    rintro ⟨digits, rfl | hrest, h⟩
    · cases h.2.1 '+' List.mem_cons_self
    · cases hrest
      exact h
  · rename_i hplus
    refine (hcount text.toList).trans (and_congr_left fun _ => ⟨fun h => ⟨_, .inl rfl, h⟩, ?_⟩)
    rintro ⟨digits, rfl | htext, h⟩
    · exact h
    · exact absurd htext (hplus digits)

theorem isNumeral_toString (n : Nat) : IsNumeral (toString n) n := by
  refine ⟨Nat.toDigits 10 n, .inl ?_, Nat.toDigits_ne_nil, fun c hc => ?_, Nat.ofDigitChars_ten_toDigits⟩
  · rw [Nat.toString_eq_repr, Nat.toList_repr]
  · exact Nat.isDigit_of_mem_toDigits (by decide) (by decide) hc

/-! ## Reading what is said -/

variable {memory : Memory}

theorem Memory.holds_iff {n : Nat} :
    memory.holds n = true ↔ n = 0 ∨ n < countBound ∧ memory.grants n = true := by
  simp [holds]

theorem Memory.lt_size_of_holds {n : Nat} (h : memory.holds n = true) : n < UInt64.size := by
  rcases holds_iff.1 h with rfl | ⟨hlt, -⟩
  · decide
  · exact Nat.lt_of_lt_of_le hlt (by decide)

theorem Memory.holds_of_countBound_le {n : Nat} (h : countBound ≤ n) : memory.holds n = false := by
  have hpos : 0 < countBound := by decide
  rw [Bool.eq_false_iff, ne_eq, holds_iff]
  omega

/-- Whatever there is no room for ends the run. -/
theorem Memory.reserve_of_not_holds {n : Nat} (h : memory.holds n = false) :
    ∃ e, memory.reserve n = .error e ∧ e.isFatal = true := by
  rw [reserve, h]
  by_cases hlt : n < countBound
  · exact ⟨.outOfMemory, by simp [hlt], rfl⟩
  · exact ⟨.countTooLarge, by simp [hlt], rfl⟩

namespace TurnReader

def hear (memory : Memory) (r : TurnReader) : Option String → Except Failure (TurnReader ⊕ Turn)
  | none => .error .inputUnreadable
  | some text => r.feed memory text

/-- Goes on with the lines that are left. -/
def follow (memory : Memory) (left : List Line) :
    Except Failure (TurnReader ⊕ Turn) → Except Failure (Option Turn) × List Line
  | .error e => (.error e, left)
  | .ok (.inl r) => r.read memory left
  | .ok (.inr turn) => (.ok (some turn), left)

theorem read_cons (r : TurnReader) (line : Line) (lines : List Line) :
    r.read memory (line :: lines) = follow memory lines (r.take memory line) := rfl

theorem take_of_blank {line : Line} (h : lineText? line = some "") (r : TurnReader) :
    r.take memory line = .ok (.inl r) := by
  rw [take, h]
  rfl

theorem take_eq_hear {line : Line} (h : lineText? line ≠ some "") (r : TurnReader) :
    r.take memory line = r.hear memory (lineText? line) := by
  unfold take
  cases htext : lineText? line with
  | none => rfl
  | some text =>
    rw [htext] at h
    have hne : text.isEmpty = false := by simpa [String.isEmpty_iff] using h
    simp only [hne]
    rfl

theorem read_of_said_nil {lines : List Line} (h : said lines = []) (r : TurnReader) :
    r.read memory lines = (r.finish, []) := by
  induction lines with
  | nil => rfl
  | cons line lines ih =>
    rw [said_cons, List.append_eq_nil_iff] at h
    have hblank : lineText? line = some "" := by simpa [said] using h.1
    rw [read_cons, take_of_blank hblank]
    exact ih h.2

/-- **The reader goes by what is said**: it skips blank lines and takes the next text. -/
theorem read_of_said_cons {lines : List Line} {text? : Option String} {rest : List (Option String)}
    (h : said lines = text? :: rest) :
    ∃ left, said left = rest ∧ ∀ (memory : Memory) (r : TurnReader),
      r.read memory lines = follow memory left (r.hear memory text?) := by
  induction lines with
  | nil => cases h
  | cons line lines ih =>
    rw [said_cons] at h
    by_cases hblank : lineText? line = some ""
    · have hnil : said [line] = [] := by simp [said, hblank]
      rw [hnil] at h
      obtain ⟨left, hleft, hread⟩ := ih h
      refine ⟨left, hleft, fun memory r => ?_⟩
      rw [read_cons, take_of_blank hblank]
      exact hread memory r
    · have hline : said [line] = [lineText? line] := by simp [said, hblank]
      rw [hline] at h
      cases h
      exact ⟨lines, rfl, fun memory r => by rw [read_cons, take_eq_hear hblank]⟩

/-! ### Texts that are understood -/

/-- The texts that open a turn. -/
inductive Opens : String → Option Move → Prop
  | none : Opens "None" none
  | move {text : String} {m : Move} : Move.ofText? text = some m → Opens text (some m)

theorem feed_start (memory : Memory) {text : String} {reply : Option Move} (h : Opens text reply) :
    start.feed memory text = .ok (.inl (.replied reply)) := by
  cases h with
  | none => rfl
  | move h =>
    have hne : text ≠ "None" := by
      rintro rfl
      have hnone : Move.ofText? "None" = none := rfl
      rw [hnone] at h
      cases h
    simp only [feed, if_neg hne, h]

theorem opens_of_feed_start (memory : Memory) {text : String} {s : TurnReader ⊕ Turn}
    (h : start.feed memory text = .ok s) :
    ∃ reply, Opens text reply ∧ s = .inl (.replied reply) := by
  simp only [feed] at h
  split at h
  · rename_i htext
    cases h
    exact ⟨none, htext ▸ .none, rfl⟩
  · split at h
    · rename_i m hm
      cases h
      exact ⟨some m, .move hm, rfl⟩
    · cases h

theorem feed_replied {text : String} {n : Nat} (h : IsNumeral text n) (hn : memory.holds n = true)
    (reply : Option Move) : (replied reply).feed memory text = .ok (settle reply n []) := by
  have hcount : parseCount text = .ok n := parseCount_eq_ok_iff.2 ⟨h, Memory.lt_size_of_holds hn⟩
  simp only [feed, hcount, Memory.reserve, if_pos hn]
  rfl

theorem feed_listing (memory : Memory) {text : String} {m : Move} (h : Move.ofText? text = some m) (reply : Option Move)
    (missing : Nat) (listed : List Move) :
    (listing reply missing listed).feed memory text = .ok (settle reply (missing - 1) (m :: listed)) := by
  simp only [feed, h]

/-- Listed moves are taken one by one, as many as are missing. -/
theorem follow_settle {actions : List String} {moves : List Move} {rest : List (Option String)}
    (hmoves : actions.map Move.ofText? = moves.map some) {lines : List Line}
    (h : said lines = actions.map some ++ rest) (reply : Option Move) {missing : Nat}
    (hmissing : moves.length ≤ missing) (listed : List Move) :
    ∃ left, said left = rest ∧
      follow memory lines (.ok (settle reply missing listed)) =
        follow memory left (.ok (settle reply (missing - moves.length) (moves.reverse ++ listed))) := by
  induction actions generalizing lines moves missing listed with
  | nil =>
    obtain rfl : moves = [] := List.map_eq_nil_iff.1 hmoves.symm
    exact ⟨lines, h, rfl⟩
  | cons action actions ih =>
    cases moves with
    | nil => cases hmoves
    | cons m moves =>
      rw [List.map_cons, List.map_cons, List.cons.injEq] at hmoves
      rw [List.length_cons] at hmissing
      obtain ⟨lines', hlines', hread⟩ := read_of_said_cons h
      have hfewer : moves.length ≤ missing - 1 := by omega
      obtain ⟨left, hleft, hfollow⟩ := ih hmoves.2 hlines' hfewer (m :: listed)
      refine ⟨left, hleft, ?_⟩
      have hsettle : settle reply missing listed = .inl (.listing reply missing listed) := by
        rw [settle, if_neg (by omega)]
      have hheard : (listing reply missing listed).hear memory (some action) =
          .ok (settle reply (missing - 1) (m :: listed)) := feed_listing memory hmoves.1 reply missing listed
      rw [hsettle, follow, hread, hheard, hfollow, List.length_cons, List.reverse_cons, List.append_assoc,
        List.singleton_append, Nat.sub_sub, Nat.add_comm 1]

/-- The reading of a turn up to its list. -/
theorem readTurn_of_said {lines : List Line} {first count : String} {rest : List (Option String)}
    {reply : Option Move} {n : Nat} (h : said lines = some first :: some count :: rest)
    (hfirst : Opens first reply) (hcount : IsNumeral count n) (hn : memory.holds n = true) :
    ∃ left, said left = rest ∧ readTurn memory lines = follow memory left (.ok (settle reply n [])) := by
  obtain ⟨lines', hlines', hread⟩ := read_of_said_cons h
  obtain ⟨left, hleft, hread'⟩ := read_of_said_cons hlines'
  refine ⟨left, hleft, ?_⟩
  rw [readTurn, hread, hear, feed_start memory hfirst, follow, hread', hear, feed_replied hcount hn]

/-- A list that ends too early is no turn. -/
theorem readTurn_cutShort {lines : List Line} {first count : String} {actions : List String}
    {moves : List Move} {reply : Option Move} {n : Nat}
    (h : said lines = some first :: some count :: actions.map some) (hfirst : Opens first reply)
    (hcount : IsNumeral count n) (hn : memory.holds n = true)
    (hmoves : actions.map Move.ofText? = moves.map some) (hlt : moves.length < n) :
    readTurn memory lines = (.error .listCutShort, []) := by
  obtain ⟨left, hleft, hread⟩ := readTurn_of_said h hfirst hcount hn
  rw [← List.append_nil (actions.map some)] at hleft
  obtain ⟨left', hleft', hfollow⟩ := follow_settle hmoves hleft reply (Nat.le_of_lt hlt) []
  rw [hread, hfollow, settle, if_neg (by omega), follow, read_of_said_nil hleft']
  rfl

end TurnReader

/-! ## Turns -/

def Turn.rows (t : Turn) : List String :=
  t.reply.elim "None" Move.text :: toString t.listed.length :: t.listed.map Move.text

theorem isBlank_of_isDigit {c : Char} (h : c.isDigit = true) : Text.isBlank c = false := by
  simp only [Char.isDigit, Bool.and_eq_true, decide_eq_true_eq, ge_iff_le, UInt32.le_iff_toNat_le] at h
  have hlow : 48 ≤ c.toNat := h.1
  have hhigh : c.toNat ≤ 57 := h.2
  rw [Bool.eq_false_iff]
  intro hblank
  simp only [Text.isBlank, Bool.or_eq_true, Bool.and_eq_true, decide_eq_true_eq, beq_iff_eq] at hblank
  omega

theorem isWord_toString (n : Nat) : IsWord (toString n) := by
  rw [Nat.toString_eq_ofList_toDigits]
  refine ⟨?_, ?_⟩ <;> rw [String.toList_ofList]
  · exact Nat.toDigits_ne_nil
  · intro c hc
    exact isBlank_of_isDigit (Nat.isDigit_of_mem_toDigits (b := 10) (by decide) (by decide) hc)

theorem isWord_text (m : Move) : IsWord m.text := by
  have hsquare : ∀ s : Square, s.chars.all (fun c => !Text.isBlank c) = true := by
    rintro ⟨i⟩
    revert i
    decide
  apply IsWord.of_all <;> rw [Move.text, String.toList_ofList]
  · exact List.cons_ne_nil _ _
  · rw [Move.chars, List.all_append, hsquare, hsquare, Bool.and_self]

theorem ofText?_text (m : Move) : Move.ofText? m.text = some m := by
  have hsolid := (isWord_text m).solid
  rw [Move.ofText?, Text.trimChars_eq_self hsolid, Move.text, String.toList_ofList, Move.ofChars?_chars]

namespace Turn

theorem isWord_rows (t : Turn) : ∀ row ∈ t.rows, IsWord row := by
  have hreply : IsWord (t.reply.elim "None" Move.text) := by
    cases t.reply with
    | none => exact .of_all (by decide) (by decide)
    | some m => exact isWord_text m
  rw [rows, List.forall_mem_cons, List.forall_mem_cons, List.forall_mem_map]
  exact ⟨hreply, isWord_toString _, fun m _ => isWord_text m⟩

theorem opens_reply (t : Turn) : TurnReader.Opens (t.reply.elim "None" Move.text) t.reply := by
  cases t.reply with
  | none => exact .none
  | some m => exact .move (ofText?_text m)

theorem map_ofText? (moves : List Move) : (moves.map Move.text).map Move.ofText? = moves.map some := by
  simp only [List.map_map, Function.comp_def, ofText?_text]

/-- A turn is read back from its rows, and no row more is taken. -/
theorem readTurn_rows (t : Turn) (hlist : memory.holds t.listed.length = true) {lines : List Line}
    {rest : List (Option String)} (h : said lines = t.rows.map some ++ rest) :
    ∃ left, said left = rest ∧ readTurn memory lines = (.ok (some t), left) := by
  have hsaid : said lines = some (t.reply.elim "None" Move.text) :: some (toString t.listed.length) ::
      ((t.listed.map Move.text).map some ++ rest) := h
  obtain ⟨lines', hlines', hread⟩ :=
    TurnReader.readTurn_of_said hsaid t.opens_reply (isNumeral_toString _) hlist
  obtain ⟨left, hleft, hfollow⟩ :=
    TurnReader.follow_settle (map_ofText? t.listed) hlines' t.reply (Nat.le_refl _) []
  refine ⟨left, hleft, ?_⟩
  rw [hread, hfollow, Nat.sub_self, List.append_nil, TurnReader.settle, if_pos rfl, List.reverse_reverse]
  rfl

/-- Some rows of a turn, but not all, are a failure. -/
theorem readTurn_take_rows (t : Turn) (hlist : memory.holds t.listed.length = true) {lines : List Line}
    {n : Nat} (hpos : 0 < n) (hlt : n < t.rows.length) (h : said lines = (t.rows.take n).map some) :
    ∃ e, (e = .countMissing ∨ e = .listCutShort) ∧ (readTurn memory lines).1 = .error e := by
  obtain ⟨n, rfl⟩ : ∃ k, n = k + 1 := ⟨n - 1, by omega⟩
  cases n with
  | zero =>
    obtain ⟨left, hleft, hread⟩ := TurnReader.read_of_said_cons h
    refine ⟨_, .inl rfl, ?_⟩
    rw [readTurn, hread, TurnReader.hear, TurnReader.feed_start memory t.opens_reply, TurnReader.follow,
      TurnReader.read_of_said_nil hleft]
    rfl
  | succ n =>
    rw [rows, List.take_succ_cons, List.take_succ_cons, ← List.map_take] at h
    rw [rows, List.length_cons, List.length_cons, List.length_map] at hlt
    refine ⟨_, .inr rfl, ?_⟩
    rw [TurnReader.readTurn_cutShort h t.opens_reply (isNumeral_toString _) hlist (map_ofText? _)]
    rw [List.length_take]
    omega

end Turn

def answers (memory : Memory) : Nat → List Line → List (Except Failure (Option Turn))
  | 0, _ => []
  | n + 1, lines => (readTurn memory lines).1 :: answers memory n (readTurn memory lines).2

theorem answers_of_said_nil {lines : List Line} (h : said lines = []) (n : Nat) :
    answers memory n lines = List.replicate n (.ok none) := by
  induction n generalizing lines with
  | zero => rfl
  | succ n ih =>
    have hread : readTurn memory lines = (.ok none, []) := TurnReader.read_of_said_nil h .start
    rw [answers, hread, ih rfl, List.replicate_succ]

/-- Turn after turn is read back from the rows. -/
theorem answers_of_rows {turns : List Turn} (hlists : ∀ t ∈ turns, memory.holds t.listed.length = true)
    {lines : List Line} {rest : List (Option String)}
    (h : said lines = (turns.flatMap Turn.rows).map some ++ rest) :
    ∃ left, said left = rest ∧
      ∀ n, answers memory (turns.length + n) lines = turns.map (fun t => .ok (some t)) ++ answers memory n left := by
  induction turns generalizing lines with
  | nil => exact ⟨lines, h, fun n => by rw [List.length_nil, Nat.zero_add]; rfl⟩
  | cons t turns ih =>
    rw [List.forall_mem_cons] at hlists
    rw [List.flatMap_cons, List.map_append, List.append_assoc] at h
    obtain ⟨lines', hlines', hread⟩ := t.readTurn_rows hlists.1 h
    obtain ⟨left, hleft, hanswers⟩ := ih hlists.2 hlines'
    refine ⟨left, hleft, fun n => ?_⟩
    rw [List.length_cons, Nat.add_right_comm, answers, hread, hanswers]
    rfl

theorem isWord_rows_flatMap (turns : List Turn) : ∀ row ∈ turns.flatMap Turn.rows, IsWord row := by
  intro row hrow
  obtain ⟨t, -, hrow⟩ := List.mem_flatMap.1 hrow
  exact t.isWord_rows row hrow

/-- The first rows of turns, up to some row of one of them. -/
theorem take_rows (before : List Turn) (t : Turn) (after : List Turn) {n : Nat}
    (hbefore : (before.flatMap Turn.rows).length < n)
    (hlt : n < (before.flatMap Turn.rows).length + t.rows.length) :
    ((before ++ t :: after).flatMap Turn.rows).take n =
      before.flatMap Turn.rows ++ t.rows.take (n - (before.flatMap Turn.rows).length) := by
  rw [List.flatMap_append, List.flatMap_cons, List.take_append, List.take_of_length_le (Nat.le_of_lt hbefore),
    List.take_append_of_le_length (by omega)]

/-- **Turns are read back from every layout.** Whatever white space stands around the rows of turns,
whatever blank lines between them, and with or without a last line feed, call after call answers with
the turns in order and then with the end of the input. If the text is cut after a line within a turn,
the turns before it are answered and then a failure. (There must be room for the lists.) -/
theorem answers_of_layout (memory : Memory) (turns : List Turn) (lines : List (List Char))
    (hlists : ∀ t ∈ turns, memory.holds t.listed.length = true)
    (hlines : Shows (turns.flatMap Turn.rows) lines) :
    (∀ (text : String) (n : Nat), IsTextOf text lines →
      answers memory (turns.length + n) (splitLines text.toUTF8.data.toList) =
        turns.map (fun t => .ok (some t)) ++ List.replicate n (.ok none)) ∧
    ∀ (before : List Turn) (t : Turn) (after : List Turn) (n : Nat) (text : String),
      turns = before ++ t :: after →
      (before.flatMap Turn.rows).length < shownCount (lines.take n) →
      shownCount (lines.take n) < (before.flatMap Turn.rows).length + t.rows.length →
      IsTextOf text (lines.take n) →
      ∃ e, (e = .countMissing ∨ e = .listCutShort) ∧
        answers memory (before.length + 1) (splitLines text.toUTF8.data.toList) =
          before.map (fun t => .ok (some t)) ++ [.error e] := by
  have hwords := isWord_rows_flatMap turns
  constructor
  · intro text n htext
    have hsaid := hlines.said_eq hwords htext
    rw [← List.append_nil (List.map some _)] at hsaid
    obtain ⟨left, hleft, hanswers⟩ := answers_of_rows hlists hsaid
    rw [hanswers, answers_of_said_nil hleft]
  · rintro before t after n text rfl hbefore hlt htext
    rw [List.forall_mem_append, List.forall_mem_cons] at hlists
    have hcut := hlines.take hwords n
    have hsaid := hcut.said_eq (fun row hrow => hwords row (List.mem_of_mem_take hrow)) htext
    rw [take_rows before t after hbefore hlt, List.map_append] at hsaid
    obtain ⟨left, hleft, hanswers⟩ := answers_of_rows hlists.1 hsaid
    obtain ⟨e, he, hread⟩ := t.readTurn_take_rows hlists.2.1 (by omega) (by omega) hleft
    exact ⟨e, he, by rw [hanswers, answers, hread, answers]⟩

/-- Lines with white space around their rows, and blank lines. -/
def spacedLines : List (List Char) :=
  [" ", "  None", "\t2 \r", "a2a3", "", " b2b3", "e7e6", "0"].map String.toList

theorem shows_spacedLines :
    Shows ([⟨none, [⟨⟨8⟩, ⟨16⟩⟩, ⟨⟨9⟩, ⟨17⟩⟩]⟩, ⟨some ⟨⟨52⟩, ⟨44⟩⟩, []⟩].flatMap Turn.rows) spacedLines := by
  refine .blank (by decide) ?_
  refine @Shows.row "None" _ _ [' ', ' '] [] (by decide) (by decide) ?_
  refine @Shows.row "2" _ _ ['\t'] [' ', '\r'] (by decide) (by decide) ?_
  refine @Shows.row "a2a3" _ _ [] [] (by decide) (by decide) ?_
  refine .blank (by decide) ?_
  refine @Shows.row "b2b3" _ _ [' '] [] (by decide) (by decide) ?_
  refine @Shows.row "e7e6" _ _ [] [] (by decide) (by decide) ?_
  exact @Shows.row "0" _ _ [] [] (by decide) (by decide) .nil

/-- Two turns in odd spacing without a last line feed, and the same cut after the opponent's move. -/
theorem answers_of_layout_spaced :
    answers .ample 3 (splitLines " \n  None\n\t2 \r\na2a3\n\n b2b3\ne7e6\n0".toUTF8.data.toList) =
      [.ok (some ⟨none, [⟨⟨8⟩, ⟨16⟩⟩, ⟨⟨9⟩, ⟨17⟩⟩]⟩), .ok (some ⟨some ⟨⟨52⟩, ⟨44⟩⟩, []⟩), .ok none] ∧
    ∃ e, (e = .countMissing ∨ e = .listCutShort) ∧
      answers .ample 2 (splitLines " \n  None\n\t2 \r\na2a3\n\n b2b3\ne7e6\n".toUTF8.data.toList) =
        [.ok (some ⟨none, [⟨⟨8⟩, ⟨16⟩⟩, ⟨⟨9⟩, ⟨17⟩⟩]⟩), .error e] := by
  obtain ⟨hwhole, hcut⟩ := answers_of_layout .ample _ spacedLines (by decide) shows_spacedLines
  constructor
  · exact hwhole _ 1 (.inr (by decide +kernel))
  · exact hcut [_] _ [] 7 _ rfl (by decide) (by decide) (.inl (by decide +kernel))

/-! ## Failures that end the run -/

namespace TurnReader

/-- The run ends at once over a count that there is no room for, and over no other text. -/
theorem hear_isFatal_iff {r : TurnReader} {text? : Option String} :
    (∃ e, r.hear memory text? = .error e ∧ e.isFatal = true) ↔
      ∃ reply text n, r = .replied reply ∧ text? = some text ∧ parseCount text = .ok n ∧
        memory.holds n = false := by
  constructor
  · rintro ⟨e, h, he⟩
    cases text? with
    | none => cases h; cases he
    | some text =>
      cases r with
      | start =>
        simp only [hear, feed] at h
        split at h
        · cases h
        · split at h
          · cases h
          · cases h; cases he
      | replied reply =>
        simp only [hear, feed] at h
        split at h
        · cases h; cases he
        · rename_i n hn
          refine ⟨reply, text, n, rfl, rfl, hn, Bool.eq_false_iff.2 fun hholds => ?_⟩
          rw [Memory.reserve, if_pos hholds] at h
          cases h
      | listing reply missing listed =>
        simp only [hear, feed] at h
        split at h
        · cases h
        · cases h; cases he
  · rintro ⟨reply, text, n, rfl, rfl, hn, hholds⟩
    obtain ⟨e, he, hfatal⟩ := Memory.reserve_of_not_holds hholds
    refine ⟨e, ?_, hfatal⟩
    simp only [hear, feed, hn, he]
    rfl

theorem exists_settle_of_hear_replied {reply : Option Move} {text? : Option String} {s : TurnReader ⊕ Turn}
    (h : (replied reply).hear memory text? = .ok s) : ∃ n, s = settle reply n [] := by
  cases text? with
  | none => cases h
  | some text =>
    simp only [hear, feed] at h
    split at h
    · cases h
    · rename_i n _
      cases hroom : memory.reserve n with
      | error e =>
        rw [hroom] at h
        cases h
      | ok _ =>
        rw [hroom] at h
        cases h
        exact ⟨n, rfl⟩

theorem exists_settle_of_hear_listing {reply : Option Move} {missing : Nat} {listed : List Move}
    {text? : Option String} {s : TurnReader ⊕ Turn} (h : (listing reply missing listed).hear memory text? = .ok s) :
    ∃ listed', s = settle reply (missing - 1) listed' := by
  cases text? with
  | none => cases h
  | some text =>
    simp only [hear, feed] at h
    split at h
    · cases h
      exact ⟨_, rfl⟩
    · cases h

/-- Once a turn lists its moves, no failure ends the run at once. -/
theorem isFatal_follow_settle {reply : Option Move} {missing : Nat} {listed : List Move}
    {lines : List Line} {e : Failure} (h : (follow memory lines (.ok (settle reply missing listed))).1 = .error e) :
    e.isFatal = false := by
  induction htexts : said lines generalizing lines missing listed with
  | nil =>
    by_cases hmissing : missing = 0
    · rw [settle, if_pos hmissing] at h
      cases h
    · rw [settle, if_neg hmissing, follow, read_of_said_nil htexts] at h
      cases h
      rfl
  | cons text? rest ih =>
    by_cases hmissing : missing = 0
    · rw [settle, if_pos hmissing] at h
      cases h
    · obtain ⟨left, hleft, hread⟩ := read_of_said_cons htexts
      rw [settle, if_neg hmissing, follow, hread] at h
      cases hheard : (listing reply missing listed).hear memory text? with
      | error e' =>
        rw [hheard] at h
        cases h
        rw [Bool.eq_false_iff]
        intro hfatal
        obtain ⟨_, _, _, hr, -⟩ := hear_isFatal_iff.1 ⟨e, hheard, hfatal⟩
        cases hr
      | ok s =>
        obtain ⟨listed', rfl⟩ := exists_settle_of_hear_listing hheard
        rw [hheard] at h
        exact ih h hleft

theorem exists_count_of_read_replied {reply : Option Move} {lines : List Line} {e : Failure}
    (h : ((replied reply).read memory lines).1 = .error e) (hfatal : e.isFatal = true) :
    ∃ count n rest, said lines = some count :: rest ∧ parseCount count = .ok n ∧ memory.holds n = false := by
  cases htexts : said lines with
  | nil =>
    rw [read_of_said_nil htexts] at h
    cases h
    cases hfatal
  | cons text? rest =>
    obtain ⟨left, -, hread⟩ := read_of_said_cons htexts
    rw [hread] at h
    cases hheard : (replied reply).hear memory text? with
    | error e' =>
      rw [hheard] at h
      cases h
      obtain ⟨_, count, n, -, rfl, hcount⟩ := hear_isFatal_iff.1 ⟨e, hheard, hfatal⟩
      exact ⟨count, n, rest, rfl, hcount⟩
    | ok s =>
      obtain ⟨n, rfl⟩ := exists_settle_of_hear_replied hheard
      rw [hheard] at h
      rw [isFatal_follow_settle h] at hfatal
      cases hfatal

theorem exists_count_of_readTurn {lines : List Line} {e : Failure}
    (h : (readTurn memory lines).1 = .error e) (hfatal : e.isFatal = true) :
    ∃ first reply count n rest, said lines = some first :: some count :: rest ∧ Opens first reply ∧
      parseCount count = .ok n ∧ memory.holds n = false := by
  cases htexts : said lines with
  | nil =>
    rw [readTurn, read_of_said_nil htexts] at h
    cases h
  | cons text? rest =>
    obtain ⟨left, hleft, hread⟩ := read_of_said_cons htexts
    rw [readTurn, hread] at h
    cases hheard : start.hear memory text? with
    | error e' =>
      rw [hheard] at h
      cases h
      obtain ⟨_, _, _, hr, -⟩ := hear_isFatal_iff.1 ⟨e, hheard, hfatal⟩
      cases hr
    | ok s =>
      cases text? with
      | none => cases hheard
      | some first =>
        obtain ⟨reply, hopens, rfl⟩ := opens_of_feed_start memory hheard
        rw [hheard, follow] at h
        obtain ⟨count, n, rest', htexts', hcount⟩ := exists_count_of_read_replied h hfatal
        exact ⟨first, reply, count, n, rest', by rw [← hleft, htexts'], hopens, hcount⟩

/-- A count that there is no room for ends the run. -/
theorem readTurn_tooLarge {lines : List Line} {first count : String} {rest : List (Option String)}
    {reply : Option Move} {n : Nat} (h : said lines = some first :: some count :: rest)
    (hfirst : Opens first reply) (hcount : parseCount count = .ok n) (hn : memory.holds n = false) :
    ∃ e, (readTurn memory lines).1 = .error e ∧ e.isFatal = true := by
  obtain ⟨lines', hlines', hread⟩ := read_of_said_cons h
  obtain ⟨left, -, hread'⟩ := read_of_said_cons hlines'
  obtain ⟨e, hheard, hfatal⟩ := hear_isFatal_iff.2 ⟨reply, count, n, rfl, rfl, hcount, hn⟩
  refine ⟨e, ?_, hfatal⟩
  rw [readTurn, hread, hear, feed_start memory hfirst, follow, hread', hheard, follow]

end TurnReader

theorem exists_moves {actions : List String} (h : ∀ action ∈ actions, ∃ m, Move.ofText? action = some m) :
    ∃ moves : List Move, actions.map Move.ofText? = moves.map some := by
  induction actions with
  | nil => exact ⟨[], rfl⟩
  | cons action actions ih =>
    rw [List.forall_mem_cons] at h
    obtain ⟨m, hm⟩ := h.1
    obtain ⟨moves, hmoves⟩ := ih h.2
    exact ⟨m :: moves, by rw [List.map_cons, hm, hmoves, List.map_cons]⟩

/-- **When a turn ends the run.** Reading a turn ends the run at once exactly if the turn opens well and
announces a count that fits 64 bits but that there is no room for; on every other input it answers with a
turn, the end of the input or a failure. No system has room for `countBound` moves or more. If fewer moves
follow than a count announces that there is room for, the failure says that the list is cut short. -/
theorem readTurn_isFatal_iff (memory : Memory) (input : List UInt8) :
    ((∃ e, (readTurn memory (splitLines input)).1 = .error e ∧ e.isFatal = true) ↔
      ∃ first reply count n rest, said (splitLines input) = some first :: some count :: rest ∧
        TurnReader.Opens first reply ∧ IsNumeral count n ∧ n < UInt64.size ∧ memory.holds n = false) ∧
    (∀ n, Memory.countBound ≤ n → memory.holds n = false) ∧
    ∀ (first count : String) (actions : List String) (reply : Option Move) (n : Nat),
      said (splitLines input) = some first :: some count :: actions.map some →
      TurnReader.Opens first reply → IsNumeral count n → memory.holds n = true →
      actions.length < n → (∀ action ∈ actions, ∃ m, Move.ofText? action = some m) →
      (readTurn memory (splitLines input)).1 = .error .listCutShort ∧
      Failure.message .listCutShort = "Input ended inside the legal action list" := by
  refine ⟨⟨?_, ?_⟩, fun n => Memory.holds_of_countBound_le, ?_⟩
  · rintro ⟨e, h, hfatal⟩
    obtain ⟨first, reply, count, n, rest, hsaid, hopens, hcount, hn⟩ :=
      TurnReader.exists_count_of_readTurn h hfatal
    obtain ⟨hnumeral, hfits⟩ := parseCount_eq_ok_iff.1 hcount
    exact ⟨first, reply, count, n, rest, hsaid, hopens, hnumeral, hfits, hn⟩
  · rintro ⟨first, reply, count, n, rest, hsaid, hopens, hnumeral, hfits, hn⟩
    exact TurnReader.readTurn_tooLarge hsaid hopens (parseCount_eq_ok_iff.2 ⟨hnumeral, hfits⟩) hn
  · intro first count actions reply n hsaid hopens hnumeral hn hlt hactions
    obtain ⟨moves, hmoves⟩ := exists_moves hactions
    have hlength : moves.length = actions.length := by simpa using (congrArg List.length hmoves).symm
    rw [TurnReader.readTurn_cutShort hsaid hopens hnumeral hn hmoves (by omega)]
    exact ⟨rfl, rfl⟩

/-- A system with room for a thousand moves: a longer list ends the run, at the largest count that can be
addressed and at the least that cannot; a list within the room is only cut short. -/
theorem readTurn_isFatal_iff_limits :
    let memory : Memory := ⟨fun n => n ≤ 1000⟩
    (∃ e, (readTurn memory (splitLines "e7e6\n4611686018427387903\n".toUTF8.data.toList)).1 = .error e ∧
      e.isFatal = true) ∧
    (∃ e, (readTurn memory (splitLines "e7e6\n+4611686018427387904\n".toUTF8.data.toList)).1 = .error e ∧
      e.isFatal = true) ∧
    (readTurn memory (splitLines " None\n1000\n\na2a3".toUTF8.data.toList)).1 = .error .listCutShort := by
  intro memory
  have hopens : TurnReader.Opens "e7e6" (some ⟨⟨52⟩, ⟨44⟩⟩) := .move rfl
  refine ⟨?_, ?_, ?_⟩
  · have hnumeral : IsNumeral "4611686018427387903" 4611686018427387903 :=
      ⟨_, .inl rfl, by decide, List.all_eq_true.1 (by decide), by decide⟩
    exact (readTurn_isFatal_iff memory _).1.2
      ⟨_, _, _, _, [], by decide +kernel, hopens, hnumeral, by decide, by decide⟩
  · have hnumeral : IsNumeral "+4611686018427387904" 4611686018427387904 :=
      ⟨"4611686018427387904".toList, .inr (by decide), by decide, List.all_eq_true.1 (by decide), by decide⟩
    exact (readTurn_isFatal_iff memory _).1.2
      ⟨_, _, _, _, [], by decide +kernel, hopens, hnumeral, by decide, by decide⟩
  · have hnumeral : IsNumeral "1000" 1000 := ⟨_, .inl rfl, by decide, List.all_eq_true.1 (by decide), by decide⟩
    exact ((readTurn_isFatal_iff memory _).2.2 "None" _ ["a2a3"] none _ (by decide +kernel) .none hnumeral
      (by decide) (by decide) (by simpa using ⟨⟨⟨8⟩, ⟨16⟩⟩, rfl⟩)).1

/-- A count of all ones ends the run on every system, though only one move follows. -/
theorem readTurn_overflow :
    Failure.isFatal .countTooLarge = true ∧ ∀ memory : Memory,
      (readTurn memory (splitLines "None\n18446744073709551615\na2a3\n".toUTF8.data.toList)).1 =
        .error .countTooLarge :=
  ⟨rfl, fun _ => rfl⟩

end Breakthrough
