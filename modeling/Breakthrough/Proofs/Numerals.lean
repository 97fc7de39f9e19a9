import Breakthrough.Decimal.Reading
import Breakthrough.Decimal.Shortest

/-!
# Numbers as they are written

The fewest digits that read back are never all zeros: no grid that `searchDigits` tries is coarser than the leading
power of ten, and from this power on a number is at least one unit (`Around.denominator_scaled_le`). So only zero is
written with a leading zero, and the text of a finite number is a `Spelling`: a sign, digits, and perhaps places and an
exponent. A reader that takes spellings takes all numbers that are written.
-/

namespace Breakthrough.Decimal

/-! ## The fewest digits -/

theorem tenTo_pos (n : Nat) : 0 < tenTo n := Nat.pow_pos (by decide)

theorem tenTo_le_tenTo {m n : Nat} (h : m ≤ n) : tenTo m ≤ tenTo n := Nat.pow_le_pow_right (by decide) h

theorem lt_tenTo_digitCount (n : Nat) : n < tenTo (digitCount n) :=
  (Nat.length_toDigits_le_iff (by decide) Nat.length_toDigits_pos).1 (Nat.le_refl _)

theorem tenTo_pred_digitCount_le {n : Nat} (hn : 0 < n) : tenTo (digitCount n - 1) ≤ n := by
  rcases Nat.eq_zero_or_pos (digitCount n - 1) with hzero | hpos
  · rw [hzero]
    exact hn
  · refine Nat.le_of_not_lt fun hlt => ?_
    have hle : digitCount n ≤ digitCount n - 1 := (Nat.length_toDigits_le_iff (by decide) hpos).2 hlt
    omega

theorem toDigits_head?_ne {n : Nat} (hn : n ≠ 0) : (Nat.toDigits 10 n).head? ≠ some '0' := by
  induction n using Nat.strongRecOn with
  | ind n ih =>
    rw [Nat.toDigits_eq_if (by decide)]
    split
    · rename_i hlt
      have hdigit : ∀ k : Fin 10, k.val ≠ 0 → [Nat.digitChar k].head? ≠ some '0' := by decide
      exact hdigit ⟨n, hlt⟩ hn
    · have hrest := ih (n / 10) (by omega) (by omega)
      obtain ⟨c, cs, hcs⟩ := List.exists_cons_of_ne_nil (Nat.toDigits_ne_nil (n := n / 10) (b := 10))
      rw [hcs] at hrest ⊢
      exact hrest

/-- A number from one on is at least its leading power of ten. -/
theorem exists_leadingPower_of_le {numerator denominator : Nat} (hden : 0 < denominator)
    (h : denominator ≤ numerator) :
    ∃ k : Nat, leadingPower numerator denominator = k ∧ denominator * tenTo k ≤ numerator := by
  have hcount : 0 < digitCount (numerator / denominator) := Nat.length_toDigits_pos
  refine ⟨digitCount (numerator / denominator) - 1, ?_, ?_⟩
  · rw [leadingPower, if_pos h]
    omega
  · rw [Nat.mul_comm]
    exact (Nat.le_div_iff_mul_le hden).1 (tenTo_pred_digitCount_le (Nat.div_pos h hden))

/-- So is a number below one, whose power is negative. -/
theorem exists_leadingPower_of_lt {numerator denominator : Nat} (hnum : 0 < numerator) (h : numerator < denominator) :
    ∃ k : Nat, 0 < k ∧ leadingPower numerator denominator = -(k : Int) ∧ denominator ≤ numerator * tenTo k := by
  have hcount : 0 < digitCount (denominator / numerator) := Nat.length_toDigits_pos
  rw [leadingPower, if_neg (Nat.not_le_of_lt h)]
  by_cases hexact : numerator * tenTo (digitCount (denominator / numerator) - 1) = denominator
  · refine ⟨digitCount (denominator / numerator) - 1, Nat.pos_of_ne_zero fun hzero => ?_, ?_, Nat.le_of_eq hexact.symm⟩
    · rw [hzero] at hexact
      exact absurd ((Nat.mul_one _).symm.trans hexact) (Nat.ne_of_lt h)
    · simp only [hexact, if_true]
      omega
  · refine ⟨digitCount (denominator / numerator), hcount, ?_, ?_⟩
    · simp only [hexact, if_false]
    · rw [Nat.mul_comm]
      exact Nat.le_of_lt ((Nat.div_lt_iff_lt_mul hnum).1 (lt_tenTo_digitCount _))

namespace Around

/-- The value is at least one unit of its leading power of ten, and of every smaller one. -/
theorem denominator_scaled_le {a : Around} (hvalue : 0 < a.value) (hden : 0 < a.denominator) {power : Int}
    (h : power ≤ leadingPower a.value a.denominator) : (a.scaled power).denominator ≤ (a.scaled power).value := by
  rcases Nat.lt_or_ge a.value a.denominator with hlt | hle
  · obtain ⟨k, hk, hleading, hbound⟩ := exists_leadingPower_of_lt hvalue hlt
    cases power with
    | ofNat n =>
      rw [hleading, Int.ofNat_eq_natCast] at h
      omega
    | negSucc n =>
      rw [hleading, Int.negSucc_eq] at h
      exact Nat.le_trans hbound (Nat.mul_le_mul_left _ (tenTo_le_tenTo (by omega)))
  · obtain ⟨k, hleading, hbound⟩ := exists_leadingPower_of_le hden hle
    cases power with
    | ofNat n =>
      rw [hleading, Int.ofNat_eq_natCast] at h
      exact Nat.le_trans (Nat.mul_le_mul_left _ (tenTo_le_tenTo (by omega))) hbound
    | negSucc n => exact Nat.le_trans hle (Nat.le_mul_of_pos_right _ (tenTo_pos _))

theorem denominator_scaled_pos {a : Around} (h : 0 < a.denominator) (power : Int) :
    0 < (a.scaled power).denominator := by
  cases power with
  | ofNat n => exact Nat.mul_pos h (tenTo_pos n)
  | negSucc n => exact h

theorem div_le_of_nearest? {a : Around} {n : Nat} (h : a.nearest? = some n) : a.value / a.denominator ≤ n := by
  unfold nearest? at h
  grind

theorem ofParts_pos {significand : Nat} (hs : significand ≠ 0) (exponent : Int) (narrow : Bool) :
    0 < (ofParts significand exponent narrow).value ∧ 0 < (ofParts significand exponent narrow).denominator := by
  have hfour : 0 < 4 * significand := by omega
  have htwo : ∀ n, 0 < twoTo n := fun n => Nat.pow_pos (by decide)
  unfold ofParts fractionOf
  cases exponent - 2 with
  | ofNat n => exact ⟨Nat.mul_pos hfour (Nat.mul_pos (by decide) (htwo n)), Nat.one_pos⟩
  | negSucc n => exact ⟨Nat.mul_pos hfour Nat.one_pos, htwo (n + 1)⟩

end Around

theorem digits_dropZeros_ne_zero {d : Digits} (hd : d.digits ≠ 0) (limit : Nat) : (dropZeros limit d).digits ≠ 0 := by
  induction limit generalizing d with
  | zero => exact hd
  | succ limit ih =>
    rw [dropZeros]
    split
    · rename_i h
      refine ih (d := ⟨d.digits / 10, d.exponent + 1⟩) ?_
      change d.digits / 10 ≠ 0
      omega
    · exact hd

/-- From the leading power of ten on, the digits are not all zeros. -/
theorem digits_searchDigits_ne_zero {a : Around} (hvalue : 0 < a.value) (hden : 0 < a.denominator) (tries : Nat)
    {count : Nat} (hcount : 0 < count) :
    (searchDigits a (leadingPower a.value a.denominator) tries count).digits ≠ 0 := by
  induction tries generalizing count with
  | zero =>
    have hle := Around.denominator_scaled_le hvalue hden
      (show leadingPower a.value a.denominator - count + 1 ≤ leadingPower a.value a.denominator by omega)
    exact Nat.ne_of_gt (Nat.div_pos hle (Around.denominator_scaled_pos hden _))
  | succ tries ih =>
    have hle := Around.denominator_scaled_le hvalue hden
      (show leadingPower a.value a.denominator - count + 1 ≤ leadingPower a.value a.denominator by omega)
    have hdiv := Nat.div_pos hle (Around.denominator_scaled_pos hden _)
    rw [searchDigits]
    split
    · rename_i n hn
      refine digits_dropZeros_ne_zero ?_ _
      exact Nat.ne_of_gt (Nat.lt_of_lt_of_le hdiv (Around.div_le_of_nearest? hn))
    · exact ih (Nat.succ_pos count)

theorem digits_shortest_ne_zero {significand : Nat} (hs : significand ≠ 0) (exponent : Int) (narrow : Bool) :
    (shortest significand exponent narrow).digits ≠ 0 := by
  obtain ⟨hvalue, hden⟩ := Around.ofParts_pos hs exponent narrow
  exact digits_searchDigits_ne_zero hvalue hden 17 (by decide)

/-! ## Spellings -/

/-- How a number is written, digit by digit. -/
structure Spelling where
  negative : Bool
  whole : List Char
  /-- The digits after the point, empty when there is no point. -/
  places : List Char
  /-- The exponent's sign and digits. -/
  exponent? : Option (Bool × List Char)

namespace Spelling

def digitValue (c : Char) : Nat := c.toNat - '0'.toNat

def point (s : Spelling) : List Char := if s.places = [] then [] else '.' :: s.places

def power (s : Spelling) : List Char := s.exponent?.elim [] fun e => 'e' :: (if e.1 then '-' else '+') :: e.2

def body (s : Spelling) : List Char := s.whole ++ (s.point ++ s.power)

def chars (s : Spelling) : List Char := (if s.negative then ['-'] else []) ++ s.body

def literal (s : Spelling) : Literal where
  negative := s.negative
  whole := s.whole.map digitValue
  places := s.places.map digitValue
  exponent? := s.exponent?.map fun e => (e.1, e.2.map digitValue)

/-- At least one digit and nothing else. -/
def IsDigits (ds : List Char) : Prop := ds ≠ [] ∧ ∀ c ∈ ds, c.isDigit = true

/-- There are digits where there must be some, and only zero begins with a zero. -/
structure Valid (s : Spelling) : Prop where
  whole : IsDigits s.whole
  lead : s.whole.head? ≠ some '0' ∨ s.whole.length = 1
  places : ∀ c ∈ s.places, c.isDigit = true
  power : ∀ e ∈ s.exponent?, IsDigits e.2

/-- A text is a number without a sign. -/
def Unsigned (text : List Char) : Prop := ∃ s : Spelling, s.Valid ∧ text = s.body

variable {digits whole places : List Char}

theorem isDigits_toDigits (n : Nat) : IsDigits (Nat.toDigits 10 n) :=
  ⟨Nat.toDigits_ne_nil, fun _ => Nat.isDigit_of_mem_toDigits (by decide) (by decide)⟩

def ofNat (n : Nat) : Spelling := ⟨false, Nat.toDigits 10 n, [], none⟩

theorem valid_ofNat (n : Nat) : (ofNat n).Valid := by
  refine ⟨isDigits_toDigits n, ?_, nofun, nofun⟩
  rcases Nat.eq_zero_or_pos n with rfl | hn
  · exact .inr rfl
  · exact .inl (toDigits_head?_ne (Nat.ne_of_gt hn))

theorem chars_ofNat (n : Nat) : (ofNat n).chars = (toString n).toList := by
  rw [Nat.toString_eq_ofList_toDigits, String.toList_ofList]
  exact List.append_nil _

theorem natural?_ofNat (n : Nat) : (ofNat n).literal.natural? = some n := by
  have hvalue : Literal.value ((Nat.toDigits 10 n).map digitValue) = n := by
    rw [Literal.value, List.foldl_map]
    exact Nat.ofDigitChars_eq_foldl.symm.trans Nat.ofDigitChars_ten_toDigits
  exact congrArg some hvalue

theorem isDigits_zero : IsDigits ['0'] := ⟨nofun, List.forall_mem_singleton.2 rfl⟩

theorem unsigned_point (hwhole : IsDigits whole) (hlead : whole.head? ≠ some '0' ∨ whole.length = 1)
    (hplaces : IsDigits places) : Unsigned (whole ++ '.' :: places) := by
  refine ⟨⟨false, whole, places, none⟩, ⟨hwhole, hlead, hplaces.2, nofun⟩, ?_⟩
  simp [body, point, power, hplaces.1]

theorem isDigit_of_mem_zeros {n : Nat} {c : Char} (hc : c ∈ List.replicate n '0') : c.isDigit = true := by
  rw [List.eq_of_mem_replicate hc]
  decide

/-- Without an exponent there are digits before and after the point. -/
theorem unsigned_plain (hdigits : IsDigits digits) (hlead : digits.head? ≠ some '0') (leading : Int) :
    Unsigned (Layout.plain digits leading).toList := by
  cases leading with
  | ofNat n =>
    let whole := digits.take (n + 1) ++ List.replicate (n + 1 - (digits.take (n + 1)).length) '0'
    let places := if (digits.drop (n + 1)).isEmpty then ['0'] else digits.drop (n + 1)
    have hwhole : IsDigits whole := by
      refine ⟨by simp [whole, hdigits.1], fun c hc => ?_⟩
      exact (List.mem_append.1 hc).elim (fun hc => hdigits.2 c (List.mem_of_mem_take hc)) isDigit_of_mem_zeros
    have hlead' : whole.head? ≠ some '0' := by
      obtain ⟨c, ds, rfl⟩ := List.exists_cons_of_ne_nil hdigits.1
      exact hlead
    have hplaces : IsDigits places := by
      by_cases hrest : digits.drop (n + 1) = []
      · simp [places, hrest, IsDigits]
      · simp only [places, List.isEmpty_iff, hrest, if_false]
        exact ⟨hrest, fun c hc => hdigits.2 c (List.mem_of_mem_drop hc)⟩
    have htext : (Layout.plain digits (.ofNat n)).toList = whole ++ '.' :: places := by
      simp only [Layout.plain, whole, places]
      split <;> simp
    rw [htext]
    exact unsigned_point hwhole (.inl hlead') hplaces
  | negSucc n =>
    have hplaces : IsDigits (List.replicate n '0' ++ digits) := by
      refine ⟨by simp [hdigits.1], fun c hc => ?_⟩
      exact (List.mem_append.1 hc).elim isDigit_of_mem_zeros (hdigits.2 c)
    have htext : (Layout.plain digits (.negSucc n)).toList = ['0'] ++ '.' :: (List.replicate n '0' ++ digits) := by
      simp [Layout.plain]
    rw [htext]
    exact unsigned_point isDigits_zero (.inr rfl) hplaces

/-- With an exponent there is one digit before the point. -/
theorem unsigned_scientific {layout : Layout} (hplus : layout.plusSign = "+") (hdigits : IsDigits digits)
    (leading : Int) : Unsigned (layout.scientific digits leading).toList := by
  obtain ⟨c, ds, rfl⟩ := List.exists_cons_of_ne_nil hdigits.1
  have hc : IsDigits [c] := ⟨nofun, by simpa using hdigits.2 c List.mem_cons_self⟩
  refine ⟨⟨false, [c], ds, some (!decide (0 ≤ leading), Nat.toDigits 10 leading.natAbs)⟩,
    ⟨hc, .inr rfl, fun d hd => hdigits.2 d (List.mem_cons_of_mem c hd), ?_⟩, ?_⟩
  · rintro e ⟨⟩
    exact isDigits_toDigits _
  · cases ds <;> by_cases hleading : 0 ≤ leading <;>
      simp [Layout.scientific, body, point, power, hplus, hleading]

/-- A finite number is written as a number. -/
theorem exists_render_eq {layout : Layout} (hplus : layout.plusSign = "+") (negative : Bool) (significand : Nat)
    (exponent : Int) (narrow : Bool) :
    ∃ s : Spelling, s.Valid ∧ (layout.render (.finite negative significand exponent narrow)).toList = s.chars := by
  have hsigned : ∀ {text : String}, Unsigned text.toList →
      ∃ s : Spelling, s.Valid ∧ ((if negative then "-" else "") ++ text).toList = s.chars := by
    rintro text ⟨s, hs, htext⟩
    refine ⟨{ s with negative }, ⟨hs.whole, hs.lead, hs.places, hs.power⟩, ?_⟩
    rw [String.toList_append, htext]
    cases negative <;> rfl
  rw [Layout.render]
  split
  · exact hsigned (unsigned_point isDigits_zero (.inr rfl) isDigits_zero)
  · rename_i hs
    have hdigits := isDigits_toDigits (shortest significand exponent narrow).digits
    refine hsigned ?_
    split
    · exact unsigned_plain hdigits (toDigits_head?_ne (digits_shortest_ne_zero hs exponent narrow)) _
    · exact unsigned_scientific hplus hdigits _

end Spelling

end Breakthrough.Decimal
