import Breakthrough.Proofs.Bitboard

/-!
# Taking the squares off a set

A set is gone through by taking its lowest square off until there is none. `Drains` is this loop with no bound on
its steps, so a set for which it did not end would have no list at all. Each step takes one square from the count
and leaves the others, which is why the loop ends (`drains_squares`); that it lists the squares from the lowest to
the highest, each once, is `draining_lists_squares`.
-/

namespace Breakthrough

namespace Bitboard

variable {b : Bitboard} {t : Square} {squares : List Square}

/-! ## The two ends of a set -/

theorem lowest?_eq_none_iff (b : Bitboard) : b.lowest? = none ↔ b = empty := by
  rw [eq_empty_iff, lowest?]
  cases b.isEmpty <;> simp

theorem highest?_eq_none_iff (b : Bitboard) : b.highest? = none ↔ b = empty := by
  rw [eq_empty_iff, highest?]
  cases b.isEmpty <;> simp

theorem lowest?_of_isLowest (ht : b.IsLowest t) : b.lowest? = some t := by
  simp [lowest?, isEmpty_eq_false_of_contains ht.1, bitIndex_lowestBit ht]

/-- `t` is the square of the set with the largest index. -/
def IsHighest (b : Bitboard) (t : Square) : Prop :=
  b.contains t = true ∧ ∀ s, b.contains s = true → s.index ≤ t.index

theorem contains_eq_testBit (b : Bitboard) (s : Square) :
    b.contains s = b.bits.toNat.testBit s.index.val :=
  b.contains_eq_getLsbD s

/-- The highest square of a set is the place of the leading bit of its word. -/
theorem index_of_highest? (h : b.highest? = some t) :
    b.bits.toNat ≠ 0 ∧ t.index.val = b.bits.toNat.log2 := by
  rw [highest?] at h
  split at h
  · cases h
  · rename_i hne
    have hzero : b.bits.toNat ≠ 0 := by
      intro h0
      have hbits : b.bits = 0 := UInt64.toNat_inj.1 h0
      exact hne (by simp [isEmpty, hbits])
    have hlt : b.bits.log2.toNat < 64 := (Nat.log2_lt hzero).2 b.bits.toNat_lt
    cases h
    exact ⟨hzero, Nat.mod_eq_of_lt hlt⟩

theorem isHighest_of_highest? (h : b.highest? = some t) : b.IsHighest t := by
  obtain ⟨hzero, hindex⟩ := index_of_highest? h
  constructor
  · rw [contains_eq_testBit, hindex]
    exact Nat.testBit_log2 hzero
  · intro s hs
    rw [contains_eq_testBit] at hs
    rw [Fin.le_def, hindex, Nat.le_log2 hzero]
    exact Nat.ge_two_pow_of_testBit hs

/-- The listing ends with the highest square. -/
theorem getLast?_squares (b : Bitboard) : b.squares.getLast? = b.highest? := by
  cases h : b.highest? with
  | none =>
    rw [(highest?_eq_none_iff b).1 h]
    rfl
  | some t =>
    obtain ⟨hmem, hmax⟩ := isHighest_of_highest? h
    rw [← mem_squares] at hmem
    obtain hnil | ⟨front, u, hsquares⟩ := List.eq_nil_or_concat b.squares
    · rw [hnil] at hmem
      cases hmem
    · rw [List.concat_eq_append] at hsquares
      -- the last square is not above `t`, and `t` is not before it, where everything is below it
      have hle : u.index ≤ t.index := hmax u ((b.mem_squares u).1 (by simp [hsquares]))
      have hsorted := b.pairwise_squares
      rw [hsquares] at hsorted hmem ⊢
      obtain hfront | hlast := List.mem_append.1 hmem
      · have hlt := (List.pairwise_append.1 hsorted).2.2 t hfront u (List.mem_singleton_self u)
        exact absurd hle (not_le_of_gt hlt)
      · rw [List.mem_singleton.1 hlast]
        exact List.getLast?_concat

/-! ## Counting bits -/

/-- The squares among the first `n` are counted as the bits below `n`. -/
theorem countP_take_all (b : Bitboard) {n : Nat} (hn : n ≤ 64) :
    (Square.all.take n).countP b.contains = b.bits.toBitVec.cpopNatRec n 0 := by
  induction n with
  | zero => rfl
  | succ n ih =>
    have hsquare : Square.all[n]? = some ⟨⟨n, hn⟩⟩ := by
      rw [Square.all, List.getElem?_map, List.getElem?_eq_getElem (by rw [List.length_finRange]; exact hn)]
      simp
    rw [List.take_add_one, hsquare, List.countP_append, ih (Nat.le_of_lt hn), Option.toList_some,
      List.countP_singleton, contains_eq_getLsbD, BitVec.cpopNatRec_succ, BitVec.cpopNatRec_add]
    cases b.bits.toBitVec.getLsbD n <;> simp

/-- The number of squares is the population count of the word. -/
theorem count_eq_cpop (b : Bitboard) : b.count = b.bits.toBitVec.cpop.toNat := by
  rw [BitVec.toNat_cpop, ← countP_take_all b (Nat.le_refl 64), count, List.take_of_length_le (by simp [Square.all])]

/-! ## One square off -/

/-- Clearing the lowest bit takes the lowest square out and nothing else. -/
theorem dropLowest_of_isLowest (ht : b.IsLowest t) : b.dropLowest = b.toggle t := by
  apply ext_contains
  intro s
  rw [contains_dropLowest ht, contains_toggle]
  by_cases hs : s = t
  · simp [hs, ht.1]
  · simp [hs, Ne.symm hs]

theorem takeLowest_of_isLowest (ht : b.IsLowest t) : b.takeLowest = (some t, b.toggle t) := by
  rw [takeLowest, lowest?_of_isLowest ht, dropLowest_of_isLowest ht]

theorem fst_takeLowest (b : Bitboard) : b.takeLowest.1 = b.lowest? := by
  rw [takeLowest]
  cases b.lowest? with
  | none => rfl
  | some s => rfl

/-- The squares of a set are its lowest one and those of what is left without it. -/
theorem squares_of_isLowest (ht : b.IsLowest t) : b.squares = t :: (b.toggle t).squares := by
  rw [← dropLowest_of_isLowest ht]
  apply squares_eq_of_pairwise
  · refine List.pairwise_cons.2 ⟨fun s hs => ?_, pairwise_squares _⟩
    exact index_lt_of_contains_dropLowest ht ((mem_squares _ s).1 hs)
  · intro s
    rw [List.mem_cons, mem_squares, contains_dropLowest ht]
    by_cases hs : s = t
    · simp [hs, ht.1]
    · simp [hs]

/-! ## All squares off -/

/-- Squares that come off a set one after the other, in this order, until none is left. -/
inductive Drains : Bitboard → List Square → Prop
  | done {b rest : Bitboard} (h : b.takeLowest = (none, rest)) : Drains b []
  | more {b rest : Bitboard} {s : Square} {squares : List Square} (h : b.takeLowest = (some s, rest))
      (hrest : Drains rest squares) : Drains b (s :: squares)

/-- A set comes off in one way only. -/
theorem Drains.unique {squares' : List Square} (h : Drains b squares) (h' : Drains b squares') :
    squares = squares' := by
  induction h generalizing squares' with
  | done h =>
    cases h' with
    | done _ => rfl
    | more h' _ => rw [h] at h'; cases h'
  | more h _ ih =>
    cases h' with
    | done h' => rw [h] at h'; cases h'
    | more h' hrest' =>
      rw [h] at h'
      cases h'
      rw [ih hrest']

/-- Every set comes off to the end. The induction is on the number of squares, of which a step takes one. -/
theorem drains_squares (b : Bitboard) : Drains b b.squares := by
  induction hn : b.count using Nat.strongRecOn generalizing b with
  | ind n ih =>
    cases hempty : b.isEmpty with
    | true =>
      rw [(eq_empty_iff b).2 hempty]
      exact .done rfl
    | false =>
      obtain ⟨t, ht⟩ := exists_isLowest hempty
      have hcount := count_toggle_of_contains ht.1
      rw [squares_of_isLowest ht]
      exact .more (takeLowest_of_isLowest ht) (ih _ (by omega) _ rfl)

theorem drains_iff (b : Bitboard) (squares : List Square) : Drains b squares ↔ squares = b.squares := by
  refine ⟨fun h => h.unique (drains_squares b), fun h => ?_⟩
  rw [h]
  exact drains_squares b

/-- **Taking squares off.** For every word, taking the lowest square off again and again comes to an end, and what
came off is the listing of the set: in strictly ascending order exactly the squares that it contains, each once, as
many as its word has bits. The first is the lowest square and the last the highest; there is none to take, no lowest
and no highest square exactly if the set is empty. -/
theorem draining_lists_squares (b : Bitboard) :
    (∀ squares, Drains b squares ↔ squares = b.squares) ∧
    b.squares.Pairwise (fun s t => s.index < t.index) ∧
    (∀ s, s ∈ b.squares ↔ b.contains s = true) ∧ b.squares.Nodup ∧
    b.squares.length = b.count ∧ b.count = b.bits.toBitVec.cpop.toNat ∧
    b.squares.head? = b.lowest? ∧ b.squares.getLast? = b.highest? ∧
    (b.takeLowest.1 = none ↔ b = empty) ∧ (b.lowest? = none ↔ b = empty) ∧
    (b.highest? = none ↔ b = empty) := by
  refine ⟨b.drains_iff, b.pairwise_squares, b.mem_squares, b.nodup_squares, b.length_squares, b.count_eq_cpop,
    b.head?_squares, b.getLast?_squares, ?_, b.lowest?_eq_none_iff, b.highest?_eq_none_iff⟩
  rw [fst_takeLowest]
  exact b.lowest?_eq_none_iff

end Bitboard

end Breakthrough
