import Breakthrough.Proofs.MoveText
import Breakthrough.Proofs.Rules
import Breakthrough.Session

/-!
# The referee's list of moves

The list that the referee sends is compared with the generated moves after both have been sorted by the numbers
of the moves. No two moves have the same number (`Move.code_injective`), so sorting leaves nothing to chance and
the sorted lists are equal exactly when one list is a reordering of the other (`Session.byCode_eq_iff`). A warning
is therefore logged for every other list, one with a repetition included (`Session.run_checkList_warns_iff`).
-/

namespace Breakthrough

theorem Move.code_injective : Function.Injective Move.code := by
  intro m n heq
  have hsource : m.source.index.val = n.source.index.val := by rw [← m.code_and_mask, heq, n.code_and_mask]
  have htarget : m.target.index.val = n.target.index.val := by rw [← m.code_shiftRight, heq, n.code_shiftRight]
  exact Move.ext (Square.ext (Fin.ext hsource)) (Square.ext (Fin.ext htarget))

namespace Session

theorem byCode_perm (moves : List Move) : (byCode moves).Perm moves := List.mergeSort_perm moves _

theorem pairwise_byCode (moves : List Move) : (byCode moves).Pairwise fun m n => m.code ≤ n.code := by
  have hsorted : (byCode moves).Pairwise fun m n => decide (m.code ≤ n.code) = true := by
    apply List.pairwise_mergeSort
    · intro k m n hkm hmn
      rw [decide_eq_true_eq] at hkm hmn ⊢
      exact hkm.trans hmn
    · intro m n
      rw [Bool.or_eq_true, decide_eq_true_eq, decide_eq_true_eq]
      exact Nat.le_total _ _
  exact hsorted.imp of_decide_eq_true

/-- Sorting forgets the order and nothing else. -/
theorem byCode_eq_iff {moves listed : List Move} : byCode moves = byCode listed ↔ moves.Perm listed := by
  constructor
  · intro heq
    exact (byCode_perm moves).symm.trans (heq ▸ byCode_perm listed)
  · intro hperm
    have hsorted : (byCode moves).Perm (byCode listed) :=
      (byCode_perm moves).trans (hperm.trans (byCode_perm listed).symm)
    refine hsorted.eq_of_pairwise (fun m n _ _ hmn hnm => ?_) (pairwise_byCode moves) (pairwise_byCode listed)
    exact Move.code_injective (Nat.le_antisymm hmn hnm)

theorem checkList_of_perm {p : Position} {listed : List Move} (h : listed.Perm p.moves) : checkList p listed = [] :=
  if_pos (byCode_eq_iff.2 h.symm)

theorem exists_checkList_of_not_perm {p : Position} {listed : List Move} (h : ¬ listed.Perm p.moves) :
    ∃ text, checkList p listed = [.warn text] :=
  ⟨_, if_neg fun heq => h (byCode_eq_iff.1 heq).symm⟩

/-- **The referee's list.** On every position that calls can lead to, a warning is logged exactly when the list
that was sent is not a reordering of the generated moves, and otherwise nothing is. Such a reordering names every
move that the rules allow once and no other. -/
theorem run_checkList_warns_iff {b : Position} (hb : Position.Origin b) (calls : List Position.Call)
    (listed : List Move) :
    let p := b.run calls
    ((∃ text, LogLine.warn text ∈ checkList p listed) ↔ ¬ listed.Perm p.moves) ∧
    (listed.Perm p.moves → checkList p listed = []) ∧
    (listed.Perm p.moves ↔ listed.Nodup ∧ ∀ m, m ∈ listed ↔ Mailbox.Step p.board p.side m) := by
  intro p
  have hp : p.Consistent := hb.consistent_run calls
  refine ⟨⟨?_, fun h => ?_⟩, checkList_of_perm, ⟨fun h => ?_, fun ⟨hnodup, hmem⟩ => ?_⟩⟩
  · rintro ⟨text, htext⟩ hperm
    rw [checkList_of_perm hperm] at htext
    cases htext
  · obtain ⟨text, htext⟩ := exists_checkList_of_not_perm h
    exact ⟨text, htext ▸ List.mem_singleton_self _⟩
  · exact ⟨h.nodup_iff.2 hp.nodup_moves, fun m => h.mem_iff.trans (hp.mem_moves m)⟩
  · rw [List.perm_ext_iff_of_nodup hnodup hp.nodup_moves]
    exact fun m => (hmem m).trans (hp.mem_moves m).symm

/-- At the start of a game the moves in the opposite order are fine; with the second move replaced by a copy of
the first, the list is as long as before and warned about. -/
theorem run_checkList_warns_iff_repetition :
    let p := Position.start.run []
    let repeated := p.moves.take 1 ++ p.moves.take 1 ++ p.moves.drop 2
    checkList p p.moves.reverse = [] ∧
    repeated.length = p.moves.length ∧ ∃ text, LogLine.warn text ∈ checkList p repeated := by
  intro p repeated
  have hstart : Position.Origin .start := .start .shared
  have hfacts : repeated.length = p.moves.length ∧ ¬ repeated.Perm p.moves := by decide +kernel
  exact ⟨(run_checkList_warns_iff hstart [] _).2.1 (List.reverse_perm _), hfacts.1,
    (run_checkList_warns_iff hstart [] _).1.2 hfacts.2⟩

end Session

end Breakthrough
