import Mathlib.Tactic.Linarith
import Mathlib.Tactic.Positivity
import Breakthrough.Proofs.Decisions
import Breakthrough.Proofs.Exact

/-!
# The leader of the greedy agent

The agent keeps the place of the best root while it samples. After each playout it compares that root with the
one it has just sampled, and with no other. `passes` is the sequence of playouts with the roots after each of
them. A pass keeps the leader the best of all roots (`Leads.pass`) with one exception: if the leader's own playout
is lost, its score falls, perhaps below the score of a root that nothing is compared with. The answer is a best
root whenever no such pass leaves the leader behind. One lost playout of the leader is enough for a worse answer.
-/

namespace Breakthrough

variable {α σ : Type} [RandomSource σ]

theorem chance_zero (g : σ) : ∃ g', chance 0.0 g = (.ok false, g') := by
  refine ⟨(RandomSource.drawWord g).2, ?_⟩
  have hnever : (0.0 * 18446744073709551616.0 : Float).toUInt64 = 0 := rfl
  have hbounds : ((0.0 : Float) == 1.0) = false ∧
      (decide ((0.0 : Float) ≤ 0.0) && decide ((0.0 : Float) < 1.0)) = true :=
    ⟨rfl, rfl⟩
  simp [chance, hnever, hbounds]

/-! ## Decided games -/

namespace Position

/-- Whether the game ends within `n` moves and the side wins it, whatever is played. -/
def isDecided (winner : Color) : Nat → Position → Bool
  | 0, p => p.isLost && p.side == winner.opponent
  | n + 1, p =>
    if p.isLost then p.side == winner.opponent
    else !p.moves.isEmpty && p.moves.all fun m => p.refusal? m == none && isDecided winner n (p.advance m)

variable {p : Position} {winner : Color} {n : Nat}

theorem playToEnd_of_isDecided (h : p.isDecided winner n = true) (g : σ) :
    (playToEnd p g).1 = .ok () ∧ (playToEnd p g).2.1.side = winner.opponent := by
  induction n generalizing p g with
  | zero =>
    rw [isDecided, Bool.and_eq_true, beq_iff_eq] at h
    rw [playToEnd, if_pos h.1]
    exact ⟨rfl, h.2⟩
  | succ n ih =>
    rw [isDecided] at h
    rw [playToEnd]
    split at h
    · rename_i hlost
      rw [if_pos hlost]
      exact ⟨rfl, beq_iff_eq.1 h⟩
    · rename_i hlost
      rw [if_neg hlost]
      rw [Bool.and_eq_true, Bool.not_eq_true', List.isEmpty_eq_false_iff, List.all_eq_true] at h
      obtain ⟨m, g', hm, hmem⟩ := chooseMove_of_ne_nil h.1 g
      have hnext := h.2 m hmem
      rw [Bool.and_eq_true, beq_iff_eq] at hnext
      simp only [hm]
      split
      · rename_i herr
        rw [hnext.1] at herr
        cases herr
      · exact ih hnext.2 g'

/-- Every playout of a decided game has the same winner. -/
theorem playout_of_isDecided {m : Move} (haccepts : p.refusal? m = none)
    (h : (p.advance m).isDecided winner n = true) (g : σ) : ∃ g', playout p m g = (.ok winner, p, g') := by
  obtain ⟨hok, hside⟩ := playToEnd_of_isDecided h g
  have hp := position_playout p m g
  refine ⟨(playout p m g).2.2, Prod.ext ?_ (Prod.ext hp rfl)⟩
  simp only [playout, haccepts, hok, hside, Color.opponent_opponent]
  rfl

theorem countWins_of_isDecided {m : Move} (haccepts : p.refusal? m = none)
    (h : (p.advance m).isDecided winner n = true) (k wins : Nat) (g : σ) :
    ∃ g', countWins m k wins p g = (.ok (if winner = p.side then wins + k else wins), p, g') := by
  induction k generalizing wins g with
  | zero => exact ⟨g, by rw [countWins, Nat.add_zero, ite_id]⟩
  | succ k ih =>
    obtain ⟨g₁, hfirst⟩ := playout_of_isDecided haccepts h g
    obtain ⟨g₂, hrest⟩ := ih (if winner = p.side then wins + 1 else wins) g₁
    refine ⟨g₂, ?_⟩
    simp only [countWins, hfirst, hrest]
    split
    · rw [Nat.add_assoc, Nat.add_comm 1 k]
    · rfl

end Position

open Position

namespace Greedy

/-! ## Passes -/

def Root.credited (wins : Nat) (r : Root α) : Root α := { r with wins := r.wins + wins, visits := r.visits + 1 }

theorem Root.toNat_visits_credited {r : Root α} (h : r.visits.toNat + 1 < UInt32.size) (wins : Nat) :
    (r.credited wins).visits.toNat = r.visits.toNat + 1 := by
  rw [credited, UInt32.toNat_add]
  exact Nat.mod_eq_of_lt h

structure Pass (α : Type) where
  /-- The leader before it. -/
  best : Nat
  /-- The place that was sampled. -/
  place : Nat
  /-- Whether the playout was won, as a number. -/
  wins : Nat
  /-- The roots after it. -/
  roots : Array (Root α)

def Pass.IsSetback (s : Pass α) : Prop := s.place = s.best ∧ s.wins = 0

variable [Score α]

def Pass.leader (s : Pass α) : Nat := better s.roots s.best s.place

/-- The passes of `refine`, oldest first. -/
def passes (epsilon : Float) :
    (iterations best : Nat) → Array (Root α) → Position → σ → List (Pass α)
  | 0, _, _, _, _ => []
  | n + 1, best, roots, p, g =>
    match pickRoot epsilon roots.size best g with
    | (.error _, _) => []
    | (.ok i, g) =>
      match roots[i]? with
      | none => []
      | some root =>
        match countWins root.move 1 0 p g with
        | (.error _, _, _) => []
        | (.ok wins, p, g) =>
          let roots := roots.modify i (.credited wins)
          ⟨best, i, wins, roots⟩ :: passes epsilon n (better roots best i) roots p g

/-- What one pass does: it fails, or it credits a root and goes on from there. -/
theorem refine_succ_cases (epsilon : Float) (n best : Nat) (roots : Array (Root α)) (p : Position) (g : σ) :
    (∃ err g', refine epsilon (n + 1) best roots p g = (.error err, roots, p, g') ∧
      passes epsilon (n + 1) best roots p g = []) ∨
    ∃ i root wins g₁ g₂, roots[i]? = some root ∧ countWins root.move 1 0 p g₁ = (.ok wins, p, g₂) ∧
      refine epsilon (n + 1) best roots p g = refine epsilon n
        (better (roots.modify i (.credited wins)) best i) (roots.modify i (.credited wins)) p g₂ ∧
      passes epsilon (n + 1) best roots p g = ⟨best, i, wins, roots.modify i (.credited wins)⟩ :: passes epsilon n
        (better (roots.modify i (.credited wins)) best i) (roots.modify i (.credited wins)) p g₂ := by
  cases hpick : pickRoot epsilon roots.size best g with
  | mk picked g₁ =>
    cases picked with
    | error err =>
      refine .inl ⟨err, g₁, ?_, ?_⟩
      · simp only [refine, hpick]
      · simp only [passes, hpick]
    | ok i =>
      cases hroot : roots[i]? with
      | none =>
        refine .inl ⟨.noMoves, g₁, ?_, ?_⟩
        · simp only [refine, hpick, hroot]
        · simp only [passes, hpick, hroot]
      | some root =>
        have hp := position_countWins root.move 1 0 p g₁
        rcases hwins : countWins root.move 1 0 p g₁ with ⟨result, q, g₂⟩
        obtain rfl : q = p := by rwa [hwins] at hp
        cases result with
        | error err =>
          refine .inl ⟨err, g₂, ?_, ?_⟩
          · simp only [refine, hpick, hroot, hwins]
          · simp only [passes, hpick, hroot, hwins]
        | ok wins =>
          refine .inr ⟨i, root, wins, g₁, g₂, hroot, hwins, ?_, ?_⟩
          · simp only [refine, hpick, hroot, hwins]
            rfl
          · simp only [passes, hpick, hroot, hwins]

/-- Sampling that succeeds has made all its passes, and what it returns is what the last of them left. -/
theorem refine_eq_last {epsilon : Float} {n best : Nat} {roots : Array (Root α)} {p : Position} {g : σ}
    {best' : Nat} {roots' : Array (Root α)} {q : Position} {g' : σ}
    (h : refine epsilon n best roots p g = (.ok best', roots', q, g')) :
    (passes epsilon n best roots p g).length = n ∧ candidates roots' = candidates roots ∧
      (n = 0 → best' = best ∧ roots' = roots) ∧
      ∀ s ∈ (passes epsilon n best roots p g).getLast?, s.leader = best' ∧ s.roots = roots' := by
  induction n generalizing best roots g with
  | zero =>
    cases h
    exact ⟨rfl, rfl, fun _ => ⟨rfl, rfl⟩, by simp [passes]⟩
  | succ n ih =>
    rcases refine_succ_cases epsilon n best roots p g with
      ⟨err, g₂, herr, _⟩ | ⟨i, root, wins, g₁, g₂, _, _, hrefine, hpasses⟩
    · rw [herr] at h
      cases h
    · obtain ⟨hlength, hcandidates, hzero, hlast⟩ := ih (hrefine ▸ h)
      rw [hpasses]
      refine ⟨by rw [List.length_cons, hlength], hcandidates.trans (candidates_modify _ _ fun _ => rfl), nofun, ?_⟩
      intro s hs
      rw [List.getLast?_cons, Option.mem_some_iff] at hs
      cases hrest : (passes epsilon n (better (roots.modify i (.credited wins)) best i)
          (roots.modify i (.credited wins)) p g₂).getLast? with
      | none =>
        rw [List.getLast?_eq_none_iff.1 hrest] at hlength
        obtain ⟨hbest, hroots⟩ := hzero hlength.symm
        rw [hrest, Option.getD_none] at hs
        subst hs
        exact ⟨hbest.symm, hroots.symm⟩
      | some t =>
        rw [hrest, Option.getD_some] at hs
        exact hlast s (hs ▸ hrest)

/-- The passes of an answer that is found by sampling. -/
def rounds (a : Greedy α σ) (p : Position) : List (Pass α) :=
  match warmUp a.config.warmup p.moves #[] p (pick? (captures p p.moves) a.source).2 with
  | (_, roots, p, g) => passes (a.config.chanceAt p.ply) a.config.iterations (leader roots) roots p g

/-- When the playouts of all candidates come out alike, so do the passes. -/
theorem wins_passes {p : Position} {wins : Nat} (epsilon : Float) (n best : Nat) {roots : Array (Root α)}
    (h : ∀ m ∈ candidates roots, ∀ g : σ, ∃ g', countWins m 1 0 p g = (.ok wins, p, g')) (g : σ) :
    ∀ s ∈ passes epsilon n best roots p g, s.wins = wins := by
  induction n generalizing best roots g with
  | zero => exact fun s hs => absurd hs List.not_mem_nil
  | succ n ih =>
    rcases refine_succ_cases epsilon n best roots p g with
      ⟨_, _, _, hnone⟩ | ⟨i, root, wins', g₁, g₂, hroot, hwins, _, hpasses⟩
    · rw [hnone]
      exact fun s hs => absurd hs List.not_mem_nil
    · have hmem : root.move ∈ candidates roots :=
        List.mem_map.2 ⟨root, Array.mem_toList_iff.2 (Array.mem_of_getElem? hroot), rfl⟩
      have hsame : candidates (roots.modify i (.credited wins')) = candidates roots :=
        candidates_modify roots i fun _ => rfl
      obtain ⟨_, halike⟩ := h _ hmem g₁
      rw [hwins] at halike
      cases halike
      rw [hpasses, List.forall_mem_cons]
      exact ⟨rfl, ih _ (hsame ▸ h) g₂⟩

theorem wins_rounds {p : Position} {wins : Nat} (a : Greedy α σ)
    (hplayable : ∀ m ∈ p.moves, p.Playable σ m)
    (h : ∀ m ∈ p.moves, ∀ g : σ, ∃ g', countWins m 1 0 p g = (.ok wins, p, g')) :
    ∀ s ∈ a.rounds p, s.wins = wins := by
  obtain ⟨roots, g, hwarm, hcandidates⟩ := warmUp_of_playable a.config.warmup p.moves hplayable
    (#[] : Array (Root α)) (pick? (captures p p.moves) a.source).2
  simp only [rounds, hwarm]
  apply wins_passes
  rw [hcandidates]
  exact h

/-- An answer by sampling comes from a warm-up and a refinement that both succeed. -/
theorem choose_sampling {a a' : Greedy α σ} {p q : Position} {m : Move}
    (h : a.choose p = (.ok (m, .sampling), a', q)) :
    ∃ roots p₁ g g₁ best, warmUp a.config.warmup p.moves #[] p g = (.ok (), roots, p₁, g₁) ∧
      refine (a.config.chanceAt p₁.ply) a.config.iterations (leader roots) roots p₁ g₁ =
        (.ok best, a'.roots, q, a'.source) ∧
      a.rounds p = passes (a.config.chanceAt p₁.ply) a.config.iterations (leader roots) roots p₁ g₁ ∧
      a'.roots[best]?.map Root.move = some m := by
  unfold choose at h
  split at h
  · cases h
  dsimp only at h
  split at h
  · cases h
  split at h
  · cases h
  rename_i g hpick
  unfold sample at h
  split at h
  · cases h
  rename_i roots p₁ g₁ hwarm
  dsimp only at h
  split at h
  · cases h
  rename_i best roots' q' g' hrefine
  have hrounds : a.rounds p = passes (a.config.chanceAt p₁.ply) a.config.iterations (leader roots) roots p₁ g₁ := by
    simp only [rounds, hpick, hwarm]
  rw [Prod.mk.injEq, Prod.mk.injEq] at h
  obtain ⟨hanswer, rfl, rfl⟩ := h
  refine ⟨roots, p₁, g, g₁, best, hwarm, hrefine, hrounds, ?_⟩
  cases hmove : roots'[best]?.map Root.move with
  | none =>
    rw [hmove] at hanswer
    cases hanswer
  | some move =>
    rw [hmove] at hanswer
    cases hanswer
    rfl

/-! ## Leading -/

/-- No root scores more than the one at this place. -/
def Leads (roots : Array (Root ℚ)) (best : Nat) : Prop :=
  ∃ r, roots[best]? = some r ∧ ∀ s ∈ roots, s.score ≤ r.score

theorem Root.score_eq (r : Root ℚ) : r.score = (r.prior + r.wins) / (r.visits.toNat + 1) := rfl

/-- The better of two places scores at least as much as either. -/
theorem better_spec {roots : Array (Root ℚ)} {best i : Nat} {a b : Root ℚ} (ha : roots[best]? = some a)
    (hb : roots[i]? = some b) :
    ∃ c, roots[better roots best i]? = some c ∧ a.score ≤ c.score ∧ b.score ≤ c.score := by
  unfold better
  simp only [ha, hb]
  split
  · rename_i hlt
    exact ⟨b, hb, (Exact.lt_iff.1 hlt).le, le_refl _⟩
  · rename_i hle
    exact ⟨a, ha, le_refl _, not_lt.1 (mt Exact.lt_iff.2 hle)⟩

theorem better_self (roots : Array (Root ℚ)) (best : Nat) : better roots best best = best := by
  unfold better
  split
  · exact ite_id _
  · rfl

theorem foldl_better_spec {roots : Array (Root ℚ)} (places : List Nat) (hplaces : ∀ i ∈ places, i < roots.size)
    {best : Nat} {a : Root ℚ} (ha : roots[best]? = some a) :
    ∃ c, roots[places.foldl (better roots) best]? = some c ∧ a.score ≤ c.score ∧
      ∀ i ∈ places, ∀ b, roots[i]? = some b → b.score ≤ c.score := by
  induction places generalizing best a with
  | nil => exact ⟨a, ha, le_refl _, fun i hi => absurd hi List.not_mem_nil⟩
  | cons i places ih =>
    rw [List.forall_mem_cons] at hplaces
    obtain ⟨c, hc, hac, hbc⟩ := better_spec ha (Array.getElem?_eq_getElem hplaces.1)
    obtain ⟨d, hd, hcd, hrest⟩ := ih hplaces.2 hc
    refine ⟨d, hd, hac.trans hcd, List.forall_mem_cons.2 ⟨?_, hrest⟩⟩
    intro b hb
    rw [Array.getElem?_eq_getElem hplaces.1, Option.some.injEq] at hb
    exact hb ▸ hbc.trans hcd

theorem leads_leader {roots : Array (Root ℚ)} (h : 0 < roots.size) : Leads roots (leader roots) := by
  obtain ⟨c, hc, _, hall⟩ := foldl_better_spec (List.range roots.size) (fun i hi => List.mem_range.1 hi)
    (Array.getElem?_eq_getElem h)
  refine ⟨c, hc, fun s hs => ?_⟩
  obtain ⟨i, hi⟩ := Array.mem_iff_getElem?.1 hs
  have hlt : i < roots.size := (Array.getElem?_eq_some_iff.1 hi).1
  exact hall i (List.mem_range.2 hlt) s hi

/-- Priors and rewards lie between 0 and 1, and the visit counters have room for `n` more playouts. -/
def Sane (n : Nat) (roots : Array (Root ℚ)) : Prop :=
  ∀ r ∈ roots, r.prior ≤ 1 ∧ r.wins ≤ r.visits.toNat ∧ r.visits.toNat + n < UInt32.size

theorem sane_modify {n : Nat} {roots : Array (Root ℚ)} (h : Sane (n + 1) roots) {wins : Nat} (hwins : wins ≤ 1)
    (i : Nat) : Sane n (roots.modify i (.credited wins)) := by
  intro r hr
  obtain ⟨j, hj⟩ := Array.mem_iff_getElem?.1 hr
  rw [Array.getElem?_modify] at hj
  split at hj
  · obtain ⟨s, hs, rfl⟩ := Option.map_eq_some_iff.1 hj
    obtain ⟨hprior, hle, hroom⟩ := h s (Array.mem_of_getElem? hs)
    rw [Root.toNat_visits_credited (by omega)]
    exact ⟨hprior, Nat.add_le_add hle hwins, by omega⟩
  · obtain ⟨hprior, hle, hroom⟩ := h r (Array.mem_of_getElem? hj)
    exact ⟨hprior, hle, by omega⟩

/-- A playout that is won does not lower the score. -/
theorem Root.score_le_credited_one {r : Root ℚ} (hprior : r.prior ≤ 1) (hwins : r.wins ≤ r.visits.toNat)
    (hroom : r.visits.toNat + 1 < UInt32.size) : r.score ≤ (r.credited 1).score := by
  have hle : (r.wins : ℚ) ≤ r.visits.toNat := by exact_mod_cast hwins
  have hpos : (0 : ℚ) ≤ r.visits.toNat := Nat.cast_nonneg _
  rw [score_eq, score_eq, toNat_visits_credited hroom]
  change _ ≤ (r.prior + ((r.wins + 1 : ℕ) : ℚ)) / _
  push_cast
  rw [div_le_div_iff₀ (by positivity) (by positivity)]
  nlinarith

/-- **A pass keeps the leader the best of all roots** unless its own playout is lost and leaves it behind. -/
theorem Leads.pass {roots : Array (Root ℚ)} {n best i wins : Nat} {root : Root ℚ} (h : Leads roots best)
    (hsane : Sane (n + 1) roots) (hroot : roots[i]? = some root) (hwins : wins ≤ 1)
    (hkept : i = best → wins = 0 → Leads (roots.modify i (.credited wins)) best) :
    Leads (roots.modify i (.credited wins)) (better (roots.modify i (.credited wins)) best i) := by
  obtain ⟨r, hr, hmax⟩ := h
  have hself : (roots.modify i (.credited wins))[i]? = some (root.credited wins) := by
    rw [Array.getElem?_modify, if_pos rfl, hroot, Option.map_some]
  have hother : ∀ {j s}, i ≠ j → (roots.modify i (.credited wins))[j]? = some s → roots[j]? = some s := by
    intro j s hne hs
    rwa [Array.getElem?_modify, if_neg hne] at hs
  by_cases hi : i = best
  · subst hi
    rw [better_self]
    obtain rfl | rfl : wins = 0 ∨ wins = 1 := by omega
    · exact hkept rfl rfl
    -- the leader's score grows, and no other changes
    · obtain rfl : root = r := Option.some.inj (hroot.symm.trans hr)
      obtain ⟨hprior, hle, hroom⟩ := hsane root (Array.mem_of_getElem? hroot)
      have hgrows := Root.score_le_credited_one hprior hle (by omega)
      refine ⟨_, hself, fun s hs => ?_⟩
      obtain ⟨j, hj⟩ := Array.mem_iff_getElem?.1 hs
      by_cases hij : i = j
      · subst hij
        exact (Option.some.inj (hj.symm.trans hself)) ▸ le_refl _
      · exact (hmax s (Array.mem_of_getElem? (hother hij hj))).trans hgrows
  -- only the sampled root changes, and the leader is compared with it
  · have hbest : (roots.modify i (.credited wins))[best]? = some r := by
      rw [Array.getElem?_modify, if_neg hi, hr]
    obtain ⟨c, hc, hrc, hic⟩ := better_spec hbest hself
    refine ⟨c, hc, fun s hs => ?_⟩
    obtain ⟨j, hj⟩ := Array.mem_iff_getElem?.1 hs
    by_cases hij : i = j
    · subst hij
      exact (Option.some.inj (hj.symm.trans hself)) ▸ hic
    · exact (hmax s (Array.mem_of_getElem? (hother hij hj))).trans hrc

/-- The leader is right after every pass if no setback leaves it behind. -/
theorem leads_passes (epsilon : Float) (n : Nat) {best : Nat} {roots : Array (Root ℚ)} (p : Position) (g : σ)
    (h : Leads roots best) (hsane : Sane n roots)
    (hkept : ∀ s ∈ passes epsilon n best roots p g, s.IsSetback → Leads s.roots s.best) :
    ∀ s ∈ passes epsilon n best roots p g, Leads s.roots s.leader := by
  induction n generalizing best roots g with
  | zero => exact fun s hs => absurd hs List.not_mem_nil
  | succ n ih =>
    rcases refine_succ_cases epsilon n best roots p g with
      ⟨_, _, _, hnone⟩ | ⟨i, root, wins, g₁, g₂, hroot, hwins, _, hpasses⟩
    · rw [hnone]
      exact fun s hs => absurd hs List.not_mem_nil
    · rw [hpasses, List.forall_mem_cons] at hkept ⊢
      have hone : wins ≤ 1 := Nat.zero_add 1 ▸ countWins_le hwins
      have hnext := h.pass hsane hroot hone fun hi hzero => hkept.1 ⟨hi, hzero⟩
      exact ⟨hnext, ih g₂ hnext (sane_modify hsane hone i) hkept.2⟩

/-- The leader stays right from any pass after which it is, until a setback leaves it behind. -/
theorem leads_passes_append (epsilon : Float) (n : Nat) {best : Nat} {roots : Array (Root ℚ)} (p : Position) (g : σ)
    (hsane : Sane n roots) {earlier later : List (Pass ℚ)} (h : earlier = [] → Leads roots best)
    (hsplit : passes epsilon n best roots p g = earlier ++ later)
    (hearlier : ∀ s ∈ earlier.getLast?, Leads s.roots s.leader)
    (hkept : ∀ s ∈ later, s.IsSetback → Leads s.roots s.best) :
    ∀ s ∈ later, Leads s.roots s.leader := by
  induction earlier generalizing n best roots g with
  | nil =>
    rw [List.nil_append] at hsplit
    rw [← hsplit] at hkept ⊢
    exact leads_passes epsilon n p g (h rfl) hsane hkept
  | cons first earlier ih =>
    cases n with
    | zero => cases hsplit
    | succ n =>
      rcases refine_succ_cases epsilon n best roots p g with
        ⟨_, _, _, hnone⟩ | ⟨i, root, wins, g₁, g₂, _, hwins, _, hpasses⟩
      · rw [hnone] at hsplit
        cases hsplit
      · rw [hpasses, List.cons_append, List.cons.injEq] at hsplit
        obtain ⟨rfl, hrest⟩ := hsplit
        have hone : wins ≤ 1 := Nat.zero_add 1 ▸ countWins_le hwins
        refine ih n g₂ (sane_modify hsane hone i) ?_ hrest ?_
        · rintro rfl
          exact hearlier _ rfl
        · intro s hs
          refine hearlier s ?_
          rw [List.getLast?_cons, Option.mem_def.1 hs]
          rfl

theorem warmUp_spec {warmup n : Nat} (hroom : warmup + n < UInt32.size) {moves : List Move}
    {roots roots' : Array (Root ℚ)} {p q : Position} {g g' : σ} (hsane : Sane n roots)
    (h : warmUp warmup moves roots p g = (.ok (), roots', q, g')) :
    Sane n roots' ∧ candidates roots' = candidates roots ++ moves := by
  have hcount : warmup.toUInt32.toNat = warmup := Nat.mod_eq_of_lt (Nat.lt_of_add_right_lt hroom)
  induction moves generalizing roots p g with
  | nil =>
    cases h
    exact ⟨hsane, (List.append_nil _).symm⟩
  | cons m moves ih =>
    cases hm : p.refusal? m with
    | some e =>
      rw [warmUp, hm] at h
      cases h
    | none =>
      rw [warmUp_cons ((refusal?_eq_none_iff p m).1 hm)] at h
      split at h
      · cases h
      · rename_i wins _ _ hwins
        have hpush : Sane n (roots.push ⟨m, Score.one - (p.advance m).evaluate, wins, warmup.toUInt32⟩) := by
          intro r hr
          rcases Array.mem_push.1 hr with hold | rfl
          · exact hsane r hold
          · refine ⟨(Exact.inUnit_evaluate _).flip.2, ?_, ?_⟩
            · rw [hcount]
              exact Nat.zero_add warmup ▸ countWins_le hwins
            · rwa [hcount]
        obtain ⟨hsane', hcandidates⟩ := ih hpush h
        refine ⟨hsane', ?_⟩
        rw [hcandidates, candidates_push, List.append_assoc]
        rfl

/-- A root is told by its move when no move occurs twice. -/
theorem leads_iff_of_nodup {roots : Array (Root ℚ)} (hnodup : (candidates roots).Nodup) {best : Nat} {m : Move}
    (hbest : roots[best]?.map Root.move = some m) :
    Leads roots best ↔ ∃ r ∈ roots, r.move = m ∧ ∀ s ∈ roots, s.score ≤ r.score := by
  obtain ⟨r, hr, rfl⟩ := Option.map_eq_some_iff.1 hbest
  constructor
  · rintro ⟨t, ht, hmax⟩
    obtain rfl : t = r := Option.some.inj (ht.symm.trans hr)
    exact ⟨t, Array.mem_of_getElem? ht, rfl, hmax⟩
  · rintro ⟨t, ht, hmove, hmax⟩
    have hinj := List.inj_on_of_nodup_map hnodup (Array.mem_toList_iff.2 ht)
      (Array.mem_toList_iff.2 (Array.mem_of_getElem? hr)) hmove
    subst hinj
    exact ⟨t, hr, hmax⟩

/-- **The answer by sampling is a best root as long as setbacks do not leave the leader behind.** There are as
many passes as the settings ask for, and the answer is the leader after the last of them. The leader is a best
root after every pass exactly when it still is one after each of its own playouts that is lost. The answer scores
at least as much as every other root, in exact numbers, exactly when no such setback has left the leader behind
since it was a best root, which it was before the first pass. (No visit counter is to wrap.) -/
theorem choose_leads_iff {a a' : Greedy ℚ σ} {p q : Position} {m : Move} (hp : p.Consistent)
    (hroom : a.config.warmup + a.config.iterations < UInt32.size)
    (h : a.choose p = (.ok (m, .sampling), a', q)) :
    (a.rounds p).length = a.config.iterations ∧
    (∀ s ∈ (a.rounds p).getLast?, s.roots = a'.roots ∧ a'.roots[s.leader]?.map Root.move = some m) ∧
    ((∀ s ∈ a.rounds p, Leads s.roots s.leader) ↔ ∀ s ∈ a.rounds p, s.IsSetback → Leads s.roots s.best) ∧
    ((∃ r ∈ a'.roots, r.move = m ∧ ∀ s ∈ a'.roots, s.score ≤ r.score) ↔
      ∃ earlier later, a.rounds p = earlier ++ later ∧ (∀ s ∈ earlier.getLast?, Leads s.roots s.leader) ∧
        ∀ s ∈ later, s.IsSetback → Leads s.roots s.best) := by
  obtain ⟨roots, p₁, g, g₁, best, hwarm, hrefine, hrounds, hmove⟩ := choose_sampling h
  obtain ⟨hsane, hmoves⟩ := warmUp_spec hroom (fun s hs => absurd hs (Array.not_mem_empty s)) hwarm
  obtain ⟨hlength, hcandidates, hzero, hlast⟩ := refine_eq_last hrefine
  have hnodup : (candidates a'.roots).Nodup := by
    rw [hcandidates, hmoves]
    exact hp.nodup_moves
  have hsome : 0 < roots.size := by
    obtain ⟨r, hr, _⟩ := Option.map_eq_some_iff.1 hmove
    have hsize := congrArg List.length hcandidates
    simp only [candidates, List.length_map, Array.length_toList] at hsize
    rw [← hsize]
    exact Nat.zero_lt_of_lt (Array.getElem?_eq_some_iff.1 hr).1
  have hleader := leads_leader hsome
  rw [← hrounds] at hlength hlast
  have hanswer : Leads a'.roots best ↔ ∀ s ∈ (a.rounds p).getLast?, Leads s.roots s.leader := by
    cases hrest : (a.rounds p).getLast? with
    | none =>
      rw [List.getLast?_eq_none_iff.1 hrest] at hlength
      obtain ⟨rfl, hroots⟩ := hzero hlength.symm
      rw [hroots]
      exact iff_of_true hleader fun s hs => absurd hs (Option.not_mem_none s)
    | some s =>
      obtain ⟨rfl, hroots⟩ := hlast s hrest
      rw [← hroots]
      exact ⟨fun hs t ht => Option.mem_some_iff.1 ht ▸ hs, fun hall => hall s rfl⟩
  refine ⟨hlength, ?_, ⟨?_, ?_⟩, ?_⟩
  · intro s hs
    obtain ⟨hbest, hroots⟩ := hlast s hs
    exact ⟨hroots, hbest ▸ hmove⟩
  · intro hleads s hs hback
    have hself : s.leader = s.best := by rw [Pass.leader, hback.1, better_self]
    exact hself ▸ hleads s hs
  · rw [hrounds]
    exact leads_passes _ _ p₁ g₁ hleader hsane
  · rw [← leads_iff_of_nodup hnodup hmove, hanswer]
    constructor
    · intro hleads
      exact ⟨a.rounds p, [], (List.append_nil _).symm, hleads, fun s hs => absurd hs List.not_mem_nil⟩
    · rintro ⟨earlier, later, hsplit, hearlier, hkept⟩ s hs
      have hlater := leads_passes_append _ _ p₁ g₁ hsane (fun _ => hleader) (hrounds ▸ hsplit) hearlier hkept
      rw [hsplit, List.getLast?_append, Option.mem_def, Option.or_eq_some_iff] at hs
      rcases hs with hs | ⟨_, hs⟩
      · exact hlater s (List.mem_of_getLast? hs)
      · exact hearlier s hs

/-- White is ahead in the race and wins every playout. -/
theorem choose_leads_iff_race :
    let text := "........\n.......B\nW.......\n........\n........\n........\n........\n........\n"
    ∃ p, ofDiagram text .white = .ok p ∧ ∀ g : ChaCha, ∃ m a',
      (new .default g : Greedy ℚ ChaCha).choose p = (.ok (m, .sampling), a', p) ∧
        ((new .default g : Greedy ℚ ChaCha).rounds p).length = 5000 ∧
        ∃ r ∈ a'.roots, r.move = m ∧ ∀ s ∈ a'.roots, s.score ≤ r.score := by
  intro text
  obtain ⟨p, hp⟩ : ∃ p, p = ofBoard (.ofFn fun i =>
    if i = 40 then some .white else if i = 55 then some .black else none) .white .shared := ⟨_, rfl⟩
  have horigin : ofDiagram text .white = .ok p := by
    rw [hp]
    exact ofDiagram_of_rows .white (by decide +kernel)
  have hquiet : p.isLost = false ∧ winningMove? p p.moves = none ∧ captures p p.moves = [] ∧
      p.moves ≠ [] ∧ p.side = .white := by
    rw [hp]
    decide +kernel
  have hwon : ∀ m ∈ p.moves, p.refusal? m = none ∧ (p.advance m).isDecided .white 2 = true := by
    rw [hp]
    decide +kernel
  obtain ⟨hlost, hwin, hcaptures, hmoves, hside⟩ := hquiet
  have hcount : ∀ m ∈ p.moves, ∀ (n wins : Nat) (g : ChaCha),
      ∃ g', countWins m n wins p g = (.ok (wins + n), p, g') := by
    intro m hm n wins g
    obtain ⟨g', hg'⟩ := countWins_of_isDecided (hwon m hm).1 (hwon m hm).2 n wins g
    exact ⟨g', hg'.trans (by rw [hside, if_pos rfl])⟩
  have hplayable : ∀ m ∈ p.moves, p.Playable ChaCha m := fun m hm =>
    ⟨(refusal?_eq_none_iff p m).1 (hwon m hm).1, fun n wins g => ⟨_, hcount m hm n wins g⟩⟩
  have hepsilon : Config.default.epsilon.isNaN = false := by decide
  refine ⟨p, horigin, fun g => ?_⟩
  have hchoose := (new .default g : Greedy ℚ ChaCha).choose_of_quiet hlost hwin hcaptures
  obtain ⟨m, a', hsample, _⟩ := sample_of_playable (new .default g : Greedy ℚ ChaCha) hepsilon hplayable hmoves g
  have hanswer := hchoose.trans hsample
  have hcons : p.Consistent := hp ▸ consistent_ofBoard _ _ _
  have hroom : Config.default.warmup + Config.default.iterations < UInt32.size := by decide
  obtain ⟨hlength, _, _, hbest⟩ := choose_leads_iff hcons hroom hanswer
  have hnone : ∀ s ∈ ([] : List (Pass ℚ)).getLast?, Leads s.roots s.leader := fun s hs => by cases hs
  refine ⟨m, a', hanswer, hlength, hbest.2 ⟨[], _, (List.nil_append _).symm, hnone, ?_⟩⟩
  intro s hs hback
  have hwins : s.wins = 1 := wins_rounds _ hplayable (fun m hm => hcount m hm 1 0) s hs
  rw [hback.2] at hwins
  cases hwins

/-- Black is ahead in the race and wins every playout. Both moves begin with the same prior; the one that is
sampled loses, stays the leader and is the answer, with half the score of the other. -/
theorem choose_behind :
    let text := "........\n........\n........\n........\n........\n.......B\nW.......\n........\n"
    ∃ p, ofDiagram text .white = .ok p ∧ ∀ g : ChaCha, ∃ a',
      (new ⟨0.0, 1, 0⟩ g : Greedy ℚ ChaCha).choose p = (.ok (⟨⟨8⟩, ⟨16⟩⟩, .sampling), a', p) ∧
        a'.roots = #[⟨⟨⟨8⟩, ⟨16⟩⟩, 1 / 2, 0, 1⟩, ⟨⟨⟨8⟩, ⟨17⟩⟩, 1 / 2, 0, 0⟩] ∧
        a'.roots.map Root.score = #[1 / 4, 1 / 2] := by
  intro text
  obtain ⟨p, hp⟩ : ∃ p, p = ofBoard (.ofFn fun i =>
    if i = 8 then some .white else if i = 23 then some .black else none) .white .shared := ⟨_, rfl⟩
  have horigin : ofDiagram text .white = .ok p := by
    rw [hp]
    exact ofDiagram_of_rows .white (by decide +kernel)
  have hquiet : p.isLost = false ∧ p.moves = [⟨⟨8⟩, ⟨16⟩⟩, ⟨⟨8⟩, ⟨17⟩⟩] ∧ winningMove? p p.moves = none ∧
      captures p p.moves = [] ∧ p.ply < lateGamePly ∧ p.side = .white := by
    rw [hp]
    decide +kernel
  have hlost : ∀ m ∈ p.moves, p.refusal? m = none ∧ (p.advance m).isDecided .black 3 = true ∧
      (p.advance m).evaluate (α := ℚ) = 1 / 2 := by
    rw [hp]
    decide +kernel
  obtain ⟨hgoing, hmoves, hwin, hcaptures, hply, hside⟩ := hquiet
  refine ⟨p, horigin, fun g => ?_⟩
  have haccepts : ∀ m ∈ p.moves, p.Accepts m := fun m hm => (refusal?_eq_none_iff p m).1 (hlost m hm).1
  have hwarm : warmUp 0 p.moves (#[] : Array (Root ℚ)) p g =
      (.ok (), #[⟨⟨⟨8⟩, ⟨16⟩⟩, 1 / 2, 0, 0⟩, ⟨⟨⟨8⟩, ⟨17⟩⟩, 1 / 2, 0, 0⟩], p, g) := by
    rw [hmoves, List.forall_mem_cons, List.forall_mem_singleton] at hlost haccepts
    have hhalf : (Score.one - 1 / 2 : ℚ) = 1 / 2 := by decide +kernel
    simp only [hmoves, warmUp_cons haccepts.1, warmUp_cons haccepts.2, countWins, hlost, hhalf]
    rfl
  obtain ⟨g₁, hchance⟩ := chance_zero g
  have hpick : pickRoot 0.0 2 0 g = (.ok 0, g₁) := by simp only [pickRoot, hchance]
  have hfirst : (⟨⟨8⟩, ⟨16⟩⟩ : Move) ∈ p.moves := hmoves ▸ List.mem_cons_self
  obtain ⟨g₂, hplayed⟩ := countWins_of_isDecided (hlost _ hfirst).1 (hlost _ hfirst).2.1 1 0 g₁
  rw [hside, if_neg (by decide)] at hplayed
  rw [choose_of_quiet _ hgoing hwin hcaptures]
  have hepsilon : (⟨0.0, 1, 0⟩ : Config).chanceAt p.ply = 0.0 := by
    rw [Config.chanceAt, if_pos hply]
    rfl
  have hscores : (#[⟨⟨⟨8⟩, ⟨16⟩⟩, 1 / 2, 0, 1⟩, ⟨⟨⟨8⟩, ⟨17⟩⟩, 1 / 2, 0, 0⟩] : Array (Root ℚ)).map Root.score =
      #[1 / 4, 1 / 2] := by
    decide +kernel
  have hleader : leader (#[⟨⟨⟨8⟩, ⟨16⟩⟩, 1 / 2, 0, 0⟩, ⟨⟨⟨8⟩, ⟨17⟩⟩, 1 / 2, 0, 0⟩] : Array (Root ℚ)) = 0 := by
    decide +kernel
  refine ⟨⟨⟨0.0, 1, 0⟩, g₂, _⟩, ?_, rfl, hscores⟩
  simp only [sample, new, hwarm, hepsilon, hleader, refine, List.size_toArray, List.length_cons, List.length_nil,
    Nat.zero_add, Nat.reduceAdd, hpick, List.getElem?_toArray, List.getElem?_cons_zero, hplayed, better_self]
  rfl

end Greedy

end Breakthrough
