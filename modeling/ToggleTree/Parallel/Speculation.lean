import ToggleTree.Parallel.Interleaving

/-!
# Speculative decrements

Concurrent calls of `peel` decrement the 32-bit counter of a vertex first and give the decrement
back if the old value was already at most `k`. Calls that keep their decrement lower the counter down
to `k`; from then on every call gives its decrement back, so the counter is below `k` only by the
decrements that are still to be given back.
-/

namespace ToggleTree

open Interleaving

namespace Speculation

/-- Where a call is: before its decrement, before it gives it back, or returned. -/
inductive Phase
  | start
  | restore (old : ℕ)
  | done (old : ℕ) (result : Bool)

/-- The next atomic access of a call of `peel` at level `k`. -/
def peel (k counter : ℕ) : Phase → ℕ × Phase
  | .start => ((counter + (2 ^ 32 - 1)) % 2 ^ 32,
      if counter ≤ k then .restore counter else .done counter (counter == k + 1))
  | .restore old => ((counter + 1) % 2 ^ 32, .done old (old == k + 1))
  | .done old result => (counter, .done old result)

variable {ι : Type} [DecidableEq ι]

/-- The calls of `peel` on a counter that holds `c`. -/
def peels (k c : ℕ) (order : List ι) : Calls ι ℕ Phase :=
  run (fun _ => peel k) order ⟨c, fun _ => .start⟩

/-- The call has decremented the counter. -/
def Phase.started : Phase → Bool
  | .start => false
  | _ => true

/-- The decrement is kept. -/
def Phase.kept (k : ℕ) : Phase → Bool
  | .done old _ => k < old
  | _ => false

/-- The decrement is given back, or is to be. -/
def Phase.excess (k : ℕ) : Phase → Bool
  | .start => false
  | .restore _ => true
  | .done old _ => old ≤ k

/-- The decrement is to be given back. -/
def Phase.restoring : Phase → Bool
  | .restore _ => true
  | _ => false

/-- The call is the one that takes the counter to the level. -/
def Phase.winning : Phase → Bool
  | .done _ result => result
  | _ => false

/-- A call gives its decrement back only if the old value was at most `k`, and returns whether it
was `k + 1`. -/
def Phase.Faithful (k : ℕ) : Phase → Prop
  | .start => True
  | .restore old => old ≤ k
  | .done old result => result = (old == k + 1)

/-- What holds between the accesses. -/
structure Inv [Fintype ι] (k c : ℕ) (s : Calls ι ℕ Phase) : Prop where
  counter : s.shared + count (Phase.kept k) s.phase + count Phase.restoring s.phase = c
  level : k + count (Phase.kept k) s.phase ≤ c
  excess : 0 < count (Phase.excess k) s.phase → k + count (Phase.kept k) s.phase = c
  started : count Phase.started s.phase = count (Phase.kept k) s.phase + count (Phase.excess k) s.phase
  restoring : count Phase.restoring s.phase ≤ count (Phase.excess k) s.phase
  winner : count Phase.winning s.phase = if k + count (Phase.kept k) s.phase = c then 1 else 0
  faithful : ∀ i, (s.phase i).Faithful k

section Invariant

variable [Fintype ι] {k c : ℕ} {s : Calls ι ℕ Phase} {i : ι}

omit [DecidableEq ι] in
/-- The invariant holds at the start. -/
theorem Inv.init (h : k < c) : Inv k c (⟨c, fun _ => .start⟩ : Calls ι ℕ Phase) where
  counter := by simp [count_const, Phase.kept, Phase.restoring]
  level := by simp [count_const, Phase.kept, h.le]
  excess := by simp [count_const, Phase.excess]
  started := by simp [count_const, Phase.kept, Phase.started, Phase.excess]
  restoring := by simp [count_const, Phase.restoring]
  winner := by simp [count_const, Phase.kept, Phase.winning, h.ne]
  faithful := fun _ => trivial

/-- Fewer calls have decremented the counter than there are calls, so it is not zero when the next
one does. -/
theorem Inv.counter_pos (h : Inv k c s) (hcard : Fintype.card ι ≤ c) (hi : s.phase i = .start) :
    0 < s.shared := by
  have hstarted := count_update Phase.started s.phase i (.restore 0)
  have hle : count Phase.started (Function.update s.phase i (.restore 0)) ≤ Fintype.card ι := count_le_card
  rw [hi] at hstarted
  simp only [Phase.started, Bool.toNat_true, Bool.toNat_false] at hstarted
  have := h.counter
  have := h.started
  have := h.restoring
  omega

/-- A decrement at `k` or below is to be given back. -/
theorem Inv.overshoot (h : Inv k c s) (hi : s.phase i = .start) (hpos : 0 < s.shared) (hle : s.shared ≤ k) :
    Inv k c ⟨s.shared - 1, Function.update s.phase i (.restore s.shared)⟩ := by
  obtain ⟨hcounter, hlevel, hexcess, hstarted, hrestoring, hwinner, hfaithful⟩ := h
  have hkept' := count_update (Phase.kept k) s.phase i (.restore s.shared)
  have hexcess' := count_update (Phase.excess k) s.phase i (.restore s.shared)
  have hrestoring' := count_update Phase.restoring s.phase i (.restore s.shared)
  have hstarted' := count_update Phase.started s.phase i (.restore s.shared)
  have hwinning' := count_update Phase.winning s.phase i (.restore s.shared)
  simp only [hi, Phase.kept, Phase.excess, Phase.restoring, Phase.started, Phase.winning, Bool.toNat_true,
    Bool.toNat_false, Nat.add_zero] at hkept' hexcess' hrestoring' hstarted' hwinning'
  -- the first decrement that is not kept finds the counter at `k`
  have hdown : k + count (Phase.kept k) s.phase = c := by omega
  exact {
    counter := by dsimp only; omega
    level := by dsimp only; omega
    excess := fun _ => by dsimp only; omega
    started := by dsimp only; omega
    restoring := by dsimp only; omega
    winner := by
      dsimp only
      rw [hwinning', hkept', hwinner]
    faithful := (Function.forall_update_iff _ fun _ p => Phase.Faithful k p).mpr ⟨hle, fun j _ => hfaithful j⟩ }

/-- A decrement above `k` is kept, and the one from `k + 1` to `k` wins. -/
theorem Inv.keep (h : Inv k c s) (hi : s.phase i = .start) (hlt : k < s.shared) :
    Inv k c ⟨s.shared - 1, Function.update s.phase i (.done s.shared (s.shared == k + 1))⟩ := by
  obtain ⟨hcounter, hlevel, hexcess, hstarted, hrestoring, hwinner, hfaithful⟩ := h
  have hkept' := count_update (Phase.kept k) s.phase i (.done s.shared (s.shared == k + 1))
  have hexcess' := count_update (Phase.excess k) s.phase i (.done s.shared (s.shared == k + 1))
  have hrestoring' := count_update Phase.restoring s.phase i (.done s.shared (s.shared == k + 1))
  have hstarted' := count_update Phase.started s.phase i (.done s.shared (s.shared == k + 1))
  have hwinning' := count_update Phase.winning s.phase i (.done s.shared (s.shared == k + 1))
  simp only [hi, Phase.kept, Phase.excess, Phase.restoring, Phase.started, Bool.toNat_true, hlt,
    not_le.mpr hlt, decide_true, decide_false, Bool.toNat_false, Nat.add_zero]
    at hkept' hexcess' hrestoring' hstarted'
  simp only [hi, Phase.winning, Bool.toNat_false, Nat.add_zero] at hwinning'
  -- nobody gives back as long as the counter is above `k`
  have hnone : count (Phase.excess k) s.phase = 0 := by
    by_contra hne
    have := hexcess (Nat.pos_of_ne_zero hne)
    omega
  exact {
    counter := by dsimp only; omega
    level := by dsimp only; omega
    excess := fun hpos => by dsimp only at hpos; omega
    started := by dsimp only; omega
    restoring := by dsimp only; omega
    winner := by
      dsimp only
      rw [hwinning', hwinner, hkept', if_neg (by omega)]
      by_cases hone : s.shared = k + 1
      · rw [if_pos (by omega), hone, beq_self_eq_true]
        rfl
      · rw [if_neg (by omega), beq_false_of_ne hone]
        rfl
    faithful := (Function.forall_update_iff _ fun _ p => Phase.Faithful k p).mpr ⟨rfl, fun j _ => hfaithful j⟩ }

/-- A decrement is given back. -/
theorem Inv.giveBack (h : Inv k c s) {old : ℕ} (hi : s.phase i = .restore old) :
    Inv k c ⟨s.shared + 1, Function.update s.phase i (.done old (old == k + 1))⟩ ∧ s.shared < c := by
  have hold : old ≤ k := by
    have := h.faithful i
    rwa [hi] at this
  obtain ⟨hcounter, hlevel, hexcess, hstarted, hrestoring, hwinner, hfaithful⟩ := h
  have hkept' := count_update (Phase.kept k) s.phase i (.done old (old == k + 1))
  have hexcess' := count_update (Phase.excess k) s.phase i (.done old (old == k + 1))
  have hrestoring' := count_update Phase.restoring s.phase i (.done old (old == k + 1))
  have hstarted' := count_update Phase.started s.phase i (.done old (old == k + 1))
  have hwinning' := count_update Phase.winning s.phase i (.done old (old == k + 1))
  simp only [hi, Phase.kept, Phase.excess, Phase.restoring, Phase.started, Phase.winning, hold, not_lt.mpr hold,
    beq_false_of_ne (show old ≠ k + 1 by omega), decide_true, decide_false, Bool.toNat_true, Bool.toNat_false,
    Nat.add_zero] at hkept' hexcess' hrestoring' hstarted' hwinning'
  rw [beq_false_of_ne (show old ≠ k + 1 by omega)]
  refine ⟨{
    counter := by dsimp only; omega
    level := by dsimp only; omega
    excess := fun hpos => by dsimp only at hpos ⊢; omega
    started := by dsimp only; omega
    restoring := by dsimp only; omega
    winner := by
      dsimp only
      rw [hwinning', hkept', hwinner]
    faithful := (Function.forall_update_iff _ fun _ p => Phase.Faithful k p).mpr
      ⟨(beq_false_of_ne (show old ≠ k + 1 by omega)).symm, fun j _ => hfaithful j⟩ }, by omega⟩

/-- Every step of a call keeps the invariant. -/
theorem Inv.step (hc : c < 2 ^ 32) (hcard : Fintype.card ι ≤ c) (h : Inv k c s) (i : ι) :
    Inv k c (step (fun _ => peel k) s i) := by
  have hlt : s.shared ≤ c := by
    have := h.counter
    omega
  unfold Interleaving.step
  cases hi : s.phase i with
  | start =>
    have hpos := h.counter_pos hcard hi
    simp only [peel]
    rw [show (s.shared + (2 ^ 32 - 1)) % 2 ^ 32 = s.shared - 1 by omega]
    split
    · next hle => exact h.overshoot hi hpos hle
    · next hgt => exact h.keep hi (not_le.mp hgt)
  | restore old =>
    obtain ⟨hinv, hroom⟩ := h.giveBack hi
    simp only [peel]
    rwa [Nat.mod_eq_of_lt (show s.shared + 1 < 2 ^ 32 by omega)]
  | done old result =>
    simp only [peel]
    rwa [← hi, Function.update_eq_self]

omit [DecidableEq ι] in
/-- What the counter and the results are when all calls have returned. -/
theorem Inv.finished (h : Inv k c s) (hfinished : ∀ i, ∃ old result, s.phase i = .done old result) :
    s.shared = max k (c - Fintype.card ι) ∧ count Phase.winning s.phase = if c - k ≤ Fintype.card ι then 1
      else 0 := by
  have hcount (p : Phase → Bool) (b : Bool) (hp : ∀ old result, p (.done old result) = b) :
      count p s.phase = Fintype.card ι * b.toNat := by
    rw [← count_const (p := fun _ => b) (Phase.start)]
    refine Finset.sum_congr rfl fun i _ => ?_
    obtain ⟨old, result, hi⟩ := hfinished i
    rw [hi, hp]
  have hstarted := hcount Phase.started true fun _ _ => rfl
  have hrestoring := hcount Phase.restoring false fun _ _ => rfl
  simp only [Bool.toNat_true, Bool.toNat_false, Nat.mul_one, Nat.mul_zero] at hstarted hrestoring
  obtain ⟨hcounter, hlevel, hexcess, hsplit, _, hwinner, _⟩ := h
  have hkept : count (Phase.excess k) s.phase = 0 ∨ k + count (Phase.kept k) s.phase = c :=
    (Nat.eq_zero_or_pos _).imp_right hexcess
  refine ⟨by omega, ?_⟩
  rw [hwinner]
  exact if_congr (by omega) rfl rfl

end Invariant

/-- At most `c` calls on a counter `c > k`: whatever their order, the counter is `c` less the
decrements that are kept or still to be given back, and not zero when it is decremented. In the end it
is `c` less the number of calls but at least `k`, and one call has won if it got down to `k`. -/
theorem peel_exact [Fintype ι] (k c : ℕ) (hk : k < c) (hc : c < 2 ^ 32) (hcard : Fintype.card ι ≤ c)
    (order : List ι) :
    (peels k c order).shared + count (Phase.kept k) (peels k c order).phase +
      count Phase.restoring (peels k c order).phase = c ∧
    (∀ i, (peels k c order).phase i = .start → 0 < (peels k c order).shared) ∧
    ((∀ i, ∃ old result, (peels k c order).phase i = .done old result) →
      (peels k c order).shared = max k (c - Fintype.card ι) ∧
      (c - k ≤ Fintype.card ι → ∃! i, ((peels k c order).phase i).winning = true) ∧
      (Fintype.card ι < c - k → ∀ i, ((peels k c order).phase i).winning = false)) := by
  have hinv : Inv k c (peels k c order) := run_invariant (Inv.init hk) fun s i hs => hs.step hc hcard i
  refine ⟨hinv.counter, fun i => hinv.counter_pos hcard, fun hfinished => ?_⟩
  obtain ⟨hcounter, hwinner⟩ := hinv.finished hfinished
  refine ⟨hcounter, fun hle => ?_, fun hlt => ?_⟩
  · rw [if_pos hle] at hwinner
    exact existsUnique_of_count hwinner
  · rw [if_neg (not_le.mpr hlt)] at hwinner
    exact count_eq_zero_iff.mp hwinner

/-- Three calls on a counter that is two above the level: the last one overshoots. -/
theorem peel_exact_threeCalls : (∀ i : Fin 3, ∃ old result, (peels 1 3 [0, 1, 2, 2]).phase i = .done old result) ∧
    (peels 1 3 [(0 : Fin 3), 1, 2, 2]).shared = max 1 (3 - 3) := by
  have hdone : ∀ i : Fin 3, ∃ old result, (peels 1 3 [0, 1, 2, 2]).phase i = .done old result := by
    intro i
    fin_cases i
    · exact ⟨3, false, rfl⟩
    · exact ⟨2, true, rfl⟩
    · exact ⟨1, false, rfl⟩
  exact ⟨hdone, ((peel_exact 1 3 (by decide) (by decide) (by decide) [(0 : Fin 3), 1, 2, 2]).2.2 hdone).1⟩

end Speculation

end ToggleTree
