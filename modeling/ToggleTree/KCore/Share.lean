import ToggleTree.ForkJoin.Slices
import ToggleTree.ForkJoin.Throughout
import ToggleTree.KCore.Peel

/-!
# The parallel phases between two frontiers

In all phases but the peeling of a frontier each call works on one vertex: it reads and writes its
count, its membership in the sets and, if it is sampled, its shards. So each call can be followed by
itself, and what it leaves of its vertex is what the phase leaves.
-/

namespace ToggleTree

open ForkJoin ForkJoin.Prog

namespace KCore

/-- What the state has for one vertex. -/
structure Share where
  coreness : ℕ
  frontier : Bool
  next : Bool
  active : Bool
  sampled : Bool
  column : ℕ → ℤ

/-- The share of `v`; the vertices of `S` have shards. -/
def share (S : Finset ℕ) (s : KCoreState) (v : ℕ) : Share where
  coreness := s.coreness v
  frontier := decide (v ∈ s.frontier)
  next := decide (v ∈ s.nextFrontier)
  active := decide (v ∈ s.active)
  sampled := decide (v ∈ s.sampleMode)
  column := fun w => if v ∈ S then s.shards w (s.place v) else 0

section Share

variable {S : Finset ℕ} {s : KCoreState} {v w workers c : ℕ} {x : ℤ}

/-- The shares after the coreness of a vertex is written. -/
theorem share_putCoreness :
    share S ((corenessCell v).put c s) = Function.update (share S s) v { share S s v with coreness := c } := by
  funext j
  by_cases hj : j = v
  · subst hj
    rw [Function.update_self]
    exact congrArg (fun n => { share S s j with coreness := n }) (Function.update_self j c s.coreness)
  · rw [Function.update_of_ne hj]
    exact congrArg (fun n => { share S s j with coreness := n }) (Function.update_of_ne hj c s.coreness)

/-- The shares after an insertion into the frontier. -/
theorem share_insertFrontier : share S { s with frontier := insert v s.frontier } =
    Function.update (share S s) v { share S s v with frontier := true } := by
  funext j
  by_cases hj : j = v
  · subst hj
    rw [Function.update_self]
    simp [share]
  · rw [Function.update_of_ne hj]
    simp [share, hj]

/-- The shares after an insertion into the next frontier. -/
theorem share_insertNext : share S { s with nextFrontier := insert v s.nextFrontier } =
    Function.update (share S s) v { share S s v with next := true } := by
  funext j
  by_cases hj : j = v
  · subst hj
    rw [Function.update_self]
    simp [share]
  · rw [Function.update_of_ne hj]
    simp [share, hj]

/-- The shares after a removal from the active vertices. -/
theorem share_eraseActive : share S { s with active := s.active.erase v } =
    Function.update (share S s) v { share S s v with active := false } := by
  funext j
  by_cases hj : j = v
  · subst hj
    rw [Function.update_self]
    simp [share]
  · rw [Function.update_of_ne hj]
    simp [share, hj]

/-- The shares after a removal from the sampled vertices. -/
theorem share_eraseSampleMode : share S { s with sampleMode := s.sampleMode.erase v } =
    Function.update (share S s) v { share S s v with sampled := false } := by
  funext j
  by_cases hj : j = v
  · subst hj
    rw [Function.update_self]
    simp [share]
  · rw [Function.update_of_ne hj]
    simp [share, hj]

/-- Sampled vertices have different places. -/
theorem share_setShard (hinj : Set.InjOn s.place S) (hv : v ∈ S) : share S (setShard w (s.place v) x s) =
    Function.update (share S s) v { share S s v with column := Function.update (share S s v).column w x } := by
  have hcolumn (j : ℕ) : (share S (setShard w (s.place v) x s) j).column =
      fun w' => if j ∈ S then (if w' = w ∧ s.place j = s.place v then x else s.shards w' (s.place j)) else 0 := by
    funext w'
    change (if j ∈ S then (setShard w (s.place v) x s).shards w' (s.place j) else 0) = _
    rw [shards_setShard]
  funext j
  by_cases hj : j = v
  · subst hj
    rw [Function.update_self]
    refine congrArg (fun col => { share S s j with column := col }) ((hcolumn j).trans ?_)
    funext w'
    by_cases hw : w' = w
    · rw [hw, Function.update_self, if_pos hv, if_pos ⟨rfl, rfl⟩]
    · rw [Function.update_of_ne hw, if_pos hv, if_neg fun h => hw h.1]
      exact (if_pos hv).symm
  · rw [Function.update_of_ne hj]
    refine congrArg (fun col => { share S s j with column := col }) ((hcolumn j).trans ?_)
    funext w'
    by_cases hjS : j ∈ S
    · rw [if_pos hjS, if_neg fun h => hj (hinj hjS hv h.2)]
      exact (if_pos hjS).symm
    · rw [if_neg hjS]
      exact (if_neg hjS).symm

/-- `remaining` shared out among the workers. -/
def parts (workers : ℕ) (remaining : ℤ) (column : ℕ → ℤ) (w : ℕ) : ℤ :=
  if w < workers then remaining.tdiv workers + if (w : ℤ) < remaining.tmod workers % 2 ^ 64 then 1
  else 0 else column w

/-- The shares after the counters of a vertex are shared out. -/
theorem share_distribute (hinj : Set.InjOn s.place S) (hv : v ∈ S) : share S (distribute workers v x s) =
    Function.update (share S s) v { share S s v with column := parts workers x (share S s v).column } := by
  funext j
  by_cases hj : j = v
  · subst hj
    rw [Function.update_self]
    refine congrArg (fun col => { share S s j with column := col }) ?_
    funext w
    change (if j ∈ S then (if w < workers ∧ s.place j = s.place j then _ else s.shards w (s.place j)) else 0) = _
    rw [if_pos hv, parts]
    by_cases hw : w < workers
    · rw [if_pos ⟨hw, rfl⟩, if_pos hw]
    · rw [if_neg fun h => hw h.1, if_neg hw]
      exact (if_pos hv).symm
  · rw [Function.update_of_ne hj]
    refine congrArg (fun col => { share S s j with column := col }) ?_
    funext w
    change (if j ∈ S then (if w < workers ∧ s.place j = s.place v then _ else s.shards w (s.place j)) else 0) = _
    by_cases hjS : j ∈ S
    · rw [if_pos hjS, if_neg fun h => hj (hinj hjS hv h.2)]
      exact (if_pos hjS).symm
    · rw [if_neg hjS]
      exact (if_neg hjS).symm

end Share

section Parts

variable {workers : ℕ} {r : ℤ} {column : ℕ → ℤ}

/-- What is shared out evenly, and the rest. -/
theorem parts_eq {m : ℕ} (hw : 0 < workers) (hbound : workers ≤ 2 ^ 64) {w : ℕ} (hlt : w < workers) :
    parts workers (m : ℤ) column w = ((m / workers + if w < m % workers then 1 else 0 : ℕ) : ℤ) := by
  have hmod : m % workers < workers := Nat.mod_lt m hw
  rw [parts, if_pos hlt, Int.tdiv_eq_ediv_of_nonneg (Int.natCast_nonneg m),
    Int.tmod_eq_emod_of_nonneg (Int.natCast_nonneg m), ← Int.natCast_mod, ← Int.natCast_div,
    Int.emod_eq_of_lt (Int.natCast_nonneg _) (by exact_mod_cast hmod.trans_le hbound)]
  have hlt_iff : ((w : ℤ) < (m % workers : ℕ)) ↔ w < m % workers := Nat.cast_lt
  rw [if_congr hlt_iff rfl rfl]
  push_cast
  rfl

/-- The parts add up to what was shared out. -/
theorem sum_parts (hw : 0 < workers) (hbound : workers ≤ 2 ^ 64) (hr : 0 ≤ r) :
    ∑ w ∈ Finset.range workers, parts workers r column w = r := by
  obtain ⟨m, rfl⟩ := Int.eq_ofNat_of_zero_le hr
  have hsum : ∑ w ∈ Finset.range workers, (m / workers + if w < m % workers then 1 else 0) = m := by
    have hfilter : (Finset.range workers).filter (fun w => w < m % workers) = Finset.range (m % workers) := by
      ext w
      rw [Finset.mem_filter, Finset.mem_range, Finset.mem_range, and_iff_right_iff_imp]
      exact fun h => h.trans (Nat.mod_lt m hw)
    rw [Finset.sum_add_distrib, Finset.sum_const, Finset.card_range, smul_eq_mul, ← Finset.card_filter, hfilter,
      Finset.card_range]
    exact Nat.div_add_mod m workers
  calc ∑ w ∈ Finset.range workers, parts workers (m : ℤ) column w
      = ∑ w ∈ Finset.range workers, ((m / workers + if w < m % workers then 1 else 0 : ℕ) : ℤ) :=
        Finset.sum_congr rfl fun w hmem => parts_eq hw hbound (Finset.mem_range.mp hmem)
    _ = (m : ℤ) := by rw [← Nat.cast_sum, hsum]

/-- Every part is positive if there is enough for all. -/
theorem parts_pos (hw : 0 < workers) (hbound : workers ≤ 2 ^ 64) (hr : (workers : ℤ) ≤ r) {w : ℕ}
    (hlt : w < workers) :
    0 < parts workers r column w := by
  obtain ⟨m, rfl⟩ := Int.eq_ofNat_of_zero_le ((Int.natCast_nonneg workers).trans hr)
  have hdiv : 0 < m / workers := Nat.div_pos (by exact_mod_cast hr) hw
  rw [parts_eq hw hbound hlt]
  exact_mod_cast Nat.add_pos_left hdiv _

/-- The workers are no more than the threshold, so that every one gets a part. -/
theorem workers_le_sampleThreshold (hmax : workers ≤ 8192) : workers ≤ sampleThreshold workers := by
  unfold sampleThreshold
  split
  · exact hmax
  · omega

end Parts

end KCore

end ToggleTree
