import ToggleTree.BreadthFirstSearch.Gather

/-!
# A round of local searches

Between rounds the cells are exact up to some distance and untouched beyond it. From such a
state the local searches of one round reach the next one, whichever way they interleave: the
invariant holds at the start with the slots of the frontier owed, and once nothing is owed any
more it says that the cells are exact up to the next distance.
-/

namespace ToggleTree

open ForkJoin ForkJoin.Prog

namespace Search

variable {G : CSR} {L : Labels} {source unreached : ℕ} {goal : ℕ → ℕ} {r B : ℕ}
  {s s' : SearchState} {v : ℕ} {env : SearchCall → SearchProg Unit}

/-- Every cell holds its goal if that is at most `r` away, and is untouched otherwise. -/
def Exact (L : Labels) (unreached : ℕ) (goal : ℕ → ℕ) (r : ℕ) (s : SearchState) : Prop :=
  ∀ v, s.dist v = if L.level (goal v) ≤ r then goal v else unreached

/-- A vertex up to the round has its final value. -/
theorem Exact.of_le (h : Exact L unreached goal r s) (hv : L.level (goal v) ≤ r) : s.dist v = goal v := by
  rw [h v, if_pos hv]

variable (hL : Labelling G L source unreached goal)
include hL

/-- There is a vertex at every distance below that of a reachable vertex. -/
theorem exists_level {d j : ℕ} (hv : L.level (goal v) = d) (hd : d < topLevel) (hj : j ≤ d) :
    ∃ w, L.level (goal w) = j := by
  induction d generalizing v with
  | zero => exact ⟨v, by omega⟩
  | succ d ih =>
    rcases Nat.eq_or_lt_of_le hj with rfl | hlt
    · exact ⟨v, hv⟩
    · have hne : v ≠ source := by
        rintro rfl
        rw [hL.level_source] at hv
        omega
      obtain ⟨u, _, hu, _⟩ := hL.goal_eq v hne (by omega)
      exact ih (v := u) (by omega) (by omega) (by omega)

namespace Exact

variable (h : Exact L unreached goal r s)
include h

/-- The reached vertices are those whose goal is at most `r` away. -/
theorem reached_iff : Reached L s v ↔ L.level (goal v) ≤ r ∧ L.level (goal v) < topLevel := by
  unfold Reached levelOf
  rw [h v]
  split
  · next hle => exact ⟨fun hlt => ⟨hle, hlt⟩, And.right⟩
  · next hlt =>
    rw [hL.level_unreached]
    exact ⟨fun h => (lt_irrefl _ h).elim, fun h => (hlt h.1).elim⟩

/-- The level of a reached vertex is the one of its final value. -/
theorem levelOf_eq (hv : Reached L s v) : levelOf L s v = L.level (goal v) := by
  rw [levelOf, h.of_le ((h.reached_iff hL).mp hv).1]

/-- Distances are below the number of reached vertices. -/
theorem levelOf_lt_count (hv : Reached L s v) : levelOf L s v + 1 ≤ reachedCount G L s := by
  obtain ⟨hle, htop⟩ := (h.reached_iff hL).mp hv
  rw [h.levelOf_eq hL hv]
  have hsurj : Set.SurjOn (fun w => L.level (goal w)) ((Finset.range G.n).filter (Reached L s))
      (Finset.range (L.level (goal v) + 1)) := by
    intro j hj
    rw [Finset.mem_coe, Finset.mem_range, Nat.lt_succ_iff] at hj
    obtain ⟨w, rfl⟩ := exists_level hL rfl htop hj
    have hw : L.level (goal w) < topLevel := hj.trans_lt htop
    refine ⟨w, ?_, rfl⟩
    rw [Finset.mem_coe, Finset.mem_filter, Finset.mem_range]
    exact ⟨hL.goal_lt w hw, (h.reached_iff hL).mpr ⟨hj.trans hle, hw⟩⟩
  have hcard := Finset.card_le_card_of_surjOn _ hsurj
  rwa [Finset.card_range] at hcard

/-- At the start of a round, the slots of the vertices at distance `r` are owed. -/
theorem searchInv {t : Debt} (hrB : r < B) (hnext : s.nextFrontier = ∅)
    (howed : ∀ u i, u < G.n → G.OutSlot u i → L.level (goal u) = r → L.level (goal u) < topLevel →
      (u, i, r) ∈ t.1) (ht : ∀ w, w ∉ t.2) :
    SearchInv G L source unreached goal r B s t where
  lower v := by
    rw [h v]
    split
    · exact le_rfl
    · exact hL.goal_le_unreached v
  settled v hv := (h.of_le hv).le
  same v hv := by
    rw [h v]
    split
    · next hle =>
      exact hL.goal_unreached v (not_lt.mp fun htop => hv ((h.reached_iff hL).mpr ⟨hle, htop⟩))
    · rfl
  parent v hne hv := by
    obtain ⟨hle, htop⟩ := (h.reached_iff hL).mp hv
    obtain ⟨u, hu, hlevel, _⟩ := hL.goal_eq v hne htop
    refine ⟨u, hu, ?_⟩
    have hreached : Reached L s u := (h.reached_iff hL).mpr ⟨by omega, by omega⟩
    rw [h.levelOf_eq hL hv, h.levelOf_eq hL hreached, hlevel]
  bounded v hv := by
    refine ⟨h.levelOf_lt_count hL hv, ?_⟩
    rw [h.levelOf_eq hL hv]
    exact ((h.reached_iff hL).mp hv).1.trans hrB.le
  cover u i hu hi hr _ := by
    obtain ⟨hle, htop⟩ := (h.reached_iff hL).mp hr
    rw [h.levelOf_eq hL hr]
    rcases Nat.eq_or_lt_of_le hle with heq | hlt
    · exact Or.inr (heq.symm ▸ howed u i hu hi heq htop)
    · left
      have hsize := hL.size
      have hcount := h.levelOf_lt_count hL hr
      rw [h.levelOf_eq hL hr] at hcount
      have hsucc : L.level (goal u) + 1 < 2 ^ 32 := lt_of_le_of_lt (hcount.trans (reachedCount_le s)) hsize
      have hgoal := hL.goal_le u (G.outEdge i) _ ⟨hu, i, hi, rfl⟩ le_rfl hsucc
      have hlevel := hL.level_mono _ _ hgoal
      rw [hL.level_make _ _ hsucc (hu.trans hsize)] at hlevel
      rwa [h.of_le (by omega)]
  last v hv hB := by
    rw [h.levelOf_eq hL hv] at hB
    have := ((h.reached_iff hL).mp hv).1
    omega
  fresh v hv := by
    rw [hnext] at hv
    exact (hv.elim (Finset.notMem_empty v) (ht v)).elim

end Exact

/-- Once nothing is owed, the cells are exact up to distance `B`. -/
theorem SearchInv.exact (h : SearchInv G L source unreached goal r B s 0) : Exact L unreached goal B s := by
  have hgoal : ∀ d v, L.level (goal v) = d → d < topLevel → d ≤ B → s.dist v = goal v := by
    intro d
    induction d with
    | zero => exact fun v hv _ _ => le_antisymm (h.settled v (by omega)) (h.lower v)
    | succ d ih =>
      intro v hv htop hdB
      have hne : v ≠ source := by
        rintro rfl
        rw [hL.level_source] at hv
        omega
      obtain ⟨u, ⟨hu, i, hi, rfl⟩, hlevel, hmake⟩ := hL.goal_eq v hne (by omega)
      have hdist : s.dist u = goal u := ih u (by omega) (by omega) (by omega)
      have hlu : levelOf L s u = d := by
        rw [levelOf, hdist]
        omega
      have hcover := h.cover u i hu hi (by rw [Reached]; omega) (by omega)
      rw [hlu] at hcover
      have hle := hcover.resolve_right not_mem_zero_fst
      refine le_antisymm ?_ (h.lower _)
      rwa [hmake, hv]
  intro v
  split
  · next hle =>
    by_cases htop : L.level (goal v) < topLevel
    · exact hgoal _ v rfl htop hle
    · rw [hL.goal_unreached v (not_lt.mp htop)]
      refine h.same v fun hr => htop ?_
      exact (hL.level_mono _ _ (h.lower v)).trans_lt hr
  · next hlt =>
    refine h.same v fun hr => hlt ?_
    exact (hL.level_mono _ _ (h.lower v)).trans (h.bounded v hr).2

/-- The vertices at distance `r`. -/
def At (L : Labels) (goal : ℕ → ℕ) (r v : ℕ) : Prop := L.level (goal v) = r ∧ L.level (goal v) < topLevel

/-- The vertices at a distance below `r`. -/
def Before (L : Labels) (goal : ℕ → ℕ) (r v : ℕ) : Prop := L.level (goal v) < r ∧ L.level (goal v) < topLevel

/-- Whether a vertex belongs to a round can be decided. -/
instance : DecidablePred (At L goal r) := fun _ => inferInstanceAs (Decidable (_ ∧ _))

/-- Whether a vertex belongs to an earlier round can be decided. -/
instance : DecidablePred (Before L goal r) := fun _ => inferInstanceAs (Decidable (_ ∧ _))

/-- A search whose cells are exact up to a distance that no vertex has is finished. -/
theorem Exact.finished {q : ℕ} (h : Exact L unreached goal q s) (hqr : r ≤ q + 1)
    (hnone : ∀ v, ¬At L goal r v) (v : ℕ) : s.dist v = goal v := by
  by_cases htop : L.level (goal v) < topLevel
  · refine h.of_le ?_
    by_contra hlt
    obtain ⟨w, hw⟩ := exists_level hL rfl htop (j := r) (by omega)
    exact hnone w ⟨hw, by omega⟩
  · rw [h v, hL.goal_unreached v (not_lt.mp htop)]
    split <;> rfl

/-- The rounds with a vertex are fewer than the vertices. -/
theorem At.lt (h : At L goal r v) : r < G.n := by
  obtain ⟨rfl, htop⟩ := h
  have hsurj : Set.SurjOn (fun w => L.level (goal w)) (Finset.range G.n)
    (Finset.range (L.level (goal v) + 1)) := by
    intro j hj
    rw [Finset.mem_coe, Finset.mem_range, Nat.lt_succ_iff] at hj
    obtain ⟨w, rfl⟩ := exists_level hL rfl htop hj
    exact ⟨w, Finset.mem_coe.mpr (Finset.mem_range.mpr (hL.goal_lt w (hj.trans_lt htop))), rfl⟩
  have hcard := Finset.card_le_card_of_surjOn _ hsurj
  rw [Finset.card_range, Finset.card_range] at hcard
  omega

/-- An edge leads from a reachable vertex to a vertex that is reachable and at most one further. -/
theorem level_le_of_edge {u : ℕ} (hedge : G.Edge u v) (hu : L.level (goal u) < topLevel) :
    L.level (goal v) ≤ L.level (goal u) + 1 ∧ L.level (goal v) < topLevel := by
  by_cases hle : L.level (goal v) ≤ L.level (goal u)
  · exact ⟨by omega, by omega⟩
  · -- The levels up to that of `u` are taken by vertices other than `v`.
    have hsurj : Set.SurjOn (fun w => L.level (goal w)) ((Finset.range G.n).erase v)
        (Finset.range (L.level (goal u) + 1)) := by
      intro j hj
      rw [Finset.mem_coe, Finset.mem_range, Nat.lt_succ_iff] at hj
      obtain ⟨w, rfl⟩ := exists_level hL rfl hu hj
      refine ⟨w, Finset.mem_coe.mpr (Finset.mem_erase.mpr ⟨?_, ?_⟩), rfl⟩
      · rintro rfl
        exact hle hj
      · exact Finset.mem_range.mpr (hL.goal_lt w (hj.trans_lt hu))
    have hcard := Finset.card_le_card_of_surjOn _ hsurj
    rw [Finset.card_range, Finset.card_erase_of_mem (Finset.mem_range.mpr hedge.lt), Finset.card_range] at hcard
    have hsize := hL.size
    have hsucc : L.level (goal u) + 1 < topLevel := by
      unfold topLevel
      omega
    have hgoal := hL.level_mono _ _ (hL.goal_le u v _ hedge le_rfl (hsucc.trans (by decide)))
    rw [hL.level_make _ _ (hsucc.trans (by decide)) (hedge.1.trans hsize)] at hgoal
    exact ⟨hgoal, hgoal.trans_lt hsucc⟩

variable (hgather : GathersAll G L source unreached goal env)
  (hdrain : ∀ round stride q, env (.drain round stride q) = drain G L round stride q)
  (hsearch : ∀ round stride v, env (.localSearch round stride v) = localSearch G L round stride v)
include hgather hdrain hsearch

/-- One round of local searches, from every vertex of the frontier at distance `r`. -/
theorem total_searchRound {stride : ℕ} (hexact : Exact L unreached goal r s)
    (hfrontier : ∀ v, At L goal r v → v ∈ s.frontier) (hbelow : ∀ v ∈ s.frontier, Before L goal (r + 1) v)
    (hnext : s.nextFrontier = ∅) (hr : 1 ≤ r) (hstride : 1 ≤ stride) (hB : r + stride < 2 ^ 64) :
    Total env (fun _ s' => s'.active = s.active ∧ s'.frontier = ∅ ∧ Exact L unreached goal (r + stride) s' ∧
      (∀ v, At L goal (r + stride) v → v ∈ s'.nextFrontier) ∧
      ∀ v ∈ s'.nextFrontier, r < L.level (goal v) ∧ Before L goal (r + stride + 1) v)
      (searchRound L stride r) s := by
  let share (v : ℕ) : Debt := if L.level (goal v) = r then owedSlots G v r else 0
  have hexact₀ : Exact L unreached goal r { s with frontier := ∅ } := hexact
  have hinv : SearchInv G L source unreached goal r (r + stride) { s with frontier := ∅ }
      (∑ v ∈ s.frontier, share v) := by
    refine hexact₀.searchInv hL (by omega) hnext (fun u i hu hi hlevel htop => ?_) fun w hw => ?_
    · rw [Prod.fst_sum, Multiset.mem_sum]
      refine ⟨u, hfrontier u ⟨hlevel, htop⟩, ?_⟩
      simp only [share]
      rw [if_pos hlevel]
      exact mem_owedSlots.mpr ⟨i, hi, rfl⟩
    · rw [Prod.snd_sum, Multiset.mem_sum] at hw
      obtain ⟨v, _, hv⟩ := hw
      simp only [share] at hv
      split at hv
      · exact not_mem_owedSlots hv
      · exact not_mem_zero_snd hv
  refine (VertexSet.total_consumeEach (c := frontier) (Q := fun _ _ => True)
    (P := searchProtocol G L source unreached goal r (r + stride)) rfl share hinv
    (fun _ _ _ _ h => h) fun v hv => ?_).mono ?_
  · obtain ⟨hle, htop⟩ := hbelow v hv
    refine Ensures.read fun s₁ o hrel hinv₁ => ?_
    have hdist : s₁.dist v = goal v := le_antisymm (hinv₁.settled v (by omega)) (hinv₁.lower v)
    change Ensures _ env _ (if L.level (s₁.dist v) ≠ r then _ else _) s₁ _
    rw [hdist]
    by_cases hlevel : L.level (goal v) = r
    · rw [if_neg (not_not.mpr hlevel)]
      simp only [share]
      rw [if_pos hlevel]
      have hreached : Reached L s₁ v := by rwa [Reached, levelOf, hdist]
      have hlv : levelOf L s₁ v = r := by rw [levelOf, hdist, hlevel]
      have hq : Queued G L source (r + stride) s₁ v r := by
        refine ⟨hL.goal_lt v htop, ?_, hlv.le, by omega, hlv ▸ (hinv₁.bounded v hreached).1⟩
        rintro rfl
        rw [hL.level_source] at hlevel
        omega
      exact (Ensures.invoke (ensures_localSearch hL hgather rfl hB (hdrain r stride) (hsearch r stride) hq)).mono
        fun _ _ _ h => ⟨trivial, h⟩
    · rw [if_pos hlevel]
      simp only [share]
      rw [if_neg hlevel]
      exact Ensures.ret fun _ _ _ hinv => ⟨0, hinv, trivial, rfl⟩
  · rintro _ s' ⟨hrel, hinv', _⟩
    have hexact' := hinv'.exact hL
    have hlast : ∀ v, At L goal (r + stride) v → v ∈ s'.nextFrontier := by
      rintro v ⟨hv, htop⟩
      have hreached : Reached L s' v := (hexact'.reached_iff hL).mpr ⟨hv.le, htop⟩
      exact (hinv'.last v hreached (by rw [hexact'.levelOf_eq hL hreached, hv])).resolve_right not_mem_zero_snd
    refine ⟨hrel.2.1, hrel.2.2, hexact', hlast, fun v hv => ?_⟩
    obtain ⟨hlt, hreached⟩ := hinv'.fresh v (Or.inl hv)
    obtain ⟨hle, htop⟩ := (hexact'.reached_iff hL).mp hreached
    exact ⟨hlt, Nat.lt_succ_of_le hle, htop⟩

omit hL hgather hdrain hsearch in
/-- A stride stays positive and grows by at most one. -/
theorem adjustStride_bounds (mode elements : ℕ) {stride : ℕ} (h : 1 ≤ stride) :
    1 ≤ adjustStride G mode stride elements ∧ adjustStride G mode stride elements ≤ stride + 1 := by
  unfold adjustStride
  split
  · have hone : 1 ≤ max 1 (1500000 * G.m % 2 ^ 64 / (G.n * elements % 2 ^ 64)) := le_max_left _ _
    dsimp only
    split <;> split <;> omega
  · omega

omit hL hgather hdrain hsearch in
/-- `round--` is undone by `round++`. -/
theorem back_one_add {round : ℕ} (h : 1 ≤ round) (h' : round < 2 ^ 64) : (back round 1 + 1) % 2 ^ 64 = round := by
  unfold back
  omega

/-- The head of the main loop in one of the modes from 5 on. -/
structure LocalHead (L : Labels) (unreached : ℕ) (goal : ℕ → ℕ) (round : ℕ) (s : SearchState) : Prop where
  frontier : s.frontier = ∅
  exact : Exact L unreached goal round s
  next : ∀ v, At L goal round v → v ∈ s.nextFrontier
  before : ∀ v ∈ s.nextFrontier, Before L goal (round + 1) v
  pos : 1 ≤ round

variable (hloop : ∀ mode stride round, 2 ≤ mode → env (.loop mode stride round) = localMode G L mode stride round)
include hloop

/-- From the first round of local searches on, the main loop ends with every cell at its goal. -/
theorem total_localMode {m mode stride round : ℕ} (hm : G.n - round ≤ m)
    (hhead : LocalHead L unreached goal round s) (hround : round ≤ 2 * G.n) (hstride : 1 ≤ stride)
    (hstride' : stride ≤ round + 1) (hmode : 5 ≤ mode) (hmode' : mode ≤ round + 5) :
    Total env (fun _ s' => ∀ v, s'.dist v = goal v) (env (.loop mode stride round)) s := by
  induction m using Nat.strong_induction_on generalizing mode stride round s with
  | _ m ih =>
    have hsize := hL.size
    rw [hloop mode stride round (by omega)]
    refine Total.modify (Total.read ?_)
    change Total env _ (if decide (s.nextFrontier = ∅) = true then _
      else _) ⟨s.active, s.nextFrontier, s.frontier, s.dist⟩
    by_cases hdone : s.nextFrontier = ∅
    · rw [decide_eq_true hdone, if_pos rfl]
      refine Total.ret (hhead.exact.finished hL (Nat.le_succ round) fun v hv => ?_)
      have := hhead.next v hv
      rw [hdone] at this
      exact Finset.notMem_empty v this
    rw [decide_eq_false hdone, if_neg Bool.false_ne_true]
    refine Total.read ?_
    have hbounds := adjustStride_bounds (G := G) mode s.nextFrontier.card hstride
    change Total env _ (searchRound L (adjustStride G mode stride s.nextFrontier.card) round >>= fun _ =>
      again ((mode + 1) % 2 ^ 64) (adjustStride G mode stride s.nextFrontier.card)
        (back (round + adjustStride G mode stride s.nextFrontier.card) 1)) _
    generalize adjustStride G mode stride s.nextFrontier.card = next at hbounds ⊢
    have hexact₁ : Exact L unreached goal round ⟨s.active, s.nextFrontier, s.frontier, s.dist⟩ := hhead.exact
    refine (total_searchRound hL hgather hdrain hsearch hexact₁ hhead.next hhead.before hhead.frontier
      hhead.pos hbounds.1 (by omega)).bind ?_
    rintro _ s₁ ⟨_, hfrontier, hexact, hlast, hfresh⟩
    refine Total.invoke ?_
    rw [back_one_add (by omega) (by omega), Nat.mod_eq_of_lt (by omega : mode + 1 < 2 ^ 64)]
    by_cases hex : ∃ v, At L goal round v
    · -- Some vertex has the distance of this round, so the rounds are not through yet.
      obtain ⟨v, hv⟩ := hex
      have hlt := hv.lt hL
      refine ih (G.n - (round + next)) (by omega) le_rfl
        ⟨hfrontier, hexact, hlast, fun v hv => (hfresh v hv).2, by omega⟩ (by omega) hbounds.1 (by omega)
        (by omega) (by omega)
    · -- No vertex has it: nothing was lowered, and the next iteration leaves the loop.
      push Not at hex
      have hempty : s₁.nextFrontier = ∅ := by
        refine Finset.eq_empty_of_forall_notMem fun v hv => ?_
        obtain ⟨hlt, _, htop⟩ := hfresh v hv
        obtain ⟨w, hw⟩ := exists_level hL rfl htop hlt.le
        exact hex w ⟨hw, by omega⟩
      rw [hloop _ _ _ (by omega)]
      refine Total.modify (Total.read ?_)
      change Total env _ (if decide (s₁.nextFrontier = ∅) = true then _ else _) _
      rw [decide_eq_true hempty, if_pos rfl]
      exact Total.ret (hexact.finished hL (by omega) hex)

end Search

end ToggleTree
