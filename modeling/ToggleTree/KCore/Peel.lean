import ToggleTree.KCore.Program

/-!
# Peeling a frontier

While the vertices of a frontier are peeled, a slot is left if its vertex is active, is in the next
frontier, or is held by a branch, or if a branch is still to peel it. The count of a vertex is the
number of slots left that name it, or `k` if that is larger; decrements below `k` are on their way
back. Whoever takes a count down to `k` claims the vertex.
-/

namespace ToggleTree

open ForkJoin ForkJoin.Prog

namespace KCore

/-- What a branch holds: slots that it is to peel, vertices that it is to take out of `active`, vertices
that it has taken out, vertices of which it has taken a slot too many, and vertices that it is to insert
into `resample`. -/
abbrev PeelClaims := Multiset ℕ × Multiset ℕ × Multiset ℕ × Multiset ℕ × Multiset ℕ

/-- All slots of the graph. -/
def allSlots (G : CSR) : Multiset ℕ := ∑ u ∈ Finset.range G.n, G.slots u

/-- The number of slots that name `v` and have not been processed. -/
def left (G : CSR) (s : KCoreState) (v : ℕ) : ℕ := G.countTo (allSlots G - s.processed) v

/-- The state while a frontier is peeled, from a state `s₀` in which its slots are pending. -/
structure PeelInv (G : CSR) (workers k : ℕ) (s₀ s : KCoreState) (pending removals held excess owed : Multiset ℕ) :
    Prop where
  frontier : s.frontier = ∅
  sampleMode : s.sampleMode = s₀.sampleMode
  place : s.place = s₀.place
  active_le : s.active ⊆ s₀.active
  nodup : (removals + held + s.nextFrontier.val).Nodup
  claimed : ∀ v ∈ removals, v ∈ s.active ∧ v ∉ s₀.sampleMode
  taken : ∀ v ∈ held, v ∈ s₀.active ∧ v ∉ s₀.sampleMode ∧ v ∉ s.active
  next : ∀ v ∈ s.nextFrontier, v ∈ s₀.active ∧ v ∉ s₀.sampleMode ∧ v ∉ s.active
  account : ∑ u ∈ s.active, G.slots u + ∑ u ∈ s.nextFrontier, G.slots u + (held.map G.slots).sum + pending +
    s.processed = allSlots G
  live : ∀ v ∈ s₀.active, v ∉ s₀.sampleMode → (k < left G s v ↔ v ∈ s.active ∧ v ∉ removals)
  count : ∀ v ∈ s₀.active, v ∉ s₀.sampleMode →
    s.coreness v + excess.count v = max k (left G s v) ∧ (excess.count v = 0 ∨ excess.count v + left G s v ≤ k)
  kept : ∀ v, v ∉ s₀.active ∨ v ∈ s₀.sampleMode → s.coreness v = s₀.coreness v
  sampled : ∀ v ∈ s₀.sampleMode, v ∈ s.active ∧
    ∑ w ∈ Finset.range workers, s.shards w (s₀.place v) = (left G s v : ℤ) - k ∧
      ((∀ w < workers, 0 < s.shards w (s₀.place v)) ∨ v ∈ s.resample ∨ v ∈ owed)
  resample : ∀ v, v ∈ s.resample ∨ v ∈ owed → v ∈ s₀.sampleMode
  core : ∀ H, IsCore G (k + 1) H → ∀ v ∈ H, v ∈ s.active ∧ v ∉ removals

section Shards

variable {s : KCoreState} {w p w' p' workers : ℕ} {x : ℤ}

/-- The counters after one is set. -/
theorem shards_setShard : (setShard w p x s).shards w' p' = if w' = w ∧ p' = p then x else s.shards w' p' := by
  change Function.update s.shards w (Function.update (s.shards w) p x) w' p' = _
  by_cases hw : w' = w
  · subst hw
    rw [Function.update_self]
    by_cases hp : p' = p
    · rw [if_pos ⟨rfl, hp⟩, hp, Function.update_self]
    · rw [if_neg fun h => hp h.2, Function.update_of_ne hp]
  · rw [if_neg fun h => hw h.1, Function.update_of_ne hw]

/-- The sum of the counters after one is set. -/
theorem sum_setShard (hw : w < workers) : ∑ w' ∈ Finset.range workers, (setShard w p x s).shards w' p =
    ∑ w' ∈ Finset.range workers, s.shards w' p - s.shards w p + x := by
  rw [← Finset.add_sum_erase _ _ (Finset.mem_range.mpr hw),
    ← Finset.add_sum_erase _ (fun w' => s.shards w' p) (Finset.mem_range.mpr hw)]
  have hrest : ∑ w' ∈ (Finset.range workers).erase w, (setShard w p x s).shards w' p =
      ∑ w' ∈ (Finset.range workers).erase w, s.shards w' p :=
    Finset.sum_congr rfl fun w' hw' => by
      rw [shards_setShard, if_neg fun h => (Finset.ne_of_mem_erase hw') h.1]
  rw [hrest, shards_setShard, if_pos ⟨rfl, rfl⟩]
  ring

end Shards

section Left

variable {G : CSR} {s : KCoreState} {rest : Multiset ℕ} {i v : ℕ}

/-- The edges that are left are those that have not been processed. -/
theorem left_eq (h : rest + s.processed = allSlots G) : left G s v = G.countTo rest v := by
  rw [left, ← h, add_tsub_cancel_right]

/-- A slot that has not been processed is processed. -/
theorem left_note (h : {i} + rest + s.processed = allSlots G) :
    left G s v = (if G.outEdge i = v then 1 else 0) + left G (note i s) v := by
  have hnext : rest + (note i s).processed = allSlots G := by
    rw [← h]
    change rest + ({i} + s.processed) = _
    rw [add_left_comm, add_assoc]
  rw [left_eq h, left_eq hnext, CSR.countTo_add, CSR.countTo_singleton]

/-- No more edges are left than there are. -/
theorem slotsTo_le_allSlots : G.countTo (allSlots G - s.processed) v ≤ G.countTo (allSlots G) v :=
  Multiset.countP_le_of_le _ (Multiset.sub_le_self _ _)

/-- All slots that name a vertex are as many as its own slots. -/
theorem countTo_allSlots (hsymm : G.Symmetric) (hv : v < G.n) : G.countTo (allSlots G) v = G.degree v := by
  rw [allSlots, hsymm.countTo_eq (fun u hu => Finset.mem_range.mp hu) hv]
  exact degreeInto_range hv

/-- At most all edges of a vertex are left. -/
theorem left_le_degree (hsymm : G.Symmetric) (hv : v < G.n) : left G s v ≤ G.degree v := by
  rw [← countTo_allSlots hsymm hv]
  exact slotsTo_le_allSlots

/-- A core among the vertices whose slots have not been processed is counted. -/
theorem le_left {k : ℕ} {H S : Finset ℕ} (hsymm : G.Symmetric) (hH : IsCore G k H) (hle : H ⊆ S)
    (h : ∑ u ∈ S, G.slots u + rest + s.processed = allSlots G) (hv : v ∈ H) : k ≤ left G s v := by
  refine (hH.le_countTo hsymm hv).trans ?_
  rw [left_eq h, CSR.countTo_add, CSR.countTo_sum, CSR.countTo_sum]
  exact (Finset.sum_le_sum_of_subset hle).trans (Nat.le_add_right _ _)

/-- If exactly the slots of `S` have not been processed, the slots left of a vertex are those into `S`. -/
theorem left_eq_degreeInto {S : Finset ℕ} (hsymm : G.Symmetric) (hS : S ⊆ Finset.range G.n)
    (h : ∑ u ∈ S, G.slots u + s.processed = allSlots G) (hv : v < G.n) : left G s v = degreeInto G S v := by
  rw [left_eq h, hsymm.countTo_eq (fun u hu => Finset.mem_range.mp (hS hu)) hv]
  rfl

end Left

section Steps

variable {G : CSR} {workers k : ℕ} {s₀ s : KCoreState}
  {pending removals held excess owed : Multiset ℕ} {d i v : ℕ}

/-- A slot that is to be processed. -/
theorem PeelInv.left_eq_note (h : PeelInv G workers k s₀ s ({i} + pending) removals held excess owed) (v : ℕ) :
    left G s v = (if G.outEdge i = v then 1 else 0) + left G (note i s) v := by
  have haccount : {i} + (∑ u ∈ s.active, G.slots u + ∑ u ∈ s.nextFrontier, G.slots u + (held.map G.slots).sum +
      pending) + s.processed = allSlots G := by
    rw [← h.account]
    abel
  exact left_note haccount

/-- The slots are accounted for after one of them has been processed. -/
theorem PeelInv.account_note (h : PeelInv G workers k s₀ s ({i} + pending) removals held excess owed) :
    ∑ u ∈ s.active, G.slots u + ∑ u ∈ s.nextFrontier, G.slots u + (held.map G.slots).sum + pending +
      ({i} + s.processed) = allSlots G := by
  rw [← h.account]
  abel

namespace PeelInv

/-- A vertex that is to be removed is active and nowhere else. -/
theorem ne_of_removal (h : PeelInv G workers k s₀ s pending ({d} + removals) held excess owed) :
    d ∈ s.active ∧ d ∉ s₀.sampleMode ∧ d ∉ removals ∧ d ∉ held ∧ d ∉ s.nextFrontier := by
  obtain ⟨hactive, hsample⟩ := h.claimed d (Multiset.mem_add.mpr (Or.inl (Multiset.mem_singleton_self d)))
  refine ⟨hactive, hsample, fun hmem => ?_, fun hmem => (h.taken d hmem).2.2 hactive,
    fun hmem => (h.next d hmem).2.2 hactive⟩
  have hnodup := h.nodup
  rw [add_assoc, add_assoc, Multiset.singleton_add, Multiset.nodup_cons] at hnodup
  exact hnodup.1 (Multiset.mem_add.mpr (Or.inl hmem))

/-- A slot that names a vertex which is not active any more. -/
theorem skip (h : PeelInv G workers k s₀ s ({i} + pending) removals held excess owed)
    (hi : G.outEdge i ∉ s.active) :
    PeelInv G workers k s₀ (note i s) pending removals held excess owed := by
  have hlive := h.live
  have hcount := h.count
  have hsampled := h.sampled
  simp only [h.left_eq_note] at hlive hcount hsampled
  refine { h with
    account := h.account_note, live := fun v hv hs => ?_, count := fun v hv hs => ?_, sampled := fun v hv => ?_ }
  · have hl := hlive v hv hs
    by_cases heq : G.outEdge i = v
    · rw [if_pos heq] at hl
      subst heq
      refine iff_of_false (fun hlt => ?_) fun hmem => hi hmem.1
      exact hi (hl.mp (by omega)).1
    · rwa [if_neg heq, zero_add] at hl
  · have hl := hlive v hv hs
    have hc := hcount v hv hs
    change s.coreness v + _ = _ ∧ _
    by_cases heq : G.outEdge i = v
    · rw [if_pos heq] at hl hc
      subst heq
      have hfalse : ¬k < 1 + left G (note i s) (G.outEdge i) := fun hlt => hi (hl.mp hlt).1
      omega
    · rwa [if_neg heq, zero_add] at hc
  · have hs := hsampled v hv
    have hne : G.outEdge i ≠ v := fun heq => hi (heq ▸ hs.1)
    rwa [if_neg hne, zero_add] at hs

/-- A slot that names a vertex which is counted in shards. -/
theorem strike (h : PeelInv G workers k s₀ s ({i} + pending) removals held excess owed)
    (hinj : Set.InjOn s₀.place s₀.sampleMode) (hd : G.outEdge i ∈ s₀.sampleMode) {w : ℕ} (hw : w < workers) :
    PeelInv G workers k s₀
      (note i (setShard w (s₀.place (G.outEdge i)) (s.shards w (s₀.place (G.outEdge i)) - 1) s))
        pending removals held
      excess (if s.shards w (s₀.place (G.outEdge i)) - 1 = 0 then {G.outEdge i} + owed else owed) := by
  have hlive := h.live
  have hcount := h.count
  have hsampled := h.sampled
  simp only [h.left_eq_note] at hlive hcount hsampled
  have hnot {v : ℕ} (hs : v ∉ s₀.sampleMode) : G.outEdge i ≠ v := fun heq => hs (heq ▸ hd)
  have howed {v : ℕ} (hv : v ∈ owed) :
      v ∈ (if s.shards w (s₀.place (G.outEdge i)) - 1 = 0 then {G.outEdge i} + owed else owed) := by
    split
    · exact Multiset.mem_add.mpr (Or.inr hv)
    · exact hv
  refine { h with
    account := h.account_note, live := fun v hv hs => ?_, count := fun v hv hs => ?_, sampled := fun v hv => ?_,
    resample := fun v hv => ?_ }
  · have hl := hlive v hv hs
    rwa [if_neg (hnot hs), zero_add] at hl
  · have hc := hcount v hv hs
    rwa [if_neg (hnot hs), zero_add] at hc
  · obtain ⟨hactive, hsum, hpos⟩ := hsampled v hv
    change v ∈ s.active ∧ ∑ w' ∈ Finset.range workers, (setShard w _ _ s).shards w' (s₀.place v) =
      (left G (note i s) v : ℤ) - k ∧ ((∀ w' < workers, 0 < (setShard w _ _ s).shards w' (s₀.place v)) ∨ _)
    by_cases heq : G.outEdge i = v
    · subst heq
      rw [if_pos rfl] at hsum
      push_cast at hsum
      refine ⟨hactive, ?_, ?_⟩
      · rw [sum_setShard hw]
        omega
      · rcases hpos with hpos | hpos | hpos
        · by_cases hzero : s.shards w (s₀.place (G.outEdge i)) - 1 = 0
          · rw [if_pos hzero]
            exact Or.inr (Or.inr (Multiset.mem_add.mpr (Or.inl (Multiset.mem_singleton_self _))))
          · refine Or.inl fun w' hw' => ?_
            have hw₁ := hpos w hw
            have hw₂ := hpos w' hw'
            rw [shards_setShard]
            split <;> omega
        · exact Or.inr (Or.inl hpos)
        · exact Or.inr (Or.inr (howed hpos))
    · have hne : s₀.place v ≠ s₀.place (G.outEdge i) := fun hp => heq (hinj hv hd hp).symm
      rw [if_neg heq, zero_add] at hsum
      simp only [shards_setShard, hne, and_false, if_false]
      exact ⟨hactive, hsum, hpos.imp_right (Or.imp_right howed)⟩
  · rcases hv with hv | hv
    · exact h.resample v (Or.inl hv)
    · split at hv
      · rcases Multiset.mem_add.mp hv with hv | hv
        · rwa [Multiset.mem_singleton.mp hv]
        · exact h.resample v (Or.inr hv)
      · exact h.resample v (Or.inr hv)

/-- What a decrement leaves of the other counts. -/
theorem coreness_put (s : KCoreState) (d c v : ℕ) :
    ((corenessCell d).put c s).coreness v = if v = d then c else s.coreness v := by
  change Function.update s.coreness d c v = _
  rw [Function.update_apply]

/-- A count that is above `k` goes down by one, and the vertex is claimed when it reaches `k`. -/
theorem lower (h : PeelInv G workers k s₀ s ({i} + pending) removals held excess owed) (hsymm : G.Symmetric)
    (hd : G.outEdge i ∈ s₀.active) (hs : G.outEdge i ∉ s₀.sampleMode) (hlt : G.outEdge i < G.n)
    (hdegree : G.degree (G.outEdge i) < 2 ^ 32) (hk : k < s.coreness (G.outEdge i)) :
    PeelInv G workers k s₀
      (note i ((corenessCell (G.outEdge i)).put ((s.coreness (G.outEdge i) + (2 ^ 32 - 1)) % 2 ^ 32) s)) pending
      (if s.coreness (G.outEdge i) = (k + 1) % 2 ^ 32 then {G.outEdge i} + removals
        else removals) held excess owed := by
  have hlive := h.live
  have hcount := h.count
  have hsampled := h.sampled
  have hbound := (left_le_degree (s := s) hsymm hlt).trans_lt hdegree
  rw [h.left_eq_note, if_pos rfl] at hbound
  simp only [h.left_eq_note] at hlive hcount hsampled
  have hc := hcount _ hd hs
  have hl := hlive _ hd hs
  rw [if_pos rfl] at hc hl
  have hmod : (k + 1) % 2 ^ 32 = k + 1 := Nat.mod_eq_of_lt (by omega)
  obtain ⟨hactive, hunclaimed⟩ := hl.mp (by omega)
  have hmem {v : ℕ} :
    v ∈ (if s.coreness (G.outEdge i) = (k + 1) % 2 ^ 32 then {G.outEdge i} + removals else removals) ↔
      v ∈ removals ∨ v = G.outEdge i ∧ s.coreness (G.outEdge i) = k + 1 := by
    rw [hmod]
    split
    · next hone => rw [Multiset.mem_add, Multiset.mem_singleton, or_comm, and_iff_left hone]
    · next hone => exact (or_iff_left fun h => hone h.2).symm
  refine { h with
    nodup := ?_, claimed := fun v hv => ?_, account := h.account_note, live := fun v hv hv' => ?_,
    count := fun v hv hv' => ?_, kept := fun v hv => ?_, sampled := fun v hv => ?_, core := fun H hH v hv => ?_ }
  · split
    · rw [add_assoc, add_assoc, Multiset.singleton_add, Multiset.nodup_cons, ← add_assoc]
      refine ⟨fun hmem => ?_, h.nodup⟩
      rcases Multiset.mem_add.mp hmem with hmem | hmem
      · rcases Multiset.mem_add.mp hmem with hmem | hmem
        · exact hunclaimed hmem
        · exact (h.taken _ hmem).2.2 hactive
      · exact (h.next _ hmem).2.2 hactive
    · exact h.nodup
  · rcases hmem.mp hv with hv | ⟨rfl, _⟩
    · exact h.claimed v hv
    · exact ⟨hactive, hs⟩
  · change k < left G (note i s) v ↔ v ∈ s.active ∧ _
    rw [hmem]
    have hlv := hlive v hv hv'
    by_cases heq : G.outEdge i = v
    · subst heq
      constructor
      · exact fun hk' => ⟨hactive, fun hor => hor.elim hunclaimed fun hone => by omega⟩
      · intro hright
        have hne : s.coreness (G.outEdge i) ≠ k + 1 := fun hone => hright.2 (Or.inr ⟨rfl, hone⟩)
        omega
    · rw [if_neg heq, zero_add] at hlv
      rw [hlv, or_iff_left fun hor => heq hor.1.symm]
  · change ((corenessCell _).put _ s).coreness v + _ = max k (left G (note i s) v) ∧
      (_ ∨ _ + left G (note i s) v ≤ k)
    rw [coreness_put]
    have hcv := hcount v hv hv'
    by_cases heq : G.outEdge i = v
    · subst heq
      rw [if_pos rfl]
      omega
    · rw [if_neg heq, zero_add] at hcv
      rwa [if_neg (Ne.symm heq)]
  · change ((corenessCell _).put _ s).coreness v = _
    rw [coreness_put, if_neg fun heq => ?_]
    · exact h.kept v hv
    · subst heq
      exact hv.elim (fun hv => hv hd) hs
  · have hsv := hsampled v hv
    rwa [if_neg fun heq : G.outEdge i = v => hs (heq ▸ hv), zero_add] at hsv
  · obtain ⟨hvactive, hvunclaimed⟩ := h.core H hH v hv
    refine ⟨hvactive, fun hor => ?_⟩
    rcases hmem.mp hor with hor | ⟨rfl, hone⟩
    · exact hvunclaimed hor
    · -- the slots into a larger core keep the count above `k`
      have hle : k + 1 ≤ left G (note i s) (G.outEdge i) := by
        have haccount : ∑ u ∈ s.active, G.slots u + (∑ u ∈ s.nextFrontier, G.slots u + (held.map G.slots).sum +
            pending) + ({i} + s.processed) = allSlots G := by
          rw [← h.account_note]
          abel
        exact le_left hsymm hH (fun u hu => (h.core H hH u hu).1) haccount hv
      omega

/-- A count that is not above `k` is taken too low. -/
theorem exceed (h : PeelInv G workers k s₀ s ({i} + pending) removals held excess owed)
    (hd : G.outEdge i ∈ s₀.active) (hs : G.outEdge i ∉ s₀.sampleMode) (hk : s.coreness (G.outEdge i) ≤ k)
    (hk' : k < 2 ^ 32) :
    PeelInv G workers k s₀
      (note i ((corenessCell (G.outEdge i)).put ((s.coreness (G.outEdge i) + (2 ^ 32 - 1)) % 2 ^ 32) s))
        pending removals
      held ({G.outEdge i} + excess) owed := by
  have hlive := h.live
  have hcount := h.count
  have hsampled := h.sampled
  simp only [h.left_eq_note] at hlive hcount hsampled
  have hc := hcount _ hd hs
  rw [if_pos rfl] at hc
  have hexcess (v : ℕ) : ({G.outEdge i} + excess).count v =
    (if v = G.outEdge i then 1 else 0) + excess.count v := by
    rw [Multiset.count_add, Multiset.count_singleton]
  refine { h with
    account := h.account_note, live := fun v hv hv' => ?_, count := fun v hv hv' => ?_, kept := fun v hv => ?_,
    sampled := fun v hv => ?_ }
  · have hlv := hlive v hv hv'
    change k < left G (note i s) v ↔ _
    by_cases heq : G.outEdge i = v
    · subst heq
      rw [if_pos rfl] at hlv
      refine iff_of_false (by omega) fun hmem => ?_
      have := hlv.mpr hmem
      omega
    · rwa [if_neg heq, zero_add] at hlv
  · change ((corenessCell _).put _ s).coreness v + _ = max k (left G (note i s) v) ∧
      (_ ∨ _ + left G (note i s) v ≤ k)
    rw [coreness_put, hexcess]
    have hcv := hcount v hv hv'
    by_cases heq : G.outEdge i = v
    · subst heq
      rw [if_pos rfl, if_pos rfl]
      omega
    · rw [if_neg heq, zero_add] at hcv
      rwa [if_neg (Ne.symm heq), if_neg (Ne.symm heq), zero_add]
  · change ((corenessCell _).put _ s).coreness v = _
    rw [coreness_put, if_neg fun heq => ?_]
    · exact h.kept v hv
    · subst heq
      exact hv.elim (fun hv => hv hd) hs
  · have hsv := hsampled v hv
    rwa [if_neg fun heq : G.outEdge i = v => hs (heq ▸ hv), zero_add] at hsv

/-- The decrement below `k` is undone. -/
theorem restore (h : PeelInv G workers k s₀ s pending removals held ({d} + excess) owed) (hd : d ∈ s₀.active)
    (hs : d ∉ s₀.sampleMode) (hk : k < 2 ^ 32) :
    PeelInv G workers k s₀ ((corenessCell d).put ((s.coreness d + 1) % 2 ^ 32) s) pending removals held
      excess owed := by
  have hexcess (v : ℕ) : ({d} + excess).count v = (if v = d then 1 else 0) + excess.count v := by
    rw [Multiset.count_add, Multiset.count_singleton]
  refine { h with count := fun v hv hv' => ?_, kept := fun v hv => ?_ }
  · have hc := h.count v hv hv'
    rw [hexcess] at hc
    change ((corenessCell d).put _ s).coreness v + _ = max k (left G s v) ∧ (_ ∨ _ + left G s v ≤ k)
    rw [coreness_put]
    by_cases heq : v = d
    · subst heq
      rw [if_pos rfl] at hc ⊢
      omega
    · rw [if_neg heq, zero_add] at hc
      rwa [if_neg heq]
  · rw [coreness_put, if_neg fun heq => ?_]
    · exact h.kept v hv
    · subst heq
      exact hv.elim (fun hv => hv hd) hs

/-- A claimed vertex is taken out of `active`. -/
theorem remove (h : PeelInv G workers k s₀ s pending ({d} + removals) held excess owed) :
    PeelInv G workers k s₀ { s with active := s.active.erase d } pending removals ({d} + held) excess owed := by
  obtain ⟨hactive, hsample, hremovals, hheld, hnext⟩ := h.ne_of_removal
  refine { h with
    active_le := (Finset.erase_subset d _).trans h.active_le, nodup := ?_, claimed := fun v hv => ?_,
    taken := fun v hv => ?_, next := fun v hv => ?_, account := ?_, live := fun v hv hv' => ?_,
    sampled := fun v hv => ?_, core := fun H hH v hv => ?_ }
  · have hnodup := h.nodup
    rwa [add_comm {d} removals, add_assoc removals] at hnodup
  · obtain ⟨hv₁, hv₂⟩ := h.claimed v (Multiset.mem_add.mpr (Or.inr hv))
    exact ⟨Finset.mem_erase.mpr ⟨fun heq => hremovals (heq ▸ hv), hv₁⟩, hv₂⟩
  · rcases Multiset.mem_add.mp hv with hv | hv
    · obtain rfl := Multiset.mem_singleton.mp hv
      exact ⟨h.active_le hactive, hsample, Finset.notMem_erase v _⟩
    · obtain ⟨hv₁, hv₂, hv₃⟩ := h.taken v hv
      exact ⟨hv₁, hv₂, fun hmem => hv₃ (Finset.mem_of_mem_erase hmem)⟩
  · obtain ⟨hv₁, hv₂, hv₃⟩ := h.next v hv
    exact ⟨hv₁, hv₂, fun hmem => hv₃ (Finset.mem_of_mem_erase hmem)⟩
  · rw [← h.account, Multiset.map_add, Multiset.sum_add, Multiset.map_singleton, Multiset.sum_singleton]
    change ∑ u ∈ s.active.erase d, G.slots u + _ + _ + _ + _ = _
    rw [← Finset.sum_erase_add s.active G.slots hactive]
    abel
  · change k < left G s v ↔ v ∈ s.active.erase d ∧ _
    rw [h.live v hv hv', Multiset.mem_add, Multiset.mem_singleton, not_or, Finset.mem_erase]
    tauto
  · obtain ⟨hv₁, hv₂⟩ := h.sampled v hv
    exact ⟨Finset.mem_erase.mpr ⟨fun heq => hsample (heq ▸ hv), hv₁⟩, hv₂⟩
  · obtain ⟨hv₁, hv₂⟩ := h.core H hH v hv
    rw [Multiset.mem_add, Multiset.mem_singleton, not_or] at hv₂
    exact ⟨Finset.mem_erase.mpr ⟨hv₂.1, hv₁⟩, hv₂.2⟩

/-- A vertex that was taken out is to be peeled in the next round. -/
theorem insertNext (h : PeelInv G workers k s₀ s pending removals ({d} + held) excess owed) :
    PeelInv G workers k s₀ { s with nextFrontier := insert d s.nextFrontier } pending removals held
      excess owed := by
  have hnodup := h.nodup
  have hrotate : removals + ({d} + held) + s.nextFrontier.val =
    {d} + (removals + held + s.nextFrontier.val) := by abel
  rw [hrotate, Multiset.singleton_add, Multiset.nodup_cons] at hnodup
  have hnext : d ∉ s.nextFrontier := fun hmem => hnodup.1 (Multiset.mem_add.mpr (Or.inr hmem))
  refine { h with nodup := ?_, taken := fun v hv => ?_, next := fun v hv => ?_, account := ?_ }
  · change (removals + held + (insert d s.nextFrontier).val).Nodup
    rw [Finset.insert_val_of_notMem hnext, ← Multiset.singleton_add, add_left_comm, Multiset.singleton_add,
      Multiset.nodup_cons]
    exact hnodup
  · exact h.taken v (Multiset.mem_add.mpr (Or.inr hv))
  · rcases Finset.mem_insert.mp hv with rfl | hv
    · exact h.taken v (Multiset.mem_add.mpr (Or.inl (Multiset.mem_singleton_self v)))
    · exact h.next v hv
  · rw [← h.account, Multiset.map_add, Multiset.sum_add, Multiset.map_singleton, Multiset.sum_singleton]
    change _ + ∑ u ∈ insert d s.nextFrontier, G.slots u + _ + _ + _ = _
    rw [Finset.sum_insert hnext]
    abel

/-- A vertex that was taken out is peeled at once. -/
theorem start (h : PeelInv G workers k s₀ s pending removals ({d} + held) excess owed) :
    PeelInv G workers k s₀ s (G.slots d + pending) removals held excess owed := by
  have hnodup := h.nodup
  have hrotate : removals + ({d} + held) + s.nextFrontier.val =
    {d} + (removals + held + s.nextFrontier.val) := by abel
  rw [hrotate, Multiset.singleton_add, Multiset.nodup_cons] at hnodup
  refine { h with nodup := hnodup.2, taken := fun v hv => ?_, account := ?_ }
  · exact h.taken v (Multiset.mem_add.mpr (Or.inr hv))
  · rw [← h.account, Multiset.map_add, Multiset.sum_add, Multiset.map_singleton, Multiset.sum_singleton]
    abel

/-- A vertex of which a shard has run out is noted. -/
theorem insertResample (h : PeelInv G workers k s₀ s pending removals held excess ({d} + owed)) :
    PeelInv G workers k s₀ { s with resample := insert d s.resample } pending removals held excess owed := by
  refine { h with sampled := fun v hv => ?_, resample := fun v hv => ?_ }
  · obtain ⟨hactive, hsum, hpos⟩ := h.sampled v hv
    refine ⟨hactive, hsum, hpos.imp_right fun hpos => ?_⟩
    rw [Multiset.mem_add, Multiset.mem_singleton, ← or_assoc] at hpos
    exact hpos.imp_left fun hv => Finset.mem_insert.mpr hv.symm
  · refine h.resample v ?_
    rw [Multiset.mem_add, Multiset.mem_singleton]
    rcases hv with hv | hv
    · exact (Finset.mem_insert.mp hv).elim (fun heq => Or.inr (Or.inl heq)) Or.inl
    · exact Or.inr (Or.inr hv)

end PeelInv

end Steps

end KCore

end ToggleTree
