import ToggleTree.Coloring.Program

/-!
# A round of the colouring

The vertices of the frontier are not adjacent to each other, so all colours that a call reads have
been there before the round. A slot is pending until it has been inspected and is kept by its call
until the vertex has its colour; the count of a vertex that still waits is what will remain after
the round and the pending slots that name it.
-/

namespace ToggleTree

open ForkJoin ForkJoin.Prog

namespace Coloring

/-- What the algorithm is run on. -/
structure Colorable (G : CSR) : Prop where
  vertices : G.n < 2 ^ 32
  symmetric : G.Symmetric
  degrees : ∀ v < G.n, G.degree v < uncolored

section Waiting

variable (G : CSR)

/-- The number of slots of `v` that name a vertex before `v` without a colour. -/
def waitsFor (color : ℕ → ℕ) (v : ℕ) : ℕ :=
  {i ∈ Finset.Ico (G.outOffset v) (G.outOffset (v + 1)) |
    prior G (G.outEdge i) v ∧ color (G.outEdge i) = uncolored}.card

/-- What is left of it when the vertices of `F` have got colours. -/
def waitsAfter (color : ℕ → ℕ) (F : Finset ℕ) (v : ℕ) : ℕ :=
  {i ∈ Finset.Ico (G.outOffset v) (G.outOffset (v + 1)) |
    (prior G (G.outEdge i) v ∧ color (G.outEdge i) = uncolored) ∧ G.outEdge i ∉ F}.card

/-- What holds whenever an iteration starts: colours are final, and the frontier holds the vertices
that wait for nobody. -/
structure Head (s : ColoringState) : Prop where
  nextFrontier : s.nextFrontier = ∅
  colored : ∀ v < G.n, s.color v ≠ uncolored →
    s.color v = chosen G v ∧ ∀ u, G.Edge v u → prior G u v → s.color u ≠ uncolored
  frontier : ∀ v, v ∈ s.frontier ↔ v < G.n ∧ s.color v = uncolored ∧ waitsFor G s.color v = 0
  blockers : ∀ v < G.n, s.color v = uncolored → s.numBlockers v = waitsFor G s.color v
  connected : ∀ v < G.n, s.color v = uncolored → 0 < G.degree v
  used : ∀ v < G.n, s.color v = uncolored → ∀ c < G.degree v, s.usedColor (G.outOffset v + c) = true →
    ∃ i, G.OutSlot v i ∧ s.color (G.outEdge i) = c

end Waiting

section Frontier

variable {G : CSR} {s : ColoringState} {v i : ℕ}

/-- A vertex waits for nothing when every neighbour with priority has a colour. -/
theorem waitsFor_eq_zero {color : ℕ → ℕ} :
    waitsFor G color v = 0 ↔ ∀ i, G.OutSlot v i → prior G (G.outEdge i) v → color (G.outEdge i) ≠ uncolored := by
  rw [waitsFor, Finset.card_eq_zero, Finset.filter_eq_empty_iff]
  refine forall_congr' fun i => ?_
  rw [CSR.mem_slots, not_and]

/-- A vertex waits for at most as many neighbours as it has. -/
theorem waitsFor_le_degree (color : ℕ → ℕ) (v : ℕ) : waitsFor G color v ≤ G.degree v := by
  refine (Finset.card_filter_le _ _).trans ?_
  rw [Nat.card_Ico]
  exact le_rfl

namespace Head

/-- The frontier consists of vertices. -/
theorem lt (h : Head G s) (hv : v ∈ s.frontier) : v < G.n := ((h.frontier v).mp hv).1

/-- The frontier has no colour yet. -/
theorem color_eq (h : Head G s) (hv : v ∈ s.frontier) : s.color v = uncolored := ((h.frontier v).mp hv).2.1

/-- The neighbours of the frontier with priority have a colour. -/
theorem free (h : Head G s) (hv : v ∈ s.frontier) (hi : G.OutSlot v i) (hprior : prior G (G.outEdge i) v) :
    s.color (G.outEdge i) ≠ uncolored := waitsFor_eq_zero.mp ((h.frontier v).mp hv).2.2 i hi hprior

/-- A vertex of the frontier comes before its neighbours without a colour. -/
theorem prior_neighbour (h : Head G s) (hG : Colorable G) (hv : v ∈ s.frontier) (hi : G.OutSlot v i)
    (hcolor : s.color (G.outEdge i) = uncolored) (hne : G.outEdge i ≠ v) : prior G v (G.outEdge i) := by
  have hu := (CSR.outEdge_lt (h.lt hv) hi).trans hG.vertices
  exact (prior_total hu ((h.lt hv).trans hG.vertices) hne).resolve_left fun hprior => h.free hv hi hprior hcolor

/-- No two vertices of the frontier are adjacent. -/
theorem independent (h : Head G s) (hG : Colorable G) (hv : v ∈ s.frontier) (hi : G.OutSlot v i)
    (hu : G.outEdge i ∈ s.frontier) : G.outEdge i = v := by
  by_contra hne
  have hprior := h.prior_neighbour hG hv hi (h.color_eq hu) hne
  obtain ⟨_, j, hj, heq⟩ := hG.symmetric.edge ⟨h.lt hv, i, hi, rfl⟩
  refine h.free hu hj ?_ ?_
  · rwa [heq]
  · rw [heq]
    exact h.color_eq hv

/-- The colours that a vertex of the frontier sees are those of the neighbours before it. -/
theorem isLeast_free (h : Head G s) (hG : Colorable G) (hv : v ∈ s.frontier) :
    IsLeast {c | c < uncolored → ∀ i, G.OutSlot v i → s.color (G.outEdge i) ≠ c} (chosen G v) := by
  have hvn := h.lt hv
  have hset : {c | ∀ u, G.Edge v u → prior G u v → chosen G u ≠ c} =
      {c | c < uncolored → ∀ i, G.OutSlot v i → s.color (G.outEdge i) ≠ c} := by
    refine Set.ext fun c => ⟨?_, ?_⟩
    · intro hfree hc i hi heq
      have hu := CSR.outEdge_lt hvn hi
      have hcolored : s.color (G.outEdge i) ≠ uncolored := by omega
      have hne : G.outEdge i ≠ v := by
        intro huv
        rw [huv] at hcolored
        exact hcolored (h.color_eq hv)
      obtain ⟨hchosen, hbefore⟩ := h.colored _ hu hcolored
      refine hfree (G.outEdge i) ⟨hvn, i, hi, rfl⟩ ?_ (hchosen ▸ heq)
      refine (prior_total (hu.trans hG.vertices) (hvn.trans hG.vertices) hne).resolve_right fun hprior => ?_
      exact hbefore v (hG.symmetric.edge ⟨hvn, i, hi, rfl⟩) hprior (h.color_eq hv)
    · rintro hfree u ⟨_, i, hi, rfl⟩ hprior heq
      have hu := CSR.outEdge_lt hvn hi
      have hchosen := (h.colored _ hu (h.free hv hi hprior)).1
      have hlt := (chosen_le_degree hG.vertices hu).trans_lt (hG.degrees _ hu)
      refine hfree (heq ▸ hlt) i hi ?_
      rw [hchosen, heq]
  rw [← hset]
  exact chosen_isLeast hG.vertices hvn

end Head

end Frontier

section Round

/-- What a branch holds: slots that it is still to inspect, slots that it has inspected for a vertex
without a colour, and vertices that it is still to insert. -/
abbrev SlotClaims := Multiset ℕ × Multiset ℕ × Multiset ℕ

/-- The state while the calls of a round run that started in `s₀`. -/
structure RoundInv (G : CSR) (s₀ s : ColoringState) (pending inspected owed : Multiset ℕ) : Prop where
  frontier : s.frontier = ∅
  nodup : (pending + inspected).Nodup
  source : ∀ i ∈ pending + inspected, ∃ v ∈ s₀.frontier, G.OutSlot v i
  kept : ∀ v, v ∉ s₀.frontier → s.color v = s₀.color v
  waiting : ∀ v ∈ s₀.frontier, ∀ i, G.OutSlot v i → i ∈ pending + inspected → s.color v = uncolored
  finished : ∀ v ∈ s₀.frontier, (∀ i, G.OutSlot v i → i ∉ pending + inspected) → s.color v = chosen G v
  blockers : ∀ v < G.n, s₀.color v = uncolored → v ∉ s₀.frontier →
    s.numBlockers v = waitsAfter G s₀.color s₀.frontier v + G.countTo pending v ∧ s.numBlockers v < 2 ^ 32
  own : ∀ v ∈ s₀.frontier, (s.numBlockers v + G.slotsTo v v) % 2 ^ 32 = G.countTo pending v % 2 ^ 32 ∧
    G.countTo pending v ≤ G.slotsTo v v
  next : ∀ v, v ∈ s.nextFrontier ∨ v ∈ owed ↔
    v < G.n ∧ s₀.color v = uncolored ∧ v ∉ s₀.frontier ∧ s.numBlockers v = 0
  used : ∀ v < G.n, s₀.color v = uncolored → ∀ c < G.degree v, s.usedColor (G.outOffset v + c) = true →
    ∃ i, G.OutSlot v i ∧ s₀.color (G.outEdge i) = c

/-- Marks stay. -/
def roundProtocol (G : CSR) (s₀ : ColoringState) : Protocol ColoringState SlotClaims where
  inv s t := RoundInv G s₀ s t.1 t.2.1 t.2.2
  rel s s' := ∀ k, s.usedColor k = true → s'.usedColor k = true
  refl _ _ h := h
  trans h h' k hk := h' k (h k hk)

variable {G : CSR} {s₀ s : ColoringState} {pending inspected owed : Multiset ℕ} {v i : ℕ}

/-- One more pending slot. -/
theorem countTo_pending (i : ℕ) (pending : Multiset ℕ) (v : ℕ) :
    G.countTo ({i} + pending) v = (if G.outEdge i = v then 1 else 0) + G.countTo pending v := by
  rw [CSR.countTo_add, CSR.countTo_singleton]

namespace RoundInv

/-- While a slot is pending, what its neighbour had before the round has not changed. -/
theorem color_eq (h : RoundInv G s₀ s ({i} + pending) inspected owed) (h₀ : Head G s₀) (hG : Colorable G)
    (hv : v ∈ s₀.frontier) (hi : G.OutSlot v i) : s.color (G.outEdge i) = s₀.color (G.outEdge i) := by
  by_cases hu : G.outEdge i ∈ s₀.frontier
  · have heq := h₀.independent hG hv hi hu
    have hmem : i ∈ {i} + pending + inspected :=
      Multiset.mem_add.mpr (Or.inl (Multiset.mem_add.mpr (Or.inl (Multiset.mem_singleton_self i))))
    rw [heq, h₀.color_eq hv]
    exact h.waiting v hv i hi hmem
  · exact h.kept _ hu

/-- A neighbour that has a colour. -/
theorem pass (h : RoundInv G s₀ s ({i} + pending) inspected owed) (hcolor : s₀.color (G.outEdge i) ≠ uncolored)
    (h₀ : Head G s₀) : RoundInv G s₀ s pending ({i} + inspected) owed := by
  have hslots : pending + ({i} + inspected) = {i} + pending + inspected := by rw [add_left_comm, add_assoc]
  have hcount {v : ℕ} (hv : s₀.color v = uncolored) : G.countTo ({i} + pending) v = G.countTo pending v := by
    rw [countTo_pending, if_neg fun heq => hcolor (by rw [heq, hv]), zero_add]
  refine ⟨h.frontier, hslots ▸ h.nodup, hslots ▸ h.source, h.kept, hslots ▸ h.waiting, hslots ▸ h.finished,
    fun v hv huncolored hF => ?_, fun v hv => ?_, h.next, h.used⟩
  · rw [← hcount huncolored]
    exact h.blockers v hv huncolored hF
  · rw [← hcount (h₀.color_eq hv)]
    exact h.own v hv

/-- The count of a vertex of the frontier wraps around and never reaches 1. -/
theorem numBlockers_ne_one (h : RoundInv G s₀ s ({i} + pending) inspected owed) (h₀ : Head G s₀)
    (hG : Colorable G) (hu : G.outEdge i ∈ s₀.frontier) : s.numBlockers (G.outEdge i) ≠ 1 := by
  intro hone
  have hown := h.own _ hu
  have hdegree := hG.degrees _ (h₀.lt hu)
  have hle := CSR.slotsTo_le_degree (G := G) (G.outEdge i) (G.outEdge i)
  rw [hone, countTo_pending, if_pos rfl] at hown
  unfold uncolored at hdegree
  omega

/-- A vertex is to be inserted from when its count has reached 0. -/
theorem next_decrement (h : RoundInv G s₀ s ({i} + pending) inspected owed) (h₀ : Head G s₀) (hG : Colorable G)
    (hlt : G.outEdge i < G.n) (hcolor : s₀.color (G.outEdge i) = uncolored) :
    G.outEdge i ∈ s.nextFrontier ∨
        G.outEdge i ∈ (if s.numBlockers (G.outEdge i) = 1 then {G.outEdge i} + owed else owed) ↔
      G.outEdge i < G.n ∧ s₀.color (G.outEdge i) = uncolored ∧ G.outEdge i ∉ s₀.frontier ∧
        (s.numBlockers (G.outEdge i) + (2 ^ 32 - 1)) % 2 ^ 32 = 0 := by
  have hnext := h.next (G.outEdge i)
  by_cases hF : G.outEdge i ∈ s₀.frontier
  · rw [if_neg (h.numBlockers_ne_one h₀ hG hF)]
    exact iff_of_false (fun hmem => (hnext.mp hmem).2.2.1 hF) fun hright => hright.2.2.1 hF
  · have hb := h.blockers _ hlt hcolor hF
    rw [countTo_pending, if_pos rfl] at hb
    by_cases hone : s.numBlockers (G.outEdge i) = 1
    · rw [if_pos hone, hone]
      have hmem : G.outEdge i ∈ {G.outEdge i} + owed :=
        Multiset.mem_add.mpr (Or.inl (Multiset.mem_singleton_self _))
      exact iff_of_true (Or.inr hmem) ⟨hlt, hcolor, hF, by norm_num⟩
    · rw [if_neg hone]
      refine iff_of_false (fun hmem => ?_) fun hright => ?_
      · have hzero := (hnext.mp hmem).2.2.2
        omega
      · have hzero := hright.2.2.2
        omega

/-- A neighbour that still waits is blocked by one slot less; whoever takes the last one is to insert it. -/
theorem decrement (h : RoundInv G s₀ s ({i} + pending) inspected owed) (h₀ : Head G s₀) (hG : Colorable G)
    (hv : v ∈ s₀.frontier) (hi : G.OutSlot v i) (hcolor : s₀.color (G.outEdge i) = uncolored) :
    RoundInv G s₀ ((blockersCell (G.outEdge i)).put
      ((s.numBlockers (G.outEdge i) + (2 ^ 32 - 1)) % 2 ^ 32) s) pending
      ({i} + inspected) (if s.numBlockers (G.outEdge i) = 1 then {G.outEdge i} + owed else owed) := by
  have hslots : pending + ({i} + inspected) = {i} + pending + inspected := by rw [add_left_comm, add_assoc]
  have hlt := CSR.outEdge_lt (h₀.lt hv) hi
  have hself :
    ((blockersCell (G.outEdge i)).put ((s.numBlockers (G.outEdge i) + (2 ^ 32 - 1)) % 2 ^ 32) s).numBlockers
      (G.outEdge i) = (s.numBlockers (G.outEdge i) + (2 ^ 32 - 1)) % 2 ^ 32 :=
        Function.update_self _ _ s.numBlockers
  have hother {v : ℕ} (hne : v ≠ G.outEdge i) :
      ((blockersCell (G.outEdge i)).put ((s.numBlockers (G.outEdge i) + (2 ^ 32 - 1)) % 2 ^ 32) s).numBlockers v =
        s.numBlockers v := Function.update_of_ne hne _ s.numBlockers
  refine ⟨h.frontier, hslots ▸ h.nodup, hslots ▸ h.source, h.kept, hslots ▸ h.waiting, hslots ▸ h.finished,
    fun v hv huncolored hF => ?_, fun v hv => ?_, fun v => ?_, h.used⟩
  · have hb := h.blockers v hv huncolored hF
    rw [countTo_pending] at hb
    by_cases hvu : v = G.outEdge i
    · subst hvu
      rw [if_pos rfl] at hb
      rw [hself]
      omega
    · rw [hother hvu]
      rwa [if_neg fun heq => hvu heq.symm, zero_add] at hb
  · have hb := h.own v hv
    rw [countTo_pending] at hb
    by_cases hvu : v = G.outEdge i
    · subst hvu
      rw [if_pos rfl] at hb
      rw [hself]
      omega
    · rw [hother hvu]
      rwa [if_neg fun heq => hvu heq.symm, zero_add] at hb
  · by_cases hvu : v = G.outEdge i
    · subst hvu
      rw [hself]
      exact h.next_decrement h₀ hG hlt hcolor
    · have howed : v ∈ (if s.numBlockers (G.outEdge i) = 1 then {G.outEdge i} + owed else owed) ↔ v ∈ owed := by
        split
        · rw [Multiset.mem_add, Multiset.mem_singleton, or_iff_right hvu]
        · exact Iff.rfl
      rw [hother hvu, howed]
      exact h.next v

/-- The insertion that was owed. -/
theorem insert {u : ℕ} (h : RoundInv G s₀ s pending inspected ({u} + owed)) :
    RoundInv G s₀ { s with nextFrontier := Insert.insert u s.nextFrontier } pending inspected owed := by
  refine { h with next := fun v => ?_ }
  rw [← h.next v, Finset.mem_insert, Multiset.mem_add, Multiset.mem_singleton]
  tauto

/-- A slot of a vertex of the frontier is marked with a colour that a neighbour has. -/
theorem mark {c : ℕ} (h : RoundInv G s₀ s pending inspected owed) (h₀ : Head G s₀) (hv : v ∈ s₀.frontier)
    (hi : G.OutSlot v i) (hcolor : s₀.color (G.outEdge i) = c) (hc : c < G.degree v) :
    RoundInv G s₀ ((usedCell (G.outOffset v + c)).put true s) pending inspected owed := by
  refine { h with used := fun u hu huncolored d hd hused => ?_ }
  by_cases hk : G.outOffset u + d = G.outOffset v + c
  · unfold CSR.degree at hc hd
    have huv : u = v := CSR.slot_unique hu (h₀.lt hv) (i := G.outOffset u + d) ⟨by omega, by omega⟩
      ⟨by omega, by omega⟩
    subst huv
    obtain rfl : d = c := by omega
    exact ⟨i, hi, hcolor⟩
  · refine h.used u hu huncolored d hd ?_
    change Function.update s.usedColor (G.outOffset v + c) true (G.outOffset u + d) = true at hused
    rwa [Function.update_of_ne hk] at hused

/-- A vertex that has inspected all its slots gets its colour. -/
theorem finish
    (h : RoundInv G s₀ s pending ((Finset.Ico (G.outOffset v) (G.outOffset (v + 1))).val + inspected) owed)
    (h₀ : Head G s₀) (hv : v ∈ s₀.frontier) :
    RoundInv G s₀ ((colorCell v).put (chosen G v) s) pending inspected owed := by
  have hslots : pending + ((Finset.Ico (G.outOffset v) (G.outOffset (v + 1))).val + inspected) =
      (Finset.Ico (G.outOffset v) (G.outOffset (v + 1))).val + (pending + inspected) := add_left_comm _ _ _
  have hnodup := hslots ▸ h.nodup
  have hmem {i : ℕ} (hi : i ∈ pending + inspected) :
      i ∈ pending + ((Finset.Ico (G.outOffset v) (G.outOffset (v + 1))).val + inspected) := by
    rw [hslots]
    exact Multiset.mem_add.mpr (Or.inr hi)
  have hnone {i : ℕ} (hi : i ∈ pending + inspected) : ¬G.OutSlot v i := fun hslot =>
    Multiset.disjoint_left.mp (Multiset.nodup_add.mp hnodup).2.2 (CSR.mem_slots.mpr hslot) hi
  have hself : ((colorCell v).put (chosen G v) s).color v = chosen G v := Function.update_self v _ s.color
  have hother {u : ℕ} (hne : u ≠ v) : ((colorCell v).put (chosen G v) s).color u = s.color u :=
    Function.update_of_ne hne _ s.color
  refine ⟨h.frontier, (Multiset.nodup_add.mp hnodup).2.1, fun i hi => h.source i (hmem hi), fun u hu => ?_,
    fun u hu i hi hpending => ?_, fun u hu hfinished => ?_, h.blockers, h.own, h.next, h.used⟩
  · rw [hother fun heq : u = v => hu (heq ▸ hv)]
    exact h.kept u hu
  · rw [hother fun heq : u = v => hnone hpending (heq ▸ hi)]
    exact h.waiting u hu i hi (hmem hpending)
  · by_cases huv : u = v
    · rw [huv, hself]
    · rw [hother huv]
      refine h.finished u hu fun i hi hpending => ?_
      rw [hslots, Multiset.mem_add] at hpending
      rcases hpending with hpending | hpending
      · exact huv (CSR.slot_unique (h₀.lt hu) (h₀.lt hv) hi (CSR.mem_slots.mp hpending))
      · exact hfinished i hi hpending

end RoundInv

end Round

end Coloring

end ToggleTree
