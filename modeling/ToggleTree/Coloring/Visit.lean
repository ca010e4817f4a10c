import ToggleTree.Coloring.Round

/-!
# The calls of a round

A call inspects the slots of its vertex in any order, chooses the least colour that is neither in the
palette nor marked, and stores it. Every round colours its frontier.
-/

namespace ToggleTree

open ForkJoin ForkJoin.Prog

namespace Coloring

section Calls

variable {G : CSR} {s₀ s : ColoringState} {v i j : ℕ} {used : Palette} {env : ColoringCall → ColoringProg Unit}

/-- What the slots from `i` up to `j` of `v` have contributed. -/
structure Collected (G : CSR) (s₀ : ColoringState) (v i j : ℕ) (used : Palette) (s : ColoringState) : Prop where
  palette : ∀ c, inPalette used c ↔ c < 512 ∧ ∃ k, i ≤ k ∧ k < j ∧ s₀.color (G.outEdge k) = c
  marks : ∀ k, i ≤ k → k < j → 512 ≤ s₀.color (G.outEdge k) → s₀.color (G.outEdge k) < G.degree v →
    s.usedColor (G.outOffset v + s₀.color (G.outEdge k)) = true

namespace Collected

/-- What has been collected stays so. -/
theorem rel {s' : ColoringState} (h : Collected G s₀ v i j used s) (hrel : (roundProtocol G s₀).rel s s') :
    Collected G s₀ v i j used s' :=
  ⟨h.palette, fun k hi hj hlow hhigh => hrel _ (h.marks k hi hj hlow hhigh)⟩

/-- No slot has been looked at. -/
theorem empty (i : ℕ) (s : ColoringState) : Collected G s₀ v i i (fun _ => 0) s :=
  ⟨fun c => iff_of_false inPalette_zero fun h => by
    obtain ⟨_, k, hi, hk, _⟩ := h
    omega, fun k hi hk => by omega⟩

/-- The palettes of two ranges. -/
theorem mix {k : ℕ} {used' : Palette} (hij : i ≤ j) (hjk : j ≤ k) (h : Collected G s₀ v i j used s)
    (h' : Collected G s₀ v j k used' s) : Collected G s₀ v i k (colorMix used used') s := by
  refine ⟨fun c => ?_, fun l hi hk => ?_⟩
  · rw [inPalette_colorMix, h.palette, h'.palette, ← and_or_left]
    refine and_congr_right fun _ => ⟨?_, ?_⟩
    · rintro (⟨l, hi, hj, heq⟩ | ⟨l, hj, hk, heq⟩)
      · exact ⟨l, hi, by omega, heq⟩
      · exact ⟨l, by omega, hk, heq⟩
    · rintro ⟨l, hi, hk, heq⟩
      by_cases hj : l < j
      · exact Or.inl ⟨l, hi, hj, heq⟩
      · exact Or.inr ⟨l, by omega, hk, heq⟩
  · by_cases hj : l < j
    · exact h.marks l hi hj
    · exact h'.marks l (by omega) hk

/-- A slot that contributes nothing to the palette. -/
theorem single (hlow : 512 ≤ s₀.color (G.outEdge i)) (hmarks : s₀.color (G.outEdge i) < G.degree v →
    s.usedColor (G.outOffset v + s₀.color (G.outEdge i)) = true) : Collected G s₀ v i (i + 1) (fun _ => 0) s := by
  refine ⟨fun c => iff_of_false inPalette_zero ?_, fun k hi hk _ => ?_⟩
  · rintro ⟨hc, k, hi, hk, heq⟩
    obtain rfl : k = i := by omega
    omega
  · obtain rfl : k = i := by omega
    exact hmarks

/-- The palette of one slot. -/
theorem pigment (hlow : s₀.color (G.outEdge i) < 512) :
    Collected G s₀ v i (i + 1) (Coloring.pigment (s₀.color (G.outEdge i))) s := by
  refine ⟨fun c => ?_, fun k hi hk hhigh => ?_⟩
  · rw [inPalette_pigment hlow]
    constructor
    · rintro rfl
      exact ⟨hlow, i, le_rfl, Nat.lt_succ_self i, rfl⟩
    · rintro ⟨_, k, hi, hk, heq⟩
      obtain rfl : k = i := by omega
      exact heq.symm
  · obtain rfl : k = i := by omega
    omega

end Collected

/-- The slot of a vertex without a colour. -/
theorem unblock_round (h₀ : Head G s₀) (hG : Colorable G) (hv : v ∈ s₀.frontier) (hi : G.OutSlot v i)
    (hcolor : s₀.color (G.outEdge i) = uncolored) (s : ColoringState) :
    Ensures (roundProtocol G s₀) env (fun _ _ a => a = (0, {i}, 0)) (unblock (G.outEdge i)) s ({i}, 0, 0) := by
  refine Ensures.act fun s' o _ hinv => ?_
  obtain ⟨pending, inspected, owed⟩ := o
  change RoundInv G s₀ s' ({i} + pending) (0 + inspected) (0 + owed) at hinv
  rw [zero_add, zero_add] at hinv
  have hnext := hinv.decrement h₀ hG hv hi hcolor
  by_cases hone : s'.numBlockers (G.outEdge i) = 1
  · rw [if_pos hone] at hnext
    have hprevious : (blockersCell (G.outEdge i)).get s' = 1 := hone
    refine ⟨(0, {i}, {G.outEdge i}), fun _ h => h, ?_, ?_⟩
    · change RoundInv G s₀ _ (0 + pending) ({i} + inspected) ({G.outEdge i} + owed)
      rw [zero_add]
      exact hnext
    · rw [if_pos hprevious]
      refine Ensures.act fun s₁ o₁ _ hinv₁ => ⟨(0, {i}, 0), fun _ h => h, ?_, ?_⟩
      · obtain ⟨pending₁, inspected₁, owed₁⟩ := o₁
        change RoundInv G s₀ _ (0 + pending₁) ({i} + inspected₁) (0 + owed₁)
        rw [zero_add owed₁]
        exact RoundInv.insert hinv₁
      · exact Ensures.ret fun _ _ _ hinv₂ => ⟨_, hinv₂, rfl⟩
  · rw [if_neg hone] at hnext
    have hprevious : (blockersCell (G.outEdge i)).get s' ≠ 1 := hone
    refine ⟨(0, {i}, 0), fun _ h => h, ?_, ?_⟩
    · change RoundInv G s₀ _ (0 + pending) ({i} + inspected) (0 + owed)
      rw [zero_add, zero_add]
      exact hnext
    · rw [if_neg hprevious]
      exact Ensures.ret fun _ _ _ hinv₂ => ⟨_, hinv₂, rfl⟩

/-- Looking at a slot gives the palette of it. -/
theorem inspect_round (h₀ : Head G s₀) (hG : Colorable G) (hv : v ∈ s₀.frontier) (hi : G.OutSlot v i)
    (s : ColoringState) :
    Ensures (roundProtocol G s₀) env (fun used s' a => Collected G s₀ v i (i + 1) used s' ∧ a = (0, {i}, 0))
      (inspect G v i) s ({i}, 0, 0) := by
  have hdegree := hG.degrees v (h₀.lt hv)
  refine Ensures.read fun s₁ o _ hinv => ?_
  have hcolor : (colorCell (G.outEdge i)).get s₁ = s₀.color (G.outEdge i) := RoundInv.color_eq hinv h₀ hG hv hi
  have hpass {s₂ : ColoringState} {o : SlotClaims} (hne : s₀.color (G.outEdge i) ≠ uncolored)
      (hinv : (roundProtocol G s₀).inv s₂ (({i}, 0, 0) + o)) : (roundProtocol G s₀).inv s₂ ((0, {i}, 0) + o) := by
    obtain ⟨pending, inspected, owed⟩ := o
    change RoundInv G s₀ s₂ ({i} + pending) (0 + inspected) (0 + owed) at hinv
    rw [zero_add] at hinv
    change RoundInv G s₀ s₂ (0 + pending) ({i} + inspected) (0 + owed)
    rw [zero_add pending]
    exact hinv.pass hne h₀
  rw [hcolor]
  by_cases huncolored : s₀.color (G.outEdge i) = uncolored
  · rw [if_pos huncolored]
    refine (unblock_round h₀ hG hv hi huncolored s₁).bind ?_
    rintro _ s₂ _ rfl
    refine Ensures.ret fun s₃ _ _ hinv₃ => ⟨_, hinv₃, Collected.single ?_ fun hlt => ?_, rfl⟩
    · rw [huncolored]
      decide
    · rw [huncolored] at hlt
      omega
  · rw [if_neg huncolored]
    by_cases hlow : s₀.color (G.outEdge i) < 512
    · rw [if_pos hlow]
      exact Ensures.ret fun s₂ _ _ hinv₂ => ⟨_, hpass huncolored hinv₂, Collected.pigment hlow, rfl⟩
    · rw [if_neg hlow]
      by_cases hhigh : s₀.color (G.outEdge i) < G.degree v
      · rw [if_pos hhigh]
        refine Ensures.modify fun s₂ o₂ _ hinv₂ => ⟨(0, {i}, 0), fun k hk => ?_, ?_, ?_⟩
        · change Function.update s₂.usedColor (G.outOffset v + s₀.color (G.outEdge i)) true k = true
          by_cases heq : k = G.outOffset v + s₀.color (G.outEdge i)
          · rw [heq, Function.update_self]
          · rwa [Function.update_of_ne heq]
        · exact RoundInv.mark (hpass huncolored hinv₂) h₀ hv hi rfl hhigh
        · refine Ensures.ret fun s₃ _ hrel hinv₃ => ⟨_, hinv₃, Collected.single (not_lt.mp hlow) fun _ => ?_, rfl⟩
          refine hrel _ ?_
          change Function.update s₂.usedColor _ true _ = true
          rw [Function.update_self]
      · rw [if_neg hhigh]
        exact Ensures.ret fun s₂ _ _ hinv₂ =>
          ⟨_, hpass huncolored hinv₂, Collected.single (not_lt.mp hlow) fun h => absurd h hhigh, rfl⟩

/-- A colour that a neighbour has. -/
def Taken (G : CSR) (s₀ : ColoringState) (v c : ℕ) : Prop := ∃ i, G.OutSlot v i ∧ s₀.color (G.outEdge i) = c

/-- The least colour below all that are free is what the vertex is to take. -/
theorem chosen_eq (h₀ : Head G s₀) (hG : Colorable G) (hv : v ∈ s₀.frontier) {c : ℕ} (hc : c ≤ G.degree v)
    (hfree : ¬Taken G s₀ v c) (htaken : ∀ d < c, Taken G s₀ v d) : c = chosen G v := by
  have hdegree := hG.degrees v (h₀.lt hv)
  have hleast : IsLeast {c | c < uncolored → ∀ i, G.OutSlot v i → s₀.color (G.outEdge i) ≠ c} c := by
    refine ⟨fun _ i hi heq => hfree ⟨i, hi, heq⟩, fun d hd => ?_⟩
    by_contra hlt
    obtain ⟨i, hi, heq⟩ := htaken d (not_le.mp hlt)
    exact hd (by omega) i hi heq
  exact hleast.unique (h₀.isLeast_free hG hv)

/-- The colours up to a taken run are at most as many as the neighbours. -/
theorem le_degree_of_taken {k : ℕ} (htaken : ∀ c < k, Taken G s₀ v c) : k ≤ G.degree v := by
  obtain ⟨c, hc, hfree⟩ := CSR.exists_value_le_degree (G := G) (fun i => s₀.color (G.outEdge i)) v
  by_contra hlt
  obtain ⟨i, hi, heq⟩ := htaken c (by omega)
  exact hfree i hi heq

/-- The palette of all slots has the taken colours. -/
theorem inPalette_iff_taken (h : Collected G s₀ v (G.outOffset v) (G.outOffset (v + 1)) used s) {c : ℕ}
    (hc : c < 512) :
    inPalette used c ↔ Taken G s₀ v c := by
  rw [h.palette, and_iff_right hc]
  exact exists_congr fun k => and_assoc.symm

/-- Whether a slot is marked does not depend on the schedule. -/
theorem findFree_round (h₀ : Head G s₀) (hv : v ∈ s₀.frontier)
    (h : Collected G s₀ v (G.outOffset v) (G.outOffset (v + 1)) used s) (hdegree : 512 ≤ G.degree v) :
    Ensures (roundProtocol G s₀) env
      (fun free _ a => Ensures.FirstIndex (fun c => ¬Taken G s₀ v c) 512 (G.degree v) free ∧ a = 0)
      (findFor 512 (G.degree v) fun i => do
        let marked ← atomicRead (usedCell (G.outOffset v + i))
        return !marked) s 0 := by
  refine Ensures.findFor hdegree fun c s₁ hc hc' hrel => ?_
  refine Ensures.read fun s₂ o hrel₂ hinv => Ensures.ret fun _ _ _ hinv' => ⟨0, hinv', ?_, rfl⟩
  change (!s₂.usedColor (G.outOffset v + c)) = true ↔ _
  rw [Bool.not_eq_true', ← Bool.not_eq_true, not_iff_not]
  constructor
  · exact RoundInv.used hinv v (h₀.lt hv) (h₀.color_eq hv) c hc'
  · rintro ⟨k, hk, rfl⟩
    exact hrel₂ _ (hrel _ (h.marks k hk.1 hk.2 hc hc'))

/-- The search among the larger colours, if all below 512 are taken. -/
theorem chosen_eq_getD (h₀ : Head G s₀) (hG : Colorable G) (hv : v ∈ s₀.frontier)
    (hlow : ∀ c < 512, Taken G s₀ v c) {free : Option ℕ}
    (hfree : Ensures.FirstIndex (fun c => ¬Taken G s₀ v c) 512 (G.degree v) free) :
    free.getD (G.degree v) = chosen G v := by
  cases free with
  | some c =>
    obtain ⟨hc, hc', hnot, hbelow⟩ := (hfree.some_iff c).mp rfl
    refine chosen_eq h₀ hG hv hc'.le hnot fun d hd => ?_
    by_cases hd' : d < 512
    · exact hlow d hd'
    · exact not_not.mp (hbelow d (not_lt.mp hd') hd)
  | none =>
    have htaken (d : ℕ) (hd : d < G.degree v) : Taken G s₀ v d := by
      by_cases hd' : d < 512
      · exact hlow d hd'
      · exact not_not.mp (hfree.none_iff.mp rfl d (not_lt.mp hd') hd)
    refine chosen_eq h₀ hG hv le_rfl (fun hdegree => ?_) htaken
    have hmore := le_degree_of_taken (k := G.degree v + 1) fun c hc => by
      rcases Nat.lt_succ_iff_lt_or_eq.mp hc with hc | rfl
      · exact htaken c hc
      · exact hdegree
    omega

/-- The vertex gets the colour of the sequential colouring. -/
theorem chooseColor_round (h₀ : Head G s₀) (hG : Colorable G) (hv : v ∈ s₀.frontier)
    (h : Collected G s₀ v (G.outOffset v) (G.outOffset (v + 1)) used s) :
    Ensures (roundProtocol G s₀) env (fun c _ a => c = chosen G v ∧ a = 0) (chooseColor G v used) s 0 := by
  unfold chooseColor
  cases hfirst : freeColor used with
  | some c =>
    obtain ⟨hc, hfree, hbelow⟩ := freeColor_eq_some hfirst
    have htaken (d : ℕ) (hd : d < c) : Taken G s₀ v d := (inPalette_iff_taken h (by omega)).mp (hbelow d hd)
    have hnot : ¬Taken G s₀ v c := fun htaken => hfree ((inPalette_iff_taken h hc).mpr htaken)
    have heq := chosen_eq h₀ hG hv (le_degree_of_taken htaken) hnot htaken
    exact Ensures.ret fun _ _ _ hinv => ⟨0, hinv, heq, rfl⟩
  | none =>
    have hlow (c : ℕ) (hc : c < 512) : Taken G s₀ v c :=
      (inPalette_iff_taken h hc).mp (freeColor_eq_none hfirst hc)
    refine (findFree_round h₀ hv h (le_degree_of_taken hlow)).bind ?_
    rintro free s₁ _ ⟨hfree, rfl⟩
    exact Ensures.ret fun _ _ _ hinv => ⟨0, hinv, chosen_eq_getD h₀ hG hv hlow hfree, rfl⟩

/-- A sum of pending slots. -/
theorem sum_pending (F : Finset ℕ) (m : ℕ → Multiset ℕ) :
    ∑ v ∈ F, ((m v, 0, 0) : SlotClaims) = (∑ v ∈ F, m v, 0, 0) := by
  refine Prod.ext ?_ (Prod.ext ?_ ?_)
  · rw [Prod.fst_sum]
  · rw [Prod.snd_sum, Prod.fst_sum]
    exact Finset.sum_const_zero
  · rw [Prod.snd_sum, Prod.snd_sum]
    exact Finset.sum_const_zero

/-- A sum of inspected slots. -/
theorem sum_inspected (F : Finset ℕ) (m : ℕ → Multiset ℕ) :
    ∑ v ∈ F, ((0, m v, 0) : SlotClaims) = (0, ∑ v ∈ F, m v, 0) := by
  refine Prod.ext ?_ (Prod.ext ?_ ?_)
  · rw [Prod.fst_sum]
    exact Finset.sum_const_zero
  · rw [Prod.snd_sum, Prod.fst_sum]
  · rw [Prod.snd_sum, Prod.snd_sum]
    exact Finset.sum_const_zero

/-- A vertex of the frontier is coloured and its slots are used up. -/
theorem colorVertex_round (h₀ : Head G s₀) (hG : Colorable G) (hv : v ∈ s₀.frontier) (s : ColoringState) :
    Ensures (roundProtocol G s₀) env (fun _ _ a => True ∧ a = 0) (colorVertex G v) s (G.slots v, 0, 0) := by
  have hinspect : Ensures (roundProtocol G s₀) env
      (fun used s' a => Collected G s₀ v (G.outOffset v) (G.outOffset (v + 1)) used s' ∧
        a = ∑ i ∈ Finset.Ico (G.outOffset v) (G.outOffset (v + 1)), ((0, {i}, 0) : SlotClaims))
      (reduce colorMix (fun _ => 0) 256 (G.outOffset v) (G.outOffset (v + 1)) (inspect G v)) s
      (∑ i ∈ Finset.Ico (G.outOffset v) (G.outOffset (v + 1)), (({i}, 0, 0) : SlotClaims)) :=
    Ensures.reduce_exchange (I := fun i j used s => Collected G s₀ v i j used s) _ _ (CSR.outOffset_le (h₀.lt hv))
      (fun _ _ _ _ _ _ hrel h => h.rel hrel) Collected.empty (fun _ _ _ _ _ _ => Collected.mix)
      fun i s' hi hi' _ => inspect_round h₀ hG hv ⟨hi, hi'⟩ s'
  rw [sum_pending, sum_inspected, Finset.sum_multiset_singleton] at hinspect
  refine hinspect.bind ?_
  rintro used s₁ _ ⟨hcollected, rfl⟩
  have hchoose : Ensures (roundProtocol G s₀) env (fun c _ a => c = chosen G v ∧ a = 0)
    (chooseColor G v used) s₁ 0 :=
    chooseColor_round h₀ hG hv hcollected
  have hchosen := hchoose.frame (0, G.slots v, 0)
  rw [zero_add] at hchosen
  refine hchosen.bind ?_
  rintro _ s₂ _ ⟨_, ⟨rfl, rfl⟩, rfl⟩
  rw [zero_add]
  refine Ensures.atom fun s₃ o _ hinv => ⟨0, fun _ h => h, ?_,
    Ensures.ret fun _ _ _ hinv' => ⟨0, hinv', trivial, rfl⟩⟩
  obtain ⟨pending, inspected, owed⟩ := o
  change RoundInv G s₀ s₃ (0 + pending) (G.slots v + inspected) (0 + owed) at hinv
  change RoundInv G s₀ _ (0 + pending) (0 + inspected) (0 + owed)
  rw [zero_add inspected]
  exact hinv.finish h₀ hv

end Calls

end Coloring

end ToggleTree
