import ToggleTree.Coloring.Visit

/-!
# The parallel colouring is the sequential one

The first loop counts for every vertex the neighbours before it. A round starts with one pending slot
for each slot of the frontier; since the graph is symmetric, as many of them name a waiting vertex as
its count exceeds what is left after the round. Of the vertices without a colour one that comes
before all others waits for nobody, so the loop goes on until all have one.
-/

namespace ToggleTree

open ForkJoin ForkJoin.Prog

namespace Coloring

variable {G : CSR} {s s' : ColoringState} {v : ℕ}

section Start

namespace Head

/-- An uncolored vertex waits for the frontier and for what it waits for after it. -/
theorem waitsFor_eq (h : Head G s) (hG : Colorable G) (hv : v < G.n) (hcolor : s.color v = uncolored)
    (hF : v ∉ s.frontier) :
    waitsFor G s.color v = waitsAfter G s.color s.frontier v + G.countTo (∑ u ∈ s.frontier, G.slots u) v := by
  rw [hG.symmetric.countTo_eq (fun u => h.lt) hv, waitsFor, waitsAfter,
    ← Finset.card_filter_add_card_filter_not fun i => G.outEdge i ∉ s.frontier, Finset.filter_filter,
    Finset.filter_filter]
  refine congrArg (_ + ·) (congrArg Finset.card (Finset.filter_congr fun i hi => ?_))
  have hslot := CSR.mem_slots.mp hi
  rw [not_not]
  refine ⟨fun hmem => hmem.2, fun hmem => ⟨⟨?_, h.color_eq hmem⟩, hmem⟩⟩
  obtain ⟨_, j, hj, heq⟩ := hG.symmetric.edge ⟨hv, i, hslot, rfl⟩
  have hprior := h.prior_neighbour hG hmem hj (by rw [heq, hcolor]) fun hne => hF (heq.symm.trans hne ▸ hmem)
  rwa [heq] at hprior

/-- The slots of the frontier. -/
theorem mem_slots_frontier {i : ℕ} : i ∈ ∑ v ∈ s.frontier, G.slots v ↔ ∃ v ∈ s.frontier, G.OutSlot v i := by
  rw [Multiset.mem_sum]
  exact exists_congr fun v => and_congr_right fun _ => CSR.mem_slots

/-- The slots of the frontier are all different. -/
theorem nodup_slots_frontier (h : Head G s) : (∑ v ∈ s.frontier, G.slots v).Nodup := by
  rw [Multiset.nodup_iff_count_le_one]
  intro i
  have hcount (v : ℕ) :
      (G.slots v).count i = if i ∈ Finset.Ico (G.outOffset v) (G.outOffset (v + 1)) then 1 else 0 :=
    Multiset.count_eq_of_nodup (Finset.nodup _)
  rw [Multiset.count_sum', Finset.sum_congr rfl fun v _ => hcount v, Finset.sum_boole, Nat.cast_id,
    Finset.card_le_one]
  intro u hu v hv
  rw [Finset.mem_filter, CSR.mem_slots] at hu hv
  exact CSR.slot_unique (h.lt hu.1) (h.lt hv.1) hu.2 hv.2

/-- The slots of the frontier that name one of its vertices are its own. -/
theorem countTo_self (h : Head G s) (hG : Colorable G) (hv : v ∈ s.frontier) :
    G.countTo (∑ u ∈ s.frontier, G.slots u) v = G.slotsTo v v := by
  rw [hG.symmetric.countTo_eq (fun u => h.lt) (h.lt hv), CSR.slotsTo]
  refine congrArg Finset.card (Finset.filter_congr fun i hi => ?_)
  exact ⟨h.independent hG hv (CSR.mem_slots.mp hi), fun heq => heq ▸ hv⟩

/-- A round starts with all slots of the frontier pending. -/
theorem roundInv (h : Head G s) (hG : Colorable G) :
    RoundInv G s { s with frontier := ∅ } (∑ v ∈ s.frontier, G.slots v) 0 0 := by
  refine ⟨rfl, ?_, fun i hi => ?_, fun _ _ => rfl, fun v hv _ _ _ => h.color_eq hv, fun v hv hnone => ?_,
    fun v hv hcolor hF => ⟨?_, ?_⟩, fun v hv => ?_, fun v => ?_, h.used⟩
  · rw [add_zero]
    exact h.nodup_slots_frontier
  · rw [add_zero] at hi
    exact mem_slots_frontier.mp hi
  · have hdegree := h.connected v (h.lt hv) (h.color_eq hv)
    rw [CSR.degree] at hdegree
    have hslot : G.OutSlot v (G.outOffset v) := ⟨le_rfl, by omega⟩
    refine absurd ?_ (hnone _ hslot)
    rw [add_zero]
    exact mem_slots_frontier.mpr ⟨v, hv, hslot⟩
  · exact (h.blockers v hv hcolor).trans (h.waitsFor_eq hG hv hcolor hF)
  · have hle := waitsFor_le_degree (G := G) s.color v
    have hdegree := hG.degrees v hv
    rw [← h.blockers v hv hcolor] at hle
    unfold uncolored at hdegree
    change s.numBlockers v < 2 ^ 32
    omega
  · have hzero : s.numBlockers v = 0 := by
      rw [h.blockers v (h.lt hv) (h.color_eq hv)]
      exact ((h.frontier v).mp hv).2.2
    change (s.numBlockers v + G.slotsTo v v) % 2 ^ 32 = _ ∧ _
    rw [h.countTo_self hG hv, hzero, zero_add]
    exact ⟨rfl, le_rfl⟩
  · refine iff_of_false ?_ ?_
    · rintro (hv | hv)
      · change v ∈ s.nextFrontier at hv
        rw [h.nextFrontier] at hv
        exact Finset.notMem_empty v hv
      · exact Multiset.notMem_zero v hv
    · rintro ⟨hv, hcolor, hF, hzero⟩
      change s.numBlockers v = 0 at hzero
      rw [h.blockers v hv hcolor] at hzero
      exact hF ((h.frontier v).mpr ⟨hv, hcolor, hzero⟩)

end Head

end Start

section Next

namespace RoundInv

/-- After a round exactly its frontier has got colours. -/
theorem uncolored_iff (h : RoundInv G s s' 0 0 0) (hG : Colorable G) (hv : v < G.n) :
    s'.color v = uncolored ↔ s.color v = uncolored ∧ v ∉ s.frontier := by
  by_cases hF : v ∈ s.frontier
  · have hchosen := h.finished v hF fun i _ => Multiset.notMem_zero i
    have hlt := (chosen_le_degree hG.vertices hv).trans_lt (hG.degrees v hv)
    rw [hchosen]
    exact iff_of_false hlt.ne fun h => h.2 hF
  · rw [h.kept v hF, and_iff_left hF]

/-- After the round every vertex waits for what it waits for after the frontier. -/
theorem waitsFor_eq (h : RoundInv G s s' 0 0 0) (hG : Colorable G) (hv : v < G.n) :
    waitsFor G s'.color v = waitsAfter G s.color s.frontier v := by
  rw [waitsFor, waitsAfter]
  refine congrArg Finset.card (Finset.filter_congr fun i hi => ?_)
  rw [h.uncolored_iff hG (CSR.outEdge_lt hv (CSR.mem_slots.mp hi)), and_assoc]

/-- After the round the count of an uncolored vertex is what it waits for. -/
theorem numBlockers_eq (h : RoundInv G s s' 0 0 0) (hG : Colorable G) (hv : v < G.n)
    (hcolor : s.color v = uncolored) (hF : v ∉ s.frontier) : s'.numBlockers v = waitsFor G s'.color v := by
  rw [(h.blockers v hv hcolor hF).1, h.waitsFor_eq hG hv]
  rfl

/-- The end of a round is the start of the next one. -/
theorem head (h : RoundInv G s s' 0 0 0) (h₀ : Head G s) (hG : Colorable G) :
    Head G { s' with frontier := s'.nextFrontier, nextFrontier := s'.frontier } := by
  have hiff {v : ℕ} (hv : v < G.n) := h.uncolored_iff hG hv
  refine ⟨h.frontier, fun v hv hcolor => ?_, fun v => ?_, fun v hv hcolor => ?_,
    fun v hv hcolor => h₀.connected v hv ((hiff hv).mp hcolor).1, fun v hv hcolor c hc hused => ?_⟩
  · by_cases hF : v ∈ s.frontier
    · refine ⟨h.finished v hF fun i _ => Multiset.notMem_zero i, ?_⟩
      rintro u ⟨_, i, hi, rfl⟩ hprior heq
      exact h₀.free hF hi hprior ((hiff (CSR.outEdge_lt hv hi)).mp heq).1
    · change s'.color v ≠ uncolored at hcolor
      rw [h.kept v hF] at hcolor
      obtain ⟨hchosen, hbefore⟩ := h₀.colored v hv hcolor
      refine ⟨(h.kept v hF).trans hchosen, fun u hedge hprior heq => ?_⟩
      exact hbefore u hedge hprior ((hiff hedge.lt).mp heq).1
  · have hnext := h.next v
    change v ∈ s'.nextFrontier ↔ v < G.n ∧ s'.color v = uncolored ∧ waitsFor G s'.color v = 0
    rw [or_iff_left (Multiset.notMem_zero v)] at hnext
    rw [hnext]
    refine and_congr_right fun hv => ?_
    rw [hiff hv, and_assoc]
    refine and_congr_right fun hcolor => and_congr_right fun hF => ?_
    rw [h.numBlockers_eq hG hv hcolor hF]
  · obtain ⟨hcolor', hF⟩ := (hiff hv).mp hcolor
    exact h.numBlockers_eq hG hv hcolor' hF
  · obtain ⟨i, hi, heq⟩ := h.used v hv ((hiff hv).mp hcolor).1 c hc hused
    have hdegree := hG.degrees v hv
    refine ⟨i, hi, ?_⟩
    change s'.color (G.outEdge i) = c
    rw [h.kept _ fun hF => ?_, heq]
    have huncolored := h₀.color_eq hF
    omega

end RoundInv

/-- The number of vertices without a colour. -/
def remaining (G : CSR) (s : ColoringState) : ℕ := {v ∈ Finset.range G.n | s.color v = uncolored}.card

/-- A round colors at least one vertex. -/
theorem remaining_lt (h : RoundInv G s s' 0 0 0) (h₀ : Head G s) (hG : Colorable G) (hne : s.frontier ≠ ∅) :
    remaining G s' < remaining G s := by
  obtain ⟨v, hv⟩ := Finset.nonempty_iff_ne_empty.mpr hne
  refine Finset.card_lt_card (Finset.ssubset_iff_of_subset (fun u hu => ?_) |>.mpr ⟨v, ?_, ?_⟩)
  · rw [Finset.mem_filter] at hu ⊢
    exact ⟨hu.1, ((h.uncolored_iff hG (Finset.mem_range.mp hu.1)).mp hu.2).1⟩
  · exact Finset.mem_filter.mpr ⟨Finset.mem_range.mpr (h₀.lt hv), h₀.color_eq hv⟩
  · rw [Finset.mem_filter, h.uncolored_iff hG (h₀.lt hv)]
    exact fun hmem => hmem.2.2 hv

namespace Head

/-- A round comes to its end with nothing left to do. -/
theorem total_round (h : Head G s) (hG : Colorable G) {env : ColoringCall → ColoringProg Unit} :
    Total env (fun _ s' => RoundInv G s s' 0 0 0)
      (VertexSet.consumeEach Coloring.frontier (colorVertex G)) s := by
  have hstart : (roundProtocol G s).inv { s with frontier := ∅ }
      (∑ v ∈ s.frontier, ((G.slots v, 0, 0) : SlotClaims)) := by
    rw [sum_pending]
    exact h.roundInv hG
  refine (VertexSet.total_consumeEach (P := roundProtocol G s) (Q := fun _ _ => True)
    (c := Coloring.frontier) rfl _
    hstart (fun _ _ _ _ _ => trivial) fun v hv => colorVertex_round h hG hv _).mono ?_
  rintro _ s' ⟨_, hinv, _⟩
  exact hinv

/-- Of the vertices without a colour one waits for nobody. -/
theorem all_colored (h : Head G s) (hempty : s.frontier = ∅) (hv : v < G.n) : s.color v = chosen G v := by
  refine (h.colored v hv fun hcolor => ?_).1
  have hmem {u : ℕ} : u ∈ {u ∈ Finset.range G.n | s.color u = uncolored} ↔ u < G.n ∧ s.color u = uncolored := by
    rw [Finset.mem_filter, Finset.mem_range]
  obtain ⟨u, hu, hfirst⟩ := Finset.exists_min_image {u ∈ Finset.range G.n | s.color u = uncolored} (rank G)
    ⟨v, hmem.mpr ⟨hv, hcolor⟩⟩
  obtain ⟨hun, hucolor⟩ := hmem.mp hu
  have hwaits : waitsFor G s.color u = 0 := waitsFor_eq_zero.mpr fun i hi hprior heq => by
    have hle := hfirst _ (hmem.mpr ⟨CSR.outEdge_lt hun hi, heq⟩)
    exact absurd (prior_iff.mp hprior) (not_lt.mpr hle)
  have hfrontier := (h.frontier u).mpr ⟨hun, hucolor, hwaits⟩
  rw [hempty] at hfrontier
  exact Finset.notMem_empty u hfrontier

/-- The main loop stops with the chosen colours. -/
theorem total_loop (h : Head G s) (hG : Colorable G) :
    Total (coloringProcedures G) (fun _ s' => ∀ v < G.n, s'.color v = chosen G v) (invoke .loop) s := by
  induction hn : remaining G s using Nat.strong_induction_on generalizing s with
  | _ n ih =>
    subst hn
    refine Total.invoke (Total.read ?_)
    by_cases hempty : Coloring.frontier.get s = ∅
    · rw [if_pos (decide_eq_true hempty)]
      exact Total.ret fun v hv => h.all_colored hempty hv
    · rw [if_neg fun hdone => hempty (of_decide_eq_true hdone)]
      refine (h.total_round hG).bind fun _ s' hround => Total.modify ?_
      exact ih _ (remaining_lt hround h hG hempty) (hround.head h hG) rfl

end Head

end Next

section Init

/-- The state while the first loop runs. -/
structure InitInv (G : CSR) (s : ColoringState) : Prop where
  color : ∀ v, s.color v = uncolored ∨ G.degree v = 0 ∧ s.color v = 0
  frontier : ∀ v ∈ s.frontier, v < G.n ∧ 0 < G.degree v ∧ waitsFor G (fun _ => uncolored) v = 0
  nextFrontier : s.nextFrontier = ∅
  used : ∀ k, s.usedColor k = false

/-- What an iteration has done for its vertex. -/
structure Counted (G : CSR) (v : ℕ) (s : ColoringState) : Prop where
  isolated : G.degree v = 0 → s.color v = 0
  blockers : 0 < G.degree v → s.numBlockers v = waitsFor G (fun _ => uncolored) v
  frontier : 0 < G.degree v → waitsFor G (fun _ => uncolored) v = 0 → v ∈ s.frontier

/-- What is right stays right. -/
def initProtocol (G : CSR) : Protocol ColoringState ℕ where
  inv s _ := InitInv G s
  rel s s' := (∀ v, G.degree v = 0 → s.color v = 0 → s'.color v = 0) ∧
    (∀ v, s.numBlockers v = waitsFor G (fun _ => uncolored) v →
      s'.numBlockers v = waitsFor G (fun _ => uncolored) v) ∧
    s.frontier ⊆ s'.frontier
  refl _ := ⟨fun _ _ h => h, fun _ h => h, Finset.Subset.refl _⟩
  trans h h' := ⟨fun v hv hc => h'.1 v hv (h.1 v hv hc), fun v hb => h'.2.1 v (h.2.1 v hb), h.2.2.trans h'.2.2⟩

/-- What has been counted stays so. -/
theorem Counted.rel (h : Counted G v s) (hrel : (initProtocol G).rel s s') : Counted G v s' :=
  ⟨fun hv => hrel.1 v hv (h.isolated hv), fun hv => hrel.2.1 v (h.blockers hv),
    fun hv hzero => hrel.2.2 (h.frontier hv hzero)⟩

variable {env : ColoringCall → ColoringProg Unit}

/-- The count of a vertex is the number of its neighbours with priority. -/
theorem countBlockers_init (hG : Colorable G) (hv : v < G.n) (s : ColoringState) :
    Ensures (initProtocol G) env (fun count _ a => count = waitsFor G (fun _ => uncolored) v ∧ a = 0)
      (countBlockers G v) s 0 := by
  have hloop : Ensures (initProtocol G) env
      (fun count _ a => count = (∑ i ∈ Finset.Ico (G.outOffset v) (G.outOffset (v + 1)),
        if prior G (G.outEdge i) v then 1 else 0) % 2 ^ 32 ∧ a = 0) (countBlockers G v) s
      (∑ _i ∈ Finset.Ico (G.outOffset v) (G.outOffset (v + 1)), 0) := by
    refine Ensures.reduce (I := fun i j count _ => count = (∑ k ∈ Finset.Ico i j,
        if prior G (G.outEdge k) v then 1 else 0) % 2 ^ 32) (fun _ => 0) (CSR.outOffset_le hv)
      (fun _ _ _ _ _ _ _ h => h) (fun i _ => ?_) ?_ fun i s' _ _ _ => ?_
    · rw [Finset.Ico_self, Finset.sum_empty, Nat.zero_mod]
    · rintro i j k _ _ _ hij hjk rfl rfl
      rw [← Nat.add_mod, Finset.sum_Ico_consecutive _ hij hjk]
    · refine Ensures.ret fun _ _ _ hinv => ⟨0, hinv, ?_, rfl⟩
      rw [Nat.Ico_succ_singleton, Finset.sum_singleton]
      split <;> rfl
  rw [Finset.sum_const_zero, ← Finset.card_filter] at hloop
  refine hloop.mono ?_
  rintro _ _ _ ⟨rfl, rfl⟩
  have hall : {i ∈ Finset.Ico (G.outOffset v) (G.outOffset (v + 1)) | prior G (G.outEdge i) v}.card =
      waitsFor G (fun _ => uncolored) v := by
    rw [waitsFor]
    exact congrArg Finset.card (Finset.filter_congr fun i _ => (and_iff_left rfl).symm)
  have hle := waitsFor_le_degree (G := G) (fun _ => uncolored) v
  have hdegree := hG.degrees v hv
  unfold uncolored at hdegree
  rw [hall, Nat.mod_eq_of_lt (by omega)]
  exact ⟨rfl, rfl⟩

/-- A vertex without slots. -/
theorem isolated_init (hdegree : G.degree v = 0) (s : ColoringState) :
    Ensures (initProtocol G) env (fun _ s' a => Counted G v s' ∧ a = 0) (atomicWrite (colorCell v) 0) s 0 := by
  have hcell (s : ColoringState) (u : ℕ) (hu : u = v ∨ s.color u = 0) : ((colorCell v).put 0 s).color u = 0 := by
    change Function.update s.color v 0 u = 0
    rcases eq_or_ne u v with rfl | hne
    · rw [Function.update_self]
    · rw [Function.update_of_ne hne]
      exact hu.resolve_left hne
  refine Ensures.atom fun s₁ o _ (hinv : InitInv G s₁) =>
    ⟨0, ⟨fun u _ hu => hcell s₁ u (Or.inr hu), fun _ h => h, Finset.Subset.refl _⟩,
      ⟨fun u => ?_, hinv.frontier, hinv.nextFrontier, hinv.used⟩, ?_⟩
  · by_cases hu : u = v
    · exact Or.inr ⟨hu ▸ hdegree, hcell s₁ u (Or.inl hu)⟩
    · change Function.update s₁.color v 0 u = _ ∨ _ ∧ Function.update s₁.color v 0 u = 0
      rw [Function.update_of_ne hu]
      exact hinv.color u
  · refine Ensures.ret fun s₂ _ hrel hinv₂ => ⟨0, hinv₂, ⟨fun _ => ?_, fun h => absurd hdegree h.ne',
      fun h => absurd hdegree h.ne'⟩, rfl⟩
    exact hrel.1 v hdegree (hcell s₁ v (Or.inl rfl))

/-- A vertex that waits for nobody is inserted. -/
theorem insert_init (hv : v < G.n) (hdegree : 0 < G.degree v) (hzero : waitsFor G (fun _ => uncolored) v = 0)
    (hblockers : s.numBlockers v = waitsFor G (fun _ => uncolored) v) :
    Ensures (initProtocol G) env (fun _ s' a => Counted G v s' ∧ a = 0)
      (VertexSet.insert frontier v >>= fun _ => ret ()) s 0 := by
  refine Ensures.act fun s₁ o₁ hrel₁ (hinv₁ : InitInv G s₁) =>
    ⟨0, ⟨fun _ _ h => h, fun _ h => h, Finset.subset_insert v _⟩,
      ⟨hinv₁.color, fun u hu => ?_, hinv₁.nextFrontier, hinv₁.used⟩, ?_⟩
  · rcases Finset.mem_insert.mp hu with rfl | hu
    · exact ⟨hv, hdegree, hzero⟩
    · exact hinv₁.frontier u hu
  · refine Ensures.ret fun s₂ _ hrel₂ hinv₂ =>
      ⟨0, hinv₂, ⟨fun h => absurd h hdegree.ne', fun _ => ?_, fun _ _ => ?_⟩, rfl⟩
    · exact hrel₂.2.1 v (hrel₁.2.1 v hblockers)
    · exact hrel₂.2.2 (Finset.mem_insert_self v _)

/-- The initialisation stores the count of its vertex. -/
theorem initVertex_init (hG : Colorable G) (hv : v < G.n) (s : ColoringState) :
    Ensures (initProtocol G) env (fun _ s' a => Counted G v s' ∧ a = 0) (initVertex G v) s 0 := by
  unfold initVertex
  by_cases hdegree : G.degree v = 0
  · rw [if_pos hdegree]
    exact isolated_init hdegree s
  · rw [if_neg hdegree]
    refine (countBlockers_init hG hv s).bind ?_
    rintro _ s₁ _ ⟨rfl, rfl⟩
    have hcell (s : ColoringState) : ((blockersCell v).put (waitsFor G (fun _ => uncolored) v) s).numBlockers v =
        waitsFor G (fun _ => uncolored) v := Function.update_self v _ s.numBlockers
    refine Ensures.modify fun s₂ o _ hinv =>
      ⟨0, ⟨fun _ _ h => h, fun u hu => ?_, Finset.Subset.refl _⟩, { hinv with }, ?_⟩
    · change Function.update s₂.numBlockers v _ u = _
      rcases eq_or_ne u v with rfl | hne
      · rw [Function.update_self]
      · rwa [Function.update_of_ne hne]
    · refine Ensures.read fun s₃ o₃ hrel hinv₃ => ?_
      have hread : (blockersCell v).get s₃ = waitsFor G (fun _ => uncolored) v := hrel.2.1 v (hcell s₂)
      rw [hread]
      by_cases hzero : waitsFor G (fun _ => uncolored) v = 0
      · rw [if_pos hzero]
        exact insert_init hv (Nat.pos_of_ne_zero hdegree) hzero hread
      · rw [if_neg hzero]
        exact Ensures.ret fun s₄ _ hrel₄ hinv₄ => ⟨0, hinv₄, ⟨fun h => absurd h hdegree,
          fun _ => hrel₄.2.1 v hread, fun _ h => absurd h hzero⟩, rfl⟩

/-- The main loop starts with all vertices counted. -/
theorem head_start (hG : Colorable G) (h : InitInv G s) (hcounted : ∀ v < G.n, Counted G v s) : Head G s := by
  have hcolor {v : ℕ} (hv : v < G.n) : s.color v = uncolored ↔ 0 < G.degree v := by
    rcases h.color v with huncolored | ⟨hdegree, hzero⟩
    · refine iff_of_true huncolored (Nat.pos_of_ne_zero fun hdegree => ?_)
      have hzero := (hcounted v hv).isolated hdegree
      rw [huncolored] at hzero
      exact absurd hzero (by decide)
    · rw [hzero, hdegree]
      exact iff_of_false (by decide) (lt_irrefl 0)
  have hwaits {v : ℕ} (hv : v < G.n) : waitsFor G s.color v = waitsFor G (fun _ => uncolored) v := by
    refine congrArg Finset.card (Finset.filter_congr fun i hi => and_congr_right fun _ => ?_)
    obtain ⟨hu, j, hj, _⟩ := hG.symmetric.edge ⟨hv, i, CSR.mem_slots.mp hi, rfl⟩
    refine iff_of_true ((hcolor hu).mpr ?_) rfl
    rw [CSR.degree]
    have := hj.1
    have := hj.2
    omega
  refine ⟨h.nextFrontier, fun v hv hne => ?_, fun v => ?_, fun v hv hun => ?_, fun v hv hun => (hcolor hv).mp hun,
    fun v _ _ c _ hused => ?_⟩
  · have hdegree : G.degree v = 0 := Nat.eq_zero_of_not_pos fun hpos => hne ((hcolor hv).mpr hpos)
    have hle := chosen_le_degree hG.vertices hv
    refine ⟨?_, ?_⟩
    · rw [(hcounted v hv).isolated hdegree]
      omega
    · rintro u ⟨_, i, hi, _⟩
      rw [CSR.degree] at hdegree
      have := hi.1
      have := hi.2
      omega
  · constructor
    · intro hmem
      obtain ⟨hv, hdegree, hzero⟩ := h.frontier v hmem
      exact ⟨hv, (hcolor hv).mpr hdegree, (hwaits hv).trans hzero⟩
    · rintro ⟨hv, hun, hzero⟩
      exact (hcounted v hv).frontier ((hcolor hv).mp hun) ((hwaits hv).symm.trans hzero)
  · rw [hwaits hv]
    exact (hcounted v hv).blockers ((hcolor hv).mp hun)
  · rw [h.used] at hused
    exact absurd hused Bool.false_ne_true

/-- The colouring comes to an end and every vertex has its colour. -/
theorem total_graphColoring (hG : Colorable G) (s : ColoringState) :
    Total (coloringProcedures G) (fun result _ => ∀ v < G.n, result v = chosen G v) (graphColoring G) s := by
  refine Total.modify ?_
  have hstart : (initProtocol G).inv ⟨fun _ => uncolored, ∅, ∅, s.numBlockers, fun _ => false⟩ 0 :=
    ⟨fun _ => Or.inl rfl, fun v hv => absurd hv (Finset.notMem_empty v), rfl, fun _ => rfl⟩
  have hinit : Ensures (initProtocol G) (coloringProcedures G)
      (fun _ s a => (∀ v, 0 ≤ v → v < G.n → Counted G v s) ∧ a = 0) (parallelFor 0 G.n (initVertex G))
      ⟨fun _ => uncolored, ∅, ∅, s.numBlockers, fun _ => false⟩ 0 :=
    Ensures.parallelForZero (fun _ _ _ _ hrel h => h.rel hrel) fun v _ hv => initVertex_init hG hv _
  refine (hinit.total hstart).bind ?_
  rintro _ s₁ ⟨_, _, hinv, hcounted, rfl⟩
  have hhead := head_start hG hinv fun v hv => hcounted v (Nat.zero_le v) hv
  exact (hhead.total_loop hG).bind fun _ _ hfinal => Total.atom (Total.ret hfinal)

end Init

/-- In every run the algorithm stops with the sequential greedy colouring, in which no edge joins two
vertices of one colour and no colour exceeds the degree. -/
theorem graphColoring_greedy (G : CSR) (hG : Colorable G) (s : ColoringState) :
    Total (coloringProcedures G)
      (fun result _ =>
        (∀ v < G.n, sequentialGreedy G v = some (result v) ∧ result v ≠ uncolored ∧ result v ≤ G.degree v) ∧
          ∀ u v, G.Edge u v → u ≠ v → result u ≠ result v)
      (graphColoring G) s := by
  refine (total_graphColoring hG s).mono fun result _ hresult => ⟨fun v hv => ?_, fun u v hedge hne => ?_⟩
  · have hle := chosen_le_degree hG.vertices hv
    rw [hresult v hv]
    exact ⟨sequentialGreedy_eq hG.vertices hv, (hle.trans_lt (hG.degrees v hv)).ne, hle⟩
  · rw [hresult u hedge.1, hresult v hedge.lt]
    exact chosen_ne hG.vertices hG.symmetric hedge hne

/-- The graph can be coloured. -/
theorem colorable_twoWays : Colorable CSR.twoWays := by
  refine ⟨by decide, ?_, by decide⟩
  unfold CSR.Symmetric
  decide

/-- The colouring of a graph with one edge in both directions. -/
theorem graphColoring_greedy_twoWays :
    Total (coloringProcedures CSR.twoWays)
      (fun result _ => (∀ v < CSR.twoWays.n, sequentialGreedy CSR.twoWays v = some (result v) ∧
        result v ≠ uncolored ∧
        result v ≤ CSR.twoWays.degree v) ∧ ∀ u v, CSR.twoWays.Edge u v → u ≠ v → result u ≠ result v)
      (graphColoring CSR.twoWays) ⟨fun _ => 0, ∅, ∅, fun _ => 0, fun _ => false⟩ :=
  graphColoring_greedy CSR.twoWays colorable_twoWays _

end Coloring

end ToggleTree
