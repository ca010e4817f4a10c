import ToggleTree.KCore.Peel

/-!
# The local searches of the decomposition

A local search goes at most eight calls deep. A loop over a local queue takes one vertex out in each
iteration, and it stops because vertices are pushed only when they have been taken out of `active`.
-/

namespace ToggleTree

open ForkJoin ForkJoin.Prog

namespace KCore

/-- What peeling needs of the graph and of the state `s₀` whose frontier is peeled. -/
structure Peeling (G : CSR) (workers k : ℕ) (s₀ : KCoreState) : Prop where
  symm : G.Symmetric
  degree_lt : ∀ v < G.n, G.degree v < 2 ^ 32
  workers_pos : 0 < workers
  level_lt : k < 2 ^ 32
  active_lt : ∀ v ∈ s₀.active, v < G.n ∧ v < 2 ^ 32
  above : ∀ v ∈ s₀.active, v ∉ s₀.sampleMode → k < G.degree v
  inj : Set.InjOn s₀.place s₀.sampleMode

/-- The protocol of the peeling. -/
def peelProtocol (G : CSR) (workers k : ℕ) (s₀ : KCoreState) : Protocol KCoreState PeelClaims where
  inv s a := PeelInv G workers k s₀ s a.1 a.2.1 a.2.2.1 a.2.2.2.1 a.2.2.2.2
  rel s s' := s'.active ⊆ s.active
  refl s := Finset.Subset.refl s.active
  trans h h' := h'.trans h

section Claims

/-- Slots that are to be peeled. -/
def pending (slots : Multiset ℕ) : PeelClaims := (slots, 0)

/-- The claim to take `d` out of `active`. -/
def removal (d : ℕ) : PeelClaims := (0, {d}, 0)

/-- The claim of a vertex that has been taken out. -/
def held (d : ℕ) : PeelClaims := (0, 0, {d}, 0)

/-- The debt for a slot that was taken from a count of `k` or less. -/
def excess (d : ℕ) : PeelClaims := (0, 0, 0, {d}, 0)

/-- The debt to insert `d` into `resample`. -/
def owed (d : ℕ) : PeelClaims := (0, 0, 0, 0, {d})

/-- Pending slots and other claims. -/
theorem pending_add (slots : Multiset ℕ) (o : PeelClaims) : pending slots + o = (slots + o.1, o.2) :=
  Prod.ext rfl (zero_add o.2)

/-- A removal and other claims. -/
theorem removal_add (d : ℕ) (o : PeelClaims) : removal d + o = (o.1, {d} + o.2.1, o.2.2) :=
  Prod.ext (zero_add o.1) (Prod.ext rfl (zero_add o.2.2))

/-- A held vertex and other claims. -/
theorem held_add (d : ℕ) (o : PeelClaims) : held d + o = (o.1, o.2.1, {d} + o.2.2.1, o.2.2.2) :=
  Prod.ext (zero_add o.1) (Prod.ext (zero_add o.2.1) (Prod.ext rfl (zero_add o.2.2.2)))

/-- A vertex that has been counted too far and other claims. -/
theorem excess_add (d : ℕ) (o : PeelClaims) : excess d + o = (o.1, o.2.1, o.2.2.1, {d} + o.2.2.2.1, o.2.2.2.2) :=
  Prod.ext (zero_add o.1) (Prod.ext (zero_add o.2.1) (Prod.ext (zero_add o.2.2.1) (Prod.ext rfl (zero_add _))))

/-- An owed vertex and other claims. -/
theorem owed_add (d : ℕ) (o : PeelClaims) : owed d + o = (o.1, o.2.1, o.2.2.1, o.2.2.2.1, {d} + o.2.2.2.2) :=
  Prod.ext (zero_add o.1) (Prod.ext (zero_add o.2.1) (Prod.ext (zero_add o.2.2.1) (Prod.ext (zero_add _) rfl)))

/-- The slots of a vertex are claimed one by one. -/
theorem pending_slots (G : CSR) (v : ℕ) :
    pending (G.slots v) = ∑ i ∈ Finset.Ico (G.outOffset v) (G.outOffset (v + 1)), pending {i} := by
  rw [CSR.slots, ← Finset.sum_multiset_singleton]
  exact map_sum (AddMonoidHom.inl (Multiset ℕ) (Multiset ℕ × Multiset ℕ × Multiset ℕ × Multiset ℕ)) _ _

end Claims

section Slots

variable {G : CSR} {workers k : ℕ} {s₀ s : KCoreState} {env : KCoreCall → KCoreProg Unit} {i d : ℕ}
  {queued : Bool}

/-- Both ways to test for `sample_mode` give the answer of the state `s₀`. -/
theorem ensures_isSampled {β : Type} {Q : β → KCoreState → PeelClaims → Prop} {next : Bool → KCoreProg β}
    {a : PeelClaims} (hnext : ∀ s', s'.active ⊆ s.active →
      Ensures (peelProtocol G workers k s₀) env Q (next (decide (d ∈ s₀.sampleMode))) s' a) :
    Ensures (peelProtocol G workers k s₀) env Q (isSampled queued d >>= next) s a := by
  have hcontains (s₁ : KCoreState) (hrel₁ : s₁.active ⊆ s.active) :
      Ensures (peelProtocol G workers k s₀) env Q (VertexSet.contains sampleMode d >>= next) s₁ a := by
    refine Ensures.read fun s₂ o hrel₂ hinv => ?_
    change Ensures _ _ _ (next (decide (d ∈ s₂.sampleMode))) _ _
    rw [PeelInv.sampleMode hinv]
    exact hnext s₂ (hrel₂.trans hrel₁)
  cases queued with
  | false => exact hcontains s (Finset.Subset.refl _)
  | true =>
    change Ensures _ _ _ ((VertexSet.empty sampleMode >>= fun none =>
      if none then pure false else VertexSet.contains sampleMode d) >>= next) s a
    rw [bind_assoc]
    refine Ensures.read fun s₁ o hrel hinv => ?_
    change Ensures _ _ _ ((if decide (s₁.sampleMode = ∅) then pure false
      else VertexSet.contains sampleMode d) >>= next) s₁ a
    by_cases hnone : s₁.sampleMode = ∅
    · rw [if_pos (decide_eq_true hnone)]
      have hd : d ∉ s₀.sampleMode := by
        rw [← PeelInv.sampleMode hinv, hnone]
        exact Finset.notMem_empty d
      have h := hnext s₁ hrel
      rwa [decide_eq_false hd] at h
    · rw [if_neg fun h => hnone (of_decide_eq_true h)]
      exact hcontains s₁ hrel

/-- A slot is taken from a shard. -/
theorem ensures_strike (hP : Peeling G workers k s₀) (hd : G.outEdge i ∈ s₀.sampleMode) :
    Ensures (peelProtocol G workers k s₀) env (fun _ _ b => b = 0)
      (strike workers i (G.outEdge i)) s (pending {i}) := by
  unfold strike workerId
  refine Ensures.pick fun b => Ensures.act fun s₁ o _ hinv => ?_
  rw [pending_add] at hinv
  have hstep := PeelInv.strike hinv hP.inj hd (Nat.mod_lt b hP.workers_pos)
  rw [← hinv.place] at hstep
  by_cases hzero : s₁.shards (b % workers) (s₁.place (G.outEdge i)) - 1 = 0
  · rw [if_pos hzero] at hstep
    refine ⟨owed (G.outEdge i), Finset.Subset.refl _, ?_, ?_⟩
    · rw [owed_add]
      exact hstep
    · dsimp only
      rw [if_pos hzero]
      refine Ensures.act fun s₂ o' _ hinv' => ⟨0, Finset.Subset.refl _, ?_, ?_⟩
      · rw [zero_add]
        rw [owed_add] at hinv'
        exact PeelInv.insertResample hinv'
      · exact Ensures.ret fun _ _ _ h => ⟨0, h, rfl⟩
  · rw [if_neg hzero] at hstep
    refine ⟨0, Finset.Subset.refl _, ?_, ?_⟩
    · rw [zero_add]
      exact hstep
    · dsimp only
      rw [if_neg hzero]
      exact Ensures.ret fun _ _ _ h => ⟨0, h, rfl⟩

/-- A slot is taken from a count, and put back if the count was not above `k`. -/
theorem ensures_peel (hP : Peeling G workers k s₀) (hd : G.outEdge i ∈ s₀.active)
    (hs : G.outEdge i ∉ s₀.sampleMode) :
    Ensures (peelProtocol G workers k s₀) env (fun claimed _ b =>
      b = if claimed then removal (G.outEdge i) else 0)
      (peel k i (G.outEdge i)) s (pending {i}) := by
  have hlt := (hP.active_lt _ hd).1
  have hdegree := hP.degree_lt _ hlt
  have habove := hP.above _ hd hs
  have hmod : (k + 1) % 2 ^ 32 = k + 1 := Nat.mod_eq_of_lt (by omega)
  unfold peel
  refine Ensures.act fun s₁ o _ hinv => ?_
  rw [pending_add] at hinv
  by_cases hk : s₁.coreness (G.outEdge i) ≤ k
  · refine ⟨excess (G.outEdge i), Finset.Subset.refl _, ?_, ?_⟩
    · rw [excess_add]
      exact PeelInv.exceed hinv hd hs hk hP.level_lt
    · dsimp only
      rw [if_pos hk]
      refine Ensures.act fun s₂ o' _ hinv' => ⟨0, Finset.Subset.refl _, ?_, ?_⟩
      · rw [zero_add]
        rw [excess_add] at hinv'
        exact PeelInv.restore hinv' hd hs hP.level_lt
      · refine Ensures.ret fun _ _ _ h => ⟨0, h, ?_⟩
        rw [hmod, decide_eq_false (by omega)]
        rfl
  · have hlower := PeelInv.lower hinv hP.symm hd hs hlt hdegree (not_le.mp hk)
    by_cases hone : s₁.coreness (G.outEdge i) = (k + 1) % 2 ^ 32
    · rw [if_pos hone] at hlower
      refine ⟨removal (G.outEdge i), Finset.Subset.refl _, ?_, ?_⟩
      · rw [removal_add]
        exact hlower
      · dsimp only
        rw [if_neg hk, decide_eq_true hone]
        exact Ensures.ret fun _ _ _ h => ⟨_, h, rfl⟩
    · rw [if_neg hone] at hlower
      refine ⟨0, Finset.Subset.refl _, ?_, ?_⟩
      · rw [zero_add]
        exact hlower
      · dsimp only
        rw [if_neg hk, decide_eq_false hone]
        exact Ensures.ret fun _ _ _ h => ⟨_, h, rfl⟩

/-- A branch that has claimed `d` since `s` holds it, and `active` has become smaller. -/
def Claimed (s₀ s : KCoreState) (d : ℕ) (claimed : Bool) (s' : KCoreState) (b : PeelClaims) : Prop :=
  s'.active ⊆ s.active ∧
    if claimed then d ∈ s₀.active ∧ s'.active.card < s.active.card ∧ b = held d else b = 0

/-- A slot is processed. -/
theorem ensures_peelSlot (hP : Peeling G workers k s₀) :
    Ensures (peelProtocol G workers k s₀) env (Claimed s₀ s (G.outEdge i)) (peelSlot G workers queued k i) s
      (pending {i}) := by
  have hkeep : ∀ s₁ s₂ : KCoreState, s₂.active ⊆ s₁.active → s₁.active ⊆ s.active → s₂.active ⊆ s.active :=
    fun _ _ h h' => h.trans h'
  unfold peelSlot
  refine Ensures.read fun s₁ o hrel₁ hinv => ?_
  rw [pending_add] at hinv
  by_cases hd : G.outEdge i ∈ active.get s₁
  · have hd₀ : G.outEdge i ∈ s₀.active := PeelInv.active_le hinv hd
    rw [if_pos (decide_eq_true hd)]
    refine ensures_isSampled fun s₂ hrel₂ => ?_
    by_cases hs : G.outEdge i ∈ s₀.sampleMode
    · rw [if_pos (decide_eq_true hs)]
      refine ((ensures_strike hP hs).withStable hkeep (hrel₂.trans hrel₁)).bind ?_
      rintro _ s₃ _ ⟨rfl, hrel₃⟩
      exact Ensures.ret fun s₄ _ hrel₄ h => ⟨0, h, hrel₄.trans hrel₃, rfl⟩
    · rw [if_neg fun h => hs (of_decide_eq_true h)]
      refine ((ensures_peel hP hd₀ hs).withStable hkeep (hrel₂.trans hrel₁)).bind ?_
      rintro claimed s₃ _ ⟨rfl, hrel₃⟩
      cases claimed with
      | false => exact Ensures.ret fun s₄ _ hrel₄ h => ⟨0, h, hrel₄.trans hrel₃, rfl⟩
      | true =>
        refine Ensures.act fun s₄ o' hrel₄ hinv' => ⟨held (G.outEdge i), Finset.erase_subset _ _, ?_, ?_⟩
        · rw [held_add]
          rw [if_pos rfl, removal_add] at hinv'
          exact PeelInv.remove hinv'
        · rw [if_pos rfl, removal_add] at hinv'
          have hmem : G.outEdge i ∈ s₄.active := (PeelInv.ne_of_removal hinv').1
          have hsub : s₄.active ⊆ s.active := hrel₄.trans hrel₃
          refine Ensures.ret fun s₅ _ hrel₅ h => ⟨_, h, ?_, hd₀, ?_, rfl⟩
          · exact (hrel₅.trans (Finset.erase_subset _ _)).trans hsub
          · exact (Finset.card_le_card hrel₅).trans_lt
              ((Finset.card_erase_lt_of_mem hmem).trans_le (Finset.card_le_card hsub))
  · rw [if_neg fun h => hd (of_decide_eq_true h)]
    refine Ensures.modify fun s₂ o' hrel₂ hinv' => ⟨0, Finset.Subset.refl _, ?_, ?_⟩
    · rw [zero_add]
      rw [pending_add] at hinv'
      exact PeelInv.skip hinv' fun hmem => hd (hrel₂ hmem)
    · exact Ensures.ret fun s₃ _ hrel₃ h => ⟨0, h, hrel₃.trans (hrel₂.trans hrel₁), rfl⟩

end Slots

section Queues

variable {G : CSR} {s₀ : KCoreState} {q q' : LocalQueue} {t : PeelClaims} {v d : ℕ}

/-- The vertices in a queue are held by its branch. -/
structure QueueHeld (s₀ : KCoreState) (q : LocalQueue) (t : PeelClaims) : Prop where
  le : q.lpos ≤ q.rpos
  active : ∀ p, q.Holds p → q.localQueue p ∈ s₀.active
  claims : t = ∑ p ∈ Finset.Ico q.lpos q.rpos, held (q.localQueue p)

namespace QueueHeld

/-- An empty queue holds nothing. -/
theorem of_empty (h : q.lpos = q.rpos) : QueueHeld s₀ q 0 where
  le := h.le
  active p hp := by
    have := hp.1
    have := hp.2
    omega
  claims := by rw [h, Finset.Ico_self, Finset.sum_empty]

/-- A queue holds what is appended. -/
theorem pushBack (h : QueueHeld s₀ q t) (hd : d ∈ s₀.active) (hlt : d < 2 ^ 32) :
    QueueHeld s₀ (q.pushBack d) (held d + t) where
  le := Nat.le_succ_of_le h.le
  active p hp := by
    rcases eq_or_ne p q.rpos with rfl | hne
    · rwa [LocalQueue.pushBack_last hlt]
    · rw [LocalQueue.pushBack_of_ne hne]
      have hp' : p < q.rpos + 1 := hp.2
      exact h.active p ⟨hp.1, by omega⟩
  claims := by
    rw [LocalQueue.pushBack_lpos, LocalQueue.pushBack_rpos, Finset.sum_Ico_succ_top h.le,
      LocalQueue.pushBack_last hlt,
      add_comm, h.claims]
    refine congrArg (· + held d) (Finset.sum_congr rfl fun p hp => ?_)
    rw [LocalQueue.pushBack_of_ne (Finset.mem_Ico.mp hp).2.ne]

/-- A queue gives up what it holds. -/
theorem popTop (h : QueueHeld s₀ q t) (hpop : q.popTop G = some (v, q')) :
    v ∈ s₀.active ∧ ∃ t', QueueHeld s₀ q' t' ∧ t = held v + t' := by
  obtain ⟨hne, rfl, hl, hr, hdata⟩ := LocalQueue.popTop_eq_some hpop
  have hlt : q.lpos < q.rpos := lt_of_le_of_ne h.le hne
  refine ⟨h.active q.lpos ⟨le_rfl, hlt⟩, ∑ p ∈ Finset.Ico (q.lpos + 1) q.rpos, held (q.localQueue p),
    ⟨by omega, fun p hp => ?_, by rw [hl, hr, hdata]⟩, ?_⟩
  · rw [hdata]
    have h₁ := hp.1
    have h₂ := hp.2
    exact h.active p ⟨by omega, by omega⟩
  · rw [h.claims, Finset.sum_eq_sum_Ico_succ_bot hlt]

end QueueHeld

end Queues

section Searches

variable {G : CSR} {workers k : ℕ} {s₀ s : KCoreState} {env : KCoreCall → KCoreProg Unit} {layer v d m : ℕ}
  {q : LocalQueue} {t : PeelClaims}

/-- The searches of a layer peel the slots of their vertex. -/
def SearchesAll (G : CSR) (workers k : ℕ) (s₀ : KCoreState) (env : KCoreCall → KCoreProg Unit)
    (layer : ℕ) : Prop :=
  ∀ s v, v < G.n → v < 2 ^ 32 →
    Ensures (peelProtocol G workers k s₀) env (fun _ _ b => b = 0)
      (env (.search k layer v)) s (pending (G.slots v))

/-- A vertex that a branch holds is inserted into the next frontier. -/
theorem ensures_insertNext {β : Type} {Q : β → KCoreState → PeelClaims → Prop} {next : Bool → KCoreProg β}
    (hnext : ∀ b s', Ensures (peelProtocol G workers k s₀) env Q (next b) s' t) :
    Ensures (peelProtocol G workers k s₀) env Q (VertexSet.insert nextFrontier d >>= next) s (held d + t) := by
  refine Ensures.act fun s₁ o _ hinv => ⟨t, Finset.Subset.refl _, ?_, hnext _ _⟩
  rw [add_assoc, held_add] at hinv
  exact PeelInv.insertNext hinv

/-- A vertex that a branch holds is peeled from here. -/
theorem ensures_searchHeld (hP : Peeling G workers k s₀) (hall : SearchesAll G workers k s₀ env layer)
    (hd : d ∈ s₀.active) :
    Ensures (peelProtocol G workers k s₀) env (fun _ _ b => b = 0) (invoke (.search k layer d)) s (held d) := by
  refine Ensures.update fun s₁ o _ hinv => ⟨pending (G.slots d), ?_, ?_⟩
  · rw [pending_add]
    rw [held_add] at hinv
    exact PeelInv.start hinv
  · exact Ensures.invoke (hall s₁ d (hP.active_lt d hd).1 (hP.active_lt d hd).2)

/-- A held vertex is followed. -/
theorem ensures_follow (hP : Peeling G workers k s₀)
    (hall : layer ≠ 0 → SearchesAll G workers k s₀ env (layer - 1))
    (hd : d ∈ s₀.active) :
    Ensures (peelProtocol G workers k s₀) env (fun _ _ b => b = 0) (follow k layer d) s (held d) := by
  unfold follow
  split
  · rw [← add_zero (held d)]
    exact ensures_insertNext fun _ _ => Ensures.ret fun _ _ _ h => ⟨0, h, rfl⟩
  · next hlayer => exact ensures_searchHeld hP (hall hlayer) hd

/-- The vertices that are left in a queue are peeled in the next round, or from here. -/
theorem ensures_leave (hP : Peeling G workers k s₀)
    (hall : layer ≠ 0 → SearchesAll G workers k s₀ env (layer - 1))
    (hqueue : QueueHeld s₀ q t) :
    Ensures (peelProtocol G workers k s₀) env (fun _ _ b => b = 0)
      (if layer = 0 then q.sequentialForEach fun v => do
          let _ ← VertexSet.insert nextFrontier v
          return ()
        else q.forEach fun v => invoke (.search k (layer - 1) v)) s t := by
  rw [hqueue.claims]
  split
  · have hloop : Ensures (peelProtocol G workers k s₀) env
        (fun _ _ b => b = ∑ p ∈ Finset.Ico q.rpos q.rpos, held (q.localQueue p))
        (q.sequentialForEach fun v => do
          let _ ← VertexSet.insert nextFrontier v
          return ()) s (∑ p ∈ Finset.Ico q.lpos q.rpos, held (q.localQueue p)) := by
      refine Ensures.seqFor (I := fun i _ b => b = ∑ p ∈ Finset.Ico i q.rpos, held (q.localQueue p)) hqueue.le
        (fun _ _ _ _ h => h) rfl ?_
      rintro i s₁ _ _ hi rfl
      rw [Finset.sum_eq_sum_Ico_succ_bot hi]
      exact ensures_insertNext fun _ _ => Ensures.ret fun _ _ _ h => ⟨_, h, rfl⟩
    rwa [Finset.Ico_self, Finset.sum_empty] at hloop
  · next hlayer =>
    refine (Ensures.parallelFor (Q := fun _ _ => True) (fun p => held (q.localQueue p)) (fun _ _ _ _ _ h => h)
      fun p hp hp' => ?_).mono fun _ _ _ h => h.2
    exact (ensures_searchHeld hP (hall hlayer) (hqueue.active p ⟨hp, hp'⟩)).mono fun _ _ _ h => ⟨trivial, h⟩

/-- The slots of a vertex are processed, and the vertices that were claimed are pushed. -/
theorem ensures_visit (hP : Peeling G workers k s₀) (hv : v < G.n) (hqueue : QueueHeld s₀ q t)
    (hm : s.active.card ≤ m) :
    Ensures (peelProtocol G workers k s₀) env (fun q' s' b => QueueHeld s₀ q' b ∧ s'.active.card ≤ m ∧
        (s'.active.card < m ∨ q'.lpos = q.lpos ∧ q'.rpos = q.rpos))
      (visit G workers k v q) s (pending (G.slots v) + t) := by
  rw [pending_slots]
  refine (Ensures.foldFor (I := fun i q' s' b => ∃ b', QueueHeld s₀ q' b' ∧
      b = ∑ j ∈ Finset.Ico i (G.outOffset (v + 1)), pending {j} + b' ∧ s'.active.card ≤ m ∧
        (s'.active.card < m ∨ q'.lpos = q.lpos ∧ q'.rpos = q.rpos))
    (CSR.outOffset_le hv) ?_ ⟨t, hqueue, rfl, hm, Or.inr ⟨rfl, rfl⟩⟩ ?_).mono ?_
  · rintro q' s₁ s₂ b hrel ⟨b', hb', hb, hle, hless⟩
    have hcard : s₂.active.card ≤ s₁.active.card := Finset.card_le_card hrel
    exact ⟨b', hb', hb, hcard.trans hle, hless.imp_left hcard.trans_lt⟩
  · rintro i q' s₁ _ _ hi ⟨b', hb', rfl, hle, hless⟩
    rw [Finset.sum_eq_sum_Ico_succ_bot hi, add_assoc]
    refine ((ensures_peelSlot hP).frame _).bind ?_
    rintro claimed s₂ _ ⟨b, ⟨hrel₂, hclaimed⟩, rfl⟩
    have hcard₂ : s₂.active.card ≤ s₁.active.card := Finset.card_le_card hrel₂
    cases claimed with
    | false =>
      obtain rfl : b = 0 := hclaimed
      rw [zero_add]
      refine Ensures.ret fun s₃ _ hrel₃ h => ⟨_, h, b', hb', rfl, ?_⟩
      have hcard₃ : s₃.active.card ≤ s₁.active.card := (Finset.card_le_card hrel₃).trans hcard₂
      exact ⟨hcard₃.trans hle, hless.imp_left hcard₃.trans_lt⟩
    | true =>
      obtain ⟨hd, hlt, rfl⟩ := hclaimed
      refine Ensures.ret fun s₃ _ hrel₃ h =>
        ⟨_, h, held (G.outEdge i) + b', hb'.pushBack hd (hP.active_lt _ hd).2, add_left_comm _ _ _, ?_⟩
      have hcard₃ : s₃.active.card < s₁.active.card := (Finset.card_le_card hrel₃).trans_lt hlt
      exact ⟨(hcard₃.trans_le hle).le, Or.inl (hcard₃.trans_le hle)⟩
  · rintro q' s' b ⟨b', hb', rfl, hle, hless⟩
    rw [Finset.Ico_self, Finset.sum_empty, zero_add]
    exact ⟨hb', hle, hless⟩

variable (hdrain : ∀ layer q, env (.drain k layer q) = drain G workers k layer q)
include hdrain

/-- The loop over a local queue: the vertices in it are peeled. -/
theorem ensures_drain (hP : Peeling G workers k s₀)
    (hall : layer ≠ 0 → SearchesAll G workers k s₀ env (layer - 1))
    (hqueue : QueueHeld s₀ q t) (hm : s.active.card ≤ m) :
    Ensures (peelProtocol G workers k s₀) env (fun _ _ b => b = 0) (drain G workers k layer q) s t := by
  induction m using Nat.strong_induction_on generalizing s t q with
  | _ m ih =>
    -- as long as no vertex is claimed, each iteration shortens the queue
    induction hn : q.rpos - q.lpos generalizing s t q with
    | zero =>
      have hempty : q.lpos = q.rpos := by
        have := hqueue.le
        omega
      have hpop : q.popTop G = none := if_pos hempty
      rw [drain, hpop]
      exact ensures_leave hP hall hqueue
    | succ n ihn =>
      unfold drain
      cases hpop : q.popTop G with
      | none => exact ensures_leave hP hall hqueue
      | some top =>
        obtain ⟨v, q₁⟩ := top
        obtain ⟨_, _, hl, hr, _⟩ := LocalQueue.popTop_eq_some hpop
        obtain ⟨hv, t', hqueue', rfl⟩ := hqueue.popTop hpop
        refine Ensures.update fun s₁ o hrel₁ hinv => ⟨pending (G.slots v) + t', ?_, ?_⟩
        · rw [add_assoc, pending_add]
          rw [add_assoc, held_add] at hinv
          exact PeelInv.start hinv
        · refine (ensures_visit hP (hP.active_lt v hv).1 hqueue' ((Finset.card_le_card hrel₁).trans hm)).bind ?_
          rintro q₂ s₂ t₂ ⟨hqueue₂, hle, hless⟩
          refine Ensures.invoke ?_
          rw [hdrain]
          rcases hless with hlt | ⟨hl₂, hr₂⟩
          · exact ih _ hlt hqueue₂ le_rfl
          · exact ihn hqueue₂ hle (by omega)

variable (hsearch : ∀ layer v, env (.search k layer v) = localSearch G workers k layer v)
include hsearch

/-- A local search peels the slots of its vertex. -/
theorem ensures_localSearch (hP : Peeling G workers k s₀) (layer : ℕ) : SearchesAll G workers k s₀ env layer := by
  induction layer using Nat.strong_induction_on with
  | _ layer ih =>
    intro s v hv hlt
    have hall : layer ≠ 0 → SearchesAll G workers k s₀ env (layer - 1) := fun h => ih _ (by omega)
    rw [hsearch]
    unfold localSearch
    split
    · rw [pending_slots]
      refine (Ensures.parallelFor (Q := fun _ _ => True) (fun i => pending {i}) (fun _ _ _ _ _ h => h)
        fun i _ _ => ?_).mono fun _ _ _ h => h.2
      refine (ensures_peelSlot hP).bind ?_
      rintro claimed s₁ b ⟨_, hclaimed⟩
      cases claimed with
      | false =>
        obtain rfl : b = 0 := hclaimed
        exact Ensures.ret fun _ _ _ h => ⟨0, h, trivial, rfl⟩
      | true =>
        obtain ⟨hd, _, rfl⟩ := hclaimed
        exact (ensures_follow hP hall hd).mono fun _ _ _ h => ⟨trivial, h⟩
    · next hdeg =>
      obtain ⟨q, hpop, hl, hr⟩ := LocalQueue.popTop_create hlt
        (show G.outOffset (v + 1) - G.outOffset v < 128 from not_le.mp hdeg)
      refine Ensures.invoke ?_
      rw [hdrain]
      unfold drain
      rw [hpop, ← add_zero (pending (G.slots v))]
      refine (ensures_visit hP hv (QueueHeld.of_empty (hl.trans hr.symm)) le_rfl).bind ?_
      rintro q₁ s₁ t₁ ⟨hqueue, hle, _⟩
      refine Ensures.invoke ?_
      rw [hdrain]
      exact ensures_drain hdrain hP hall hqueue hle

end Searches

end KCore

end ToggleTree
