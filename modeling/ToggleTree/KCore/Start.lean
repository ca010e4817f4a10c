import ToggleTree.KCore.Iteration

/-!
# The state before the main loop

The counts start as the degrees, and the vertices without slots are not active. A vertex of large
degree takes a place, and its degree is shared out among the workers.
-/

namespace ToggleTree

open ForkJoin ForkJoin.Prog

namespace KCore

/-- What the state has for one place: the place of the vertex it is for, whether that is sampled, and
the shards. -/
structure Seat where
  place : ℕ
  sampled : Bool
  column : ℕ → ℤ

/-- What the state has at a place of the sample. -/
def seat (high : List ℕ) (s : KCoreState) (p : ℕ) : Seat :=
  if p < high.length then ⟨s.place (high.getD p 0), decide (high.getD p 0 ∈ s.sampleMode), fun w => s.shards w p⟩
  else ⟨0, false, fun _ => 0⟩

/-- What the loop over the places does not change. -/
structure Unseated (high : List ℕ) (s₀ s : KCoreState) : Prop where
  coreness : s.coreness = s₀.coreness
  frontier : s.frontier = s₀.frontier
  next : s.nextFrontier = s₀.nextFrontier
  active : s.active = s₀.active
  resample : s.resample = s₀.resample
  processed : s.processed = s₀.processed
  sampled : ∀ v ∈ s.sampleMode, v ∈ high

/-- The vertex of a place, with its degree shared out. -/
structure Seated (G : CSR) (workers : ℕ) (high : List ℕ) (p : ℕ) (x : Seat) : Prop where
  place : x.place = p
  sampled : x.sampled = true
  counted : Counted workers (G.degree (high.getD p 0)) x.column

/-- The initialisation of the sample by its places. -/
def seating (G : CSR) (workers : ℕ) (high : List ℕ) (s₀ : KCoreState) : Slicing KCoreState ℕ Seat where
  slice := seat high
  Fixed := Unseated high s₀
  Way _ _ := True
  Done p x := p < high.length → Seated G workers high p x

section Seats

variable {G : CSR} {workers : ℕ} {high : List ℕ} {s₀ s : KCoreState} {p : ℕ}

/-- Different places are for different vertices. -/
theorem getD_ne (hnodup : high.Nodup) {q : ℕ} (hp : p < high.length) (hq : q < high.length) (hne : q ≠ p) :
    high.getD q 0 ≠ high.getD p 0 := by
  rw [List.getD_eq_getElem _ _ hp, List.getD_eq_getElem _ _ hq]
  exact fun heq => hne ((hnodup.getElem_inj_iff).mp heq)

/-- The seats after the place of a vertex is written. -/
theorem seat_place (hnodup : high.Nodup) (hp : p < high.length) :
    seat high { s with place := Function.update s.place (high.getD p 0) p } =
      Function.update (seat high s) p { seat high s p with place := p } := by
  funext q
  by_cases hq : q = p
  · subst hq
    rw [Function.update_self, seat, seat, if_pos hp, if_pos hp]
    exact congrArg (fun n => (⟨n, _, _⟩ : Seat)) (Function.update_self _ _ _)
  · rw [Function.update_of_ne hq]
    by_cases hlt : q < high.length
    · rw [seat, seat, if_pos hlt, if_pos hlt]
      exact congrArg (fun n => (⟨n, _, _⟩ : Seat)) (Function.update_of_ne (getD_ne hnodup hp hlt hq) _ _)
    · rw [seat, seat, if_neg hlt, if_neg hlt]

/-- The seats after a vertex is inserted into the sample. -/
theorem seat_insert (hnodup : high.Nodup) (hp : p < high.length) :
    seat high { s with sampleMode := insert (high.getD p 0) s.sampleMode } =
      Function.update (seat high s) p { seat high s p with sampled := true } := by
  funext q
  by_cases hq : q = p
  · subst hq
    rw [Function.update_self, seat, seat, if_pos hp, if_pos hp]
    exact congrArg (fun b => (⟨_, b, _⟩ : Seat)) (decide_eq_true (Finset.mem_insert_self _ _))
  · rw [Function.update_of_ne hq]
    by_cases hlt : q < high.length
    · rw [seat, seat, if_pos hlt, if_pos hlt]
      refine congrArg (fun b => (⟨_, b, _⟩ : Seat)) (decide_eq_decide.mpr ?_)
      change _ ∈ insert _ _ ↔ _
      rw [Finset.mem_insert, or_iff_right (getD_ne hnodup hp hlt hq)]
    · rw [seat, seat, if_neg hlt, if_neg hlt]

/-- The seats after the counters of a vertex are shared out. -/
theorem seat_distribute {v : ℕ} {x : ℤ} (hp : p < high.length) (hplace : s.place v = p) :
    seat high (distribute workers v x s) =
      Function.update (seat high s) p
        { seat high s p with column := parts workers x (seat high s p).column } := by
  funext q
  by_cases hq : q = p
  · subst hq
    rw [Function.update_self, seat, seat, if_pos hp, if_pos hp]
    refine congrArg (fun col => (⟨_, _, col⟩ : Seat)) ?_
    funext w
    change (if w < workers ∧ q = s.place v then _ else s.shards w q) = parts workers x (fun w => s.shards w q) w
    rw [parts, hplace]
    by_cases hw : w < workers
    · rw [if_pos ⟨hw, rfl⟩, if_pos hw]
    · rw [if_neg fun h => hw h.1, if_neg hw]
  · rw [Function.update_of_ne hq]
    by_cases hlt : q < high.length
    · rw [seat, seat, if_pos hlt, if_pos hlt]
      refine congrArg (fun col => (⟨_, _, col⟩ : Seat)) ?_
      funext w
      change (if w < workers ∧ q = s.place v then _ else s.shards w q) = _
      rw [hplace, if_neg fun h => hq h.2]
    · rw [seat, seat, if_neg hlt, if_neg hlt]

variable {env : KCoreCall → KCoreProg Unit}

/-- A vertex of the sample gets its place and its counters. -/
theorem ensures_initSample (hw : 0 < workers) (hmax : workers ≤ 8192) (hnodup : high.Nodup) (hp : p < high.length)
    (hlarge : sampleThreshold workers < G.degree (high.getD p 0)) {x : Seat} :
    Ensures (seating G workers high s₀).protocol env (fun _ _ a => True ∧ a = 0) (initSample G workers high p) s
      {(p, x)} := by
  unfold initSample
  refine Slicing.change (y := { x with place := p }) (fun s' h hx => ⟨?_, ?_⟩) trivial fun _ s₁ => ?_
  · exact ⟨h.coreness, h.frontier, h.next, h.active, h.resample, h.processed, h.sampled⟩
  · rw [← hx]
    exact seat_place hnodup hp
  refine Slicing.change (y := { x with place := p, sampled := true })
    (fun s' h hx => ⟨?_, ?_⟩) trivial fun _ s₂ => ?_
  · refine ⟨h.coreness, h.frontier, h.next, h.active, h.resample, h.processed, fun v hv => ?_⟩
    rcases Finset.mem_insert.mp hv with rfl | hv
    · rw [List.getD_eq_getElem _ _ hp]
      exact List.getElem_mem hp
    · exact h.sampled v hv
  · have hslice : seat high s' p = { x with place := p } := hx
    have hinsert := seat_insert (s := s') hnodup hp
    rw [hslice] at hinsert
    exact hinsert
  rw [← bind_ret (Prog.modify _)]
  refine Slicing.change (y := ⟨p, true, parts workers (G.degree (high.getD p 0) : ℤ) x.column⟩)
    (fun s' h hx => ⟨?_, ?_⟩) trivial fun _ s₃ => ?_
  · exact ⟨h.coreness, h.frontier, h.next, h.active, h.resample, h.processed, h.sampled⟩
  · have hslice : seat high s' p = { x with place := p, sampled := true } := hx
    have hplace : s'.place (high.getD p 0) = p := by
      have hseat := congrArg Seat.place hslice
      rw [seat, if_pos hp] at hseat
      exact hseat
    refine (seat_distribute hp hplace).trans ?_
    rw [hslice]
    rfl
  · refine Slicing.ret (fun _ => ⟨rfl, rfl, counted_parts hw hmax ?_⟩) trivial
    exact_mod_cast hlarge

end Seats

section Initialise

variable {G : CSR} {workers : ℕ} {s t u : KCoreState} {v : ℕ} (hG : Input G workers)

/-- A vertex that has slots is named by a slot, so that it is a 32-bit number. -/
theorem lt_of_degree_pos (hsymm : G.Symmetric) (hv : v < G.n) (hdegree : 0 < G.degree v) : v < 2 ^ 32 := by
  have hslot : G.OutSlot v (G.outOffset v) := ⟨le_rfl, by unfold CSR.degree at hdegree; omega⟩
  obtain ⟨_, i, _, heq⟩ := hsymm.edge ⟨hv, _, hslot, rfl⟩
  rw [← heq]
  exact Nat.mod_lt _ (by norm_num)

/-- The counts are the degrees, and the vertices that have slots are active. -/
structure Counts (G : CSR) (s : KCoreState) : Prop where
  coreness : ∀ v < G.n, s.coreness v = G.degree v
  frontier : s.frontier = ∅
  next : s.nextFrontier = ∅
  active : ∀ v, v ∈ s.active ↔ v < G.n ∧ 0 < G.degree v
  resample : s.resample = ∅
  sampleMode : s.sampleMode = ∅
  processed : s.processed = 0

/-- When every vertex has been initialised the counts are right. -/
theorem Counts.of_done {s₁ : KCoreState}
    (hs₁ : s₁ = ⟨s.coreness, ∅, ∅, Finset.range G.n, ∅, ∅, s.place, s.shards, 0⟩)
    (hduring : During ∅ (Finset.Ico 0 G.n) s₁ (fun _ _ => True) t)
    (hdone : ∀ v ∈ Finset.Ico 0 G.n, share ∅ t v = counted (G.degree v) (share ∅ s₁ v)) : Counts G t := by
  have hin (v : ℕ) : v ∈ Finset.Ico 0 G.n ↔ v < G.n := by
    rw [Finset.mem_Ico]
    exact and_iff_right (Nat.zero_le v)
  have hset {x : Share} (v : ℕ) (hx : share ∅ t v = x) (hfrontier : x.frontier = false) (hnext : x.next = false)
      (hsampled : x.sampled = false) : v ∉ t.frontier ∧ v ∉ t.nextFrontier ∧ v ∉ t.sampleMode := by
    rw [mem_frontier_of_share hx, mem_next_of_share hx, mem_sampleMode_of_share hx, hfrontier, hnext, hsampled]
    exact ⟨Bool.false_ne_true, Bool.false_ne_true, Bool.false_ne_true⟩
  have hall (v : ℕ) : v ∉ t.frontier ∧ v ∉ t.nextFrontier ∧ v ∉ t.sampleMode := by
    subst hs₁
    by_cases hv : v ∈ Finset.Ico 0 G.n
    · refine hset v (hdone v hv) ?_ ?_ ?_ <;> unfold counted <;> split <;> exact decide_eq_false
        (Finset.notMem_empty v)
    · refine hset v (hduring.other v hv) ?_ ?_ ?_ <;> exact decide_eq_false (Finset.notMem_empty v)
  have hempty {S : Finset ℕ} (h : ∀ v, v ∉ S) : S = ∅ := Finset.eq_empty_of_forall_notMem h
  refine ⟨fun v hv => ?_, hempty fun v => (hall v).1, hempty fun v => (hall v).2.1, fun v => ?_, ?_,
    hempty fun v => (hall v).2.2, ?_⟩
  · have hcoreness := congrArg Share.coreness (hdone v ((hin v).mpr hv))
    refine Eq.trans hcoreness ?_
    unfold counted
    split
    · next hzero => exact hzero.symm
    · rfl
  · by_cases hv : v ∈ Finset.Ico 0 G.n
    · rw [mem_active_of_share (hdone v hv)]
      unfold counted
      split
      · next hzero => exact iff_of_false Bool.false_ne_true fun h => h.2.ne' hzero
      · next hzero =>
        subst hs₁
        refine iff_of_true (decide_eq_true ?_) ⟨(hin v).mp hv, Nat.pos_of_ne_zero hzero⟩
        exact Finset.mem_range.mpr ((hin v).mp hv)
    · rw [mem_active_of_share (hduring.other v hv)]
      subst hs₁
      rw [hin] at hv
      refine iff_of_false (fun h => hv ?_) fun h => hv h.1
      exact Finset.mem_range.mp (of_decide_eq_true h)
  · rw [hduring.moved.resample, hs₁]
  · rw [hduring.moved.processed, hs₁]

include hG

/-- The state when the main loop is entered. -/
theorem Counts.round {high : List ℕ} (h : Counts G t)
    (hhigh : high = (List.range G.n).filter fun v => sampleThreshold workers < t.coreness v)
    (hfixed : Unseated high t u) (hseats : ∀ p < high.length, Seated G workers high p (seat high u p)) :
    Round G workers 0 u := by
  have hmem {v : ℕ} (hv : v ∈ high) : v < G.n ∧ sampleThreshold workers < G.degree v := by
    rw [hhigh, List.mem_filter, List.mem_range] at hv
    rw [h.coreness v hv.1] at hv
    exact ⟨hv.1, of_decide_eq_true hv.2⟩
  have hplace {v : ℕ} (hv : v ∈ high) : u.place v < high.length ∧ high.getD (u.place v) 0 = v ∧
      Counted workers (G.degree v) fun w => u.shards w (u.place v) := by
    obtain ⟨p, hp, rfl⟩ := List.getElem_of_mem hv
    have hseat := hseats p hp
    rw [seat, if_pos hp, List.getD_eq_getElem _ _ hp] at hseat
    have heq : u.place high[p] = p := hseat.place
    rw [heq, List.getD_eq_getElem _ _ hp]
    have hcounted := hseat.counted
    rw [List.getD_eq_getElem _ _ hp] at hcounted
    exact ⟨hp, rfl, hcounted⟩
  have hactive (v : ℕ) : v ∈ u.active ↔ v < G.n ∧ 0 < G.degree v := by
    rw [hfixed.active]
    exact h.active v
  have hprocessed : u.processed = 0 := hfixed.processed.trans h.processed
  have hleft {v : ℕ} (hv : v < G.n) : left G u v = G.degree v := by
    rw [left, hprocessed, tsub_zero]
    exact countTo_allSlots hG.symm hv
  have hcore (H : Finset ℕ) (hH : IsCore G (0 + 1) H) : H ⊆ u.active := fun v hv =>
    (hactive v).mpr ⟨(hH v hv).1, (hH v hv).2.trans (degreeInto_le_degree H v)⟩
  have hrange : IsCore G 0 (Finset.range G.n) := fun v hv => ⟨Finset.mem_range.mp hv, Nat.zero_le _⟩
  have hfrontier : u.frontier = ∅ := hfixed.frontier.trans h.frontier
  refine {
    bound := fun v hv => ?_
    disjoint := fun v hv => ?_
    next := hfixed.next.trans h.next
    resample := hfixed.resample.trans h.resample
    account := ?_
    sample_le := fun v hv => ?_
    inj := fun v hv v' hv' heq => ?_
    above := fun v hv => ?_
    count := fun v hv _ => ?_
    stale := fun v hv => ?_
    sampled := fun v hv => ?_
    level := ⟨Finset.range G.n, hrange, fun v hv => Finset.mem_range.mpr ((hactive v).mp hv).1, ?_⟩
    core := hcore
    done := fun v hv hnot => ?_ }
  · rw [hfrontier] at hv
    have hv' := (hactive v).mp (hv.resolve_right (Finset.notMem_empty v))
    exact ⟨hv'.1, lt_of_degree_pos hG.symm hv'.1 hv'.2⟩
  · rw [hfrontier] at hv
    exact absurd hv (Finset.notMem_empty v)
  · rw [hfrontier, Finset.sum_empty, add_zero, hprocessed, add_zero, allSlots]
    refine Finset.sum_subset (fun v hv => Finset.mem_range.mpr ((hactive v).mp hv).1) fun v hv hnot => ?_
    have hzero : ¬0 < G.degree v := fun hpos => hnot ((hactive v).mpr ⟨Finset.mem_range.mp hv, hpos⟩)
    rw [CSR.slots, Finset.Ico_eq_empty (by unfold CSR.degree at hzero; omega)]
    rfl
  · obtain ⟨hlt, hlarge⟩ := hmem (hfixed.sampled v hv)
    exact (hactive v).mpr ⟨hlt, Nat.zero_lt_of_lt hlarge⟩
  · obtain ⟨_, h₁, _⟩ := hplace (hfixed.sampled v hv)
    obtain ⟨_, h₂, _⟩ := hplace (hfixed.sampled v' hv')
    rw [← h₁, ← h₂, heq]
  · obtain ⟨hlt, hpos⟩ := (hactive v).mp hv
    rw [hleft hlt]
    exact hpos
  · obtain ⟨hlt, _⟩ := (hactive v).mp hv
    rw [hleft hlt, hfixed.coreness]
    exact h.coreness v hlt
  · rw [hfixed.coreness]
    exact h.coreness v (hmem (hfixed.sampled v hv)).1
  · obtain ⟨_, _, hcounted⟩ := hplace (hfixed.sampled v hv)
    rw [hleft (hmem (hfixed.sampled v hv)).1, Nat.cast_zero, sub_zero]
    exact hcounted
  · rw [hfrontier]
    exact Finset.empty_subset _
  · have hzero : G.degree v = 0 := by
      by_contra hne
      exact hnot ((hactive v).mpr ⟨hv, Nat.pos_of_ne_zero hne⟩)
    rw [hfixed.coreness, h.coreness v hv, hzero]
    exact isCoreness_of_mem hrange (Finset.mem_range.mpr hv) fun H hH hmem => hnot (hcore H hH hmem)

/-- The loops before the main loop end, with all vertices of large degree sampled. -/
theorem total_initialise (s : KCoreState) :
    Total (kCoreProcedures G workers) (fun _ t => (Round G workers 0 t ∧ t.frontier = ∅) ∧
      ∀ v < G.n, sampleThreshold workers < G.degree v → v ∈ t.sampleMode) (initialise G workers) s := by
  unfold initialise
  refine Total.modify ?_
  generalize hs₁ : (⟨s.coreness, ∅, ∅, Finset.range G.n, ∅, ∅, s.place, s.shards, 0⟩ : KCoreState) = s₁
  have hvertices : Ensures (phase ∅ (Finset.Ico 0 G.n) s₁ (fun _ _ => True)
        fun v x => x = counted (G.degree v) (share ∅ s₁ v)).protocol (kCoreProcedures G workers)
      (fun _ _ a => True ∧ a = 0) (parallelFor 0 G.n (initVertex G)) s₁
        (∑ v ∈ Finset.Ico 0 G.n, {(v, share ∅ s₁ v)}) :=
    (Ensures.parallelFor (Q := fun _ _ => True) (fun v => {(v, share ∅ s₁ v)})
      (fun _ _ _ _ _ h => h) fun v h₁ h₂ =>
      ensures_initVertex (Finset.mem_Ico.mpr ⟨h₁, h₂⟩) (hG.degree_lt v h₂)).mono fun _ _ _ h => ⟨trivial, h.2⟩
  refine (throughout_phase (fun _ _ => trivial) hvertices).total.bind ?_
  rintro _ t ⟨_, hduring, hdone⟩
  have hcounts := Counts.of_done hs₁.symm hduring hdone
  refine Total.read ?_
  generalize hhigh : (List.range G.n).filter (fun v => sampleThreshold workers < t.coreness v) = high
  have hnodup : high.Nodup := hhigh ▸ List.nodup_range.filter _
  have hlarge (p : ℕ) (hp : p < high.length) : sampleThreshold workers < G.degree (high.getD p 0) := by
    have hmem : high.getD p 0 ∈ high := by
      rw [List.getD_eq_getElem _ _ hp]
      exact List.getElem_mem hp
    rw [← hhigh, List.mem_filter, List.mem_range, hhigh] at hmem
    rw [← hcounts.coreness _ hmem.1]
    exact of_decide_eq_true hmem.2
  have hseating : Ensures (seating G workers high t).protocol (kCoreProcedures G workers)
      (fun _ _ a => (∀ p, 0 ≤ p → p < high.length → True) ∧ a = 0)
      (parallelFor 0 high.length (initSample G workers high)) t
        (∑ p ∈ Finset.Ico 0 high.length, {(p, (seating G workers high t).slice t p)}) :=
    Ensures.parallelFor (fun p => {(p, (seating G workers high t).slice t p)})
      (fun _ _ _ _ _ h => h) fun p _ hp =>
      ensures_initSample hG.workers_pos hG.workers_le hnodup hp (hlarge p hp)
  have hstart : (seating G workers high t).Inv t
      (∑ p ∈ Finset.Ico 0 high.length, {(p, (seating G workers high t).slice t p)}) := by
    refine Slicing.Inv.start ⟨rfl, rfl, rfl, rfl, rfl, rfl, fun v hv => ?_⟩ (fun _ => trivial) fun p hp hlt => ?_
    · rw [hcounts.sampleMode] at hv
      exact absurd hv (Finset.notMem_empty v)
    · exact absurd (Finset.mem_Ico.mpr ⟨Nat.zero_le p, hlt⟩) hp
  refine (hseating.total hstart).mono ?_
  rintro _ u ⟨_, _, hinv, _, rfl⟩
  have hfixed : Unseated high t u := hinv.fixed
  have hseats (p : ℕ) (hp : p < high.length) : Seated G workers high p (seat high u p) :=
    hinv.done p (Multiset.notMem_zero p) hp
  refine ⟨⟨hcounts.round hG hhigh.symm hfixed hseats, hfixed.frontier.trans hcounts.frontier⟩,
    fun v hv hdegree => ?_⟩
  have hmem : v ∈ high := by
    rw [← hhigh, List.mem_filter, List.mem_range, hcounts.coreness v hv]
    exact ⟨hv, decide_eq_true hdegree⟩
  obtain ⟨p, hp, rfl⟩ := List.getElem_of_mem hmem
  have hsampled := (hseats p hp).sampled
  rw [seat, if_pos hp, List.getD_eq_getElem _ _ hp] at hsampled
  exact of_decide_eq_true hsampled

end Initialise

end KCore

end ToggleTree
