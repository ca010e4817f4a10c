import ToggleTree.GraphFile.BackFill

/-!
# Incoming edges

The edges are sorted by their targets, and what is stored for a target leads back to the sources
with the weights of the edges. So a vertex has as many incoming edges from a source as the source
has edges to it, weight by weight. The gaps between the offsets may be filled in any order.
-/

namespace ToggleTree

open Checked Primitives StableRank

namespace GraphFile

/-- The lower half can be replaced. -/
theorem lo32_clear_or (e : ℕ) {u : ℕ} (hu : u < 2 ^ 32) :
    lo32 (e >>> 32 <<< 32 ||| u) = u ∧ hi32 (e >>> 32 <<< 32 ||| u) = hi32 e := by
  have hword : e >>> 32 <<< 32 ||| u = e >>> 32 * 2 ^ 32 + u := by
    rw [← Nat.shiftLeft_add_eq_or_of_lt hu, Nat.shiftLeft_eq]
  rw [hword, lo32, hi32, hi32, Nat.shiftRight_eq_div_pow]
  constructor <;> omega

/-- The entry of an edge holds its weight and leads back to its source. -/
theorem unpackEdge_backEdge (weighted : Bool) (e : ℕ) {u : ℕ} (hu : u < 2 ^ 32) :
    unpackEdge weighted (backEdge weighted e u) = (u, (unpackEdge weighted e).2) := by
  obtain ⟨hlo, hhi⟩ := lo32_clear_or e hu
  cases weighted with
  | true =>
    change (lo32 (e >>> 32 <<< 32 ||| u), hi32 (e >>> 32 <<< 32 ||| u)) = (u, hi32 e)
    rw [hlo, hhi]
  | false =>
    change (lo32 u, 1) = (u, 1)
    rw [lo32, Nat.mod_eq_of_lt hu]

/-- The order of the incoming edges is a strict weak one. -/
theorem inEntryLess_strict : StrictWeakOrder inEntryLess := by
  refine ⟨fun x => ?_, fun x y z => ?_, fun x y z => ?_⟩ <;> simp only [inEntryLess] <;> split_ifs <;>
    simp only [decide_eq_true_eq, decide_eq_false_iff_not] <;> omega

section MakeInEdges

variable {G : GraphData} {weighted : Bool} {n m : ℕ} {o f : ℕ → ℕ}

/-- The entries of the edges. -/
def Entries (weighted : Bool) (n m : ℕ) (o f : ℕ → ℕ) (done : ℕ → Prop) (edgelist : Array (ℕ × ℕ)) : Prop :=
  ∃ e, Contents edgelist m e ∧ ∀ u < n, ∀ i, o u ≤ i → i < o (u + 1) → done i →
    e i = (lo32 (f i), backEdge weighted (f i) u)

/-- The list of the edges is filled. -/
theorem returns_edgelist (R : Runtime) (hoffsets : IsOffsets G.outOffsets G.n G.m o)
    (hedges : Contents G.outEdges G.m f) :
    Returns (Entries weighted G.n G.m o f fun _ => True)
      (parallelLoop (R.schedules 0 0) G.n (Array.replicate G.m (R.uninit, R.uninit)) fun u edgelist => do
        let first ← G.outOffsets[u]?
        let last ← G.outOffsets[u + 1]?
        parallelLoop (R.schedules 1 u) (last - first) edgelist fun k edgelist => do
          let e ← G.outEdges[first + k]?
          write edgelist (first + k) (lo32 e, backEdge weighted e u)) := by
  refine hoffsets.returns_slots (R.schedules 0 0) (R.schedules 1) (I := Entries weighted G.n G.m o f)
    (fun u i edgelist => do
      let e ← G.outEdges[i]?
      write edgelist i (lo32 e, backEdge weighted e u)) ?_ ?_ ?_
  · exact ⟨_, Contents.replicate _ _, fun u _ i _ _ hf => hf.elim⟩
  · rintro done done' edgelist hsub ⟨e, he, hdone⟩
    refine ⟨e, he, fun u hu i hi hi' hd => hdone u hu i hi hi' (hsub i ?_ hd)⟩
    exact hi'.trans_le (hoffsets.le_last (u := u + 1) (by omega))
  · rintro u hu i hi hi' done edgelist ⟨e, he, hdone⟩
    have hlast := hoffsets.le_last (u := u + 1) (by omega)
    refine Returns.bind_eq (hedges.get i (by omega)) ?_
    obtain ⟨edgelist', hwrite, he'⟩ := he.write (i := i) (by omega) (lo32 (f i), backEdge weighted (f i) u)
    refine Returns.of_eq hwrite ⟨_, he', fun v hv j hj hj' hor => ?_⟩
    by_cases heq : j = i
    · subst heq
      rw [Function.update_self, hoffsets.slot_unique hv hu hj hj' hi hi']
    · rw [Function.update_of_ne heq]
      exact hdone v hv j hj hj' (hor.resolve_right heq)

/-- The incoming edges are the outgoing ones seen from their targets, sorted by their sources. -/
def Transposed (weighted : Bool) (n m : ℕ) (o f : ℕ → ℕ) (inOffsets inEdges : Array ℕ) : Prop :=
  ∃ p q, IsOffsets inOffsets n m p ∧ Contents inEdges m q ∧ SortedLists n p q ∧
    ∀ u < n, ∀ v < n, ∀ w,
      edgeCount o f (fun e => unpackEdge weighted e = (v, w)) u =
        edgeCount p q (fun e => unpackEdge weighted e = (u, w)) v

/-- What `make_in_edges` gives. -/
structure InEdges (weighted : Bool) (G : GraphData) (o f : ℕ → ℕ) (H : GraphData) : Prop where
  outgoing : H = { G with inOffsets := H.inOffsets, inEdges := H.inEdges }
  incoming : Transposed weighted G.n G.m o f H.inOffsets H.inEdges

/-- `make_in_edges` up to the loop that fills the gaps: the incoming edges and the offsets that are recorded. -/
def markInEdges (R : Runtime) (weighted : Bool) (G : GraphData) : Option (Array ℕ × Array ℕ) := do
  let edgelist ← parallelLoop (R.schedules 0 0) G.n
    (Array.replicate G.m (R.uninit, R.uninit)) fun u edgelist => do
    let first ← G.outOffsets[u]?
    let last ← G.outOffsets[u + 1]?
    parallelLoop (R.schedules 1 u) (last - first) edgelist fun k edgelist => do
      let e ← G.outEdges[first + k]?
      write edgelist (first + k) (lo32 e, backEdge weighted e u)
  let (edgelist, _) ← sampleSort inEntryLess (R.sort inEntryLess) (if weighted then 16 else 8)
    (fun _ => (R.uninit, R.uninit)) R.numWorkers (R.schedules 2) edgelist
  parallelLoop (R.schedules 3 0) G.m
    (Array.replicate G.m R.uninit, Array.replicate (G.n + 1) G.m) fun i (inEdges, inOffsets) => do
      let x ← edgelist[i]?
      let inEdges ← write inEdges i x.2
      let inOffsets ← markFirst (fun j => (edgelist[j]?).map Prod.fst) i inOffsets
      some (inEdges, inOffsets)

/-- `make_in_edges` up to the loop that fills the gaps, that loop, and the rest. -/
theorem makeInEdges_eq (R : Runtime) (weighted : Bool) (G : GraphData) : makeInEdges R weighted G = (do
    let (inEdges, inOffsets) ← markInEdges R weighted G
    let inOffsets ← fillGaps (R.schedules 4 0) G.n G.m inOffsets
    some { G with inOffsets := inOffsets, inEdges := inEdges }) := by
  unfold makeInEdges markInEdges
  simp only [bind_assoc]

/-- The state before the gaps are filled. -/
structure MarkedEdges (weighted : Bool) (n m : ℕ) (o f key q : ℕ → ℕ) (inEdges inOffsets : Array ℕ) : Prop where
  marked : ∃ p, Marked key n m (Finset.range m) inOffsets p
  edges : Contents inEdges m q
  mono : ∀ i j, i ≤ j → j < m → key i ≤ key j
  key_lt : ∀ i < m, key i < n
  sorted : SortedLists n (first key m) q
  count : ∀ u < n, ∀ v < n, ∀ w, edgeCount o f (fun e => unpackEdge weighted e = (v, w)) u =
    edgeCount (first key m) q (fun e => unpackEdge weighted e = (u, w)) v

/-- The entries with target `v` that lead back to `u` come from the edges of `u`. -/
theorem card_entries {e : ℕ → ℕ × ℕ} (hoffsets : IsOffsets G.outOffsets n m o) (hn : n ≤ 2 ^ 32)
    (he : ∀ u < n, ∀ i, o u ≤ i → i < o (u + 1) → e i = (lo32 (f i), backEdge weighted (f i) u)) {u : ℕ}
    (hu : u < n) (v w : ℕ) :
    ((Finset.range m).filter fun i => (e i).1 = v ∧ unpackEdge weighted (e i).2 = (u, w)).card =
      edgeCount o f (fun x => unpackEdge weighted x = (v, w)) u := by
  refine congrArg Finset.card ?_
  ext i
  rw [Finset.mem_filter, Finset.mem_filter, Finset.mem_range, Finset.mem_Ico]
  constructor
  · rintro ⟨hi, htarget, hback⟩
    obtain ⟨x, hx, hslot, hslot'⟩ := hoffsets.exists_slot hi
    rw [he x hx i hslot hslot'] at htarget hback
    rw [unpackEdge_backEdge weighted (f i) (hx.trans_le hn), Prod.mk.injEq] at hback
    obtain ⟨rfl, rfl⟩ := hback
    exact ⟨⟨hslot, hslot'⟩, congrArg (Prod.mk · _) htarget⟩
  · rintro ⟨⟨hslot, hslot'⟩, hunpack⟩
    have hlast := hoffsets.le_last (u := u + 1) (by omega)
    rw [he u hu i hslot hslot', unpackEdge_backEdge weighted (f i) (hu.trans_le hn), hunpack]
    exact ⟨by omega, congrArg Prod.fst hunpack, rfl⟩

/-- The edges are sorted by their targets and the offsets of the targets are recorded. -/
theorem returns_markInEdges (R : Runtime) (hoffsets : IsOffsets G.outOffsets G.n G.m o)
    (hedges : Contents G.outEdges G.m f)
    (htarget : ∀ i < G.m, lo32 (f i) < G.n) (hn : G.n ≤ 2 ^ 32) (hm : G.m < 2 ^ 63) :
    Returns (fun r => ∃ key q, MarkedEdges weighted G.n G.m o f key q r.1 r.2) (markInEdges R weighted G) := by
  unfold markInEdges
  refine (returns_edgelist R hoffsets hedges).bind ?_
  rintro edgelist ⟨e, he, hentries⟩
  refine (returns_sampleSort_sorted inEntryLess_strict (R.sorts _ inEntryLess_strict)
    (fun _ => (R.uninit, R.uninit)) e (R.schedules 2) he
    hm R.numWorkers_pos R.numWorkers_lt).bind ?_
  rintro ⟨sorted, written⟩ ⟨g, hg, hperm, hsorted⟩
  dsimp only at hg ⊢
  have hsource : ∀ k < G.m, ∃ i < G.m, g k = e i := by
    intro k hk
    have hmem := hperm.subset (List.mem_map_of_mem (List.mem_range.mpr hk))
    obtain ⟨i, hi, heq⟩ := List.mem_map.mp hmem
    exact ⟨i, List.mem_range.mp hi, heq.symm⟩
  have hkey : ∀ k < G.m, (g k).1 < G.n := by
    intro k hk
    obtain ⟨i, hi, heq⟩ := hsource k hk
    obtain ⟨u, hu, hslot, hslot'⟩ := hoffsets.exists_slot hi
    rw [heq, hentries u hu i hslot hslot' trivial]
    exact htarget i hi
  have hordered : ∀ i j, i < j → j < G.m → (g i).1 < (g j).1 ∨ (g i).1 = (g j).1 ∧
    lo32 (g i).2 ≤ lo32 (g j).2 := by
    intro i j hlt hj
    have hpair := List.pairwise_map.mp hsorted
    have hnot := List.pairwise_iff_getElem.mp hpair i j (by simp; omega) (by simpa using hj) hlt
    rw [List.getElem_range, List.getElem_range, inEntryLess] at hnot
    split_ifs at hnot with hne <;> rw [decide_eq_false_iff_not] at hnot <;> omega
  have hmono : ∀ i j, i ≤ j → j < G.m → (g i).1 ≤ (g j).1 := by
    intro i j hij hj
    rcases Nat.eq_or_lt_of_le hij with rfl | hlt
    · exact le_rfl
    · rcases hordered i j hlt hj with h | h <;> omega
  have hsources : ∀ i j, i < j → j < G.m → (g i).1 = (g j).1 → lo32 (g i).2 ≤ lo32 (g j).2 := by
    intro i j hlt hj hsame
    rcases hordered i j hlt hj with h | h
    · omega
    · exact h.2
  refine (Returns.parallelLoop (I := fun done (r : Array ℕ × Array ℕ) =>
    (∃ h, Contents r.1 G.m h ∧ ∀ k ∈ done, h k = (g k).2) ∧
    ∃ q, Marked (fun k => (g k).1) G.n G.m done r.2 q) ?_ ?_).mono ?_
  · exact ⟨⟨_, Contents.replicate _ _, fun k hk => absurd hk (Finset.notMem_empty k)⟩, _, Marked.start _ _ _⟩
  · rintro done i ⟨inEdges, inOffsets⟩ hi hnot ⟨⟨h, hh, hdone⟩, q, hmarked⟩
    refine Returns.bind_eq (hg.get i hi) ?_
    obtain ⟨inEdges', hwrite, hh'⟩ := hh.write hi (g i).2
    refine Returns.bind_eq hwrite ?_
    have hkeys : ∀ j < G.m, (sorted[j]?).map Prod.fst = some (g j).1 := fun j hj => by rw [hg.get j hj]; rfl
    refine (hmarked.markFirst hmono hkeys hi (hkey i hi).le).bind fun inOffsets' hmarked' => ?_
    refine Returns.pure ⟨⟨_, hh', fun k hk => ?_⟩, hmarked'⟩
    rcases Finset.mem_insert.mp hk with rfl | hk
    · exact Function.update_self ..
    · rw [Function.update_of_ne fun hki : k = i => hnot (hki ▸ hk)]
      exact hdone k hk
  · rintro ⟨inEdges, inOffsets⟩ ⟨⟨h, hh, hdone⟩, hmarked⟩
    refine ⟨fun k => (g k).1, fun k => (g k).2, hmarked,
      hh.congr fun k hk => hdone k (Finset.mem_range.mpr hk), hmono, hkey, ?_, ?_⟩
    · intro v hv i hi hi'
      obtain ⟨him, hkeyi⟩ := (mem_first_iff hmono).mp ⟨hi.le, hi'⟩
      have hle : first (fun k => (g k).1) G.m v ≤ i - 1 := by omega
      obtain ⟨-, hkeyp⟩ := (mem_first_iff hmono).mp ⟨hle, (Nat.sub_le i 1).trans_lt hi'⟩
      exact hsources (i - 1) i (by omega) him (hkeyp.trans hkeyi.symm)
    · intro u hu v hv w
      rw [edgeCount_first hmono fun x => unpackEdge weighted x = (u, w)]
      refine Eq.symm ((card_filter_of_perm hperm fun x => x.1 = v ∧ unpackEdge weighted x.2 = (u, w)).trans ?_)
      exact card_entries hoffsets hn (fun u hu i hi hi' => hentries u hu i hi hi' trivial) hu v w

/-- Once the gaps are filled, the edges are transposed. -/
theorem MarkedEdges.transposed {key q : ℕ → ℕ} {inEdges inOffsets filled : Array ℕ}
    (h : MarkedEdges weighted n m o f key q inEdges inOffsets) (hfilled : IsOffsets filled n m (first key m)) :
    Transposed weighted n m o f filled inEdges := ⟨_, q, hfilled, h.edges, h.sorted, h.count⟩

/-- The incoming edges are the transposed ones. -/
theorem returns_makeInEdges (R : Runtime) (hoffsets : IsOffsets G.outOffsets G.n G.m o)
    (hedges : Contents G.outEdges G.m f)
    (htarget : ∀ i < G.m, lo32 (f i) < G.n) (hn : G.n ≤ 2 ^ 32) (hm : G.m < 2 ^ 63) :
    Returns (InEdges weighted G o f) (makeInEdges R weighted G) := by
  rw [makeInEdges_eq]
  refine (returns_markInEdges R hoffsets hedges htarget hn hm).bind ?_
  rintro ⟨inEdges, inOffsets⟩ ⟨key, q, h⟩
  obtain ⟨p, hmarked⟩ := h.marked
  refine (returns_fillGaps (R.schedules 4 0) hmarked h.mono h.key_lt).bind fun inOffsets' hfilled => ?_
  exact Returns.pure ⟨rfl, h.transposed hfilled⟩

end MakeInEdges

section Transpose

/-- The graphs whose edges can be turned round. -/
structure Directed (G : GraphData) : Prop where
  n_lt : G.n < 2 ^ 32 - 1
  outOffsets_size : G.outOffsets.size = G.n + 1
  outEdges_size : G.outEdges.size = G.m
  offset_zero : G.outOffsets.getD 0 0 = 0
  offset_le : ∀ u < G.n, G.outOffsets.getD u 0 ≤ G.outOffsets.getD (u + 1) 0
  offset_last : G.outOffsets.getD G.n 0 = G.m
  target_lt : ∀ i < G.m, lo32 (G.outEdges.getD i 0) < G.n
  /-- The array of the edges passes the size check of its constructor. -/
  m_lt : G.m < 2 ^ 62

variable {G : GraphData}

/-- The offsets of the graph. -/
theorem Directed.isOffsets (h : Directed G) : IsOffsets G.outOffsets G.n G.m fun i => G.outOffsets.getD i 0 :=
  ⟨⟨h.outOffsets_size, fun i hi => by simp [Array.getD, h.outOffsets_size, hi]⟩, h.offset_zero, h.offset_le,
    h.offset_last⟩

/-- The edges of the graph. -/
theorem Directed.edges (h : Directed G) : Contents G.outEdges G.m fun i => G.outEdges.getD i 0 :=
  ⟨h.outEdges_size, fun i hi => by simp [Array.getD, h.outEdges_size, hi]⟩

/-- The incoming edges are the transposed ones, whatever the order of the iterations, and also if every
access of the loop that fills the gaps is a step of its own. -/
theorem makeInEdges_transposes (R : Runtime) (weighted : Bool) (h : Directed G) :
    (∃ H, makeInEdges R weighted G = some H ∧ H = { G with inOffsets := H.inOffsets, inEdges := H.inEdges } ∧
      Transposed weighted G.n G.m (fun i => G.outOffsets.getD i 0)
        (fun i => G.outEdges.getD i 0) H.inOffsets H.inEdges) ∧
    ∃ inEdges marked, markInEdges R weighted G = some (inEdges, marked) ∧
      ∀ order : List ℕ, (∀ i ∈ order, i ≤ G.n) → ∃ s, runFill G.n G.m order (startFill marked) = some s ∧
        (∀ i ≤ G.n, i + 4 ≤ order.count i → s.phase i = .returned) ∧
        ((∀ i ≤ G.n, s.phase i = .returned) →
          Transposed weighted G.n G.m (fun i => G.outOffsets.getD i 0)
            (fun i => G.outEdges.getD i 0) s.offsets inEdges) := by
  have hn := h.n_lt
  have hm := h.m_lt
  refine ⟨?_, ?_⟩
  · obtain ⟨H, heq, hin⟩ := returns_makeInEdges R h.isOffsets h.edges h.target_lt (by omega) (by omega)
    exact ⟨H, heq, hin.outgoing, hin.incoming⟩
  · obtain ⟨⟨inEdges, marked⟩, heq, key, q, hedges⟩ :=
      returns_markInEdges R h.isOffsets h.edges h.target_lt (by omega) (by omega)
    obtain ⟨p, hmarked⟩ := hedges.marked
    refine ⟨inEdges, marked, heq, fun order horder => ?_⟩
    obtain ⟨s, hrun, hsafe⟩ :=
      backFills hn (hmarked.recorded hedges.mono hedges.key_lt) hmarked.contents order horder
    refine ⟨s, hrun, hsafe.returns, fun hall => hedges.transposed ?_⟩
    exact hsafe.isOffsets hmarked hedges.mono hedges.key_lt hall

/-- Two edges to the last of three vertices. -/
def twoEdges : GraphData := ⟨3, 2, #[0, 1, 2, 2], #[2, 2], #[], #[]⟩

/-- The incoming edges of a graph with two edges. -/
theorem makeInEdges_transposes_twoEdges : ∃ H, makeInEdges Runtime.sequential false twoEdges = some H ∧
    Transposed false 3 2 (fun i => twoEdges.outOffsets.getD i 0)
      (fun i => twoEdges.outEdges.getD i 0) H.inOffsets H.inEdges := by
  have hdirected : Directed twoEdges :=
    ⟨by decide, by decide, by decide, by decide, by decide, by decide, by decide, by decide⟩
  obtain ⟨⟨H, heq, -, htransposed⟩, -⟩ := makeInEdges_transposes Runtime.sequential false hdirected
  exact ⟨H, heq, htransposed⟩

end Transpose

end GraphFile

end ToggleTree
