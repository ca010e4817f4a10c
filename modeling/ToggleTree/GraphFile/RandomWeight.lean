import ToggleTree.GraphFile.Consistent

/-!
# Random weights

The weight of an edge is a hash of its ends in ascending order, so both directions get the same
weight, in the arrays of both directions. The vertex is a 32-bit number and so is its successor:
the range of the vertex `2 ^ 32 - 1` ends where the first range starts.
-/

namespace ToggleTree

open Checked Primitives

namespace GraphFile

section Code

/-- `range` -/
def weightRange (n : ℕ) (r : ℤ) : ℕ := if r = -1 then log2 n % 2 ^ 32 else 1 <<< r.toNat % 2 ^ 32

/-- The weight of the edges between `u` and `v`. -/
def pairWeight (range u v : ℕ) : ℕ := 1 + (hash64 (BitVec.ofNat 64 (glue32 (min u v) (max u v)))).toNat % range

/-- `assign` -/
def assign (schedule : Schedule) (inner : ℕ → Schedule) (range n : ℕ) (offsets edges : Array ℕ) :
    Option (Array ℕ) :=
  parallelLoop schedule n edges fun i edges => do
    let u := i % 2 ^ 32
    let first ← offsets[u]?
    let last ← offsets[(u + 1) % 2 ^ 32]?
    -- the length of such a range wraps around, and the loop runs over the end of the array
    if last < first then none
    else parallelLoop (inner i) (last - first) edges fun k edges => do
      let e ← edges[first + k]?
      if range = 0 then none
      else write edges (first + k) (lo32 e ||| pairWeight range u (lo32 e) <<< 32 % 2 ^ 64)

/-- `make_random_weight` -/
def makeRandomWeight (R : Runtime) (symmetrized : Bool) (r : ℤ) (G : GraphData) : Option GraphData := do
  let range := weightRange G.n r
  let outEdges ← assign (R.schedules 8 0) (R.schedules 9) range G.n G.outOffsets G.outEdges
  if symmetrized then some { G with outEdges := outEdges }
  else do
    let inEdges ← assign (R.schedules 10 0) (R.schedules 11) range G.n G.inOffsets G.inEdges
    some { G with outEdges := outEdges, inEdges := inEdges }

end Code

section Weights

variable {range u v n : ℕ} {r : ℤ}

/-- The weight of a pair does not depend on its order. -/
theorem pairWeight_comm (range u v : ℕ) : pairWeight range u v = pairWeight range v u := by
  rw [pairWeight, pairWeight, min_comm, max_comm]

/-- The weight of a pair is positive. -/
theorem pairWeight_pos : 1 ≤ pairWeight range u v := Nat.le_add_right 1 _

/-- The weight of a pair is in its range. -/
theorem pairWeight_le (hrange : 0 < range) : pairWeight range u v ≤ range := by
  have hlt := Nat.mod_lt (hash64 (BitVec.ofNat 64 (glue32 (min u v) (max u v)))).toNat hrange
  rw [pairWeight]
  omega

/-- The range of the weights. -/
theorem weightRange_eq (hn : n < 2 ^ 64) (hr : r = -1 ∨ 0 ≤ r ∧ r ≤ 31) :
    weightRange n r = if r = -1 then log2 n else 2 ^ r.toNat := by
  rw [weightRange]
  split
  · have hsize : log2 n ≤ 64 := Nat.size_le.mpr hn
    exact Nat.mod_eq_of_lt (by omega)
  · rename_i hne
    rw [Nat.one_shiftLeft]
    refine Nat.mod_eq_of_lt (Nat.pow_lt_pow_right (by norm_num) ?_)
    omega

/-- The range of the weights is not empty. -/
theorem weightRange_pos (hpos : 1 ≤ n) (hn : n < 2 ^ 64) (hr : r = -1 ∨ 0 ≤ r ∧ r ≤ 31) :
    0 < weightRange n r := by
  rw [weightRange_eq hn hr]
  split
  · exact Nat.size_pos.mpr hpos
  · exact Nat.two_pow_pos _

/-- The range of the weights fits into 32 bits. -/
theorem weightRange_lt (n : ℕ) (r : ℤ) : weightRange n r < 2 ^ 32 := by
  rw [weightRange]
  split <;> exact Nat.mod_lt _ (by norm_num)

/-- The neighbour stays and the weight is new. -/
theorem halves_or {e w : ℕ} (hw : w < 2 ^ 32) :
    lo32 (lo32 e ||| w <<< 32 % 2 ^ 64) = lo32 e ∧ hi32 (lo32 e ||| w <<< 32 % 2 ^ 64) = w := by
  have hlo : lo32 e < 2 ^ 32 := Nat.mod_lt _ (by norm_num)
  have hword : lo32 e ||| w <<< 32 % 2 ^ 64 = w * 2 ^ 32 + lo32 e := by
    rw [Nat.shiftLeft_eq, Nat.mod_eq_of_lt (by omega), ← Nat.shiftLeft_eq, Nat.or_comm,
      ← Nat.shiftLeft_add_eq_or_of_lt hlo,
      Nat.shiftLeft_eq]
  rw [hword, hi32_eq, lo32]
  constructor <;> omega

end Weights

section Assign

variable {offsets edges : Array ℕ} {range n m : ℕ} {o f : ℕ → ℕ}

/-- The edges whose positions are done have their new weights. -/
def Assigned (range n m : ℕ) (o f : ℕ → ℕ) (done : ℕ → Prop) (edges : Array ℕ) : Prop :=
  ∃ h, Contents edges m h ∧ (∀ i < m, lo32 (h i) = lo32 (f i)) ∧
    ∀ u < n, ∀ i, o u ≤ i → i < o (u + 1) → done i → hi32 (h i) = pairWeight range u (lo32 (f i))

/-- With fewer than `2 ^ 32` vertices no counter wraps around. -/
theorem assign_eq (hn : n < 2 ^ 32) (schedule : Schedule) (inner : ℕ → Schedule)
    (hoffsets : IsOffsets offsets n m o) :
    assign schedule inner range n offsets edges = (parallelLoop schedule n edges fun u edges => do
      let first ← offsets[u]?
      let last ← offsets[u + 1]?
      parallelLoop (inner u) (last - first) edges fun k edges => do
        let e ← edges[first + k]?
        if range = 0 then none
        else write edges (first + k) (lo32 e ||| pairWeight range u (lo32 e) <<< 32 % 2 ^ 64)) := by
  refine parallelLoop_congr fun u hu edges => ?_
  have hmod : u % 2 ^ 32 = u := Nat.mod_eq_of_lt (by omega)
  have hmod' : (u + 1) % 2 ^ 32 = u + 1 := Nat.mod_eq_of_lt (by omega)
  have hle := hoffsets.le u hu
  dsimp only
  rw [hmod, hmod', hoffsets.contents.get u (by omega), hoffsets.contents.get (u + 1) (by omega)]
  exact if_neg (by omega)

/-- The weights of all edges are assigned. -/
theorem returns_assign (hn : n < 2 ^ 32) (hpos : 0 < range) (hrange : range < 2 ^ 32) (schedule : Schedule)
    (inner : ℕ → Schedule) (hoffsets : IsOffsets offsets n m o) (hedges : Contents edges m f) :
    Returns (Assigned range n m o f fun _ => True) (assign schedule inner range n offsets edges) := by
  rw [assign_eq hn schedule inner hoffsets]
  refine hoffsets.returns_slots schedule inner (I := Assigned range n m o f) (fun u i edges => do
    let e ← edges[i]?
    if range = 0 then none
    else write edges i (lo32 e ||| pairWeight range u (lo32 e) <<< 32 % 2 ^ 64)) ?_ ?_ ?_
  · exact ⟨f, hedges, fun _ _ => rfl, fun u _ i _ _ hf => hf.elim⟩
  · rintro done done' edges hsub ⟨h, hh, htarget, hdone⟩
    refine ⟨h, hh, htarget, fun u hu i hi hi' hd => hdone u hu i hi hi' (hsub i ?_ hd)⟩
    exact hi'.trans_le (hoffsets.le_last (u := u + 1) (by omega))
  · rintro u hu i hi hi' done edges ⟨h, hh, htarget, hdone⟩
    have him : i < m := hi'.trans_le (hoffsets.le_last (u := u + 1) (by omega))
    obtain ⟨hlo, hhi⟩ :=
      halves_or (e := h i) (w := pairWeight range u (lo32 (h i))) ((pairWeight_le hpos).trans_lt hrange)
    refine Returns.bind_eq (hh.get i him) ?_
    rw [if_neg hpos.ne']
    obtain ⟨edges', hwrite, hh'⟩ := hh.write him (lo32 (h i) ||| pairWeight range u (lo32 (h i)) <<< 32 % 2 ^ 64)
    refine Returns.of_eq hwrite ⟨_, hh', fun j hj => ?_, fun v hv j hj hj' hor => ?_⟩
    · by_cases heq : j = i
      · rw [heq, Function.update_self, hlo, htarget i him]
      · rw [Function.update_of_ne heq, htarget j hj]
    · by_cases heq : j = i
      · subst heq
        rw [Function.update_self, hhi, htarget j him, hoffsets.slot_unique hv hu hj hj' hi hi']
      · rw [Function.update_of_ne heq]
        exact hdone v hv j hj hj' (hor.resolve_right heq)

/-- With more vertices the range of the vertex `2 ^ 32 - 1` ends at the first offset: no edge gets a weight. -/
theorem assign_large (hn : 2 ^ 32 ≤ n) (schedule : Schedule) (inner : ℕ → Schedule)
    (hoffsets : IsOffsets offsets n m o) :
    assign schedule inner range n offsets edges = if o (2 ^ 32 - 1) = 0 then some edges else none := by
  have hget (u : ℕ) (hu : u < 2 ^ 32) : offsets[u]? = some (o u) := hoffsets.contents.get u (by omega)
  split
  · rename_i hzero
    have hstart (u : ℕ) (hu : u < 2 ^ 32) : o u = 0 := by
      have hle := hoffsets.mono (show u ≤ 2 ^ 32 - 1 by omega) (by omega)
      omega
    refine parallelLoop_id fun i _ edges => ?_
    have hu := Nat.mod_lt i (show 0 < 2 ^ 32 by norm_num)
    have hv := Nat.mod_lt (i % 2 ^ 32 + 1) (show 0 < 2 ^ 32 by norm_num)
    dsimp only
    rw [hget _ hu, hget _ hv, hstart _ hu, hstart _ hv]
    exact parallelLoop_id fun k hk => absurd hk (Nat.not_lt_zero k)
  · rename_i hpos
    refine parallelLoop_eq_none (i := 2 ^ 32 - 1) (by omega) fun edges => ?_
    have hu : (2 ^ 32 - 1) % 2 ^ 32 = 2 ^ 32 - 1 := by norm_num
    have hv : (2 ^ 32 - 1 + 1) % 2 ^ 32 = 0 := by norm_num
    dsimp only
    rw [hu, hv, hget _ (by norm_num), hget _ (by norm_num), hoffsets.zero]
    exact if_pos (Nat.pos_of_ne_zero hpos)

end Assign

section Spec

/-- Lists of edges whose ends are vertices. -/
structure EdgeLists (n : ℕ) (offsets edges : Array ℕ) : Prop where
  offsets : IsOffsets offsets n edges.size fun u => offsets.getD u 0
  end_lt : ∀ i < edges.size, lo32 (edges.getD i 0) < n

/-- The graphs whose incoming edges are the outgoing ones seen from their targets, whatever the weights. -/
structure Weightable (symmetrized : Bool) (G : GraphData) : Prop where
  n_pos : 1 ≤ G.n
  n_lt : G.n < 2 ^ 64
  m : G.outEdges.size = G.m
  outgoing : EdgeLists G.n G.outOffsets G.outEdges
  incoming : symmetrized = false → EdgeLists G.n G.inOffsets G.inEdges
  transposed : Consistent symmetrized false G

/-- Only the weights may differ. -/
structure SameEnds (edges edges' : Array ℕ) : Prop where
  size : edges'.size = edges.size
  target : ∀ i < edges.size, lo32 (edges'.getD i 0) = lo32 (edges.getD i 0)

/-- The edges of `u` to `v` have the weight `W u v`. -/
structure Reweighted (n range : ℕ) (W : ℕ → ℕ → ℕ)
    (offsets edges edges' : Array ℕ) : Prop extends SameEnds edges edges' where
  bounds : ∀ i < edges.size, 1 ≤ hi32 (edges'.getD i 0) ∧ hi32 (edges'.getD i 0) ≤ range ∧
    hi32 (edges'.getD i 0) < 2 ^ 32
  weight : ∀ u < n, ∀ i, offsets.getD u 0 ≤ i → i < offsets.getD (u + 1) 0 →
    hi32 (edges'.getD i 0) = W u (lo32 (edges'.getD i 0))

/-- Every edge has got a weight, the same in both directions and in both arrays. -/
structure RandomlyWeighted (symmetrized : Bool) (range : ℕ) (G H : GraphData) : Prop where
  others : H = { G with outEdges := H.outEdges, inEdges := H.inEdges }
  incoming : symmetrized = true → H.inEdges = G.inEdges
  weights : ∃ W, (∀ u v, W u v = W v u) ∧ Reweighted G.n range W G.outOffsets G.outEdges H.outEdges ∧
    (symmetrized = false → Reweighted G.n range W G.inOffsets G.inEdges H.inEdges)
  consistent : Consistent symmetrized true H

/-- The same graph with other weights. -/
structure SameShape (G G' : GraphData) : Prop where
  others : G' = { G with outEdges := G'.outEdges, inEdges := G'.inEdges }
  outgoing : SameEnds G.outEdges G'.outEdges
  incoming : SameEnds G.inEdges G'.inEdges

end Spec

section Weighting

variable {offsets edges edges' : Array ℕ} {range n m u : ℕ} {o f h : ℕ → ℕ} {symmetrized : Bool}
  {G G' H : GraphData} {r : ℤ}

/-- The edges are their own contents. -/
theorem EdgeLists.contents (_ : EdgeLists n offsets edges) : Contents edges edges.size fun i => edges.getD i 0 :=
  Contents.self edges

/-- The number of edges with corresponding properties. -/
theorem edgeCount_congr {p p' : ℕ → Prop} [DecidablePred p] [DecidablePred p']
    (hiff : ∀ i, o u ≤ i → i < o (u + 1) → (p (f i) ↔ p' (h i))) : edgeCount o f p u = edgeCount o h p' u := by
  refine congrArg Finset.card (Finset.filter_congr fun i hi => ?_)
  rw [Finset.mem_Ico] at hi
  exact hiff i hi.1 hi.2

/-- The edges from `u` to `v` have all the same weight. -/
theorem edgeCount_weighted (hoffsets : IsOffsets offsets n m o) (htarget : ∀ i < m, lo32 (h i) = lo32 (f i))
    (hweight : ∀ u < n, ∀ i, o u ≤ i → i < o (u + 1) → True → hi32 (h i) = pairWeight range u (lo32 (f i)))
    (hu : u < n) (v w : ℕ) :
    edgeCount o h (fun e => unpackEdge true e = (v, w)) u =
      if w = pairWeight range u v then edgeCount o f (fun e => unpackEdge false e = (v, 1)) u else 0 := by
  have hunpack : ∀ i, o u ≤ i → i < o (u + 1) → (unpackEdge true (h i) = (v, w) ↔
      w = pairWeight range u v ∧ unpackEdge false (f i) = (v, 1)) := by
    intro i hi hi'
    have hlast := hoffsets.le_last (u := u + 1) (by omega)
    change (lo32 (h i), hi32 (h i)) = (v, w) ↔ _ ∧ (lo32 (f i), 1) = (v, 1)
    rw [Prod.mk.injEq, Prod.mk.injEq, htarget i (by omega), hweight u hu i hi hi' trivial]
    constructor
    · rintro ⟨rfl, rfl⟩
      exact ⟨rfl, rfl, rfl⟩
    · rintro ⟨rfl, rfl, -⟩
      exact ⟨rfl, rfl⟩
  split
  · rename_i hw
    exact edgeCount_congr fun i hi hi' => (hunpack i hi hi').trans (and_iff_right hw)
  · rename_i hw
    refine Finset.card_eq_zero.mpr (Finset.filter_eq_empty_iff.mpr fun i hi heq => hw ?_)
    rw [Finset.mem_Ico] at hi
    exact ((hunpack i hi.1 hi.2).mp heq).1

/-- The loop does its work with fewer than `2 ^ 32` vertices, and without edges. -/
theorem returns_assign_of (hn : n < 2 ^ 32 ∨ m = 0) (hpos : 0 < range) (hrange : range < 2 ^ 32)
    (schedule : Schedule)
    (inner : ℕ → Schedule) (hoffsets : IsOffsets offsets n m o) (hedges : Contents edges m f) :
    Returns (Assigned range n m o f fun _ => True) (assign schedule inner range n offsets edges) := by
  rcases Nat.lt_or_ge n (2 ^ 32) with hlt | hge
  · exact returns_assign hlt hpos hrange schedule inner hoffsets hedges
  · have hm := hn.resolve_left (by omega)
    have hzero := hoffsets.le_last (u := 2 ^ 32 - 1) (by omega)
    refine Returns.of_eq ((assign_large hge schedule inner hoffsets).trans (if_pos (by omega)))
      ⟨f, hedges, fun _ _ => rfl, ?_⟩
    intro u hu i hi hi'
    have hlast := hoffsets.le_last (u := u + 1) (by omega)
    omega

/-- Assigned weights are those of the pairs. -/
theorem Reweighted.of_assigned (hpos : 0 < range) (hrange : range < 2 ^ 32) (hlists : EdgeLists n offsets edges)
    (hsize : Contents edges' edges.size h) (htarget : ∀ i < edges.size, lo32 (h i) = lo32 (edges.getD i 0))
    (hweight : ∀ u < n, ∀ i, offsets.getD u 0 ≤ i → i < offsets.getD (u + 1) 0 → True →
      hi32 (h i) = pairWeight range u (lo32 (edges.getD i 0))) :
    Reweighted n range (pairWeight range) offsets edges edges' := by
  have hget : ∀ i < edges.size, edges'.getD i 0 = h i := by
    intro i hi
    rw [Array.getD_eq_getD_getElem?, hsize.get i hi, Option.getD_some]
  refine ⟨⟨hsize.size, fun i hi => ?_⟩, fun i hi => ?_, fun u hu i hi hi' => ?_⟩
  · rw [hget i hi, htarget i hi]
  · obtain ⟨u, hu, hslot, hslot'⟩ := hlists.offsets.exists_slot hi
    rw [hget i hi, hweight u hu i hslot hslot' trivial]
    exact ⟨pairWeight_pos, pairWeight_le hpos, (pairWeight_le hpos).trans_lt hrange⟩
  · have hlast := hlists.offsets.le_last (u := u + 1) (by omega)
    rw [hget i (by omega), hweight u hu i hi hi' trivial, htarget i (by omega)]

/-- Without outgoing edges there are no incoming ones. -/
theorem Weightable.no_incoming (hG : Weightable false G) (hm : G.m = 0) : G.inEdges.size = 0 := by
  by_contra hne
  have hout := hG.outgoing
  have hin := hG.incoming rfl
  obtain ⟨v, hv, hslot, hslot'⟩ := hin.offsets.exists_slot (Nat.pos_of_ne_zero hne)
  have hu := hin.end_lt 0 (Nat.pos_of_ne_zero hne)
  have hcount :=
    (consistent_iff false G hout.offsets hout.contents hin.offsets hin.contents).mp hG.transposed _ hu v hv 1
  have hlast := hout.offsets.le_last (u := lo32 (G.inEdges.getD 0 0) + 1) hu
  have hempty : edgeCount (fun u => G.outOffsets.getD u 0) (fun i => G.outEdges.getD i 0)
      (fun e => unpackEdge false e = (v, 1)) (lo32 (G.inEdges.getD 0 0)) = 0 := by
    refine Finset.card_eq_zero.mpr (Finset.filter_eq_empty_iff.mpr fun i hi => ?_)
    have hlt := (Finset.mem_Ico.mp hi).2.trans_le hlast
    rw [hG.m, hm] at hlt
    exact absurd hlt (Nat.not_lt_zero i)
  rw [hempty] at hcount
  refine Finset.notMem_empty 0 (Finset.card_eq_zero.mp hcount.symm ▸ Finset.mem_filter.mpr
    ⟨Finset.mem_Ico.mpr ⟨hslot, hslot'⟩, rfl⟩)

/-- The graph gets its weights. -/
theorem randomlyWeighted (R : Runtime) (hG : Weightable symmetrized G) (hr : r = -1 ∨ 0 ≤ r ∧ r ≤ 31)
    (hn : G.n < 2 ^ 32 ∨ G.m = 0) :
    ∃ H, makeRandomWeight R symmetrized r G = some H ∧
      RandomlyWeighted symmetrized (if r = -1 then log2 G.n else 2 ^ r.toNat) G H := by
  have hpos := weightRange_pos hG.n_pos hG.n_lt hr
  have hrange := weightRange_lt G.n r
  have hout := hG.outgoing
  rw [← weightRange_eq hG.n_lt hr]
  obtain ⟨outEdges, heq, h, hh, htarget, hweight⟩ :=
    returns_assign_of (by rwa [hG.m]) hpos hrange (R.schedules 8 0) (R.schedules 9) hout.offsets hout.contents
  have hreweighted := Reweighted.of_assigned hpos hrange hout hh htarget hweight
  cases symmetrized with
  | true =>
    refine ⟨{ G with outEdges := outEdges }, bind_eq_of_eq heq _, rfl, fun _ => rfl,
      ⟨_, pairWeight_comm _, hreweighted, nofun⟩, ?_⟩
    have hcount := (consistent_iff true G hout.offsets hout.contents hout.offsets hout.contents).mp hG.transposed
    refine (consistent_iff true { G with outEdges := outEdges } hout.offsets hh hout.offsets hh).mpr fun u
      hu v hv w => ?_
    rw [edgeCount_weighted hout.offsets htarget hweight hu, edgeCount_weighted hout.offsets htarget hweight hv,
      pairWeight_comm _ v u, hcount u hu v hv 1]
  | false =>
    have hin := hG.incoming rfl
    obtain ⟨inEdges, heq', k, hk, htarget', hweight'⟩ :=
      returns_assign_of (hn.imp_right hG.no_incoming) hpos hrange (R.schedules 10 0)
        (R.schedules 11) hin.offsets hin.contents
    refine ⟨{ G with outEdges := outEdges, inEdges := inEdges }, (bind_eq_of_eq heq _).trans
      (bind_eq_of_eq heq' _), rfl, nofun,
      ⟨_, pairWeight_comm _, hreweighted, fun _ =>
        Reweighted.of_assigned hpos hrange hin hk htarget' hweight'⟩, ?_⟩
    have hcount := (consistent_iff false G hout.offsets hout.contents hin.offsets hin.contents).mp hG.transposed
    refine (consistent_iff false { G with outEdges := outEdges, inEdges := inEdges } hout.offsets hh
      hin.offsets hk).mpr fun u hu v hv w => ?_
    rw [edgeCount_weighted hout.offsets htarget hweight hu, edgeCount_weighted hin.offsets htarget' hweight' hv,
      pairWeight_comm _ v u, hcount u hu v hv 1]

/-- The weights do not matter for a graph to be weightable. -/
theorem Weightable.of_sameShape (hG : Weightable symmetrized G) (hsame : SameShape G G') :
    Weightable symmetrized G' := by
  obtain ⟨hothers, ⟨hsize, hout⟩, hsize', hin⟩ := hsame
  obtain ⟨n, m, outOffsets, outEdges, inOffsets, inEdges⟩ := G'
  simp only [GraphData.mk.injEq] at hothers
  obtain ⟨rfl, rfl, rfl, -, rfl, -⟩ := hothers
  have hlists : EdgeLists G.n G.outOffsets outEdges :=
    ⟨hsize ▸ hG.outgoing.offsets,
      fun i hi => by rw [hout i (hsize ▸ hi)]; exact hG.outgoing.end_lt i (hsize ▸ hi)⟩
  have hlists' (hsymmetrized : symmetrized = false) : EdgeLists G.n G.inOffsets inEdges := by
    have hincoming := hG.incoming hsymmetrized
    exact ⟨hsize' ▸ hincoming.offsets,
      fun i hi => by rw [hin i (hsize' ▸ hi)]; exact hincoming.end_lt i (hsize' ▸ hi)⟩
  refine ⟨hG.n_pos, hG.n_lt, hsize.trans hG.m, hlists, hlists', ?_⟩
  have hcount (u : ℕ) (hu : u < G.n) (x : ℕ × ℕ) :
    edgeCount (fun u => G.outOffsets.getD u 0) (fun i => outEdges.getD i 0)
      (fun e => unpackEdge false e = x) u =
      edgeCount (fun u => G.outOffsets.getD u 0) (fun i => G.outEdges.getD i 0)
        (fun e => unpackEdge false e = x) u := by
    refine edgeCount_congr fun i _ hi => ?_
    have hlast := hG.outgoing.offsets.le_last (u := u + 1) (by omega)
    rw [unpackEdge, unpackEdge, hout i (hi.trans_le hlast)]
    rfl
  cases symmetrized with
  | true =>
    have hold :=
      (consistent_iff true G hG.outgoing.offsets hG.outgoing.contents hG.outgoing.offsets
        hG.outgoing.contents).mp hG.transposed
    refine (consistent_iff true ⟨G.n, G.m, G.outOffsets, outEdges, G.inOffsets, inEdges⟩ hlists.offsets
      hlists.contents hlists.offsets hlists.contents).mpr fun u hu v hv w => ?_
    rw [hcount u hu, hcount v hv, hold u hu v hv w]
  | false =>
    have hincoming := hG.incoming rfl
    have hold :=
      (consistent_iff false G hG.outgoing.offsets hG.outgoing.contents hincoming.offsets
        hincoming.contents).mp hG.transposed
    refine (consistent_iff false ⟨G.n, G.m, G.outOffsets, outEdges, G.inOffsets, inEdges⟩ hlists.offsets
      hlists.contents (hlists' rfl).offsets (hlists' rfl).contents).mpr fun u hu v hv w => ?_
    rw [hcount u hu, hold u hu v hv w]
    refine edgeCount_congr fun i _ hi => ?_
    have hlast := hincoming.offsets.le_last (u := v + 1) hv
    rw [unpackEdge, unpackEdge, hin i (hi.trans_le hlast)]
    rfl

/-- The first edge keeps its weight, or there is no result. -/
theorem makeRandomWeight_large (R : Runtime) (hG : Weightable symmetrized G) (hn : 2 ^ 32 ≤ G.n)
    (heq : makeRandomWeight R symmetrized r G = some H) : H.outEdges = G.outEdges := by
  obtain ⟨outEdges, hout, heq⟩ := Option.bind_eq_some_iff.mp heq
  rw [assign_large hn _ _ hG.outgoing.offsets] at hout
  split at hout
  · obtain rfl := Option.some.inj hout
    cases symmetrized with
    | true => exact congrArg GraphData.outEdges (Option.some.inj heq).symm
    | false =>
      obtain ⟨inEdges, -, heq⟩ := Option.bind_eq_some_iff.mp heq
      obtain rfl := Option.some.inj heq
      rfl
  · exact absurd hout nofun

/-- The graph with all weights zero. -/
def withoutWeights (G : GraphData) : GraphData := { G with outEdges := G.outEdges.map lo32 }

/-- The targets without the weights. -/
theorem getD_withoutWeights {i : ℕ} (hi : i < G.outEdges.size) :
    (withoutWeights G).outEdges.getD i 0 = lo32 (G.outEdges.getD i 0) := by
  simp [withoutWeights, Array.getD, hi]

/-- Leaving the weights out keeps the shape. -/
theorem sameShape_withoutWeights (G : GraphData) : SameShape G (withoutWeights G) := by
  refine ⟨rfl, ⟨Array.size_map, fun i hi => ?_⟩, rfl, fun _ _ => rfl⟩
  rw [getD_withoutWeights hi, lo32, lo32, Nat.mod_mod]

/-- Every graph of a shape gets its weights exactly if the vertices are fewer than `2 ^ 32` or there are
no edges. -/
theorem makeRandomWeight_iff (R : Runtime) (hG : Weightable symmetrized G) (hr : r = -1 ∨ 0 ≤ r ∧ r ≤ 31) :
    (∀ G', SameShape G G' → ∃ H, makeRandomWeight R symmetrized r G' = some H ∧
      RandomlyWeighted symmetrized (if r = -1 then log2 G'.n else 2 ^ r.toNat) G' H) ↔
        G.n < 2 ^ 32 ∨ G.m = 0 := by
  refine ⟨fun hall => ?_, fun hn G' hsame => ?_⟩
  · by_contra hnot
    obtain ⟨hn, hm⟩ := not_or.mp hnot
    have hsame := sameShape_withoutWeights G
    obtain ⟨H, heq, hweighted⟩ := hall _ hsame
    have hkept := makeRandomWeight_large R (hG.of_sameShape hsame) (Nat.le_of_not_lt hn) heq
    obtain ⟨W, -, hreweighted, -⟩ := hweighted.weights
    have hsize : 0 < G.outEdges.size := by
      rw [hG.m]
      exact Nat.pos_of_ne_zero hm
    have hbounds := (hreweighted.bounds 0 (hsame.outgoing.size ▸ hsize)).1
    rw [hkept] at hbounds
    have hzero : hi32 ((withoutWeights G).outEdges.getD 0 0) = 0 := by
      rw [getD_withoutWeights hsize, hi32_eq]
      exact Nat.div_eq_of_lt (Nat.mod_lt _ (by norm_num))
    omega
  · refine randomlyWeighted R (hG.of_sameShape hsame) hr ?_
    rw [hsame.others]
    exact hn

end Weighting

section Loop

/-- A loop at the last vertex. -/
def loopAtLast (n : ℕ) : GraphData :=
  ⟨n, 1, Array.ofFn fun u : Fin (n + 1) => if u.val = n then 1 else 0, #[n - 1], #[], #[]⟩

/-- The graph with a loop at its last vertex can be given weights. -/
theorem weightable_loopAtLast {n : ℕ} (hpos : 1 ≤ n) (hn : n ≤ 2 ^ 32) : Weightable true (loopAtLast n) := by
  have hget : ∀ u ≤ n, (loopAtLast n).outOffsets.getD u 0 = if u = n then 1 else 0 := by
    intro u hu
    rw [Array.getD_eq_getD_getElem?, loopAtLast,
      (Contents.ofFn (n + 1) fun u => if u = n then 1 else 0).get u (by omega),
      Option.getD_some]
  have hsize : (loopAtLast n).outOffsets.size = n + 1 := Array.size_ofFn
  have hlo : lo32 (n - 1) = n - 1 := Nat.mod_eq_of_lt (by omega)
  have hoffsets : IsOffsets (loopAtLast n).outOffsets n 1 fun u => (loopAtLast n).outOffsets.getD u 0 := by
    refine ⟨hsize ▸ Contents.self _, ?_, fun u hu => ?_, ?_⟩
    · exact (hget 0 (by omega)).trans (if_neg (by omega))
    · rw [hget u (by omega), if_neg (by omega)]
      exact Nat.zero_le _
    · exact (hget n le_rfl).trans (if_pos rfl)
  have hlists : EdgeLists n (loopAtLast n).outOffsets (loopAtLast n).outEdges := by
    refine ⟨hoffsets, fun i hi => ?_⟩
    obtain rfl : i = 0 := Nat.lt_one_iff.mp hi
    change lo32 (n - 1) < n
    omega
  have hslot {u v w i : ℕ} (hu : u < n) (hi : (loopAtLast n).outOffsets.getD u 0 ≤ i)
    (hi' : i < (loopAtLast n).outOffsets.getD (u + 1) 0)
      (heq : unpackEdge false ((loopAtLast n).outEdges.getD i 0) = (v, w)) : v = u := by
    rw [hget (u + 1) hu] at hi'
    split at hi'
    · obtain rfl : i = 0 := by omega
      have hfst := congrArg Prod.fst heq
      change lo32 (n - 1) = v at hfst
      omega
    · omega
  refine ⟨hpos, ?_, rfl, hlists, nofun,
    (consistent_iff true _ hoffsets hlists.contents hoffsets hlists.contents).mpr ?_⟩
  · change n < 2 ^ 64
    omega
  · intro u hu v hv w
    by_cases huv : u = v
    · rw [huv]
    · have hnone {u v : ℕ} (hu : u < n) (huv : u ≠ v) : edgeCount (fun u => (loopAtLast n).outOffsets.getD u 0)
          (fun i => (loopAtLast n).outEdges.getD i 0) (fun e => unpackEdge false e = (v, w)) u = 0 := by
        refine Finset.card_eq_zero.mpr (Finset.filter_eq_empty_iff.mpr fun i hi heq => huv ?_)
        rw [Finset.mem_Ico] at hi
        exact (hslot hu hi.1 hi.2 heq).symm
      rw [hnone hu huv, hnone hv (Ne.symm huv)]

/-- An edge between two vertices, in both directions. -/
def edgeOfTwo : GraphData := ⟨2, 2, #[0, 1, 2], #[1, 0], #[], #[]⟩

/-- The graph with one edge in both directions can be given weights. -/
theorem weightable_edgeOfTwo : Weightable true edgeOfTwo := by
  have hoffsets : IsOffsets edgeOfTwo.outOffsets 2 2 fun u => edgeOfTwo.outOffsets.getD u 0 :=
    ⟨Contents.self _, rfl, by decide, rfl⟩
  have hlists : EdgeLists 2 edgeOfTwo.outOffsets edgeOfTwo.outEdges := ⟨hoffsets, by decide⟩
  refine ⟨by decide, by decide, rfl, hlists, nofun,
    (consistent_iff true _ hoffsets hlists.contents hoffsets hlists.contents).mpr ?_⟩
  change SymmetricEdges false 2 (fun u => edgeOfTwo.outOffsets.getD u 0) fun i => edgeOfTwo.outEdges.getD i 0
  intro u hu v hv w
  -- The list of `0` is the edge to `1`, that of `1` the edge to `0`.
  have hcount (u : ℕ) (hu : u < 2) (x : ℕ) : edgeCount (fun u => edgeOfTwo.outOffsets.getD u 0)
      (fun i => edgeOfTwo.outEdges.getD i 0) (fun e => unpackEdge false e = (x, w)) u =
      if (1 - u, (unpackEdge false 0).2) = (x, w) then 1 else 0 := by
    obtain rfl | rfl : u = 0 ∨ u = 1 := by omega
    · exact Finset.card_filter ..
    · exact Finset.card_filter ..
  rw [hcount u hu, hcount v hv]
  refine if_congr ?_ rfl rfl
  rw [Prod.mk.injEq, Prod.mk.injEq]
  omega

/-- The edge gets the same weight of at most 32 in both directions. -/
theorem makeRandomWeight_iff_edge : ∃ H, makeRandomWeight Runtime.sequential true 5 edgeOfTwo = some H ∧
    RandomlyWeighted true 32 edgeOfTwo H :=
  (makeRandomWeight_iff Runtime.sequential weightable_edgeOfTwo (Or.inr ⟨by norm_num, by norm_num⟩)).mpr
    (Or.inl (by decide)) edgeOfTwo ⟨rfl, ⟨rfl, fun _ _ => rfl⟩, rfl, fun _ _ => rfl⟩

/-- The loop of the vertex `2 ^ 32 - 1` gets no weight. -/
theorem makeRandomWeight_overlooks : Weightable true (loopAtLast (2 ^ 32)) ∧
    ¬∃ H, makeRandomWeight Runtime.sequential true 0 (loopAtLast (2 ^ 32)) = some H ∧
      RandomlyWeighted true (2 ^ 0) (loopAtLast (2 ^ 32)) H := by
  have hG := weightable_loopAtLast (n := 2 ^ 32) (by norm_num) le_rfl
  refine ⟨hG, fun ⟨H, heq, hweighted⟩ => ?_⟩
  have hkept := makeRandomWeight_large Runtime.sequential hG le_rfl heq
  obtain ⟨W, -, hreweighted, -⟩ := hweighted.weights
  have hbounds := (hreweighted.bounds 0 Nat.one_pos).1
  rw [hkept] at hbounds
  change 1 ≤ hi32 (2 ^ 32 - 1) at hbounds
  norm_num [hi32_eq] at hbounds

end Loop

end GraphFile

end ToggleTree
