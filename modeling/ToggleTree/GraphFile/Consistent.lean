import ToggleTree.GraphFile.InEdges
import ToggleTree.GraphFile.Reread
import ToggleTree.GraphFile.Symmetrize

/-!
# Incoming and outgoing edges after loading

Where reverse edges are added or incoming edges are computed, the two directions agree. Where the
fingerprint is zero the outgoing edges stand for the incoming ones as well, and this is right
exactly if the file has every edge in both directions with the same weight. The fingerprint does
not tell: it is zero for an edge whose two directions have different weights.
-/

namespace ToggleTree

open Checked Primitives StableRank

namespace GraphFile

section Code

variable (symmetrized weighted : Bool) (G : GraphData)

/-- The neighbours and weights that are stored for a vertex. -/
def weightedEdges (offsets edges : Array ℕ) (u : ℕ) : Option (List (ℕ × ℕ)) := do
  let first ← offsets[u]?
  let last ← offsets[u + 1]?
  (List.range' first (last - first)).mapM fun i => (edges[i]?).map (unpackEdge weighted)

/-- What `weighted_out_edge` gives on the range of `u`. -/
def weightedOutEdges (u : ℕ) : Option (List (ℕ × ℕ)) := weightedEdges weighted G.outOffsets G.outEdges u

/-- What `weighted_in_edge` gives on the range of `v`; a symmetrized graph has one array for both directions. -/
def weightedInEdges (v : ℕ) : Option (List (ℕ × ℕ)) :=
  if symmetrized then weightedEdges weighted G.outOffsets G.outEdges v
  else weightedEdges weighted G.inOffsets G.inEdges v

/-- Every edge is seen from both of its ends with the same weight. -/
def Consistent : Prop :=
  ∀ u < G.n, ∀ v < G.n, ∃ outs ins, weightedOutEdges weighted G u = some outs ∧
    weightedInEdges symmetrized weighted G v = some ins ∧
    ∀ w, outs.count (v, w) = ins.count (u, w)

end Code

section Lists

variable {offsets edges : Array ℕ} {n m u : ℕ} {o f h : ℕ → ℕ} {weighted : Bool}

/-- A map over a list whose entries all succeed. -/
theorem mapM_eq_some {α β : Type} {l : List α} {g : α → Option β} {k : α → β} (hg : ∀ x ∈ l, g x = some (k x)) :
    l.mapM g = some (l.map k) := by
  induction l with
  | nil => rfl
  | cons x l ih =>
    rw [List.mapM_cons, hg x List.mem_cons_self, ih fun y hy => hg y (List.mem_cons_of_mem _ hy)]
    rfl

/-- The weighted edges of a vertex are the segment of its slots. -/
theorem weightedEdges_eq (hoffsets : IsOffsets offsets n m o) (hedges : Contents edges m f) (hu : u < n) :
    weightedEdges weighted offsets edges u = some ((segment f (o u) (o (u + 1))).map (unpackEdge weighted)) := by
  have hlast := hoffsets.le_last (u := u + 1) (by omega)
  unfold weightedEdges
  refine (bind_eq_of_eq (hoffsets.contents.get u (by omega)) _).trans ?_
  refine (bind_eq_of_eq (hoffsets.contents.get (u + 1) (by omega)) _).trans ?_
  rw [Checked.segment, List.map_map]
  refine mapM_eq_some fun i hi => ?_
  rw [List.mem_range'_1] at hi
  rw [hedges.get i (by omega)]
  rfl

/-- The number of edges is a count over the segment. -/
theorem edgeCount_segment (o f : ℕ → ℕ) (p : ℕ → Prop) [DecidablePred p] (u : ℕ) :
    edgeCount o f p u = (segment f (o u) (o (u + 1))).countP fun e => decide (p e) := by
  rw [Checked.segment, List.countP_map, List.countP_eq_length_filter]
  rfl

/-- Counting unpacked edges. -/
theorem count_unpack (x : ℕ × ℕ) :
    ((segment f (o u) (o (u + 1))).map (unpackEdge weighted)).count x =
    edgeCount o f (fun e => unpackEdge weighted e = x) u := by
  rw [edgeCount_segment, List.count, List.countP_map]
  exact List.countP_congr fun e _ => by simp

/-- Permuting the lists keeps the numbers of edges. -/
theorem PermutedLists.edgeCount (hperm : PermutedLists n o f h) (hu : u < n) (p : ℕ → Prop) [DecidablePred p] :
    edgeCount o h p u = edgeCount o f p u := by
  rw [edgeCount_segment, edgeCount_segment, (hperm u hu).countP_eq]

/-- The lists of both directions, counted. -/
theorem consistent_iff (symmetrized : Bool) (G : GraphData) {m' : ℕ} {p q : ℕ → ℕ}
    (hoffsets : IsOffsets G.outOffsets G.n m o) (hedges : Contents G.outEdges m f)
    (hin : IsOffsets (if symmetrized then G.outOffsets else G.inOffsets) G.n m' p)
    (hin' : Contents (if symmetrized then G.outEdges else G.inEdges) m' q) :
    Consistent symmetrized weighted G ↔ ∀ u < G.n, ∀ v < G.n, ∀ w,
      edgeCount o f (fun e => unpackEdge weighted e = (v, w)) u =
        edgeCount p q (fun e => unpackEdge weighted e = (u, w)) v := by
  have hins (v : ℕ) (hv : v < G.n) : weightedInEdges symmetrized weighted G v =
      some ((segment q (p v) (p (v + 1))).map (unpackEdge weighted)) := by
    rw [← weightedEdges_eq hin hin' hv]
    cases symmetrized <;> rfl
  constructor
  · intro hconsistent u hu v hv w
    obtain ⟨outs, ins, houts, hins', hcount⟩ := hconsistent u hu v hv
    rw [weightedOutEdges, weightedEdges_eq hoffsets hedges hu, Option.some.injEq] at houts
    rw [hins v hv, Option.some.injEq] at hins'
    rw [← count_unpack, ← count_unpack, houts, hins']
    exact hcount w
  · intro hcount u hu v hv
    refine ⟨_, _, weightedEdges_eq hoffsets hedges hu, hins v hv, fun w => ?_⟩
    rw [count_unpack, count_unpack]
    exact hcount u hu v hv w

end Lists

section Load

variable {G H : GraphData} {m : ℕ} {o f p q : ℕ → ℕ} {symmetrized : Bool}

/-- The graphs with weights that can be loaded. -/
structure Loadable (G : GraphData) : Prop extends WellFormed G true where
  /-- The number of vertices is a bound of 32-bit counters. -/
  n_lt' : G.n < 2 ^ 32 - 1
  /-- The list with both directions of every edge fits into memory. -/
  fits : 2 * G.m * 16 < 2 ^ 63

/-- The end of `read_graph` sorts lists, so the edges of every vertex stay the same. -/
theorem returns_sorting (R : Runtime) {fuel : ℕ} (hfuel : 2 ≤ fuel) (hoffsets : IsOffsets H.outOffsets H.n m o)
    (hedges : Contents H.outEdges m f) (hsame : symmetrized = true → p = o ∧ q = f)
    (hin : symmetrized = false → ∃ m', IsOffsets H.inOffsets H.n m' p ∧ Contents H.inEdges m' q) :
    Returns (fun H' => Consistent symmetrized true H' ↔ ∀ u < H.n, ∀ v < H.n, ∀ w,
        edgeCount o f (fun e => unpackEdge true e = (v, w)) u =
          edgeCount p q (fun e => unpackEdge true e = (u, w)) v) (do
      let outEdges ← makeSorted R true fuel H.outOffsets H.outEdges H.n
      if symmetrized then some { H with outEdges := outEdges }
      else do
        let inEdges ← makeSorted R true fuel H.inOffsets H.inEdges H.n
        some { H with outEdges := outEdges, inEdges := inEdges }) := by
  refine (returns_makeSorted R true hfuel hoffsets hedges nofun).bind ?_
  rintro outEdges ⟨h, hh, hperm, -⟩
  cases symmetrized with
  | true =>
    obtain ⟨rfl, rfl⟩ := hsame rfl
    refine Returns.pure ((consistent_iff true { H with outEdges := outEdges } hoffsets hh hoffsets hh).trans ?_)
    refine forall₄_congr fun u hu v hv => forall_congr' fun w => ?_
    rw [hperm.edgeCount hu, hperm.edgeCount hv]
  | false =>
    obtain ⟨m', hin, hin'⟩ := hin rfl
    refine (returns_makeSorted R true hfuel hin hin' nofun).bind ?_
    rintro inEdges ⟨k, hk, hperm', -⟩
    refine Returns.pure
      ((consistent_iff false { H with outEdges := outEdges, inEdges := inEdges } hoffsets hh hin hk).trans ?_)
    refine forall₄_congr fun u hu v hv => forall_congr' fun w => ?_
    rw [hperm.edgeCount hu, hperm'.edgeCount hv]

/-- What `read_graph` does with the graph that has been read. -/
theorem readGraph_eq (symmetrized : Bool) (R : Runtime) (h : WellFormed G true) (mapped : Bool) (fuel : ℕ) :
    ∃ H, H.n = G.n ∧ H.m = G.m ∧ H.outOffsets = G.outOffsets ∧ H.outEdges = G.outEdges ∧
      readGraph R symmetrized true mapped fuel (fileOf G true) = (do
        let H ←
          match fingerprint G.n (fun i => G.outOffsets.getD i 0) (fun i => G.outEdges.getD i 0) == 0,
            symmetrized with
          | true, true => some H
          | true, false => some { H with inOffsets := H.outOffsets, inEdges := H.outEdges }
          | false, false => makeInEdges R true H
          | false, true => makeSymmetrized R true H
        let outEdges ← makeSorted R true fuel H.outOffsets H.outEdges H.n
        if symmetrized then some { H with outEdges := outEdges }
        else do
          let inEdges ← makeSorted R true fuel H.inOffsets H.inEdges H.n
          some { H with outEdges := outEdges, inEdges := inEdges }) := by
  obtain ⟨H, hread, hback⟩ := readBinaryFormat_eq true h (R.schedules 7) R.uninit mapped R.fresh
  have hedges := hback.outEdges
  rw [convertEdge_self, Array.map_id] at hedges
  refine ⟨H, hback.n, hback.m, hback.outOffsets, hedges, ?_⟩
  have hoffsets : IsOffsets H.outOffsets H.n G.m fun i => G.outOffsets.getD i 0 := by
    rw [hback.n, hback.outOffsets]
    exact h.isOffsets
  have hcontents : Contents H.outEdges G.m fun i => G.outEdges.getD i 0 := hedges ▸ h.edges
  have hfingerprint := isFileSymmetrized_eq hoffsets hcontents
  rw [hback.n] at hfingerprint
  exact (bind_eq_of_eq hread _).trans (bind_eq_of_eq hfingerprint _)

/-- With fingerprint zero, the result is consistent exactly if the file is symmetric. -/
theorem readGraph_kept (symmetrized : Bool) (R : Runtime) (h : WellFormed G true) (mapped : Bool) {fuel : ℕ}
    (hfuel : 2 ≤ fuel)
    (hzero : fingerprint G.n (fun i => G.outOffsets.getD i 0) (fun i => G.outEdges.getD i 0) = 0) :
    Returns (fun H => Consistent symmetrized true H ↔
        SymmetricEdges true G.n (fun i => G.outOffsets.getD i 0) fun i => G.outEdges.getD i 0)
      (readGraph R symmetrized true mapped fuel (fileOf G true)) := by
  obtain ⟨H, hn, -, houts, hedges, heq⟩ := readGraph_eq symmetrized R h mapped fuel
  rw [heq, hzero, beq_self_eq_true]
  have hoffsets : IsOffsets H.outOffsets H.n G.m fun i => G.outOffsets.getD i 0 := by
    rw [hn, houts]
    exact h.isOffsets
  have hcontents : Contents H.outEdges G.m fun i => G.outEdges.getD i 0 := hedges ▸ h.edges
  rw [← hn]
  cases symmetrized with
  | true => exact returns_sorting R hfuel hoffsets hcontents (fun _ => ⟨rfl, rfl⟩) fun h => absurd h (by decide)
  | false =>
    exact returns_sorting (H := { H with inOffsets := H.outOffsets, inEdges := H.outEdges }) R hfuel
      hoffsets hcontents (fun _ => ⟨rfl, rfl⟩) fun _ => ⟨_, hoffsets, hcontents⟩

/-- With another fingerprint, the result is consistent. -/
theorem readGraph_rebuilt (symmetrized : Bool) (R : Runtime) (h : Loadable G) (mapped : Bool) {fuel : ℕ}
    (hfuel : 2 ≤ fuel)
    (hnonzero : fingerprint G.n (fun i => G.outOffsets.getD i 0) (fun i => G.outEdges.getD i 0) ≠ 0) :
    Returns (Consistent symmetrized true) (readGraph R symmetrized true mapped fuel (fileOf G true)) := by
  obtain ⟨H, hn, hm, houts, hedges, heq⟩ := readGraph_eq symmetrized R h.toWellFormed mapped fuel
  rw [heq, beq_eq_false_iff_ne.mpr hnonzero]
  have hoffsets : IsOffsets H.outOffsets H.n H.m fun i => G.outOffsets.getD i 0 := by
    rw [hn, hm, houts]
    exact h.isOffsets
  have hcontents : Contents H.outEdges H.m fun i => G.outEdges.getD i 0 := by
    rw [hm, hedges]
    exact h.edges
  have htarget : ∀ i < H.m, lo32 (G.outEdges.getD i 0) < H.n := by
    rw [hm, hn]
    exact h.target_lt
  have hfits := h.fits
  rw [← hm] at hfits
  have hbound : H.n ≤ 2 ^ 32 := hn ▸ h.n_lt.le
  cases symmetrized with
  | true =>
    refine (returns_makeSymmetrized R hoffsets hcontents htarget hbound (by omega)).bind ?_
    rintro H' ⟨hn', -, -, p, q, hoffsets', hcontents', hsymmetric⟩
    rw [← hn'] at hoffsets' hsymmetric
    exact (returns_sorting R hfuel hoffsets' hcontents' (fun _ => ⟨rfl, rfl⟩) fun h => absurd h (by decide)).mono
      fun H'' hiff => hiff.mpr hsymmetric
  | false =>
    refine (returns_makeInEdges R hoffsets hcontents htarget hbound (by omega)).bind ?_
    rintro H' ⟨houtgoing, p, q, hin, hin', -, hcount⟩
    have hoffsets' : IsOffsets H'.outOffsets H'.n H.m fun i => G.outOffsets.getD i 0 := by
      rw [houtgoing]
      exact hoffsets
    have hcontents' : Contents H'.outEdges H.m fun i => G.outEdges.getD i 0 := by
      rw [houtgoing]
      exact hcontents
    have hn' : H'.n = H.n := by rw [houtgoing]
    rw [← hn'] at hin hcount
    exact (returns_sorting R hfuel hoffsets' hcontents' (fun h => absurd h (by decide)) fun _ =>
      ⟨_, hin, hin'⟩).mono fun H'' hiff => hiff.mpr hcount

/-- `read_graph` gives consistent directions exactly if the fingerprint tells symmetric files from others. -/
theorem readGraph_consistent_iff (R : Runtime) (h : Loadable G) (symmetrized mapped : Bool) {fuel : ℕ}
    (hfuel : 2 ≤ fuel) :
    ∃ H, readGraph R symmetrized true mapped fuel (fileOf G true) = some H ∧ (Consistent symmetrized true H ↔
      (isFileSymmetrized G = some true →
        SymmetricEdges true G.n (fun i => G.outOffsets.getD i 0) fun i => G.outEdges.getD i 0)) := by
  rw [isFileSymmetrized_eq h.isOffsets h.edges, Option.some.injEq, beq_iff_eq]
  by_cases hzero : fingerprint G.n (fun i => G.outOffsets.getD i 0) (fun i => G.outEdges.getD i 0) = 0
  · obtain ⟨H, heq, hiff⟩ := readGraph_kept symmetrized R h.toWellFormed mapped hfuel hzero
    exact ⟨H, heq, hiff.trans ⟨fun hsymmetric _ => hsymmetric, fun himp => himp hzero⟩⟩
  · obtain ⟨H, heq, hconsistent⟩ := readGraph_rebuilt symmetrized R h mapped hfuel hzero
    exact ⟨H, heq, iff_of_true hconsistent fun h => absurd h hzero⟩

/-- One edge with the same weight in both directions. -/
theorem readGraph_consistent_oneEdge :
    ∃ H, readGraph Runtime.sequential false true true 2 (fileOf oneEdge true) = some H ∧
      Consistent false true H := by
  have hloadable : Loadable oneEdge := ⟨wellFormed_oneEdge, by decide, by decide⟩
  obtain ⟨H, heq, hiff⟩ := readGraph_consistent_iff Runtime.sequential hloadable false true le_rfl
  exact ⟨H, heq, hiff.mpr fun _ => symmetric_oneEdge⟩

/-- An edge with weight 1 in one direction and weight 2 in the other. -/
def twoWeights : GraphData := ⟨2, 2, #[0, 1, 2], #[1 * 2 ^ 32 + 1, 2 * 2 ^ 32], #[], #[]⟩

/-- The weights of the two directions are mixed up. -/
theorem readGraph_inconsistent : Loadable twoWeights ∧ ∀ symmetrized mapped,
    ∃ H, readGraph Runtime.sequential symmetrized true mapped 2 (fileOf twoWeights true) = some H ∧
      ¬Consistent symmetrized true H := by
  have hformed : WellFormed twoWeights true :=
    ⟨by decide, by decide, by decide, by decide, by decide, by decide, by decide, by decide, by decide⟩
  have htargets : SymmetricEdges false twoWeights.n (fun i => twoWeights.outOffsets.getD i 0)
      fun i => twoWeights.outEdges.getD i 0 := by
    intro u hu v hv w
    have hu' : u < 2 := hu
    have hv' : v < 2 := hv
    interval_cases u <;> interval_cases v <;> simp [edgeCount, twoWeights, unpackEdge, lo32,
      Finset.filter_singleton] <;>
      split_ifs <;> rfl
  have hzero : fingerprint twoWeights.n (fun i => twoWeights.outOffsets.getD i 0)
    (fun i => twoWeights.outEdges.getD i 0) = 0 := by
    refine fingerprint_of_symmetric htargets fun u hu i _ hi => ?_
    exact hformed.target_lt i (hi.trans_le (hformed.isOffsets.le_last (u := u + 1) (by omega)))
  have hweights : ¬SymmetricEdges true twoWeights.n (fun i => twoWeights.outOffsets.getD i 0)
      fun i => twoWeights.outEdges.getD i 0 := by
    intro h
    have hcount := h 0 (by decide) 1 (by decide) 1
    simp [edgeCount, twoWeights, unpackEdge, lo32, hi32, Finset.filter_singleton] at hcount
  refine ⟨⟨hformed, by decide, by decide⟩, fun symmetrized mapped => ?_⟩
  obtain ⟨H, heq, hiff⟩ := readGraph_kept symmetrized Runtime.sequential hformed mapped le_rfl hzero
  exact ⟨H, heq, fun hconsistent => hweights (hiff.mp hconsistent)⟩

end Load

end GraphFile

end ToggleTree
