import ToggleTree.GraphFile.InEdges
import ToggleTree.GraphFile.RoundTrip

/-!
# Reverse edges

Every edge enters a list in both directions. In the sorted list the last entry of a pair of ends
has the least weight, and it is the one that is kept. So the graph that results has one edge for
every pair of different ends, and the same weight in both directions. The edges determine the list
of what is kept and this list the arrays, so a second application gives the same arrays.
-/

namespace ToggleTree

open Checked Primitives StableRank

namespace GraphFile

/-- The order of the entries is a strict weak one. -/
theorem symEntryLess_strict (weighted : Bool) : StrictWeakOrder (symEntryLess weighted) := by
  cases weighted with
  | true =>
    refine ⟨fun x => ?_, fun x y z => ?_, fun x y z => ?_⟩ <;> simp only [symEntryLess, if_true] <;> split_ifs <;>
      simp only [decide_eq_true_eq, decide_eq_false_iff_not] <;> omega
  | false =>
    refine ⟨fun x => ?_, fun x y z => ?_, fun x y z => ?_⟩ <;>
      simp only [symEntryLess, Bool.false_eq_true, if_false, Bool.or_eq_true, Bool.or_eq_false_iff,
        Bool.and_eq_true,
        Bool.and_eq_false_iff, Bool.not_eq_true', Bool.not_eq_false', decide_eq_true_eq,
          decide_eq_false_iff_not] <;> omega

section Glue

variable {u v : ℕ}

/-- The lower half of a glued word. -/
theorem lo32_glue32 (hu : u < 2 ^ 32) (hv : v < 2 ^ 32) : lo32 (glue32 u v) = v := by
  rw [glue32_eq hu hv, lo32]
  omega

/-- The upper half of a glued word. -/
theorem hi32_glue32_eq (hu : u < 2 ^ 32) (hv : v < 2 ^ 32) : hi32 (glue32 u v) = u := by
  rw [glue32_eq hu hv, hi32_eq]
  omega

/-- The edge of a key and a weight. -/
def edgeOf (weighted : Bool) (x : ℕ × ℕ) : ℕ := if weighted then lo32 x.1 ||| x.2 <<< 32 else lo32 x.1

/-- What an edge is unpacked to. -/
theorem unpackEdge_edgeOf (weighted : Bool) (x : ℕ × ℕ) :
    unpackEdge weighted (edgeOf weighted x) = (lo32 x.1, if weighted then x.2 else 1) := by
  have hlo : lo32 x.1 < 2 ^ 32 := Nat.mod_lt _ (by norm_num)
  cases weighted with
  | true =>
    have hword : edgeOf true x = x.2 * 2 ^ 32 + lo32 x.1 := by
      change lo32 x.1 ||| x.2 <<< 32 = _
      rw [Nat.or_comm, ← Nat.shiftLeft_add_eq_or_of_lt hlo, Nat.shiftLeft_eq]
    change (lo32 (edgeOf true x), hi32 (edgeOf true x)) = (lo32 x.1, x.2)
    rw [hword, hi32_eq, lo32, Prod.mk.injEq]
    constructor <;> omega
  | false =>
    change (lo32 (lo32 x.1), 1) = (lo32 x.1, 1)
    rw [lo32, Nat.mod_eq_of_lt hlo]

/-- Glued words with different halves are different. -/
theorem glue32_inj {u' v' : ℕ} (hu : u < 2 ^ 32) (hv : v < 2 ^ 32) (hu' : u' < 2 ^ 32) (hv' : v' < 2 ^ 32) :
    glue32 u v = glue32 u' v' ↔ u = u' ∧ v = v' := by
  rw [glue32_eq hu hv, glue32_eq hu' hv']
  omega

/-- The key and the weight of an entry; without weights every edge counts 1. -/
def keyed (weighted : Bool) (x : ℕ × ℕ) : ℕ × ℕ := (keyOf weighted x, if weighted then x.2 else 1)

/-- The key of an entry is the glued pair. -/
theorem keyed_symEntry (weighted : Bool) (u v w : ℕ) :
    keyed weighted (symEntry weighted u v w) = (glue32 u v, if weighted then w else 1) := by
  cases weighted <;> rfl

/-- The edge of an entry is the edge of its key. -/
theorem edgeOfEntry_symEntry (weighted : Bool) (hu : u < 2 ^ 32) (hv : v < 2 ^ 32) (w : ℕ) :
    edgeOfEntry weighted (symEntry weighted u v w) =
      edgeOf weighted (keyed weighted (symEntry weighted u v w)) := by
  cases weighted with
  | true => rfl
  | false => exact (lo32_glue32 hu hv).symm

end Glue

section Kept

variable {g : ℕ → ℕ × ℕ} {size : ℕ}

/-- The list is sorted by key, and the larger weight comes first. -/
def Descending (g : ℕ → ℕ × ℕ) (size : ℕ) : Prop :=
  ∀ i j, i < j → j < size → (g i).1 < (g j).1 ∨ (g i).1 = (g j).1 ∧ (g j).2 ≤ (g i).2

/-- What is kept of a sorted list. -/
def keptEntry (g : ℕ → ℕ × ℕ) (size i : ℕ) : Bool :=
  decide (i < size ∧ lo32 (g i).1 ≠ hi32 (g i).1 ∧ (i + 1 = size ∨ (g i).1 ≠ (g (i + 1)).1))

/-- The keys of a sorted list increase. -/
theorem Descending.key_le (h : Descending g size) {i j : ℕ} (hij : i ≤ j) (hj : j < size) :
    (g i).1 ≤ (g j).1 := by
  rcases Nat.eq_or_lt_of_le hij with rfl | hlt
  · exact le_rfl
  · rcases h i j hlt hj with hlt' | ⟨heq, -⟩
    · exact hlt'.le
    · exact heq.le

/-- The keys of what is kept increase. -/
theorem Descending.key_lt (h : Descending g size) {i j : ℕ} (hij : i < j) (hj : j < size)
    (hi : keptEntry g size i = true) :
    (g i).1 < (g j).1 := by
  obtain ⟨-, -, hlast | hne⟩ := of_decide_eq_true hi
  · omega
  · have h₁ : (g i).1 ≤ (g (i + 1)).1 := h.key_le (Nat.le_succ i) (by omega)
    have h₂ := h.key_le (show i + 1 ≤ j by omega) hj
    omega

/-- The last position of a key. -/
theorem exists_last {i : ℕ} (hi : i < size) :
    ∃ j, i ≤ j ∧ j < size ∧ (g j).1 = (g i).1 ∧ (j + 1 = size ∨ (g j).1 ≠ (g (j + 1)).1) := by
  induction hn : size - i using Nat.strong_induction_on generalizing i with
  | _ rest ih =>
    by_cases hlast : i + 1 = size ∨ (g i).1 ≠ (g (i + 1)).1
    · exact ⟨i, le_rfl, hi, rfl, hlast⟩
    · rw [not_or, not_not] at hlast
      obtain ⟨j, hij, hj, hkey, hend⟩ := ih (size - (i + 1)) (by omega) (show i + 1 < size by omega) rfl
      exact ⟨j, by omega, hj, hkey.trans hlast.2.symm, hend⟩

/-- What is kept has the least weight of its key. -/
theorem Descending.mem_kept (h : Descending g size) (x : ℕ × ℕ) :
    x ∈ ((List.range size).filter (keptEntry g size)).map g ↔
      x ∈ (List.range size).map g ∧ lo32 x.1 ≠ hi32 x.1 ∧ ∀ y ∈ (List.range size).map g, y.1 = x.1 →
        x.2 ≤ y.2 := by
  constructor
  · intro hx
    obtain ⟨i, hi, rfl⟩ := List.mem_map.mp hx
    obtain ⟨hi, hkeep⟩ := List.mem_filter.mp hi
    have hkept := of_decide_eq_true hkeep
    refine ⟨List.mem_map_of_mem hi, hkept.2.1, fun y hy hkey => ?_⟩
    obtain ⟨j, hj, rfl⟩ := List.mem_map.mp hy
    have hj' := List.mem_range.mp hj
    rcases lt_trichotomy i j with hlt | rfl | hlt
    · exact absurd hkey (h.key_lt hlt hj' hkeep).ne'
    · exact le_rfl
    · rcases h j i hlt hkept.1 with hlt' | ⟨-, hle⟩
      · omega
      · exact hle
  · rintro ⟨hx, hloop, hleast⟩
    obtain ⟨i, hi, rfl⟩ := List.mem_map.mp hx
    obtain ⟨j, hij, hj, hkey, hend⟩ := exists_last (g := g) (List.mem_range.mp hi)
    have hle := hleast (g j) (List.mem_map_of_mem (List.mem_range.mpr hj)) hkey
    have hsame : g j = g i := by
      rcases Nat.eq_or_lt_of_le hij with rfl | hlt
      · rfl
      · rcases h i j hlt hj with hlt' | ⟨-, hge⟩
        · omega
        · exact Prod.ext hkey (le_antisymm hge hle)
    rw [← hsame]
    refine List.mem_map_of_mem (List.mem_filter.mpr ⟨List.mem_range.mpr hj, decide_eq_true ⟨hj, ?_, hend⟩⟩)
    rw [hsame]
    exact hloop

/-- The keys that are kept are all different. -/
theorem Descending.pairwise_kept (h : Descending g size) :
    (((List.range size).filter (keptEntry g size)).map g).Pairwise fun x y => x.1 < y.1 := by
  refine List.pairwise_map.mpr ((List.pairwise_lt_range.filter _).imp_of_mem fun {i j} hi hj hij => ?_)
  have hi' := List.mem_filter.mp hi
  have hj' := List.mem_filter.mp hj
  exact h.key_lt hij (List.mem_range.mp hj'.1) hi'.2

end Kept

section Entries

variable {G : GraphData} {weighted : Bool} {n m : ℕ} {o f : ℕ → ℕ}

/-- Both entries of the edges. -/
def SymEntries (weighted : Bool) (n m : ℕ) (o f : ℕ → ℕ) (done : ℕ → Prop) (edgelist : Array (ℕ × ℕ)) : Prop :=
  ∃ e, Contents edgelist (2 * m) e ∧ ∀ u < n, ∀ i, o u ≤ i → i < o (u + 1) → done i →
    e (2 * i) = symEntry weighted u (lo32 (f i)) (hi32 (f i)) ∧
      e (2 * i + 1) = symEntry weighted (lo32 (f i)) u (hi32 (f i))

/-- The list of both directions of the edges is filled. -/
theorem returns_symEntries (R : Runtime) (hoffsets : IsOffsets G.outOffsets G.n G.m o)
    (hedges : Contents G.outEdges G.m f) :
    Returns (SymEntries weighted G.n G.m o f fun _ => True)
      (parallelLoop (R.schedules 0 0) G.n (Array.replicate (2 * G.m) (R.uninit, R.uninit)) fun u edgelist => do
        let first ← G.outOffsets[u]?
        let last ← G.outOffsets[u + 1]?
        parallelLoop (R.schedules 1 u) (last - first) edgelist fun k edgelist => do
          let e ← G.outEdges[first + k]?
          let edgelist ← write edgelist (2 * (first + k)) (symEntry weighted u (lo32 e) (hi32 e))
          write edgelist (2 * (first + k) + 1) (symEntry weighted (lo32 e) u (hi32 e))) := by
  refine hoffsets.returns_slots (R.schedules 0 0) (R.schedules 1) (I := SymEntries weighted G.n G.m o f)
    (fun u i edgelist => do
      let e ← G.outEdges[i]?
      let edgelist ← write edgelist (2 * i) (symEntry weighted u (lo32 e) (hi32 e))
      write edgelist (2 * i + 1) (symEntry weighted (lo32 e) u (hi32 e))) ?_ ?_ ?_
  · exact ⟨_, Contents.replicate _ _, fun u _ i _ _ hf => hf.elim⟩
  · rintro done done' edgelist hsub ⟨e, he, hdone⟩
    refine ⟨e, he, fun u hu i hi hi' hd => hdone u hu i hi hi' (hsub i ?_ hd)⟩
    exact hi'.trans_le (hoffsets.le_last (u := u + 1) (by omega))
  · rintro u hu i hi hi' done edgelist ⟨e, he, hdone⟩
    have hlast := hoffsets.le_last (u := u + 1) (by omega)
    refine Returns.bind_eq (hedges.get i (by omega)) ?_
    obtain ⟨edgelist₁, hwrite₁, he₁⟩ :=
      he.write (i := 2 * i) (by omega) (symEntry weighted u (lo32 (f i)) (hi32 (f i)))
    obtain ⟨edgelist₂, hwrite₂, he₂⟩ :=
      he₁.write (i := 2 * i + 1) (by omega) (symEntry weighted (lo32 (f i)) u (hi32 (f i)))
    refine Returns.bind_eq hwrite₁ (Returns.of_eq hwrite₂ ⟨_, he₂, fun v hv j hj hj' hor => ?_⟩)
    by_cases heq : j = i
    · subst heq
      rw [Function.update_self, Function.update_of_ne (by omega), Function.update_self,
        hoffsets.slot_unique hv hu hj hj' hi hi']
      exact ⟨rfl, rfl⟩
    · rw [Function.update_of_ne (by omega), Function.update_of_ne (by omega), Function.update_of_ne (by omega),
        Function.update_of_ne (by omega)]
      exact hdone v hv j hj hj' (hor.resolve_right heq)

/-- An edge from `u` to `v` with weight `w`. -/
def HasEdge (weighted : Bool) (o f : ℕ → ℕ) (u v w : ℕ) : Prop :=
  ∃ i, o u ≤ i ∧ i < o (u + 1) ∧ unpackEdge weighted (f i) = (v, w)

/-- The entries in both directions. -/
structure BothWays (weighted : Bool) (n m : ℕ) (o f : ℕ → ℕ) (e : ℕ → ℕ × ℕ) : Prop where
  ends : ∀ k < 2 * m, ∃ u < n, ∃ v < n, ∃ w, e k = symEntry weighted u v w
  mem_iff : ∀ u < n, ∀ v < n, ∀ w, (glue32 u v, w) ∈ (List.range (2 * m)).map (fun k => keyed weighted (e k)) ↔
    HasEdge weighted o f u v w ∨ HasEdge weighted o f v u w

/-- The entries are the edges in both directions. -/
theorem bothWays_of_entries {e : ℕ → ℕ × ℕ} {offsets : Array ℕ} (hoffsets : IsOffsets offsets n m o)
    (hn : n ≤ 2 ^ 32) (htarget : ∀ i < m, lo32 (f i) < n)
    (he : ∀ u < n, ∀ i, o u ≤ i → i < o (u + 1) → e (2 * i) = symEntry weighted u (lo32 (f i)) (hi32 (f i)) ∧
      e (2 * i + 1) = symEntry weighted (lo32 (f i)) u (hi32 (f i))) :
    BothWays weighted n m o f e := by
  have hpair : ∀ k < 2 * m, ∃ x < n, ∃ i < m, o x ≤ i ∧ i < o (x + 1) ∧ (k = 2 * i ∨ k = 2 * i + 1) := by
    intro k hk
    obtain ⟨x, hx, hslot, hslot'⟩ := hoffsets.exists_slot (show k / 2 < m by omega)
    exact ⟨x, hx, k / 2, by omega, hslot, hslot', by omega⟩
  have hweight (i : ℕ) : unpackEdge weighted (f i) = (lo32 (f i), if weighted then hi32 (f i) else 1) := rfl
  refine ⟨fun k hk => ?_, fun u hu v hv w => ⟨fun hmem => ?_, ?_⟩⟩
  · obtain ⟨x, hx, i, hi, hslot, hslot', rfl | rfl⟩ := hpair k hk
    · exact ⟨x, hx, _, htarget i hi, _, (he x hx i hslot hslot').1⟩
    · exact ⟨_, htarget i hi, x, hx, _, (he x hx i hslot hslot').2⟩
  · obtain ⟨k, hk, heq⟩ := List.mem_map.mp hmem
    obtain ⟨x, hx, i, hi, hslot, hslot', rfl | rfl⟩ := hpair k (List.mem_range.mp hk)
    · rw [(he x hx i hslot hslot').1, keyed_symEntry, Prod.mk.injEq] at heq
      obtain ⟨rfl, htarget'⟩ :=
        (glue32_inj (by omega) ((htarget i hi).trans_le hn) (by omega) (by omega)).mp heq.1
      exact Or.inl ⟨i, hslot, hslot', by rw [hweight, htarget', heq.2]⟩
    · rw [(he x hx i hslot hslot').2, keyed_symEntry, Prod.mk.injEq] at heq
      obtain ⟨htarget', rfl⟩ :=
        (glue32_inj ((htarget i hi).trans_le hn) (by omega) (by omega) (by omega)).mp heq.1
      exact Or.inr ⟨i, hslot, hslot', by rw [hweight, htarget', heq.2]⟩
  · have him {x i : ℕ} (hx : x < n) (hi : i < o (x + 1)) : i < m :=
      hi.trans_le (hoffsets.le_last (u := x + 1) (by omega))
    rintro (⟨i, hslot, hslot', heq⟩ | ⟨i, hslot, hslot', heq⟩) <;> rw [hweight, Prod.mk.injEq] at heq
    · have hlt := him hu hslot'
      refine List.mem_map.mpr ⟨2 * i, List.mem_range.mpr (by omega), ?_⟩
      rw [(he u hu i hslot hslot').1, keyed_symEntry, heq.1, heq.2]
    · have hlt := him hv hslot'
      refine List.mem_map.mpr ⟨2 * i + 1, List.mem_range.mpr (by omega), ?_⟩
      rw [(he v hv i hslot hslot').2, keyed_symEntry, heq.1, heq.2]

/-- The least weights between different vertices, in the order of the keys. -/
structure LeastWeights (weighted : Bool) (n : ℕ) (o f : ℕ → ℕ) (l : List (ℕ × ℕ)) : Prop where
  increasing : l.Pairwise fun x y => x.1 < y.1
  ends : ∀ x ∈ l, ∃ u < n, ∃ v < n, x.1 = glue32 u v
  mem_iff : ∀ u < n, ∀ v < n, ∀ w, (glue32 u v, w) ∈ l ↔
    u ≠ v ∧ IsLeast {x | HasEdge weighted o f u v x ∨ HasEdge weighted o f v u x} w

/-- What is kept of the sorted entries. -/
theorem leastWeights_kept {e g : ℕ → ℕ × ℕ} (hboth : BothWays weighted n m o f e) (hn : n ≤ 2 ^ 32)
    (hg : Descending (fun k => keyed weighted (g k)) (2 * m))
    (hperm : ((List.range (2 * m)).map g).Perm ((List.range (2 * m)).map e)) :
    LeastWeights weighted n o f
      (((List.range (2 * m)).filter (keptEntry (fun k => keyed weighted (g k)) (2 * m))).map fun k =>
      keyed weighted (g k)) := by
  have hkeyed :
    ((List.range (2 * m)).map fun k => keyed weighted (g k)).Perm
    ((List.range (2 * m)).map fun k => keyed weighted (e k)) := by
    have hmap := hperm.map (keyed weighted)
    rwa [List.map_map, List.map_map] at hmap
  have hentry :
    ∀ u < n, ∀ v < n, ∀ w, (glue32 u v, w) ∈ (List.range (2 * m)).map (fun k => keyed weighted (g k)) ↔
      HasEdge weighted o f u v w ∨ HasEdge weighted o f v u w :=
    fun u hu v hv w => hkeyed.mem_iff.trans (hboth.mem_iff u hu v hv w)
  refine ⟨hg.pairwise_kept, fun x hx => ?_, fun u hu v hv w => (hg.mem_kept _).trans ?_⟩
  · obtain ⟨k, hk, rfl⟩ := List.mem_map.mp (hkeyed.mem_iff.mp ((hg.mem_kept _).mp hx).1)
    obtain ⟨u, hu, v, hv, w, heq⟩ := hboth.ends k (List.mem_range.mp hk)
    exact ⟨u, hu, v, hv, by rw [heq, keyed_symEntry]⟩
  · rw [hentry u hu v hv, lo32_glue32 (by omega) (by omega), hi32_glue32_eq (by omega) (by omega)]
    constructor
    · rintro ⟨hmem, hne, hleast⟩
      exact ⟨hne.symm, hmem, fun x hx => hleast (glue32 u v, x) ((hentry u hu v hv x).mpr hx) rfl⟩
    · rintro ⟨hne, hmem, hleast⟩
      refine ⟨hmem, hne.symm, ?_⟩
      rintro ⟨key, x⟩ hy rfl
      exact hleast ((hentry u hu v hv x).mp hy)

/-- The list is determined by the edges. -/
theorem LeastWeights.unique {o' f' : ℕ → ℕ} {l l' : List (ℕ × ℕ)} (h : LeastWeights weighted n o f l)
    (h' : LeastWeights weighted n o' f' l') (hiff : ∀ u < n, ∀ v < n, ∀ w, (glue32 u v, w) ∈ l ↔
      (glue32 u v, w) ∈ l') : l = l' := by
  have hnodup {k : List (ℕ × ℕ)} (hk : k.Pairwise fun x y => x.1 < y.1) : k.Nodup :=
    hk.imp fun {x y} hlt (heq : x = y) => absurd hlt (by rw [heq]; exact lt_irrefl _)
  have hmem : ∀ x, x ∈ l ↔ x ∈ l' := by
    rintro ⟨key, w⟩
    constructor <;> intro hx
    · obtain ⟨u, hu, v, hv, heq⟩ := h.ends _ hx
      dsimp only at heq
      subst heq
      exact (hiff u hu v hv w).mp hx
    · obtain ⟨u, hu, v, hv, heq⟩ := h'.ends _ hx
      dsimp only at heq
      subst heq
      exact (hiff u hu v hv w).mpr hx
  refine List.Perm.eq_of_pairwise (fun x y _ _ hxy hyx => absurd hxy (not_lt_of_gt hyx)) h.increasing
    h'.increasing ?_
  exact (List.perm_ext_iff_of_nodup (hnodup h.increasing) (hnodup h'.increasing)).mpr hmem

end Entries

section Lists

variable {weighted : Bool} {n m u v w i j : ℕ} {o f : ℕ → ℕ} {l : List (ℕ × ℕ)}

/-- The source of the edge number `j`. -/
def sourceOf (l : List (ℕ × ℕ)) (j : ℕ) : ℕ := hi32 (l.getD j (0, 0)).1

/-- The edge number `j`. -/
def edgeAt (weighted : Bool) (l : List (ℕ × ℕ)) (j : ℕ) : ℕ := edgeOf weighted (l.getD j (0, 0))

/-- An entry of the list. -/
theorem getD_mem (hj : j < l.length) : l.getD j (0, 0) ∈ l := by
  rw [List.getD_eq_getElem l _ hj]
  exact List.getElem_mem hj

namespace LeastWeights

variable (h : LeastWeights weighted n o f l) (hn : n ≤ 2 ^ 32)
include h

/-- The keys of the list increase strictly. -/
theorem key_lt (hij : i < j) (hj : j < l.length) : (l.getD i (0, 0)).1 < (l.getD j (0, 0)).1 := by
  rw [List.getD_eq_getElem l _ (hij.trans hj), List.getD_eq_getElem l _ hj]
  exact List.pairwise_iff_getElem.mp h.increasing i j (hij.trans hj) hj hij

/-- Without weights every edge counts 1. -/
theorem weight_eq {x : ℕ × ℕ} (hx : x ∈ l) : (if weighted then x.2 else 1) = x.2 := by
  cases weighted with
  | true => rfl
  | false =>
    obtain ⟨u, hu, v, hv, heq⟩ := h.ends x hx
    obtain ⟨key, w⟩ := x
    dsimp only at heq
    subst heq
    obtain ⟨-, ⟨i, -, -, hi⟩ | ⟨i, -, -, hi⟩, -⟩ := (h.mem_iff u hu v hv w).mp hx
    · exact congrArg Prod.snd hi
    · exact congrArg Prod.snd hi

include hn

/-- The ends of an edge of the list. -/
theorem ends_eq (hj : j < l.length) : ∃ v < n, sourceOf l j < n ∧ lo32 (l.getD j (0, 0)).1 = v ∧
    (l.getD j (0, 0)).1 = glue32 (sourceOf l j) v := by
  obtain ⟨u, hu, v, hv, heq⟩ := h.ends _ (getD_mem hj)
  rw [sourceOf, heq, hi32_glue32_eq (by omega) (by omega), lo32_glue32 (by omega) (by omega)]
  exact ⟨v, hv, hu, rfl, rfl⟩

/-- The sources are vertices. -/
theorem source_lt : ∀ j < l.length, sourceOf l j < n := by
  intro j hj
  obtain ⟨v, -, hlt, -⟩ := h.ends_eq hn hj
  exact hlt

omit hn in
/-- The sources increase. -/
theorem source_mono : ∀ i j, i ≤ j → j < l.length → sourceOf l i ≤ sourceOf l j := by
  intro i j hij hj
  rcases Nat.eq_or_lt_of_le hij with rfl | hlt
  · exact le_rfl
  · rw [sourceOf, sourceOf, hi32_eq, hi32_eq]
    exact Nat.div_le_div_right (h.key_lt hlt hj).le

omit hn in
/-- What an edge of the list is unpacked to. -/
theorem unpack_edgeAt (hj : j < l.length) :
    unpackEdge weighted (edgeAt weighted l j) = (lo32 (l.getD j (0, 0)).1, (l.getD j (0, 0)).2) := by
  rw [edgeAt, unpackEdge_edgeOf, h.weight_eq (getD_mem hj)]

/-- The edges of the lists. -/
theorem hasEdge_iff (hu : u < n) (hv : v < n) :
    HasEdge weighted (first (sourceOf l) l.length) (edgeAt weighted l) u v w ↔ (glue32 u v, w) ∈ l := by
  constructor
  · rintro ⟨i, hi, hi', heq⟩
    obtain ⟨hlt, hsource⟩ := (mem_first_iff h.source_mono).mp ⟨hi, hi'⟩
    obtain ⟨x, hx, -, hlo, hkey⟩ := h.ends_eq hn hlt
    rw [h.unpack_edgeAt hlt, Prod.mk.injEq] at heq
    have hpair : l.getD i (0, 0) = (glue32 u v, w) := by
      refine Prod.ext ?_ heq.2
      rw [hkey, hsource, ← hlo, heq.1]
    exact hpair ▸ getD_mem hlt
  · intro hmem
    obtain ⟨i, hlt, heq⟩ := List.getElem_of_mem hmem
    have hpair : l.getD i (0, 0) = (glue32 u v, w) := (List.getD_eq_getElem l _ hlt).trans heq
    have hsource : sourceOf l i = u := by
      rw [sourceOf, hpair]
      exact hi32_glue32_eq (by omega) (by omega)
    obtain ⟨hi, hi'⟩ := (mem_first_iff h.source_mono).mpr ⟨hlt, hsource⟩
    refine ⟨i, hi, hi', ?_⟩
    rw [h.unpack_edgeAt hlt, hpair]
    exact congrArg (·, w) (lo32_glue32 (by omega) (by omega))

end LeastWeights

/-- The graph has one edge for every pair of different ends that had an edge, with the least weight. -/
structure SymmetricClosure (weighted : Bool) (n m : ℕ) (o f p q : ℕ → ℕ) : Prop where
  target_lt : ∀ i < m, lo32 (q i) < n
  loopless : ∀ u < n, ∀ w, ¬HasEdge weighted p q u u w
  simple : ∀ u < n, ∀ v, edgeCount p q (fun e => lo32 e = v) u ≤ 1
  edge_iff : ∀ u < n, ∀ v < n,
    (∃ w, HasEdge weighted p q u v w) ↔ u ≠ v ∧ ∃ w, HasEdge weighted o f u v w ∨ HasEdge weighted o f v u w
  least : ∀ u < n, ∀ v < n, ∀ w, HasEdge weighted p q u v w →
    IsLeast {x | HasEdge weighted o f u v x ∨ HasEdge weighted o f v u x} w
  both : ∀ u < n, ∀ v < n, ∀ w, HasEdge weighted p q u v w → HasEdge weighted p q v u w
  sorted : SortedLists n p q

/-- The lists of the least weights are the symmetric closure. -/
theorem LeastWeights.closure (h : LeastWeights weighted n o f l) (hn : n ≤ 2 ^ 32) :
    SymmetricClosure weighted n l.length o f (first (sourceOf l) l.length) (edgeAt weighted l) := by
  have htarget {i : ℕ} (hi : i < l.length) : lo32 (edgeAt weighted l i) = lo32 (l.getD i (0, 0)).1 :=
    congrArg Prod.fst (h.unpack_edgeAt hi)
  have hedge {u v w : ℕ} (hu : u < n) (hv : v < n) :
    HasEdge weighted (first (sourceOf l) l.length) (edgeAt weighted l) u v w ↔
      u ≠ v ∧ IsLeast {x | HasEdge weighted o f u v x ∨ HasEdge weighted o f v u x} w :=
    (h.hasEdge_iff hn hu hv).trans (h.mem_iff u hu v hv w)
  refine ⟨fun i hi => ?_, fun u hu w hloop => ?_, fun u hu v => ?_, fun u hu v hv => ?_, fun u hu v hv w hw => ?_,
    fun u hu v hv w hw => ?_, fun u hu i hi hi' => ?_⟩
  · obtain ⟨v, hv, -, hlo, -⟩ := h.ends_eq hn hi
    rw [htarget hi, hlo]
    exact hv
  · exact ((hedge hu hu).mp hloop).1 rfl
  · refine Finset.card_le_one.mpr fun i hi j hj => ?_
    rw [Finset.mem_filter, Finset.mem_Ico] at hi hj
    obtain ⟨hilt, hisource⟩ := (mem_first_iff h.source_mono).mp hi.1
    obtain ⟨hjlt, hjsource⟩ := (mem_first_iff h.source_mono).mp hj.1
    obtain ⟨x, hx, -, hilo, hikey⟩ := h.ends_eq hn hilt
    obtain ⟨y, hy, -, hjlo, hjkey⟩ := h.ends_eq hn hjlt
    have hsame : (l.getD i (0, 0)).1 = (l.getD j (0, 0)).1 := by
      rw [hikey, hjkey, hisource, hjsource, ← hilo, ← hjlo, ← htarget hilt, ← htarget hjlt, hi.2, hj.2]
    rcases lt_trichotomy i j with hlt | heq | hlt
    · exact absurd hsame (h.key_lt hlt hjlt).ne
    · exact heq
    · exact absurd hsame (h.key_lt hlt hilt).ne'
  · constructor
    · rintro ⟨w, hw⟩
      obtain ⟨hne, hleast, -⟩ := (hedge hu hv).mp hw
      exact ⟨hne, w, hleast⟩
    · rintro ⟨hne, w, hw⟩
      have hnonempty : ({x | HasEdge weighted o f u v x ∨ HasEdge weighted o f v u x} : Set ℕ).Nonempty := ⟨w, hw⟩
      exact ⟨_, (hedge hu hv).mpr ⟨hne, Nat.sInf_mem hnonempty, fun x hx => Nat.sInf_le hx⟩⟩
  · exact ((hedge hu hv).mp hw).2
  · obtain ⟨hne, hleast⟩ := (hedge hu hv).mp hw
    refine (hedge hv hu).mpr ⟨hne.symm, ?_⟩
    have hset : {x | HasEdge weighted o f v u x ∨ HasEdge weighted o f u v x} =
        {x | HasEdge weighted o f u v x ∨ HasEdge weighted o f v u x} := Set.ext fun x => or_comm
    rwa [hset]
  · obtain ⟨hlt, hsource⟩ := (mem_first_iff h.source_mono).mp ⟨hi.le, hi'⟩
    obtain ⟨hlt', hsource'⟩ :=
      (mem_first_iff h.source_mono).mp ⟨show _ ≤ i - 1 by omega, (Nat.sub_le i 1).trans_lt hi'⟩
    have hkey := h.key_lt (show i - 1 < i by omega) hlt
    rw [htarget hlt, htarget hlt']
    rw [sourceOf, hi32_eq] at hsource hsource'
    rw [lo32, lo32]
    omega

end Lists

section MakeSymmetrized

variable {G H : GraphData} {weighted : Bool} {n m : ℕ} {o f : ℕ → ℕ} {l : List (ℕ × ℕ)}
  {outEdges outOffsets : Array ℕ}

/-- The test of an entry tells whether it is kept. -/
theorem keepEntry_eq {sorted : Array (ℕ × ℕ)} {g : ℕ → ℕ × ℕ} {i : ℕ} (hg : Contents sorted (2 * m) g)
    (hi : i < 2 * m) :
    keepEntry weighted m sorted i = some (keptEntry (fun k => keyed weighted (g k)) (2 * m) i) := by
  refine (bind_eq_of_eq (hg.get i hi) _).trans ?_
  change (if lo32 (keyOf weighted (g i)) = hi32 (keyOf weighted (g i)) then some false else _) = some (decide _)
  by_cases hloop : lo32 (keyOf weighted (g i)) = hi32 (keyOf weighted (g i))
  · rw [if_pos hloop, decide_eq_false fun h => h.2.1 hloop]
  rw [if_neg hloop]
  by_cases hend : i + 1 = 2 * m
  · rw [if_pos hend, decide_eq_true ⟨hi, hloop, Or.inl hend⟩]
  · rw [if_neg hend]
    refine (bind_eq_of_eq (hg.get (i + 1) (by omega)) _).trans (congrArg some (decide_eq_decide.mpr ?_))
    exact ⟨fun hne => ⟨hi, hloop, Or.inr hne⟩, fun h => h.2.2.resolve_left hend⟩

/-- Sorted entries have increasing keys, and the larger weight of a key comes first. -/
theorem descending_of_sorted {g : ℕ → ℕ × ℕ} (hn : n ≤ 2 ^ 32)
    (hends : ∀ k < 2 * m, ∃ u < n, ∃ v < n, ∃ w, g k = symEntry weighted u v w)
    (hsorted : Sorted (symEntryLess weighted) ((List.range (2 * m)).map g)) :
    Descending (fun k => keyed weighted (g k)) (2 * m) := by
  intro i j hij hj
  have hnot := List.pairwise_iff_getElem.mp (List.pairwise_map.mp hsorted) i j (by simp; omega)
    (by simpa using hj) hij
  rw [List.getElem_range, List.getElem_range] at hnot
  obtain ⟨u, hu, v, hv, w, hi⟩ := hends i (by omega)
  obtain ⟨u', hu', v', hv', w', hj⟩ := hends j hj
  rw [hi, hj] at hnot
  dsimp only
  rw [hi, hj, keyed_symEntry, keyed_symEntry]
  cases weighted with
  | true =>
    simp only [symEntryLess, symEntry, if_true] at hnot ⊢
    split_ifs at hnot with hne <;> rw [decide_eq_false_iff_not] at hnot <;> omega
  | false =>
    simp only [symEntryLess, symEntry, Bool.false_eq_true, if_false, Bool.or_eq_false_iff, Bool.and_eq_false_iff,
      Bool.not_eq_false', decide_eq_true_eq, decide_eq_false_iff_not] at hnot ⊢
    rw [glue32_eq (by omega) (by omega), glue32_eq (by omega) (by omega)]
    omega

/-- `make_symmetrized` up to the loop that fills the gaps: the edges that are kept and the offsets that
are recorded. -/
def markSymmetrized (R : Runtime) (weighted : Bool) (G : GraphData) : Option (ℕ × Array ℕ × Array ℕ) := do
  let edgelist ← parallelLoop (R.schedules 0 0) G.n
    (Array.replicate (2 * G.m) (R.uninit, R.uninit)) fun u edgelist => do
    let first ← G.outOffsets[u]?
    let last ← G.outOffsets[u + 1]?
    parallelLoop (R.schedules 1 u) (last - first) edgelist fun k edgelist => do
      let e ← G.outEdges[first + k]?
      let edgelist ← write edgelist (2 * (first + k)) (symEntry weighted u (lo32 e) (hi32 e))
      write edgelist (2 * (first + k) + 1) (symEntry weighted (lo32 e) u (hi32 e))
  let (edgelist, _) ← sampleSort (symEntryLess weighted) (R.sort (symEntryLess weighted))
    (if weighted then 16 else 8) (fun _ => (R.uninit, R.uninit)) R.numWorkers (R.schedules 2) edgelist
  let kept ← pack (fun _ => (R.uninit, R.uninit)) (BitVec.ofNat 64 R.uninit) R.numWorkers
    (R.schedules 5) 0 (2 * G.m) (keepEntry weighted G.m edgelist) fun i => edgelist[i]?
  let newM := kept.size
  let outEdges ← build newM fun i => (kept[i]?).map (edgeOfEntry weighted)
  let outOffsets ← parallelLoop (R.schedules 3 0) newM (Array.replicate (G.n + 1) newM)
    (markFirst fun j => (kept[j]?).map fun x => hi32 (keyOf weighted x))
  some (newM, outEdges, outOffsets)

/-- `make_symmetrized` up to the loop that fills the gaps, that loop, and the rest. -/
theorem makeSymmetrized_eq (R : Runtime) (weighted : Bool) (G : GraphData) : makeSymmetrized R weighted G = (do
    let (newM, outEdges, outOffsets) ← markSymmetrized R weighted G
    let outOffsets ← fillGaps (R.schedules 4 0) G.n newM outOffsets
    some { G with m := newM, outOffsets := outOffsets, outEdges := outEdges }) := by
  unfold makeSymmetrized markSymmetrized
  simp only [bind_assoc]
  rfl

/-- The state before the gaps are filled. -/
structure MarkedLists (weighted : Bool) (n m : ℕ) (o f : ℕ → ℕ) (l : List (ℕ × ℕ))
    (r : ℕ × Array ℕ × Array ℕ) : Prop where
  length : r.1 = l.length
  least : LeastWeights weighted n o f l
  edges : Contents r.2.1 l.length (edgeAt weighted l)
  marked : ∃ p, Marked (sourceOf l) n l.length (Finset.range l.length) r.2.2 p
  le : l.length ≤ 2 * m

/-- The edges that are kept have the least weights, and the offsets of their sources are recorded. -/
theorem returns_markSymmetrized (R : Runtime) (weighted : Bool)
    (hoffsets : IsOffsets G.outOffsets G.n G.m o) (hedges : Contents G.outEdges G.m f)
    (htarget : ∀ i < G.m, lo32 (f i) < G.n) (hn : G.n ≤ 2 ^ 32) (hm : 2 * G.m < 2 ^ 63) :
    Returns (fun r => ∃ l, MarkedLists weighted G.n G.m o f l r) (markSymmetrized R weighted G) := by
  unfold markSymmetrized
  refine (returns_symEntries R hoffsets hedges).bind ?_
  rintro edgelist ⟨e, he, hentries⟩
  have hboth : BothWays weighted G.n G.m o f e :=
    bothWays_of_entries hoffsets hn htarget fun u hu i hi hi' => hentries u hu i hi hi' trivial
  have hstrict := symEntryLess_strict weighted
  refine (returns_sampleSort_sorted hstrict (R.sorts _ hstrict) (fun _ => (R.uninit, R.uninit)) e
    (R.schedules 2) he hm R.numWorkers_pos R.numWorkers_lt).bind ?_
  rintro ⟨sorted, written⟩ ⟨g, hg, hperm, hsorted⟩
  dsimp only at hg ⊢
  have hends : ∀ k < 2 * G.m, ∃ u < G.n, ∃ v < G.n, ∃ w, g k = symEntry weighted u v w := by
    intro k hk
    obtain ⟨i, hi, heq⟩ := List.mem_map.mp (hperm.subset (List.mem_map_of_mem (List.mem_range.mpr hk)))
    rw [← heq]
    exact hboth.ends i (List.mem_range.mp hi)
  have hleast := leastWeights_kept hboth hn (descending_of_sorted hn hends hsorted) hperm
  have hpack : Returns (fun kept : Array (ℕ × ℕ) => kept.toList =
        ((List.range (2 * G.m)).filter (keptEntry (fun k => keyed weighted (g k)) (2 * G.m))).map g)
      (pack (fun _ => (R.uninit, R.uninit)) (BitVec.ofNat 64 R.uninit) R.numWorkers
        (R.schedules 5) 0 (0 + 2 * G.m) (keepEntry weighted G.m sorted) fun i => sorted[i]?) :=
    returns_pack _ _ _ R.numWorkers_pos hm (fun i hi => decide_eq_false fun h => by omega)
      (fun i hi => by rw [Nat.zero_add]; exact keepEntry_eq hg hi)
        (fun i hi _ => by rw [Nat.zero_add]; exact hg.get i hi)
  rw [Nat.zero_add] at hpack
  refine hpack.bind fun kept hkept => ?_
  have hlist : ((List.range (2 * G.m)).filter (keptEntry (fun k => keyed weighted (g k)) (2 * G.m))).map
    (fun k => keyed weighted (g k)) = kept.toList.map (keyed weighted) := by
    rw [hkept, List.map_map]
    rfl
  rw [hlist] at hleast
  have hlength : (kept.toList.map (keyed weighted)).length = kept.size := by
    rw [List.length_map, Array.length_toList]
  have hget : ∀ j < kept.size, ∃ u < G.n, ∃ v < G.n, ∃ w, kept[j]? = some (symEntry weighted u v w) ∧
      (kept.toList.map (keyed weighted)).getD j (0, 0) = keyed weighted (symEntry weighted u v w) := by
    intro j hj
    obtain ⟨x, hx⟩ : ∃ x, kept[j]? = some x := ⟨_, Array.getElem?_eq_getElem hj⟩
    have hmem : x ∈ kept.toList := List.mem_of_getElem? (Array.getElem?_toList.trans hx)
    rw [hkept] at hmem
    obtain ⟨k, hk, heq⟩ := List.mem_map.mp hmem
    obtain ⟨u, hu, v, hv, w, hentry⟩ := hends k (List.mem_range.mp (List.mem_filter.mp hk).1)
    have hentry' : kept[j]? = some (symEntry weighted u v w) := by rw [hx, ← heq, hentry]
    refine ⟨u, hu, v, hv, w, hentry', ?_⟩
    rw [List.getD_eq_getElem?_getD, List.getElem?_map, Array.getElem?_toList, hentry']
    rfl
  have hbuild : Returns (fun a => Contents a kept.size (edgeAt weighted (kept.toList.map (keyed weighted))))
      (build kept.size fun i => (kept[i]?).map (edgeOfEntry weighted)) := by
    refine Returns.build fun j hj => ?_
    obtain ⟨u, hu, v, hv, w, hkept', hgetD⟩ := hget j hj
    rw [hkept', edgeAt, hgetD, Option.map_some, edgeOfEntry_symEntry weighted (by omega) (by omega)]
  refine hbuild.bind fun outEdges houtEdges => ?_
  have hkeys : ∀ j < kept.size, (kept[j]?).map (fun x => hi32 (keyOf weighted x)) =
      some (sourceOf (kept.toList.map (keyed weighted)) j) := by
    intro j hj
    obtain ⟨u, hu, v, hv, w, hkept', hgetD⟩ := hget j hj
    rw [hkept', sourceOf, hgetD]
    rfl
  have hle : (kept.toList.map (keyed weighted)).length ≤ 2 * G.m := by
    rw [List.length_map, hkept, List.length_map]
    exact (List.length_filter_le _ _).trans List.length_range.le
  generalize kept.toList.map (keyed weighted) = l at *
  rw [← hlength] at houtEdges hkeys ⊢
  have hloop : Returns (fun offsets => ∃ q, Marked (sourceOf l) G.n l.length (Finset.range l.length) offsets q)
      (parallelLoop (R.schedules 3 0) l.length (Array.replicate (G.n + 1) l.length)
        (markFirst fun j => (kept[j]?).map fun x => hi32 (keyOf weighted x))) := by
    refine Returns.parallelLoop (I := fun done offsets => ∃ q, Marked (sourceOf l) G.n l.length done offsets q)
      ⟨_, Marked.start _ _ _⟩ ?_
    rintro done i offsets hi - ⟨q, hmarked⟩
    exact hmarked.markFirst hleast.source_mono hkeys hi (hleast.source_lt hn i hi).le
  exact hloop.bind fun offsets hmarked => Returns.pure ⟨l, rfl, hleast, houtEdges, hmarked, hle⟩

/-- The graph of the least weights. -/
structure Closed (weighted : Bool) (G : GraphData) (o f : ℕ → ℕ) (l : List (ℕ × ℕ)) (H : GraphData) : Prop where
  others : H = { G with m := H.m, outOffsets := H.outOffsets, outEdges := H.outEdges }
  length : H.m = l.length
  least : LeastWeights weighted G.n o f l
  offsets : IsOffsets H.outOffsets G.n l.length (first (sourceOf l) l.length)
  edges : Contents H.outEdges l.length (edgeAt weighted l)
  le : l.length ≤ 2 * G.m

/-- `make_symmetrized` returns the closed lists. -/
theorem returns_makeSymmetrized_closed (R : Runtime) (weighted : Bool)
    (hoffsets : IsOffsets G.outOffsets G.n G.m o) (hedges : Contents G.outEdges G.m f)
    (htarget : ∀ i < G.m, lo32 (f i) < G.n) (hn : G.n ≤ 2 ^ 32) (hm : 2 * G.m < 2 ^ 63) :
    Returns (fun H => ∃ l, Closed weighted G o f l H) (makeSymmetrized R weighted G) := by
  rw [makeSymmetrized_eq]
  refine (returns_markSymmetrized R weighted hoffsets hedges htarget hn hm).bind ?_
  rintro ⟨newM, outEdges, outOffsets⟩ ⟨l, hlength, hleast, houtEdges, ⟨p, hmarked⟩, hle⟩
  dsimp only at hlength houtEdges hmarked
  subst hlength
  refine (returns_fillGaps (R.schedules 4 0) hmarked hleast.source_mono (hleast.source_lt hn)).bind
    fun outOffsets' hfilled => ?_
  exact Returns.pure ⟨l, rfl, rfl, hleast, hfilled, houtEdges, hle⟩

/-- What `make_symmetrized` gives. -/
structure Symmetrized (G H : GraphData) : Prop where
  n : H.n = G.n
  inOffsets : H.inOffsets = G.inOffsets
  inEdges : H.inEdges = G.inEdges
  edges : ∃ p q, IsOffsets H.outOffsets G.n H.m p ∧ Contents H.outEdges H.m q ∧ SymmetricEdges true G.n p q

/-- Without parallel edges the count of an edge tells whether it is there. -/
theorem SymmetricClosure.edgeCount_eq {p q : ℕ → ℕ} (h : SymmetricClosure weighted n m o f p q)
    {u v w : ℕ} (hu : u < n) [Decidable (HasEdge weighted p q u v w)] :
    edgeCount p q (fun e => unpackEdge weighted e = (v, w)) u = if HasEdge weighted p q u v w then 1 else 0 := by
  have hle : edgeCount p q (fun e => unpackEdge weighted e = (v, w)) u ≤ 1 := by
    refine le_trans (Finset.card_le_card fun i hi => ?_) (h.simple u hu v)
    rw [Finset.mem_filter] at hi ⊢
    exact ⟨hi.1, congrArg Prod.fst hi.2⟩
  split
  · rename_i hedge
    obtain ⟨i, hi, hi', heq⟩ := hedge
    have hpos : 0 < edgeCount p q (fun e => unpackEdge weighted e = (v, w)) u :=
      Finset.card_pos.mpr ⟨i, Finset.mem_filter.mpr ⟨Finset.mem_Ico.mpr ⟨hi, hi'⟩, heq⟩⟩
    omega
  · rename_i hnone
    refine Finset.card_eq_zero.mpr (Finset.filter_eq_empty_iff.mpr fun i hi heq => hnone ⟨i, ?_, ?_, heq⟩)
    · exact (Finset.mem_Ico.mp hi).1
    · exact (Finset.mem_Ico.mp hi).2

/-- The symmetric closure is symmetric. -/
theorem SymmetricClosure.symmetric {p q : ℕ → ℕ} (h : SymmetricClosure weighted n m o f p q) :
    SymmetricEdges weighted n p q := by
  classical
  intro u hu v hv w
  rw [h.edgeCount_eq hu, h.edgeCount_eq hv]
  exact if_congr ⟨h.both u hu v hv w, h.both v hv u hu w⟩ rfl rfl

/-- `make_symmetrized` returns a symmetric graph. -/
theorem returns_makeSymmetrized (R : Runtime) (hoffsets : IsOffsets G.outOffsets G.n G.m o)
    (hedges : Contents G.outEdges G.m f)
    (htarget : ∀ i < G.m, lo32 (f i) < G.n) (hn : G.n ≤ 2 ^ 32) (hm : 2 * G.m < 2 ^ 63) :
    Returns (Symmetrized G) (makeSymmetrized R true G) := by
  refine (returns_makeSymmetrized_closed R true hoffsets hedges htarget hn hm).mono ?_
  rintro H ⟨l, hothers, hlength, hleast, hoffsets', hedges', -⟩
  rw [← hlength] at hoffsets' hedges'
  exact ⟨by rw [hothers], by rw [hothers], by rw [hothers], _, _, hoffsets', hedges',
    hlength ▸ (hleast.closure hn).symmetric⟩

/-- The graph is determined by its list. -/
theorem Closed.eq {o' f' : ℕ → ℕ} {H' : GraphData} {l' : List (ℕ × ℕ)} (h : Closed weighted G o f l H)
    (h' : Closed weighted H o' f' l' H') (hl : l' = l) : H' = H := by
  subst hl
  have hn : H.n = G.n := by rw [h.others]
  have hoffsets := h.offsets.contents
  rw [← hn] at hoffsets
  rw [h'.others, ← hoffsets.eq h'.offsets.contents, ← h.edges.eq h'.edges, h'.length, ← h.length]

/-- The edges of the closure are those of its own closure. -/
theorem LeastWeights.again {l' : List (ℕ × ℕ)} (h : LeastWeights weighted n o f l) (hn : n ≤ 2 ^ 32)
    (h' : LeastWeights weighted n (first (sourceOf l) l.length) (edgeAt weighted l) l') : l' = l := by
  have hclosure := h.closure hn
  refine h'.unique h fun u hu v hv w => (h'.mem_iff u hu v hv w).trans ?_
  constructor
  · rintro ⟨-, hedge | hedge, -⟩
    · exact (h.hasEdge_iff hn hu hv).mp hedge
    · exact (h.hasEdge_iff hn hu hv).mp (hclosure.both v hv u hu w hedge)
  · intro hmem
    have hedge := (h.hasEdge_iff hn hu hv).mpr hmem
    refine ⟨((h.mem_iff u hu v hv w).mp hmem).1, Or.inl hedge, fun x hx => ?_⟩
    have hedge' := hx.elim id (hclosure.both v hv u hu x)
    exact (IsLeast.unique (hclosure.least u hu v hv w hedge) (hclosure.least u hu v hv x hedge')).le

/-- A second application changes nothing. -/
theorem Closed.again (R : Runtime) (h : Closed weighted G o f l H) (hn : G.n ≤ 2 ^ 32) (hm : 4 * G.m < 2 ^ 63) :
    makeSymmetrized R weighted H = some H := by
  have hn' : H.n = G.n := by rw [h.others]
  have hoffsets := h.offsets
  have hedges := h.edges
  have hle := h.le
  have hclosure := h.least.closure hn
  rw [← h.length] at hoffsets hedges hle hclosure
  rw [← hn'] at hoffsets
  obtain ⟨H', heq, l', h'⟩ := returns_makeSymmetrized_closed R weighted hoffsets hedges
    (fun i hi => hn' ▸ hclosure.target_lt i hi) (hn' ▸ hn) (by omega)
  have hleast := h'.least
  rw [hn', h.length] at hleast
  rw [heq, h.eq h' (h.least.again hn hleast)]

end MakeSymmetrized

section Closure

/-- The graphs that can be symmetrized. -/
structure Symmetrizable (G : GraphData) : Prop extends Directed G where
  /-- The list with both directions of every edge passes the size check of its constructor. -/
  fits : 2 * G.m < 2 ^ 61

variable {G : GraphData}

/-- `make_symmetrized` gives the simple symmetric closure and changes nothing when it is applied again,
whatever the order of the iterations, and also if every access of the loop that fills the gaps is a step
of its own. -/
theorem makeSymmetrized_closes (R : Runtime) (weighted : Bool) (h : Symmetrizable G) :
    ∃ H p q, makeSymmetrized R weighted G = some H ∧
      H = { G with m := H.m, outOffsets := H.outOffsets, outEdges := H.outEdges } ∧
      IsOffsets H.outOffsets G.n H.m p ∧ Contents H.outEdges H.m q ∧
      SymmetricClosure weighted G.n H.m (fun i => G.outOffsets.getD i 0) (fun i => G.outEdges.getD i 0) p q ∧
      (∀ R', makeSymmetrized R' weighted H = some H) ∧
      ∃ marked, markSymmetrized R weighted G = some (H.m, H.outEdges, marked) ∧
        ∀ order : List ℕ, (∀ i ∈ order, i ≤ G.n) → ∃ s, runFill G.n H.m order (startFill marked) = some s ∧
          (∀ i ≤ G.n, i + 4 ≤ order.count i → s.phase i = .returned) ∧
          ((∀ i ≤ G.n, s.phase i = .returned) → s.offsets = H.outOffsets) := by
  have hn := h.n_lt
  have hm := h.fits
  have hbound : G.n ≤ 2 ^ 32 := by omega
  obtain ⟨⟨newM, outEdges, marked⟩, hmark, l, hlength, hleast, houtEdges, ⟨p, hmarked⟩, hle⟩ :=
    returns_markSymmetrized R weighted h.isOffsets h.edges h.target_lt hbound (by omega)
  obtain ⟨H, heq, l', hclosed⟩ :=
    returns_makeSymmetrized_closed R weighted h.isOffsets h.edges h.target_lt hbound (by omega)
  obtain rfl : l' = l := hclosed.least.unique hleast fun u hu v hv w =>
    (hclosed.least.mem_iff u hu v hv w).trans (hleast.mem_iff u hu v hv w).symm
  dsimp only at hlength houtEdges hmarked
  obtain rfl : newM = H.m := hlength.trans hclosed.length.symm
  obtain rfl : outEdges = H.outEdges := houtEdges.eq hclosed.edges
  have hmono := hleast.source_mono
  have hsource := hleast.source_lt hbound
  have hclosure := hleast.closure hbound
  have hoffsets := hclosed.offsets
  have hedges := hclosed.edges
  rw [← hlength] at hclosure hoffsets hedges hmono hsource hmarked
  refine ⟨H, _, _, heq, hclosed.others, hoffsets, hedges, hclosure,
    fun R' => hclosed.again R' hbound (by omega), marked, hmark,
    fun order horder => ?_⟩
  obtain ⟨s, hrun, hsafe⟩ := backFills hn (hmarked.recorded hmono hsource) hmarked.contents order horder
  exact ⟨s, hrun, hsafe.returns, fun hall => (hsafe.isOffsets hmarked hmono hsource hall).contents.eq
    hoffsets.contents⟩

/-- Two edges with different weights between two vertices, and a loop. -/
def edgesAndLoop : GraphData := ⟨2, 3, #[0, 1, 3], #[5 * 2 ^ 32 + 1, 3 * 2 ^ 32, 7 * 2 ^ 32 + 1], #[], #[]⟩

/-- A graph with an edge in both directions under two weights, and a loop. -/
theorem makeSymmetrized_closes_loop : ∃ H, makeSymmetrized Runtime.sequential true edgesAndLoop = some H ∧
    makeSymmetrized Runtime.sequential true H = some H := by
  have hsymmetrizable : Symmetrizable edgesAndLoop :=
    ⟨⟨by decide, by decide, by decide, by decide, by decide, by decide, by decide, by decide⟩, by decide⟩
  obtain ⟨H, -, -, heq, -, -, -, -, hagain, -⟩ := makeSymmetrized_closes Runtime.sequential true hsymmetrizable
  exact ⟨H, heq, hagain _⟩

end Closure

end GraphFile

end ToggleTree
