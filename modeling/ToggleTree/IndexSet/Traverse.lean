import ToggleTree.ForkJoin.Reduce
import ToggleTree.IndexSet.Elements

/-!
# Traversals

A traversal replaces a node by the children that the flags of its word name, until it
reaches the indices themselves. The front of a traversal is the multiset of nodes that are
still to be visited; every element is either below exactly one of them or has been passed
to the callback once. The rules at the end reduce a traversal, with all its forks, to
one visit of a word and one call of the callback.
-/

namespace ToggleTree

open ForkJoin ForkJoin.Prog

namespace IndexSet

/-- The word of the first leaf below a node is the node. -/
theorem wordId_node (L w : ℕ) : wordId L (w * 64 ^ (L + 1)) = w := by
  rw [wordId_eq, ← div_pow_succ, Nat.mul_div_cancel _ (by positivity)]

/-- The first leaf below a child. -/
theorem child_index (L w o : ℕ) :
    w * 64 ^ (L + 1) + offsetIndex L o = (64 * w + o) * 64 ^ L := by
  rw [offsetIndex_eq, pow_succ]
  ring

/-- The index at a flag of a leaf node. -/
theorem leaf_index (w o : ℕ) : w * 64 ^ (0 + 1) + o = 64 * w + o := by ring

section Front

/-- The number of nodes of a front that lie above an index. -/
def covers (front : Multiset (ℕ × ℕ)) (i : ℕ) : ℕ := front.countP fun p => i / 64 ^ p.1 = p.2

/-- The children of word `w` of layer `L` that the flags `x` name. -/
def children (L w : ℕ) (x : Word) : Multiset (ℕ × ℕ) :=
  ((bits x).map fun o => ({(L, 64 * w + o)} : Multiset (ℕ × ℕ))).sum

/-- An empty front covers nothing. -/
@[simp] theorem covers_zero (i : ℕ) : covers 0 i = 0 := Multiset.countP_zero _

/-- Two parts of a front cover an index independently. -/
@[simp] theorem covers_add (a b : Multiset (ℕ × ℕ)) (i : ℕ) :
    covers (a + b) i = covers a i + covers b i := Multiset.countP_add _ _ _

/-- Whether a node covers an index. -/
theorem covers_singleton (K v i : ℕ) : covers {(K, v)} i = if i / 64 ^ K = v then 1 else 0 := by
  rw [covers, ← Multiset.cons_zero, Multiset.countP_cons, Multiset.countP_zero, zero_add]

/-- The children at the flags of a word. -/
theorem mem_children {L w : ℕ} {x : Word} {p : ℕ × ℕ} :
    p ∈ children L w x ↔ ∃ o ∈ bits x, p = (L, 64 * w + o) := by
  unfold children
  induction bits x with
  | nil => simp
  | cons o os ih => simp [ih]

/-- An index below a word is below one of its children if the flag of that child is set. -/
theorem covers_children (L w : ℕ) (x : Word) (i : ℕ) :
    covers (children L w x) i =
      if i / 64 ^ (L + 1) = w ∧ i / 64 ^ L % 64 ∈ bits x then 1 else 0 := by
  have hcount : covers (children L w x) i = (bits x).countP fun o => i / 64 ^ L = 64 * w + o := by
    unfold children
    induction bits x with
    | nil => simp
    | cons o os ih =>
      rw [List.map_cons, List.sum_cons, covers_add, ih, covers_singleton, List.countP_cons, add_comm]
      simp
  rw [hcount, div_pow_succ]
  by_cases hw : i / 64 ^ L / 64 = w
  · have hsame : (bits x).countP (fun o => decide (i / 64 ^ L = 64 * w + o)) =
        (bits x).count (i / 64 ^ L % 64) := by
      refine List.countP_congr fun o ho => ?_
      have := bits_lt ho
      simp only [decide_eq_true_eq, beq_iff_eq]
      omega
    rw [hsame, (bits_nodup x).count]
    simp [hw]
  · rw [if_neg fun h => hw h.1, List.countP_eq_zero]
    intro o ho
    have := bits_lt ho
    simp only [decide_eq_true_eq]
    omega

/-- The calls made so far, against the front: each index of `T` is below one node of the
front or has been passed to the callback once, and no other index has. -/
def Called (T : Finset ℕ) (front : Multiset (ℕ × ℕ)) (calls : List ℕ) : Prop :=
  ∀ i, calls.count i + (if i ∈ T then covers front i else 0) = if i ∈ T then 1 else 0

variable {T : Finset ℕ} {front : Multiset (ℕ × ℕ)} {calls : List ℕ}

/-- At most one node of the front covers an element. -/
theorem Called.covers_le (h : Called T front calls) {i : ℕ} (hi : i ∈ T) : covers front i ≤ 1 := by
  have := h i
  rw [if_pos hi, if_pos hi] at this
  omega

/-- Nothing is called before a traversal starts at a node above all of `T`. -/
theorem Called.start {K v : ℕ} (h : ∀ i ∈ T, i / 64 ^ K = v) : Called T {(K, v)} [] := by
  intro i
  rw [List.count_nil, zero_add]
  split
  · next hi => rw [covers_singleton, if_pos (h i hi)]
  · rfl

/-- Visiting a word that has a flag for every index of `T` below it. -/
theorem Called.visit {L w : ℕ} {x : Word} (h : Called T ({(L + 1, w)} + front) calls)
    (hx : ∀ i ∈ T, i / 64 ^ (L + 1) = w → i / 64 ^ L % 64 ∈ bits x) :
    Called T (children L w x + front) calls := by
  intro i
  rw [← h i]
  split
  · next hi =>
    rw [covers_add, covers_add, covers_children, covers_singleton]
    by_cases hw : i / 64 ^ (L + 1) = w
    · rw [if_pos ⟨hw, hx i hi hw⟩, if_pos hw]
    · rw [if_neg (fun hc => hw hc.1), if_neg hw]
  · rfl

/-- Passing an index to the callback. -/
theorem Called.call {i : ℕ} (h : Called T ({(0, i)} + front) calls) (hi : i ∈ T) :
    Called T front (calls ++ [i]) := by
  intro j
  have hj := h j
  rw [covers_add, covers_singleton, pow_zero, Nat.div_one] at hj
  rw [List.count_append]
  by_cases hji : j = i
  · subst hji
    rw [if_pos hi, if_pos rfl] at hj
    rw [if_pos hi, List.count_singleton_self]
    omega
  · rw [if_neg hji, zero_add] at hj
    rw [List.count_eq_zero_of_not_mem (show j ∉ [i] by simpa using hji), add_zero, hj]

/-- An empty front means that every index of `T` was called exactly once. -/
theorem Called.perm (h : Called T 0 calls) : calls.Perm (T.sort (· ≤ ·)) := by
  refine List.perm_iff_count.mpr fun i => ?_
  have := h i
  rw [covers_zero, ite_self, add_zero] at this
  rw [this, (Finset.sort_nodup T (· ≤ ·)).count]
  simp only [Finset.mem_sort]

end Front

/-- A node of the tree with an element below it. -/
def Alive (n : ℕ) (S : Finset ℕ) (K v : ℕ) : Prop := K ≤ numLayers n ∧ ∃ i ∈ S, i / 64 ^ K = v

section Alive

variable {n : ℕ} {S : Finset ℕ} {s : IndexSet} (h : Represents n s S)
include h

/-- The root has to be reached if there is an element. -/
theorem alive_root (hne : S.Nonempty) : Alive n S (numLayers n) 0 := by
  obtain ⟨i, hi⟩ := hne
  exact ⟨le_rfl, i, hi, div_numLayers (h.lt hi)⟩

/-- The flags of a word lead to nodes with elements. -/
theorem alive_child {L w o : ℕ} (hL : L < numLayers n) (ho : o ∈ bits (s.load L w)) :
    Alive n S L (64 * w + o) :=
  ⟨hL.le, ((h.mem_bits_load hL w o).mp ho).2⟩

/-- Every element below a word is below a child whose flag is set. -/
theorem mem_bits_of_below {L w i : ℕ} (hL : L < numLayers n) (hi : i ∈ S)
    (hw : i / 64 ^ (L + 1) = w) : i / 64 ^ L % 64 ∈ bits (s.load L w) := by
  rw [h.mem_bits_load hL]
  refine ⟨Nat.mod_lt _ (by norm_num), i, hi, ?_⟩
  rw [← hw, div_pow_succ, Nat.div_add_mod]

end Alive

section Rules

variable {σ ι M : Type} [AddCommMonoid M] {P : Protocol σ M} {env : ι → Prog σ ι Unit}
  {ℓ : Loc σ IndexSet}

/-- A sum over the flags of a word. -/
theorem sum_popOffset (x : Word) (g : ℕ → M) :
    ∑ i ∈ Finset.Ico 0 (popCount x), g (popOffset i x) = ((bits x).map g).sum := by
  rw [← map_popOffset_range, List.map_map, ← Finset.range_eq_Ico]
  rfl

/-- A traversal is correct if each visit trades the resource of a node for those of its
children and each call of the callback uses up the resource of its index. -/
theorem forEachAt_ensures {consume : Bool} {f : ℕ → Prog σ ι Unit} (node : ℕ → ℕ → M)
    (Good : ℕ → ℕ → Prop)
    (hvisit : ∀ L w s, Good (L + 1) w → Ensures P env
      (fun x _ a => (∀ o ∈ bits x, Good L (64 * w + o)) ∧
        a = ((bits x).map fun o => node L (64 * w + o)).sum)
      (visitWord ℓ consume L (w * 64 ^ (L + 1))) s (node (L + 1) w))
    (hcall : ∀ i s, Good 0 i → Ensures P env (fun _ _ a => a = 0) (f i) s (node 0 i))
    (L w : ℕ) (s : σ) (hgood : Good (L + 1) w) :
    Ensures P env (fun _ _ a => a = 0) (forEachAt ℓ consume f L (w * 64 ^ (L + 1))) s
      (node (L + 1) w) := by
  have hstable : ∀ _ : ℕ, Ensures.Stable P fun _ _ => True := fun _ _ _ _ _ _ => trivial
  induction L generalizing w s with
  | zero =>
    refine (hvisit 0 w s hgood).bind ?_
    rintro x s' _ ⟨hchild, rfl⟩
    rw [← sum_popOffset x fun o => node 0 (64 * w + o)]
    refine (Ensures.parallelFor (Q := fun _ _ => True) _ hstable fun i _ hi => ?_).mono
      fun _ _ _ h => h.2
    rw [leaf_index]
    exact (hcall _ s' (hchild _ (popOffset_mem_bits hi))).mono fun _ _ _ h => ⟨trivial, h⟩
  | succ L ih =>
    refine (hvisit (L + 1) w s hgood).bind ?_
    rintro x s' _ ⟨hchild, rfl⟩
    rw [← sum_popOffset x fun o => node (L + 1) (64 * w + o)]
    refine (Ensures.parallelFor (Q := fun _ _ => True) _ hstable fun i _ hi => ?_).mono
      fun _ _ _ h => h.2
    rw [child_index]
    exact (ih _ s' (hchild _ (popOffset_mem_bits hi))).mono fun _ _ _ h => ⟨trivial, h⟩

variable (ℓ) in
/-- `for_range<Consume>` that tells an observer the shift counts it evaluates. -/
def forRangeAtTraced (observe : ℕ → Prog σ ι Unit) (consume : Bool) (l r : ℕ)
    (f : ℕ → Prog σ ι Unit) : ℕ → ℕ → Prog σ ι Unit
  | 0, index => do
      let full ← atomicRead (word ℓ 0 (wordId 0 index))
      observe (lowShift 0 index l)
      observe (highShift 0 index r)
      let w := full &&& rangeMask 0 index l r
      parallelFor 0 (popCount w) fun i => do
        let leaf := index + popOffset i w
        f leaf
        if consume then do
          let _ ← remove ℓ leaf
        else return ()
  | layer + 1, index => do
      let full ← atomicRead (word ℓ (layer + 1) (wordId (layer + 1) index))
      observe (lowShift (layer + 1) index l)
      observe (highShift (layer + 1) index r)
      let w := full &&& rangeMask (layer + 1) index l r
      parallelFor 0 (popCount w) fun i =>
        forRangeAtTraced observe consume l r f layer (index + offsetIndex (layer + 1) (popOffset i w))

/-- With an observer that does nothing, this is the traversal of the source. -/
theorem forRangeAtTraced_silent (consume : Bool) (l r : ℕ) (f : ℕ → Prog σ ι Unit) (L index : ℕ) :
    forRangeAtTraced ℓ (fun _ => ret ()) consume l r f L index = forRangeAt ℓ consume l r f L index := by
  induction L generalizing index with
  | zero => rfl
  | succ L ih =>
    unfold forRangeAtTraced forRangeAt
    simp only [ret_bind, ih]

/-- The same for a traversal of a range, whose visits only read. -/
theorem forRangeAtTraced_ensures {observe : ℕ → Prog σ ι Unit} {consume : Bool} {l r : ℕ}
    {f : ℕ → Prog σ ι Unit} (node : ℕ → ℕ → M) (Good : ℕ → ℕ → Prop)
    (hvisit : ∀ L w s, Good (L + 1) w → Ensures P env
      (fun x _ a => (∀ o ∈ bits (x &&& rangeMask L (w * 64 ^ (L + 1)) l r), Good L (64 * w + o)) ∧
        a = ((bits (x &&& rangeMask L (w * 64 ^ (L + 1)) l r)).map fun o => node L (64 * w + o)).sum)
      (atomicRead (word ℓ L w)) s (node (L + 1) w))
    (hlow : ∀ L w s, Good (L + 1) w →
      Ensures P env (fun _ _ a => a = 0) (observe (lowShift L (w * 64 ^ (L + 1)) l)) s 0)
    (hhigh : ∀ L w s, Good (L + 1) w →
      Ensures P env (fun _ _ a => a = 0) (observe (highShift L (w * 64 ^ (L + 1)) r)) s 0)
    (hcall : ∀ i s, Good 0 i → Ensures P env (fun _ _ a => a = 0)
      (f i >>= fun _ => if consume then do let _ ← remove ℓ i else return ()) s (node 0 i))
    (L w : ℕ) (s : σ) (hgood : Good (L + 1) w) :
    Ensures P env (fun _ _ a => a = 0)
      (forRangeAtTraced ℓ observe consume l r f L (w * 64 ^ (L + 1))) s (node (L + 1) w) := by
  have hstable : ∀ _ : ℕ, Ensures.Stable P fun _ _ => True := fun _ _ _ _ _ _ => trivial
  -- The observer holds nothing, so the children's resources pass it by.
  have hpass {c : ℕ} {rest : Prog σ ι Unit} {b : M}
      (hc : ∀ s, Ensures P env (fun _ _ a => a = 0) (observe c) s 0)
      (hrest : ∀ s, Ensures P env (fun _ _ a => a = 0) rest s b) (s : σ) :
      Ensures P env (fun _ _ a => a = 0) (observe c >>= fun _ => rest) s b := by
    have hframe := (hc s).frame b
    rw [zero_add] at hframe
    refine hframe.bind ?_
    rintro _ s' _ ⟨_, rfl, rfl⟩
    rw [zero_add]
    exact hrest s'
  induction L generalizing w s with
  | zero =>
    unfold forRangeAtTraced
    rw [wordId_node]
    refine (hvisit 0 w s hgood).bind ?_
    rintro x s' _ ⟨hchild, rfl⟩
    refine hpass (fun t => hlow 0 w t hgood) (hpass (fun t => hhigh 0 w t hgood) fun t => ?_) s'
    rw [← sum_popOffset _ fun o => node 0 (64 * w + o)]
    refine (Ensures.parallelFor (Q := fun _ _ => True) _ hstable fun i _ hi => ?_).mono
      fun _ _ _ h => h.2
    dsimp only
    rw [leaf_index]
    exact (hcall _ t (hchild _ (popOffset_mem_bits hi))).mono fun _ _ _ h => ⟨trivial, h⟩
  | succ L ih =>
    unfold forRangeAtTraced
    rw [wordId_node]
    refine (hvisit (L + 1) w s hgood).bind ?_
    rintro x s' _ ⟨hchild, rfl⟩
    refine hpass (fun t => hlow (L + 1) w t hgood) (hpass (fun t => hhigh (L + 1) w t hgood) fun t => ?_) s'
    rw [← sum_popOffset _ fun o => node (L + 1) (64 * w + o)]
    refine (Ensures.parallelFor (Q := fun _ _ => True) _ hstable fun i _ hi => ?_).mono
      fun _ _ _ h => h.2
    rw [child_index]
    exact (ih _ t (hchild _ (popOffset_mem_bits hi))).mono fun _ _ _ h => ⟨trivial, h⟩

/-- The rule for the traversal of a range as it is in the source. -/
theorem forRangeAt_ensures {consume : Bool} {l r : ℕ} {f : ℕ → Prog σ ι Unit} (node : ℕ → ℕ → M)
    (Good : ℕ → ℕ → Prop)
    (hvisit : ∀ L w s, Good (L + 1) w → Ensures P env
      (fun x _ a => (∀ o ∈ bits (x &&& rangeMask L (w * 64 ^ (L + 1)) l r), Good L (64 * w + o)) ∧
        a = ((bits (x &&& rangeMask L (w * 64 ^ (L + 1)) l r)).map fun o => node L (64 * w + o)).sum)
      (atomicRead (word ℓ L w)) s (node (L + 1) w))
    (hcall : ∀ i s, Good 0 i → Ensures P env (fun _ _ a => a = 0)
      (f i >>= fun _ => if consume then do let _ ← remove ℓ i else return ()) s (node 0 i))
    (L w : ℕ) (s : σ) (hgood : Good (L + 1) w) :
    Ensures P env (fun _ _ a => a = 0) (forRangeAt ℓ consume l r f L (w * 64 ^ (L + 1))) s
      (node (L + 1) w) := by
  have hsilent (s : σ) : Ensures P env (fun _ _ a => a = 0) (ret ()) s 0 :=
    Ensures.ret fun _ _ _ hinv => ⟨0, hinv, rfl⟩
  rw [← forRangeAtTraced_silent]
  exact forRangeAtTraced_ensures node Good hvisit (fun _ _ s _ => hsilent s) (fun _ _ s _ => hsilent s)
    hcall L w s hgood

/-- The rule for a reduction, whatever its result: visits only read, and the two lowest layers are
visited by sequential loops. -/
theorem reduceAt_visits {T : Type} {combine : T → T → T} {identity : T} {f : ℕ → Prog σ ι T}
    (node : ℕ → ℕ → M) (Good : ℕ → ℕ → Prop)
    (hvisit : ∀ L w s, Good (L + 1) w → Ensures P env
      (fun x _ a => (∀ o ∈ bits x, Good L (64 * w + o)) ∧
        a = ((bits x).map fun o => node L (64 * w + o)).sum)
      (atomicRead (word ℓ L w)) s (node (L + 1) w))
    (hcall : ∀ i s, Good 0 i → Ensures P env (fun _ _ a => a = 0) (f i) s (node 0 i))
    (L w : ℕ) (s : σ) (hgood : Good (L + 1) w) :
    Ensures P env (fun _ _ a => a = 0) (reduceAt ℓ combine identity f L (w * 64 ^ (L + 1))) s
      (node (L + 1) w) := by
  have hfold {x : Word} {g : ℕ → M} {body : ℕ → T → Prog σ ι T}
      (hbody : ∀ i b s, i < popCount x →
        Ensures P env (fun _ _ a => a = 0) (body i b) s (g (popOffset i x))) (init : T) (s : σ) :
      Ensures P env (fun _ _ a => a = 0) (foldFor 0 (popCount x) init body) s ((bits x).map g).sum := by
    rw [← sum_popOffset]
    refine (Ensures.foldFor_sum (I := fun _ _ _ => True) _ (Nat.zero_le _)
      (fun _ _ _ _ _ _ _ => trivial) trivial fun i b s _ hi _ => ?_).mono fun _ _ _ h => h.2
    exact (hbody i b s hi).mono fun _ _ _ h => ⟨trivial, h⟩
  -- The loop over the flags of a leaf word.
  have hleaf {x : Word} {v : ℕ} (hchild : ∀ o ∈ bits x, Good 0 (64 * v + o)) (init : T) (s : σ) :
      Ensures P env (fun _ _ a => a = 0) (foldFor 0 (popCount x) init fun i aggregate =>
        f (64 * v + popOffset i x) >>= fun y => ret (combine aggregate y)) s
        ((bits x).map fun o => node 0 (64 * v + o)).sum := by
    refine hfold (g := fun o => node 0 (64 * v + o)) (fun i b s hi => ?_) init s
    refine (hcall _ s (hchild _ (popOffset_mem_bits hi))).bind ?_
    rintro y s' _ rfl
    exact Ensures.ret fun _ _ _ hinv => ⟨0, hinv, rfl⟩
  induction L using Nat.strong_induction_on generalizing w s with
  | _ L ih =>
    match L with
    | 0 =>
      unfold reduceAt
      rw [wordId_node]
      refine (hvisit 0 w s hgood).bind ?_
      rintro x s' _ ⟨hchild, rfl⟩
      simp only [leaf_index]
      exact hleaf hchild identity s'
    | 1 =>
      unfold reduceAt
      rw [wordId_node]
      refine (hvisit 1 w s hgood).bind ?_
      rintro x s' _ ⟨hchild, rfl⟩
      refine hfold (g := fun o => node 1 (64 * w + o)) (fun i b s hi => ?_) identity s'
      dsimp only
      have hword (v : ℕ) : wordId 0 (v * 64 ^ 1) = v := wordId_node 0 v
      have hindex (v o : ℕ) : v * 64 ^ 1 + offsetIndex 0 o = 64 * v + o := by
        rw [offsetIndex_eq]
        ring
      rw [child_index, hword]
      refine (hvisit 0 _ s (hchild _ (popOffset_mem_bits hi))).bind ?_
      rintro y s'' _ ⟨hchild', rfl⟩
      simp only [hindex]
      exact hleaf hchild' b s''
    | L + 2 =>
      unfold reduceAt
      rw [wordId_node]
      refine (hvisit (L + 2) w s hgood).bind ?_
      rintro x s' _ ⟨hchild, rfl⟩
      rw [← sum_popOffset x fun o => node (L + 2) (64 * w + o)]
      refine (Ensures.parallelCollect_own (R := fun _ _ _ b => b = 0) _ (fun _ _ _ _ _ _ h => h)
        fun i _ hi => ?_).bind ?_
      · rw [child_index]
        exact ih (L + 1) (by omega) _ s' (hchild _ (popOffset_mem_bits hi))
      · rintro vs s'' _ ⟨c, rfl, hlength, hc⟩
        refine Ensures.ret fun _ _ _ hinv => ⟨_, hinv, Finset.sum_eq_zero fun i hi => ?_⟩
        have hi' : i < vs.length := by rw [hlength]; simpa using hi
        have hzero := hc i _ (List.getElem?_eq_getElem hi')
        rwa [zero_add] at hzero

end Rules

end IndexSet

end ToggleTree
