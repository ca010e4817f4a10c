import ToggleTree.IndexSet.Traverse

/-!
# Queries

Queries read the words and leave them as they are. The hand-unrolled cases for the lowest
layers compute what the general case would.
-/

namespace ToggleTree

open ForkJoin ForkJoin.Prog

namespace IndexSet

variable {σ ι : Type} {env : ι → Prog σ ι Unit} {ℓ : Loc σ IndexSet} {n : ℕ} {S : Finset ℕ} {s : σ}

/-- `contains` tells membership. -/
theorem contains_total (h : Represents n (ℓ.get s) S) (i : ℕ) :
    Total env (fun b s' => s' = s ∧ b = decide (i ∈ S)) (contains ℓ i) s := by
  unfold contains
  refine Total.read (Total.ret ⟨rfl, ?_⟩)
  have hmod : i % 64 < 64 := Nat.mod_lt _ (by norm_num)
  rw [decide_eq_decide, wordId_eq, wordOffset_eq, pow_zero, Nat.div_one, Ne, and_flag_eq_zero_iff hmod,
    Bool.not_eq_false, ← h.leaf]
  rfl

/-- `empty` tells whether the set is empty. -/
theorem empty_total (h : Represents n (ℓ.get s) S) :
    Total env (fun b s' => s' = s ∧ b = decide (S = ∅)) (empty ℓ) s := by
  unfold empty
  refine Total.read (Total.read (Total.ret ⟨rfl, ?_⟩))
  rw [decide_eq_decide, ← h.root_eq_zero, h.size]
  rfl

section Reading

/-- Nothing changes while queries run. -/
def still (s : σ) : Protocol σ ℕ where
  inv t _ := t = s
  rel _ _ := True
  refl _ := trivial
  trans _ _ := trivial

/-- A read sees the state that never changes. -/
theorem still_read {δ β : Type} {Q : β → σ → ℕ → Prop} {f : σ → δ} {next : δ → Prog σ ι β} {t : σ}
    (h : Ensures (still s) env Q (next (f s)) s 0) :
    Ensures (still s) env Q (read f >>= next) t 0 := by
  refine Ensures.read fun s' _ _ hinv => ?_
  obtain rfl : s' = s := hinv
  exact h

/-- The returned value while nothing changes. -/
theorem still_ret {β : Type} {v w : β} {t : σ} (h : v = w) :
    Ensures (still s) env (fun x _ a => x = w ∧ a = 0) (ret v) t 0 :=
  Ensures.ret fun _ _ _ hinv => ⟨0, hinv, h, rfl⟩

/-- A loop over the flags of a word is a fold over their positions. -/
theorem foldFor_bits {T : Type} {x : Word} {f : ℕ → T → Prog σ ι T} {F : T → ℕ → T} {init : T} {t : σ}
    (hf : ∀ i b t, i < popCount x →
      Ensures (still s) env (fun v _ a => v = F b (popOffset i x) ∧ a = 0) (f i b) t 0) :
    Ensures (still s) env (fun v _ a => v = (bits x).foldl F init ∧ a = 0)
      (foldFor 0 (popCount x) init f) t 0 := by
  let I (i : ℕ) (b : T) (_ : σ) (a : ℕ) : Prop := b = ((bits x).take i).foldl F init ∧ a = 0
  have hbody (i : ℕ) (b : T) (t : σ) (a : ℕ) (_ : 0 ≤ i) (hi : i < popCount x) (hI : I i b t a) :
      Ensures (still s) env (I (i + 1)) (f i b) t a := by
    obtain ⟨rfl, rfl⟩ := hI
    refine (hf i _ t hi).mono ?_
    rintro v _ a ⟨rfl, rfl⟩
    rw [popCount_eq_length] at hi
    refine ⟨?_, rfl⟩
    rw [List.take_succ_eq_append_getElem hi, List.foldl_append, popOffset_eq_getD,
      List.getD_eq_getElem _ _ hi]
    rfl
  have hloop : Ensures (still s) env (I (popCount x)) (foldFor 0 (popCount x) init f) t 0 :=
    Ensures.foldFor (Nat.zero_le _) (fun _ _ _ _ _ h => h) ⟨rfl, rfl⟩ hbody
  refine hloop.mono ?_
  rintro v _ a ⟨rfl, rfl⟩
  rw [popCount_eq_length, List.take_length]
  exact ⟨rfl, rfl⟩

/-- A parallel loop over the flags of a word collects one result for each position. -/
theorem parallelCollect_bits {T : Type} {x : Word} {f : ℕ → Prog σ ι T} {F : ℕ → T} {t : σ}
    (hf : ∀ i, i < popCount x →
      Ensures (still s) env (fun v _ a => v = F (popOffset i x) ∧ a = 0) (f i) t 0) :
    Ensures (still s) env (fun vs _ a => vs = (bits x).map F ∧ a = 0)
      (parallelCollect 0 (popCount x) f) t 0 := by
  have hloop := Ensures.parallelCollect (s := t) (fun _ => 0) (fun i => F (popOffset i x))
    fun i (_ : 0 ≤ i) hi => hf i hi
  rw [Finset.sum_const_zero] at hloop
  refine hloop.mono ?_
  rintro vs _ a ⟨rfl, rfl⟩
  rw [← map_popOffset_range, List.map_map, List.range_eq_range', Nat.sub_zero]
  exact ⟨rfl, rfl⟩

end Reading

/-- The flags of a leaf word name the elements below it. -/
theorem Represents.below_leaf {t : IndexSet} (h : Represents n t S) (w : ℕ) :
    below S 1 w = (bits (t.load 0 w)).map fun o => 64 * w + o := by
  rw [h.below_word (numLayers_pos n), ← List.flatMap_singleton' (List.map _ _), List.flatMap_map]
  refine List.flatMap_congr fun o ho => ?_
  obtain ⟨_, i, hi, hio⟩ := (h.mem_bits_load (numLayers_pos n) w o).mp ho
  rw [pow_zero, Nat.div_one] at hio
  rw [below_zero, if_pos (hio ▸ hi)]

section Reduce

variable {T : Type} [Monoid T]

/-- A product over a list. -/
theorem foldl_mul (f : ℕ → T) (b : T) (l : List ℕ) :
    l.foldl (fun x i => x * f i) b = b * (l.map f).prod := by
  induction l generalizing b with
  | nil => simp
  | cons i l ih => rw [List.foldl_cons, ih, List.map_cons, List.prod_cons, mul_assoc]

/-- A product over a list of lists. -/
theorem prod_map_flatMap (f : ℕ → T) (g : ℕ → List ℕ) (l : List ℕ) :
    ((l.flatMap g).map f).prod = (l.map fun o => ((g o).map f).prod).prod := by
  induction l with
  | nil => rfl
  | cons o l ih =>
    rw [List.flatMap_cons, List.map_append, List.prod_append, ih, List.map_cons, List.prod_cons]

/-- `reduce` at a node combines the values of the elements below it, in ascending order. -/
theorem reduceAt_ensures (h : Represents n (ℓ.get s) S) {f : ℕ → Prog σ ι T} {g : ℕ → T}
    (hf : ∀ i t, Ensures (still s) env (fun v _ a => v = g i ∧ a = 0) (f i) t 0)
    {L : ℕ} (hL : L < numLayers n) (w : ℕ) (t : σ) :
    Ensures (still s) env (fun v _ a => v = ((below S (L + 1) w).map g).prod ∧ a = 0)
      (reduceAt ℓ (· * ·) 1 f L (w * 64 ^ (L + 1))) t 0 := by
  -- The fold over one leaf word, from any accumulator.
  have hleaf (v : ℕ) (b : T) (t : σ) : Ensures (still s) env
      (fun x _ a => x = b * ((below S 1 v).map g).prod ∧ a = 0)
      (foldFor 0 (popCount ((ℓ.get s).load 0 v)) b fun i aggregate =>
        f (64 * v + popOffset i ((ℓ.get s).load 0 v)) >>= fun x => ret (aggregate * x)) t 0 := by
    refine (foldFor_bits (F := fun x o => x * g (64 * v + o)) fun i b t _ => ?_).mono ?_
    · refine (hf _ t).bind ?_
      rintro x t a ⟨rfl, rfl⟩
      exact still_ret rfl
    · rintro x _ a ⟨rfl, rfl⟩
      rw [foldl_mul fun o => g (64 * v + o), h.below_leaf, List.map_map]
      exact ⟨rfl, rfl⟩
  induction L using Nat.strong_induction_on generalizing w t with
  | _ L ih =>
    match L with
    | 0 =>
      unfold reduceAt
      rw [wordId_node]
      refine still_read ?_
      simp only [leaf_index]
      exact (hleaf w 1 s).mono fun x _ a hx => by rwa [one_mul] at hx
    | 1 =>
      unfold reduceAt
      rw [wordId_node]
      refine still_read ?_
      refine (foldFor_bits (F := fun x o => x * ((below S 1 (64 * w + o)).map g).prod)
        fun i b t _ => ?_).mono ?_
      · dsimp only
        rw [child_index]
        have hword (v : ℕ) : wordId 0 (v * 64 ^ 1) = v := wordId_node 0 v
        rw [hword]
        refine still_read ?_
        have hindex (v o : ℕ) : v * 64 ^ 1 + offsetIndex 0 o = 64 * v + o := by
          rw [offsetIndex_eq]
          ring
        simp only [hindex]
        exact hleaf _ b s
      · rintro x _ a ⟨rfl, rfl⟩
        rw [foldl_mul fun o => ((below S 1 (64 * w + o)).map g).prod, one_mul, h.below_word hL,
          prod_map_flatMap]
        exact ⟨rfl, rfl⟩
    | L + 2 =>
      unfold reduceAt
      rw [wordId_node]
      refine still_read ?_
      refine (parallelCollect_bits (F := fun o => ((below S (L + 2) (64 * w + o)).map g).prod)
        fun i _ => ?_).bind ?_
      · rw [child_index]
        exact ih (L + 1) (by omega) (by omega) _ _
      · rintro _ t a ⟨rfl, rfl⟩
        refine still_ret ?_
        rw [h.below_word hL, prod_map_flatMap, List.prod_eq_foldl]
        rfl

/-- `reduce` is the left fold over the elements in ascending order. -/
theorem reduce_total (h : Represents n (ℓ.get s) S) {f : ℕ → Prog σ ι T} {g : ℕ → T}
    (hf : ∀ i t, Ensures (still s) env (fun v _ a => v = g i ∧ a = 0) (f i) t 0) :
    Total env (fun v s' => s' = s ∧ v = ((S.sort (· ≤ ·)).map g).foldl (· * ·) 1)
      (reduce ℓ (· * ·) 1 f) s := by
  have hpos := numLayers_pos n
  unfold reduce
  refine (empty_total h).bind ?_
  rintro _ s' ⟨hs', rfl⟩
  rw [hs']
  split
  · next hempty =>
    rw [decide_eq_true_eq] at hempty
    subst hempty
    exact Total.ret ⟨rfl, by simp⟩
  · refine Total.read ?_
    have hnode := reduceAt_ensures h hf (show numLayers n - 1 < numLayers n by omega) 0 s
    rw [zero_mul, Nat.sub_add_cancel hpos, h.below_root, List.prod_eq_foldl] at hnode
    rw [h.size]
    refine (hnode.total rfl).mono ?_
    rintro v s' ⟨_, _, rfl, hv, _⟩
    exact ⟨rfl, hv⟩

end Reduce

section NumElements

/-- A sum over a list. -/
theorem foldl_add (f : ℕ → ℕ) (b : ℕ) (l : List ℕ) :
    l.foldl (fun x i => x + f i) b = b + (l.map f).sum := by
  induction l generalizing b with
  | nil => simp
  | cons i l ih => rw [List.foldl_cons, ih, List.map_cons, List.sum_cons, add_assoc]

/-- The number of elements below a leaf node. -/
theorem Represents.length_below_leaf {t : IndexSet} (h : Represents n t S) (w : ℕ) :
    (below S 1 w).length = popCount (t.load 0 w) := by
  rw [h.below_leaf, List.length_map, popCount_eq_length]

/-- `num_elements` at a node counts the elements below it. -/
theorem numElementsAt_ensures (h : Represents n (ℓ.get s) S) {L : ℕ} (hL : L < numLayers n)
    (w : ℕ) (t : σ) :
    Ensures (still s) env (fun v _ a => v = (below S (L + 1) w).length ∧ a = 0)
      (numElementsAt ℓ L (w * 64 ^ (L + 1))) t 0 := by
  -- The loop over the leaf words below a word of layer 1, from any accumulator.
  have hmiddle (h1 : 1 < numLayers n) (v : ℕ) (b : ℕ) (t : σ) : Ensures (still s) env
      (fun x _ a => x = b + (below S 2 v).length ∧ a = 0)
      (foldFor 0 (popCount ((ℓ.get s).load 1 v)) b fun i aggregate => do
        let leaf ← atomicRead
          (word ℓ 0 (wordId 0 (v * 64 ^ 2 + offsetIndex 1 (popOffset i ((ℓ.get s).load 1 v)))))
        ret (aggregate + popCount leaf)) t 0 := by
    refine (foldFor_bits (F := fun x o => x + (below S 1 (64 * v + o)).length)
      fun i b t _ => ?_).mono ?_
    · have hword (v : ℕ) : wordId 0 (v * 64 ^ 1) = v := wordId_node 0 v
      rw [child_index, hword]
      refine still_read (still_ret ?_)
      rw [h.length_below_leaf]
      rfl
    · rintro x _ a ⟨rfl, rfl⟩
      rw [foldl_add fun o => (below S 1 (64 * v + o)).length, h.below_word h1, List.length_flatMap]
      exact ⟨rfl, rfl⟩
  induction L using Nat.strong_induction_on generalizing w t with
  | _ L ih =>
    match L with
    | 0 =>
      unfold numElementsAt
      rw [wordId_node]
      refine still_read (still_ret ?_)
      rw [h.length_below_leaf]
      rfl
    | 1 =>
      unfold numElementsAt
      rw [wordId_node]
      refine still_read ?_
      exact (hmiddle hL w 0 s).mono fun x _ a hx => by rwa [zero_add] at hx
    | 2 =>
      unfold numElementsAt
      rw [wordId_node]
      refine still_read ?_
      refine (foldFor_bits (F := fun x o => x + (below S 2 (64 * w + o)).length)
        fun i b t _ => ?_).mono ?_
      · have hword (v : ℕ) : wordId 1 (v * 64 ^ 2) = v := wordId_node 1 v
        dsimp only
        rw [child_index, hword]
        refine still_read ?_
        exact hmiddle (by omega) _ b s
      · rintro x _ a ⟨rfl, rfl⟩
        rw [foldl_add fun o => (below S 2 (64 * w + o)).length, zero_add, h.below_word hL,
          List.length_flatMap]
        exact ⟨rfl, rfl⟩
    | L + 3 =>
      unfold numElementsAt
      rw [wordId_node]
      refine still_read ?_
      refine (parallelCollect_bits (F := fun o => (below S (L + 3) (64 * w + o)).length)
        fun i _ => ?_).bind ?_
      · rw [child_index]
        exact ih (L + 2) (by omega) (by omega) _ _
      · rintro _ t a ⟨rfl, rfl⟩
        refine still_ret ?_
        rw [h.below_word hL, List.length_flatMap, List.sum_eq_foldl]
        rfl

/-- `num_elements` counts the set. -/
theorem numElements_total (h : Represents n (ℓ.get s) S) :
    Total env (fun v s' => s' = s ∧ v = S.card) (numElements ℓ) s := by
  have hpos := numLayers_pos n
  unfold numElements
  refine (empty_total h).bind ?_
  rintro _ s' ⟨hs', rfl⟩
  rw [hs']
  split
  · next hempty =>
    rw [decide_eq_true_eq] at hempty
    subst hempty
    exact Total.ret ⟨rfl, rfl⟩
  · refine Total.read ?_
    have hnode : Ensures (still s) env _ _ _ _ :=
      numElementsAt_ensures h (show numLayers n - 1 < numLayers n by omega) 0 s
    rw [zero_mul, Nat.sub_add_cancel hpos, h.below_root, Finset.length_sort] at hnode
    rw [h.size]
    refine (hnode.total rfl).mono ?_
    rintro v s' ⟨_, _, rfl, hv, _⟩
    exact ⟨rfl, hv⟩

end NumElements

section Sample

/-- A flag drawn from a nonzero word is set. -/
theorem popOffset_mod_mem {x : Word} (hx : x ≠ 0) (dice : ℕ) :
    popOffset (dice % popCount x) x ∈ bits x := by
  refine popOffset_mem_bits (Nat.mod_lt _ ?_)
  rw [popCount_eq_length, List.length_pos_iff, Ne, bits_eq_nil_iff]
  exact hx

/-- From a nonzero word, the descent of `sample` ends at an element. -/
theorem sampleAt_total (h : Represents n (ℓ.get s) S) {L : ℕ} (hL : L < numLayers n) {w : ℕ}
    (hw : (ℓ.get s).load L w ≠ 0) (dice : Word) :
    Total env (fun v s' => s' = s ∧ v.1 ∈ S) (sampleAt ℓ dice L (w * 64 ^ (L + 1))) s := by
  induction L generalizing w dice with
  | zero =>
    unfold sampleAt
    rw [wordId_node]
    refine Total.read (Total.ret ⟨rfl, ?_⟩)
    have hmem := popOffset_mod_mem hw (rollDice dice).toNat
    obtain ⟨_, i, hi, hio⟩ := (h.mem_bits_load hL w _).mp hmem
    have hleaf : i = 64 * w + popOffset ((rollDice dice).toNat % popCount ((ℓ.get s).load 0 w))
        ((ℓ.get s).load 0 w) := by simpa using hio
    rw [child_index, pow_zero, mul_one]
    rw [hleaf] at hi
    exact hi
  | succ L ih =>
    unfold sampleAt
    rw [wordId_node]
    refine Total.read ?_
    have hmem := popOffset_mod_mem hw (rollDice dice).toNat
    obtain ⟨_, i, hi, hio⟩ := (h.mem_bits_load hL w _).mp hmem
    simp only [child_index]
    exact ih (by omega) ((h.load_ne_zero (by omega) _).mpr ⟨i, hi, hio⟩) _

/-- `sample` returns an element, or the largest word if there is none. -/
theorem sample_total (h : Represents n (ℓ.get s) S) (dice : Word) :
    Total env (fun v s' => s' = s ∧ if S = ∅ then v.1 = 2 ^ 64 - 1 else v.1 ∈ S)
      (sample ℓ dice) s := by
  have hpos := numLayers_pos n
  unfold sample
  refine (empty_total h).bind ?_
  rintro _ s' ⟨hs', rfl⟩
  rw [hs']
  by_cases hempty : S = ∅
  · rw [decide_eq_true hempty, if_pos rfl]
    exact Total.ret ⟨rfl, by rw [if_pos hempty]⟩
  · rw [decide_eq_false hempty, if_neg Bool.false_ne_true]
    refine Total.read ?_
    rw [h.size]
    have hroot : (ℓ.get s).load (numLayers n - 1) 0 ≠ 0 := fun h0 => hempty (h.root_eq_zero.mp h0)
    have hnode : Total env _ _ _ :=
      sampleAt_total h (show numLayers n - 1 < numLayers n by omega) hroot dice
    rw [zero_mul] at hnode
    simpa only [if_neg hempty] using hnode

end Sample

end IndexSet

end ToggleTree
