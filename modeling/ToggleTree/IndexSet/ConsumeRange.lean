import ToggleTree.IndexSet.Removal

/-!
# Traversing a range

The mask of a node keeps the flags of the children that overlap `[l, r)`, so a traversal of a
range is a traversal of the elements in it. `consume_range` removes an index right after calling
its function, while other branches still read words.
-/

namespace ToggleTree

open ForkJoin ForkJoin.Prog

namespace IndexSet

variable {σ ι : Type} {env : ι → Prog σ ι Unit} {n l r : ℕ} {S : Finset ℕ} {s : IndexSet}

section Mask

/-- Some index below node `(K, v)` is in `[l, r)`. -/
def Overlaps (l r K v : ℕ) : Prop := l < (v + 1) * 64 ^ K ∧ v * 64 ^ K < r

/-- A node over an index of the range overlaps it. -/
theorem overlaps_of_mem {i : ℕ} (hl : l ≤ i) (hr : i < r) (K : ℕ) : Overlaps l r K (i / 64 ^ K) :=
  ⟨hl.trans_lt (Nat.lt_mul_of_div_lt (Nat.lt_succ_self _) (by positivity)),
    (Nat.div_mul_le_self i _).trans_lt hr⟩

/-- The bits of a word of ones shifted to the left. -/
theorem getLsbD_shl_allOnes {c o : ℕ} (hc : c < 64) (ho : o < 64) :
    (shl (BitVec.allOnes 64) c).getLsbD o = decide (c ≤ o) := by
  rw [shl, Nat.mod_eq_of_lt hc, BitVec.getLsbD_shiftLeft, BitVec.getLsbD_allOnes]
  simp only [ho, decide_true, Bool.true_and]
  by_cases h : c ≤ o
  · simp [h, show o - c < 64 by omega]
  · simp [h, show o < c by omega]

/-- The bits of a word of ones shifted to the right. -/
theorem getLsbD_shr_allOnes {c : ℕ} (hc : c < 64) (o : ℕ) :
    (shr (BitVec.allOnes 64) c).getLsbD o = decide (o + c < 64) := by
  rw [shr, Nat.mod_eq_of_lt hc, BitVec.getLsbD_ushiftRight, BitVec.getLsbD_allOnes, add_comm]

section Shifts

variable {L w : ℕ}

/-- At a node that ends after `l`, the flags below `l` are fewer than a word. -/
theorem lowShift_lt (hl : l < (w + 1) * 64 ^ (L + 1)) : lowShift L (w * 64 ^ (L + 1)) l < 64 := by
  have hend : (w + 1) * 64 ^ (L + 1) = w * 64 ^ (L + 1) + 64 * 64 ^ L := by ring
  rw [lowShift, offsetIndex_eq, one_mul]
  split
  · exact (Nat.div_lt_iff_lt_mul (by positivity)).mpr (by omega)
  · norm_num

/-- At a node that starts before `r`, the flags from `r` on are fewer than a word. -/
theorem highShift_lt (hr : w * 64 ^ (L + 1) < r) : highShift L (w * 64 ^ (L + 1)) r < 64 := by
  rw [highShift, offsetIndex_eq, offsetIndex_eq, one_mul]
  split
  · exact (Nat.div_lt_iff_lt_mul (by positivity)).mpr (by omega)
  · norm_num

/-- The flags that the shift at the left end keeps. -/
theorem lowShift_le {o : ℕ} :
    lowShift L (w * 64 ^ (L + 1)) l ≤ o ↔ l < (64 * w + o + 1) * 64 ^ L := by
  have hp : 0 < 64 ^ L := by positivity
  have hnext : (64 * w + o + 1) * 64 ^ L = w * 64 ^ (L + 1) + (o + 1) * 64 ^ L := by ring
  rw [lowShift, offsetIndex_eq, one_mul, hnext]
  split
  · rw [← Nat.lt_succ_iff, Nat.div_lt_iff_lt_mul hp, Nat.succ_eq_add_one]
    omega
  · have : 0 < (o + 1) * 64 ^ L := by positivity
    omega

/-- The flags that the shift at the right end keeps. -/
theorem add_highShift_lt {o : ℕ} (ho : o < 64) :
    o + highShift L (w * 64 ^ (L + 1)) r < 64 ↔ (64 * w + o) * 64 ^ L < r := by
  obtain ⟨d, hd⟩ := Nat.exists_eq_add_of_lt ho
  have hchild : (64 * w + o) * 64 ^ L = w * 64 ^ (L + 1) + o * 64 ^ L := by ring
  have hsum : 64 * 64 ^ L = o * 64 ^ L + (d + 1) * 64 ^ L := by rw [← add_mul, ← add_assoc, ← hd]
  rw [highShift, offsetIndex_eq, offsetIndex_eq, one_mul, hchild]
  split
  · rw [show ∀ x, o + x < 64 ↔ x < d + 1 by omega, Nat.div_lt_iff_lt_mul (by positivity)]
    omega
  · have : 0 < (d + 1) * 64 ^ L := by positivity
    omega

end Shifts

/-- At a node that overlaps the range, the mask keeps the children that do. -/
theorem getLsbD_rangeMask {L w o : ℕ} (h : Overlaps l r (L + 1) w) (ho : o < 64) :
    (rangeMask L (w * 64 ^ (L + 1)) l r).getLsbD o = true ↔ Overlaps l r L (64 * w + o) := by
  rw [rangeMask, BitVec.getLsbD_and, getLsbD_shl_allOnes (lowShift_lt h.1) ho,
    getLsbD_shr_allOnes (highShift_lt h.2), Bool.and_eq_true, decide_eq_true_eq, decide_eq_true_eq,
    lowShift_le, add_highShift_lt ho, Overlaps]

/-- The masked flags are those whose nodes overlap the range. -/
theorem mem_bits_masked {L w o : ℕ} {x : Word} (h : Overlaps l r (L + 1) w) :
    o ∈ bits (x &&& rangeMask L (w * 64 ^ (L + 1)) l r) ↔
      o ∈ bits x ∧ Overlaps l r L (64 * w + o) := by
  rw [mem_bits, BitVec.getLsbD_and, Bool.and_eq_true, ← mem_bits]
  exact and_congr_right fun ho => getLsbD_rangeMask h (bits_lt ho)

end Mask

/-- The elements of `S` in `[l, r)`. -/
def inRange (S : Finset ℕ) (l r : ℕ) : Finset ℕ := S.filter fun i => l ≤ i ∧ i < r

/-- The elements in a range. -/
theorem mem_inRange {i : ℕ} : i ∈ inRange S l r ↔ i ∈ S ∧ l ≤ i ∧ i < r := Finset.mem_filter

/-- An empty set or range has no elements. -/
theorem inRange_eq_empty (h : S = ∅ ∨ r ≤ l) : inRange S l r = ∅ := by
  rcases h with rfl | hle
  · rfl
  · exact Finset.filter_false_of_mem fun i _ => by omega

/-- A node of the tree with an element below it that overlaps the range. -/
def AliveInRange (n : ℕ) (S : Finset ℕ) (l r K v : ℕ) : Prop := Alive n S K v ∧ Overlaps l r K v

/-- An element that the traversal has to reach is in the range. -/
theorem mem_inRange_of_alive {i : ℕ} (h : AliveInRange n S l r 0 i) : i ∈ inRange S l r := by
  obtain ⟨⟨_, j, hj, hji⟩, hl, hr⟩ := h
  rw [pow_zero, Nat.div_one] at hji
  rw [pow_zero, mul_one] at hl hr
  exact mem_inRange.mpr ⟨hji ▸ hj, by omega, hr⟩

/-- Every element of the range below a word is below a child that the mask keeps. -/
theorem mem_bits_masked_of_below (h : Represents n s S) {L w i : ℕ} (hL : L < numLayers n)
    (hover : Overlaps l r (L + 1) w) (hi : i ∈ inRange S l r) (hw : i / 64 ^ (L + 1) = w) :
    i / 64 ^ L % 64 ∈ bits (s.load L w &&& rangeMask L (w * 64 ^ (L + 1)) l r) := by
  obtain ⟨hiS, hli, hir⟩ := mem_inRange.mp hi
  refine (mem_bits_masked hover).mpr ⟨mem_bits_of_below h hL hiS hw, ?_⟩
  rw [← hw, div_pow_succ, Nat.div_add_mod]
  exact overlaps_of_mem hli hir L

section Traversal

variable (V : Logs σ) {f : ℕ → Prog σ ι Unit} {consume : Bool}

/-- A traversal of a range keeps the protocol if its calls do. -/
theorem forRangeAt_removing (h : Represents n s S) (hl : l < n)
    (hcall : ∀ i ∈ inRange S l r, ∀ st, Ensures (removing V n s S (inRange S l r)) env
      (fun _ _ a => a = 0) (f i >>= fun _ => if consume then do let _ ← remove V.set i else return ()) st
      ({(0, i)}, 0, 0))
    (st : σ) :
    Ensures (removing V n s S (inRange S l r)) env (fun _ _ a => a = 0)
      (do
        let isEmpty ← empty V.set
        if isEmpty = true ∨ l ≥ r then return ()
        else do
          let size ← layers V.set
          forRangeAt V.set consume l r f (size - 1) 0) st ({(numLayers n, 0)}, 0, 0) := by
  have hpos := numLayers_pos n
  refine (empty_removing V h st).bind ?_
  rintro _ st' _ ⟨rfl, rfl⟩
  by_cases hskip : S = ∅ ∨ r ≤ l
  · rw [if_pos (by simpa using hskip)]
    exact skip_removing V (inRange_eq_empty hskip)
  · rw [if_neg (by simpa using hskip)]
    push Not at hskip
    refine Ensures.read fun st'' o _ hinv => ?_
    have hover : Overlaps l r (numLayers n) 0 := by
      have hzero : l / 64 ^ numLayers n = 0 := div_numLayers hl
      have := overlaps_of_mem (le_refl l) hskip.2 (numLayers n)
      rwa [hzero] at this
    have htraverse : Ensures (removing V n s S (inRange S l r)) env (fun _ _ a => a = 0)
        (forRangeAt V.set consume l r f (numLayers n - 1) (0 * 64 ^ (numLayers n - 1 + 1)))
        st'' ({(numLayers n - 1 + 1, 0)}, 0, 0) := by
      refine forRangeAt_ensures (fun K v => ({(K, v)}, 0, 0)) (AliveInRange n S l r)
        (fun L w st hgood => ?_) (fun i st hgood => hcall i (mem_inRange_of_alive hgood) st) _ _ _ ?_
      · refine (read_removing V h hgood.1.1
          (fun i hi hiw => mem_bits_masked_of_below h hgood.1.1 hgood.2 hi hiw) st).mono ?_
        rintro _ _ _ ⟨rfl, rfl⟩
        refine ⟨fun o ho => ?_, children_tokens _ _ _⟩
        obtain ⟨ho, hover⟩ := (mem_bits_masked hgood.2).mp ho
        exact ⟨alive_child h hgood.1.1 ho, hover⟩
      · rw [Nat.sub_add_cancel hpos]
        exact ⟨alive_root h hskip.1, hover⟩
    rw [zero_mul, Nat.sub_add_cancel hpos] at htraverse
    rw [hinv.settling.size]
    exact htraverse

end Traversal

/-- The log of calls of `record` is also the log of what `consume_range` removes. -/
def consumeLogs : Logs (IndexSet × List ℕ) where
  set := Loc.fst
  calls := Prod.snd
  gone := Prod.snd
  get_put _ _ := rfl
  calls_put _ _ := rfl
  gone_put _ _ := rfl

variable {env : ι → Prog (IndexSet × List ℕ) ι Unit}

/-- Calling the function on an index of the range and removing it. -/
theorem record_removing {T : Finset ℕ} {i : ℕ} (hi : i ∈ T) (st : IndexSet × List ℕ) :
    Ensures (removing consumeLogs n s S T) env (fun _ _ a => a = 0)
      (record i >>= fun _ => if true then do let _ ← remove Loc.fst i else return ()) st
      ({(0, i)}, 0, 0) := by
  refine Ensures.modify fun st' o _ hinv => ⟨(0, {i}, 0), ?_, ?_, ?_⟩
  · exact ⟨List.subset_append_left _ _, List.subset_append_left _ _⟩
  · have hcalled : RemovalInv n s S T st'.1 (st'.2 ++ [i]) st'.2 (o.1, 0 + o.2.1, 0 + o.2.2) :=
      RemovalInv.call hinv hi
    rw [zero_add o.2.1] at hcalled
    change RemovalInv n s S T st'.1 (st'.2 ++ [i]) (st'.2 ++ [i]) (0 + o.1, {i} + o.2.1, 0 + o.2.2)
    rw [zero_add o.1]
    exact hcalled.decide (by simp)
  · rw [if_pos rfl]
    have hgone : i ∈ consumeLogs.gone (st'.1, st'.2 ++ [i]) := by simp [consumeLogs]
    refine (remove_removing consumeLogs hgone).bind ?_
    rintro _ st'' _ rfl
    exact Ensures.ret fun _ _ _ hinv => ⟨0, hinv, rfl⟩

/-- `consume_range` calls its function once for each element of the range and removes it. -/
theorem consumeRange_total (h : Represents n s S) (hl : l < n) :
    Total env (fun _ st => Represents n st.1 (S \ inRange S l r) ∧
        st.2.Perm ((inRange S l r).sort (· ≤ ·)))
      (consumeRange Loc.fst l r record) (s, []) := by
  have hremoving : Ensures (removing consumeLogs n s S (inRange S l r)) env (fun _ _ a => a = 0)
      (consumeRange Loc.fst l r record) (s, []) ({(numLayers n, 0)}, 0, 0) :=
    forRangeAt_removing consumeLogs h hl (fun i hi st => record_removing hi st) _
  refine (total_removing consumeLogs h (fun i hi => (mem_inRange.mp hi).1) hremoving rfl rfl rfl).mono ?_
  rintro _ st ⟨hset, hcalls⟩
  have hgone : (consumeLogs.gone st).toFinset = inRange S l r := toFinset_of_perm_sort hcalls
  exact ⟨by rwa [hgone] at hset, hcalls⟩

end IndexSet

end ToggleTree
