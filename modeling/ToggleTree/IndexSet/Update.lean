import ToggleTree.ForkJoin.Logic
import ToggleTree.IndexSet.Settling

/-!
# Insert and remove, run alone

An update that runs without interference adds or removes its index, leaves the layers in
agreement and returns whether the set changed.
-/

namespace ToggleTree

open ForkJoin ForkJoin.Prog

namespace IndexSet

/-- Adding a clear flag is setting it. -/
theorem store_add_flag {s : IndexSet} {L j : ℕ} (h : s.bit L j = false) :
    s.store L (j / 64) (s.load L (j / 64) + flag (j % 64)) = s.setBit L j := by
  rw [setBit, add_flag (Nat.mod_lt _ (by norm_num)) h]

/-- Subtracting a set flag is clearing it. -/
theorem store_sub_flag {s : IndexSet} {L j : ℕ} (h : s.bit L j = true) :
    s.store L (j / 64) (s.load L (j / 64) - flag (j % 64)) = s.clearBit L j := by
  rw [clearBit, sub_flag (Nat.mod_lt _ (by norm_num)) h]

/-- Writing back what was read changes nothing. -/
theorem store_load (s : IndexSet) (L w : ℕ) : s.store L w (s.load L w) = s := by
  obtain ⟨a⟩ := s
  simp only [store, load, IndexSet.mk.injEq]
  refine Array.ext (by simp) fun K h₁ h₂ => ?_
  rw [Array.getElem_modify]
  split
  · next hK =>
    subst hK
    refine Array.ext (by simp) fun v h₃ h₄ => ?_
    rw [Array.getElem_setIfInBounds (by simpa using h₃)]
    split
    · next hv =>
      subst hv
      simp [Array.getD_eq_getD_getElem?, h₄]
    · rfl
  · rfl

/-- Clearing a bit that is clear changes nothing. -/
theorem clearBit_of_clear {s : IndexSet} {L j : ℕ} (h : s.bit L j = false) : s.clearBit L j = s := by
  have hsame : s.load L (j / 64) &&& ~~~flag (j % 64) = s.load L (j / 64) := by
    refine BitVec.eq_of_getLsbD_eq fun i _ => ?_
    rw [getLsbD_and_not_flag (Nat.mod_lt _ (by norm_num))]
    by_cases hi : i = j % 64
    · subst hi
      rw [show (s.load L (j / 64)).getLsbD (j % 64) = false from h, Bool.false_and]
    · simp [hi]
  rw [clearBit, hsame, store_load]

variable {σ ι : Type} {env : ι → Prog σ ι Unit} {ℓ : Loc σ IndexSet} {n : ℕ}

/-- What an update at layer `L` for index `i` still owes when it gets there. -/
def debt (n L i : ℕ) : Multiset (ℕ × ℕ) := if L < numLayers n then {(L, i / 64 ^ L)} else 0

/-- What is handed over is what is owed. -/
theorem handOver_eq_debt (n L i : ℕ) (changed : Prop) [Decidable changed] :
    handOver n L (i / 64 ^ L) changed = if changed then debt n (L + 1) i else 0 := by
  unfold handOver debt
  rw [div_pow_succ]
  by_cases h : changed <;> by_cases hL : L + 1 < numLayers n <;> simp [h, hL]

/-- The loop of `insert` pays what it owes, layer by layer. -/
theorem insertUp_total (hℓ : ℓ.Lawful) {s : σ} {L i : ℕ} (hi : i < n)
    (h : Settling true n (ℓ.get s) (debt n (L + 1) i)) :
    Total env (fun b s' => b = true ∧ ∃ t, s' = ℓ.put t s ∧ Settling true n t 0 ∧
      ∀ k, t.bit 0 k = (ℓ.get s).bit 0 k) (insertUp ℓ i (numLayers n) (L + 1)) s := by
  induction hn : numLayers n - L generalizing L s with
  | zero =>
    unfold insertUp
    rw [if_neg (by omega)]
    rw [debt, if_neg (by omega)] at h
    exact Total.ret ⟨rfl, ℓ.get s, (hℓ.put_get s).symm, h, fun _ => rfl⟩
  | succ d ih =>
    unfold insertUp
    split
    · next hL =>
      rw [debt, if_pos hL, ← add_zero {(L + 1, i / 64 ^ (L + 1))}] at h
      obtain ⟨_, _, hclear⟩ := h.of_owed (show (L + 1, i / 64 ^ (L + 1)) ∈ _ by simp)
      have hnext := h.raise (div_lt_layerLength hi (L + 1))
      have hin : i / 64 ^ (L + 1) / 64 < (ℓ.get s).width (L + 1) :=
        h.inBounds hL (div_lt_layerLength hi (L + 1))
      have hleaf (k : ℕ) : ((ℓ.get s).setBit (L + 1) (i / 64 ^ (L + 1))).bit 0 k = (ℓ.get s).bit 0 k := by
        rw [bit_setBit hin]
        simp
      rw [handOver_eq_debt] at hnext
      refine Total.act ?_
      simp only [word, wordId_eq, wordOffset_eq, store_add_flag hclear]
      split
      · next hz =>
        rw [if_neg hz, add_zero] at hnext
        exact Total.ret ⟨rfl, _, rfl, hnext, hleaf⟩
      · next hz =>
        rw [if_pos (not_not.mp hz), zero_add] at hnext
        refine (ih (s := ℓ.put _ s) (by rwa [hℓ.get_put]) (by omega)).mono ?_
        rintro b _ ⟨rfl, t, rfl, ht, hbit⟩
        refine ⟨rfl, t, hℓ.put_put _ _ _, ht, fun k => ?_⟩
        rw [hbit, hℓ.get_put, hleaf]
    · next hL =>
      rw [debt, if_neg hL] at h
      exact Total.ret ⟨rfl, ℓ.get s, (hℓ.put_get s).symm, h, fun _ => rfl⟩

/-- `insert` adds its index and tells whether it was absent. -/
theorem insert_total (hℓ : ℓ.Lawful) {s : σ} {S : Finset ℕ} {i : ℕ} (hi : i < n)
    (h : Represents n (ℓ.get s) S) :
    Total env (fun b s' => b = decide (i ∉ S) ∧ ∃ t, s' = ℓ.put t s ∧ Represents n t (Insert.insert i S))
      (insert ℓ i) s := by
  have hmod : i % 64 < 64 := Nat.mod_lt _ (by norm_num)
  have hin : i / 64 < (ℓ.get s).width 0 := h.inBounds (numLayers_pos n) hi
  have hset := (h.settling true).setLeaf hi
  have hleaf (k : ℕ) : ((ℓ.get s).setBit 0 i).bit 0 k = true ↔ k ∈ Insert.insert i S := by
    rw [bit_setBit hin, Bool.or_eq_true, h.leaf, Finset.mem_insert]
    simp [or_comm]
  have hdebt := handOver_eq_debt n 0 i ((ℓ.get s).load 0 (i / 64) = 0)
  rw [pow_zero, Nat.div_one, zero_add] at hdebt
  rw [hdebt, zero_add] at hset
  unfold insert
  refine Total.act ?_
  simp only [word, wordId_eq, wordOffset_eq, pow_zero, Nat.div_one]
  change Total env _ (if (ℓ.get s).load 0 (i / 64) ≠ 0 then _ else _)
    (ℓ.put ((ℓ.get s).setBit 0 i) s)
  split
  · next hz =>
    rw [if_neg hz] at hset
    refine Total.ret ⟨?_, _, rfl, hset.represents hleaf⟩
    rw [decide_eq_decide, and_flag_eq_zero_iff hmod, ← h.leaf, Bool.not_eq_true]
    rfl
  · next hz =>
    rw [if_pos (not_not.mp hz)] at hset
    refine Total.read ?_
    have hsize : (ℓ.get (ℓ.put ((ℓ.get s).setBit 0 i) s)).toggle.size = numLayers n := by
      rw [hℓ.get_put, setBit, size_store, h.size]
    rw [hsize]
    refine (insertUp_total hℓ hi (by rwa [hℓ.get_put])).mono ?_
    rintro b _ ⟨rfl, t, rfl, ht, hbit⟩
    refine ⟨?_, t, hℓ.put_put _ _ _, ht.represents fun k => ?_⟩
    · have : i ∉ S := by
        rw [← h.leaf]
        intro hb
        exact (load_ne_zero_iff _ _ _).mpr ⟨i, rfl, hb⟩ (not_not.mp hz)
      simp [this]
    · rw [hbit, hℓ.get_put, hleaf]

section Rules

variable {M : Type} [AddCommMonoid M] {P : Protocol σ M}

/-- The loop of `insert` among other branches, in any protocol in which `owes` stands for the flags
that are to be set. -/
theorem insertUp_ensures (owes : Multiset (ℕ × ℕ) → M) (howes : owes 0 = 0) {i : ℕ}
    (hraise : ∀ L st o, L + 1 < numLayers n → P.inv st (owes {(L + 1, i / 64 ^ (L + 1))} + o) →
      (ℓ.get st).bit (L + 1) (i / 64 ^ (L + 1)) = false ∧
        P.rel st (ℓ.put ((ℓ.get st).setBit (L + 1) (i / 64 ^ (L + 1))) st) ∧
        P.inv (ℓ.put ((ℓ.get st).setBit (L + 1) (i / 64 ^ (L + 1))) st)
          (owes (handOver n (L + 1) (i / 64 ^ (L + 1))
            ((ℓ.get st).load (L + 1) (i / 64 ^ (L + 1) / 64) = 0)) + o))
    {L : ℕ} (st : σ) :
    Ensures P env (fun _ _ a => a = 0) (insertUp ℓ i (numLayers n) (L + 1)) st (owes (debt n (L + 1) i)) := by
  have hdone {b : Bool} (st : σ) : Ensures P env (fun _ _ a => a = 0) (ret b) st (owes 0) := by
    rw [howes]
    exact Ensures.ret fun _ _ _ hinv => ⟨0, hinv, rfl⟩
  induction hn : numLayers n - L generalizing L st with
  | zero =>
    unfold insertUp
    rw [if_neg (by omega), debt, if_neg (by omega)]
    exact hdone st
  | succ d ih =>
    unfold insertUp
    split
    · next hL =>
      rw [debt, if_pos hL]
      refine Ensures.act fun st' o _ hinv => ?_
      obtain ⟨hclear, hrel, hnext⟩ := hraise L st' o hL hinv
      simp only [word, wordId_eq, wordOffset_eq, store_add_flag hclear]
      refine ⟨_, hrel, hnext, ?_⟩
      rw [handOver_eq_debt]
      split
      · exact hdone _
      · next hz =>
        rw [if_pos (not_not.mp hz)]
        exact ih _ (by omega)
    · next hL =>
      rw [debt, if_neg hL]
      exact hdone st

/-- `insert` among other branches: its first step turns `start` into the flag it owes. -/
theorem insert_ensures (owes : Multiset (ℕ × ℕ) → M) (howes : owes 0 = 0) {i : ℕ} {start : M} {st : σ}
    (hsize : ∀ st a, P.inv st a → (ℓ.get st).toggle.size = numLayers n)
    (hleaf : ∀ st' o, P.rel st st' → P.inv st' (start + o) → P.rel st' (ℓ.put ((ℓ.get st').setBit 0 i) st') ∧
      P.inv (ℓ.put ((ℓ.get st').setBit 0 i) st') (owes (handOver n 0 i ((ℓ.get st').load 0 (i / 64) = 0)) + o))
    (hraise : ∀ L st o, L + 1 < numLayers n → P.inv st (owes {(L + 1, i / 64 ^ (L + 1))} + o) →
      (ℓ.get st).bit (L + 1) (i / 64 ^ (L + 1)) = false ∧
        P.rel st (ℓ.put ((ℓ.get st).setBit (L + 1) (i / 64 ^ (L + 1))) st) ∧
        P.inv (ℓ.put ((ℓ.get st).setBit (L + 1) (i / 64 ^ (L + 1))) st)
          (owes (handOver n (L + 1) (i / 64 ^ (L + 1))
            ((ℓ.get st).load (L + 1) (i / 64 ^ (L + 1) / 64) = 0)) + o)) :
    Ensures P env (fun _ _ a => a = 0) (insert ℓ i) st start := by
  unfold insert
  refine Ensures.act fun st' o hrel hinv => ?_
  obtain ⟨hrel', hnext⟩ := hleaf st' o hrel hinv
  have hdebt := handOver_eq_debt n 0 i ((ℓ.get st').load 0 (i / 64) = 0)
  rw [pow_zero, Nat.div_one, zero_add] at hdebt
  simp only [word, wordId_eq, wordOffset_eq, pow_zero, Nat.div_one]
  refine ⟨_, hrel', hnext, ?_⟩
  rw [hdebt]
  split
  · rw [howes]
    exact Ensures.ret fun _ _ _ hinv => ⟨0, hinv, rfl⟩
  · next hz =>
    rw [if_pos (not_not.mp hz)]
    refine Ensures.read fun st'' o' _ hinv'' => ?_
    rw [hsize st'' _ hinv'']
    exact insertUp_ensures owes howes hraise st''

end Rules

/-- The loop of `remove` pays what it owes, layer by layer. -/
theorem removeUp_total (hℓ : ℓ.Lawful) {s : σ} {L i : ℕ}
    (h : Settling false n (ℓ.get s) (debt n (L + 1) i)) :
    Total env (fun b s' => b = true ∧ ∃ t, s' = ℓ.put t s ∧ Settling false n t 0 ∧
      ∀ k, t.bit 0 k = (ℓ.get s).bit 0 k) (removeUp ℓ i (numLayers n) (L + 1)) s := by
  induction hn : numLayers n - L generalizing L s with
  | zero =>
    unfold removeUp
    rw [if_neg (by omega)]
    rw [debt, if_neg (by omega)] at h
    exact Total.ret ⟨rfl, ℓ.get s, (hℓ.put_get s).symm, h, fun _ => rfl⟩
  | succ d ih =>
    unfold removeUp
    split
    · next hL =>
      rw [debt, if_pos hL, ← add_zero {(L + 1, i / 64 ^ (L + 1))}] at h
      obtain ⟨_, _, hset⟩ := h.of_owed (show (L + 1, i / 64 ^ (L + 1)) ∈ _ by simp)
      rw [Bool.not_false] at hset
      have hnext := h.lower
      have hin : i / 64 ^ (L + 1) / 64 < (ℓ.get s).width (L + 1) :=
        h.inBounds hL (h.fits _ hL _ hset)
      have hleaf (k : ℕ) : ((ℓ.get s).clearBit (L + 1) (i / 64 ^ (L + 1))).bit 0 k = (ℓ.get s).bit 0 k := by
        rw [bit_clearBit hin]
        simp
      rw [handOver_eq_debt] at hnext
      refine Total.act ?_
      simp only [word, wordId_eq, wordOffset_eq, store_sub_flag hset]
      split
      · next hz =>
        rw [if_neg hz, add_zero] at hnext
        exact Total.ret ⟨rfl, _, rfl, hnext, hleaf⟩
      · next hz =>
        rw [if_pos (not_not.mp hz), zero_add] at hnext
        refine (ih (s := ℓ.put _ s) (by rwa [hℓ.get_put]) (by omega)).mono ?_
        rintro b _ ⟨rfl, t, rfl, ht, hbit⟩
        refine ⟨rfl, t, hℓ.put_put _ _ _, ht, fun k => ?_⟩
        rw [hbit, hℓ.get_put, hleaf]
    · next hL =>
      rw [debt, if_neg hL] at h
      exact Total.ret ⟨rfl, ℓ.get s, (hℓ.put_get s).symm, h, fun _ => rfl⟩

/-- `remove` deletes its index and tells whether it was present. -/
theorem remove_total (hℓ : ℓ.Lawful) {s : σ} {S : Finset ℕ} {i : ℕ}
    (h : Represents n (ℓ.get s) S) :
    Total env (fun b s' => b = decide (i ∈ S) ∧ ∃ t, s' = ℓ.put t s ∧ Represents n t (S.erase i))
      (remove ℓ i) s := by
  have hmod : i % 64 < 64 := Nat.mod_lt _ (by norm_num)
  unfold remove
  refine Total.act ?_
  simp only [word, wordId_eq, wordOffset_eq, pow_zero, Nat.div_one]
  change Total env _ (if (ℓ.get s).load 0 (i / 64) ≠ flag (i % 64) then _ else _)
    (ℓ.put ((ℓ.get s).clearBit 0 i) s)
  by_cases hset : (ℓ.get s).bit 0 i = true
  · have hmem : i ∈ S := (h.leaf i).mp hset
    have hin : i / 64 < (ℓ.get s).width 0 := h.inBounds (numLayers_pos n) (h.lt hmem)
    have hclear := (h.settling false).clearLeaf hset
    have hleaf (k : ℕ) : ((ℓ.get s).clearBit 0 i).bit 0 k = true ↔ k ∈ S.erase i := by
      rw [bit_clearBit hin, Bool.and_eq_true, h.leaf, Finset.mem_erase]
      simp [and_comm]
    have hdebt := handOver_eq_debt n 0 i ((ℓ.get s).load 0 (i / 64) = flag (i % 64))
    rw [pow_zero, Nat.div_one, zero_add] at hdebt
    rw [hdebt, zero_add] at hclear
    split
    · next hz =>
      rw [if_neg hz] at hclear
      refine Total.ret ⟨?_, _, rfl, hclear.represents hleaf⟩
      rw [decide_eq_decide, Ne, and_flag_eq_zero_iff hmod, ← h.leaf, Bool.not_eq_false]
      rfl
    · next hz =>
      rw [if_pos (not_not.mp hz)] at hclear
      refine Total.read ?_
      have hsize : (ℓ.get (ℓ.put ((ℓ.get s).clearBit 0 i) s)).toggle.size = numLayers n := by
        rw [hℓ.get_put, clearBit, size_store, h.size]
      rw [hsize]
      refine (removeUp_total hℓ (by rwa [hℓ.get_put])).mono ?_
      rintro b _ ⟨rfl, t, rfl, ht, hbit⟩
      refine ⟨by simp [hmem], t, hℓ.put_put _ _ _, ht.represents fun k => ?_⟩
      rw [hbit, hℓ.get_put, hleaf]
  · have hnot : i ∉ S := fun hm => hset ((h.leaf i).mpr hm)
    rw [Bool.not_eq_true] at hset
    have hword : (ℓ.get s).load 0 (i / 64) ≠ flag (i % 64) := by
      intro hw
      have hflag : (ℓ.get s).bit 0 i = decide (i % 64 = i % 64) := by rw [bit, hw, getLsbD_flag hmod]
      rw [hset] at hflag
      simp at hflag
    rw [if_pos hword, clearBit_of_clear hset, hℓ.put_get]
    refine Total.ret ⟨?_, ℓ.get s, (hℓ.put_get s).symm, ?_⟩
    · rw [decide_eq_decide, Ne, and_flag_eq_zero_iff hmod, ← h.leaf, Bool.not_eq_false]
      rfl
    · rwa [Finset.erase_eq_of_notMem hnot]

end IndexSet

end ToggleTree
