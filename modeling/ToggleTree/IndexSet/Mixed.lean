import Mathlib.Data.BitVec
import ToggleTree.IndexSet.Phase
import ToggleTree.IndexSet.Refinement

/-!
# Insertions and removals at the same time

An `insert` and a `remove` that run concurrently can reach an upper word in either order, so a
word may wrap below zero for a while. What the calls in flight still owe to a flag, with its
sign, together with the flag always makes up whether the word below is nonzero. The topmost word
is only ever summed up, so there the order does not matter. At a layer in between, a word that has
wrapped misleads the test that decides whether a call goes on; the layers come to rest if every
operation there finds its own flag as it should.
-/

namespace ToggleTree

open ForkJoin ForkJoin.Prog

namespace IndexSet

/-- Whether a word is nonzero, as a number. -/
def nonzero (s : IndexSet) (L w : ℕ) : ℤ := if s.load L w = 0 then 0 else 1

/-- What an update adds to a flag. -/
def sign (up : Bool) : ℤ := if up then 1 else -1

/-- What a call still has to add to flag `p`. -/
def CallState.share (up : Bool) (n i : ℕ) (x : CallState) (p : ℕ × ℕ) : ℤ :=
  if p ∈ x.owed n i then sign up else 0

/-- The word with the given multiples of its flags, modulo the word size. -/
def pack (z : ℕ → ℤ) : Word := ∑ j ∈ Finset.range 64, (z j : Word) * flag j

/-- The nodes that a call still has to change. -/
theorem mem_debt {n L i : ℕ} {p : ℕ × ℕ} : p ∈ debt n L i ↔ L < numLayers n ∧ p = (L, i / 64 ^ L) := by
  unfold debt
  split
  · next h => rw [Multiset.mem_singleton, and_iff_right h]
  · next h => exact iff_of_false (Multiset.notMem_zero p) fun hp => h hp.1

/-- A sum of distinct flags has exactly these flags. -/
theorem getLsbD_sum_flags (p : ℕ → Prop) [DecidablePred p] {m : ℕ} (hm : m ≤ 64) (i : ℕ) :
    (∑ j ∈ Finset.range m, if p j then flag j else 0 : Word).getLsbD i = decide (i < m ∧ p i) := by
  induction m generalizing i with
  | zero => simp
  | succ m ih =>
    have hclear : (∑ j ∈ Finset.range m, if p j then flag j else 0 : Word).getLsbD m = false := by
      rw [ih (by omega)]
      exact decide_eq_false fun h => lt_irrefl m h.1
    rw [Finset.sum_range_succ]
    by_cases hp : p m
    · rw [if_pos hp, add_flag (by omega) hclear, getLsbD_or_flag (by omega), ih (by omega), Bool.eq_iff_iff]
      simp only [Bool.or_eq_true, decide_eq_true_eq]
      constructor
      · rintro (⟨h₁, h₂⟩ | rfl)
        · exact ⟨by omega, h₂⟩
        · exact ⟨by omega, hp⟩
      · rintro ⟨h₁, h₂⟩
        rcases Nat.lt_succ_iff_lt_or_eq.mp h₁ with h | rfl
        · exact Or.inl ⟨h, h₂⟩
        · exact Or.inr rfl
    · rw [if_neg hp, add_zero, ih (by omega), decide_eq_decide]
      constructor
      · exact fun h => ⟨by omega, h.2⟩
      · rintro ⟨h₁, h₂⟩
        have hne : i ≠ m := fun h => hp (h ▸ h₂)
        exact ⟨by omega, h₂⟩

/-- Packing flags that are 0 or 1. -/
theorem getLsbD_pack (p : ℕ → Prop) [DecidablePred p] (i : ℕ) :
    (pack fun j => if p j then 1 else 0).getLsbD i = decide (i < 64 ∧ p i) := by
  rw [← getLsbD_sum_flags p le_rfl]
  refine congrArg (fun word : Word => word.getLsbD i) (Finset.sum_congr rfl fun j _ => ?_)
  dsimp only
  by_cases hp : p j
  · rw [if_pos hp, if_pos hp, Int.cast_one, one_mul]
  · rw [if_neg hp, if_neg hp, Int.cast_zero, zero_mul]

/-- Adding to one multiple adds the flag to the packed word. -/
theorem pack_add {z z' : ℕ → ℤ} {j : ℕ} (up : Bool) (hj : j < 64) (hself : z' j = z j + sign up)
    (hother : ∀ k, k ≠ j → z' k = z k) : pack z' = shift up (pack z) (flag j) := by
  have hmem : j ∈ Finset.range 64 := Finset.mem_range.mpr hj
  have hrest : ∑ k ∈ (Finset.range 64).erase j, (z' k : Word) * flag k =
      ∑ k ∈ (Finset.range 64).erase j, (z k : Word) * flag k :=
    Finset.sum_congr rfl fun k hk => by rw [hother k (Finset.ne_of_mem_erase hk)]
  rw [pack, pack, ← Finset.add_sum_erase _ _ hmem, ← Finset.add_sum_erase _ (fun k => (z k : Word) * flag k) hmem,
    hrest, hself]
  cases up
  · rw [shift, if_neg Bool.false_ne_true, sign, if_neg Bool.false_ne_true, Int.cast_add, Int.cast_neg,
      Int.cast_one, add_mul, neg_mul, one_mul]
    abel
  · rw [shift, if_pos rfl, sign, if_pos rfl, Int.cast_add, Int.cast_one, add_mul, one_mul]
    exact add_right_comm _ _ _

section Flip

variable {up : Bool} {s : IndexSet} {L j : ℕ}

/-- Flipping a flag changes whether its word is nonzero exactly if the word turns. -/
theorem nonzero_flip (h : j / 64 < s.width L) (K w : ℕ) : nonzero (flip up s L j) K w =
    nonzero s K w + if K = L ∧ w = j / 64 ∧ s.load L (j / 64) = turning up j then sign up else 0 := by
  have hmod : j % 64 < 64 := Nat.mod_lt _ (by norm_num)
  by_cases hw : K = L ∧ w = j / 64
  · obtain ⟨rfl, rfl⟩ := hw
    simp only [true_and]
    cases up
    · rw [flip, if_neg Bool.false_ne_true, turning, if_neg Bool.false_ne_true, sign, if_neg Bool.false_ne_true]
      by_cases hset : s.bit K j = true
      · have hnz : s.load K (j / 64) ≠ 0 := (load_ne_zero_iff _ _ _).mpr ⟨j, rfl, hset⟩
        rw [nonzero, nonzero, if_neg hnz]
        exact (if_congr (load_clearBit_eq_zero h hset) rfl rfl).trans (by split <;> rfl)
      · rw [clearBit_of_clear (Bool.not_eq_true _ ▸ hset), if_neg, add_zero]
        intro heq
        refine hset ?_
        rw [bit, heq, getLsbD_flag hmod]
        exact decide_eq_true rfl
    · rw [flip, if_pos rfl, turning, if_pos rfl, sign, if_pos rfl, nonzero, nonzero,
        if_neg ((load_setBit_ne_zero h K _).mpr (Or.inr ⟨rfl, rfl⟩))]
      split <;> rfl
  · rw [if_neg fun hk => hw ⟨hk.1, hk.2.1⟩, add_zero, nonzero, nonzero]
    cases up
    · rw [flip, if_neg Bool.false_ne_true, load_clearBit_of_ne h _ _ hw]
    · have hiff := load_setBit_ne_zero h K w
      rw [or_iff_left hw] at hiff
      rw [flip, if_pos rfl]
      exact if_congr (not_iff_not.mp hiff) rfl rfl

end Flip

section Pool

variable {C : Type} [Fintype C]

/-- What a flag would have to be once nothing is owed to it any more. -/
def balance (up : C → Bool) (n : ℕ) (index : C → ℕ) (state : C → CallState) (s : IndexSet) (L j : ℕ) : ℤ :=
  nonzero s L j - ∑ c, (state c).share (up c) n (index c) (L + 1, j)

/-- What holds at every moment of a phase with calls of both kinds. -/
structure Mixed (up : C → Bool) (n : ℕ) (index : C → ℕ) (state : C → CallState) (s : IndexSet) : Prop where
  size : s.toggle.size = numLayers n
  width : ∀ L < numLayers n, s.width L = layerLength n (L + 1)
  fits : ∀ L, (L = 0 ∨ L + 1 < numLayers n) → ∀ j, s.bit L j = true → j < layerLength n L
  above : ∀ c L, state c = CallState.climbing L → 0 < L ∧ L < numLayers n
  /-- Between the bottom and the top, every flag equals its balance. -/
  middle : ∀ L, L + 2 < numLayers n → ∀ j, balance up n index state s L j = if s.bit (L + 1) j then 1 else 0
  /-- At the top, the word is the sum of the balances. -/
  top : ∀ L, L + 2 = numLayers n → s.load (L + 1) 0 = pack (balance up n index state s L)

namespace Mixed

variable {n : ℕ} {up : C → Bool} {index : C → ℕ} {state : C → CallState} {s : IndexSet} {S : Finset ℕ}

/-- A call that has entered has no share. -/
theorem share_entered {u : Bool} {i : ℕ} {p : ℕ × ℕ} : CallState.entered.share u n i p = 0 :=
  if_neg (Multiset.notMem_zero p)

/-- A call that has returned has no share. -/
theorem share_returned {u r : Bool} {i : ℕ} {p : ℕ × ℕ} : (CallState.returned r).share u n i p = 0 :=
  if_neg (Multiset.notMem_zero p)

/-- The share of a call that goes on in a layer. -/
theorem share_climb {u : Bool} {i L : ℕ} {p : ℕ × ℕ} : (CallState.climb n L).share u n i p =
    if L < numLayers n ∧ p = (L, i / 64 ^ L) then sign u else 0 := by
  rw [CallState.share, CallState.owed_climb]
  exact if_congr mem_debt rfl rfl

/-- The share of a call that reads the number of layers. -/
theorem share_sizing {u : Bool} {i : ℕ} {p : ℕ × ℕ} : CallState.sizing.share u n i p =
    if 1 < numLayers n ∧ p = (1, i / 64 ^ 1) then sign u else 0 :=
  if_congr mem_debt rfl rfl

/-- The share of a call that climbs. -/
theorem share_climbing {u : Bool} {i L : ℕ} {p : ℕ × ℕ} : (CallState.climbing L).share u n i p =
    if L < numLayers n ∧ p = (L, i / 64 ^ L) then sign u else 0 :=
  if_congr mem_debt rfl rfl

/-- Only flags below the length of a layer have a nonzero word below them. -/
theorem lt_of_load {L w : ℕ} (hfits : ∀ j, s.bit L j = true → j < layerLength n L) (h : s.load L w ≠ 0) :
    w < layerLength n (L + 1) := by
  obtain ⟨j, rfl, hj⟩ := (load_ne_zero_iff _ _ _).mp h
  exact div_lt_wordCount (hfits j hj)

/-- The topmost layer has one word. -/
theorem lt_of_top {L j : ℕ} (hL : L + 1 = numLayers n) (hj : j < layerLength n L) : j < 64 := by
  have hlast := layerLength_numLayers n
  rw [← hL, layerLength, wordCount] at hlast
  omega

/-- With nothing owed, a packed topmost word has the flags of the nonzero words below it. -/
theorem bit_of_pack {L : ℕ} (hL : L + 2 = numLayers n) (hwidth : s.width (L + 1) ≤ 1)
    (hfits : ∀ j, s.bit L j = true → j < layerLength n L)
    (hload : s.load (L + 1) 0 = pack (nonzero s L)) (j : ℕ) : s.bit (L + 1) j = true ↔ s.load L j ≠ 0 := by
  by_cases hj : j < 64
  · have hpack : nonzero s L = fun k => if s.load L k ≠ 0 then 1 else 0 := by
      funext k
      rw [nonzero, ite_not]
    rw [bit, Nat.div_eq_of_lt hj, hload, hpack, getLsbD_pack, Nat.mod_eq_of_lt hj, decide_eq_true_eq,
      and_iff_right hj]
  · refine iff_of_false ?_ fun h => hj (lt_of_top hL (lt_of_load hfits h))
    rw [bit, load_eq_zero_of_width_le _ _ _ (by omega)]
    simp

/-- A state at rest, before any call has started. -/
theorem start (up : C → Bool) (index : C → ℕ) (h : Represents n s S) :
    Mixed up n index (fun _ => CallState.entered) s := by
  have hbalance : ∀ L j, balance up n index (fun _ => CallState.entered) s L j = nonzero s L j := by
    intro L j
    rw [balance, Finset.sum_eq_zero fun c _ => share_entered, sub_zero]
  refine ⟨h.size, h.width, fun L hL j hj => h.fits L (by have := numLayers_pos n; omega) j hj,
    fun c L hc => (by cases hc),
    fun L hL j => ?_, fun L hL => ?_⟩
  · rw [hbalance, nonzero, ← ite_not]
    exact if_congr (h.child L (by omega) j).symm rfl rfl
  · have hpack : balance up n index (fun _ => CallState.entered) s L =
        fun j => if s.load L j ≠ 0 then 1 else 0 := by
      funext j
      rw [hbalance, nonzero, ite_not]
    refine BitVec.eq_of_getLsbD_eq fun i hi => ?_
    rw [hpack, getLsbD_pack, Bool.eq_iff_iff, decide_eq_true_eq, and_iff_right hi, ← h.child L (by omega) i, bit,
      Nat.div_eq_of_lt hi, Nat.mod_eq_of_lt hi]

/-- Once every call has returned, the layers are at rest. -/
theorem represents (h : Mixed up n index state s) {r : C → Bool} (hr : ∀ c, state c = CallState.returned (r c)) :
    Represents n s ((Finset.range n).filter fun i => s.bit 0 i = true) := by
  have hbalance : ∀ L j, balance up n index state s L j = nonzero s L j := by
    intro L j
    rw [balance, Finset.sum_eq_zero fun c _ => by rw [hr c]; exact share_returned, sub_zero]
  have hchild : ∀ L, L + 1 < numLayers n → ∀ j, s.bit (L + 1) j = true ↔ s.load L j ≠ 0 := by
    intro L hL j
    rcases Nat.eq_or_lt_of_le (show L + 2 ≤ numLayers n by omega) with heq | hlt
    · refine bit_of_pack heq ?_ (h.fits L (Or.inr (by omega))) ?_ j
      · rw [h.width (L + 1) hL, show L + 1 + 1 = numLayers n by omega]
        exact layerLength_numLayers n
      · rw [h.top L heq]
        exact congrArg pack (funext (hbalance L))
    · have hmiddle := h.middle L hlt j
      rw [hbalance, nonzero] at hmiddle
      by_cases hz : s.load L j = 0
      · rw [if_pos hz] at hmiddle
        refine iff_of_false (fun hb => ?_) (not_not.mpr hz)
        rw [if_pos hb] at hmiddle
        exact zero_ne_one hmiddle
      · rw [if_neg hz] at hmiddle
        refine iff_of_true ?_ hz
        by_contra hb
        rw [if_neg hb] at hmiddle
        exact one_ne_zero hmiddle
  refine ⟨⟨h.size, h.width, fun L hL j hj => ?_⟩, fun i => ?_, hchild⟩
  · rcases Nat.eq_zero_or_pos L with rfl | hpos
    · exact h.fits 0 (Or.inl rfl) j hj
    · by_cases hlast : L + 1 < numLayers n
      · exact h.fits L (Or.inr hlast) j hj
      · obtain ⟨K, rfl⟩ : ∃ K, L = K + 1 := ⟨L - 1, by omega⟩
        exact lt_of_load (h.fits K (Or.inr hL)) ((hchild K hL j).mp hj)
  · rw [Finset.mem_filter, Finset.mem_range]
    exact ⟨fun hi => ⟨h.fits 0 (Or.inl rfl) i hi, hi⟩, And.right⟩

/-- The calls that are not concerned keep their shares. -/
theorem balance_update [DecidableEq C] (c : C) (x : CallState) (s' : IndexSet) (L j : ℕ) :
    balance up n index (Function.update state c x) s' L j = balance up n index state s L j +
      (nonzero s' L j - nonzero s L j) + (state c).share (up c) n (index c) (L + 1, j) -
      x.share (up c) n (index c) (L + 1, j) := by
  have hrest : ∑ d ∈ Finset.univ.erase c, (Function.update state c x d).share (up d) n (index d) (L + 1, j) =
      ∑ d ∈ Finset.univ.erase c, (state d).share (up d) n (index d) (L + 1, j) :=
    Finset.sum_congr rfl fun d hd => by rw [Function.update_of_ne (Finset.ne_of_mem_erase hd)]
  rw [balance, balance, ← Finset.add_sum_erase _ _ (Finset.mem_univ c), Function.update_self, hrest,
    ← Finset.add_sum_erase _ (fun d => (state d).share (up d) n (index d) (L + 1, j)) (Finset.mem_univ c)]
  ring

/-- Changing a bit stores one word. -/
theorem flip_eq_store {u : Bool} {L j : ℕ} : ∃ word, flip u s L j = s.store L (j / 64) word := by
  cases u
  · exact ⟨_, rfl⟩
  · exact ⟨_, rfl⟩

/-- A step that flips one flag and hands over to the layer above if the word turned. -/
theorem flip_step [DecidableEq C] (h : Mixed up n index state s) (hindex : ∀ c, index c < n) {c : C} {L : ℕ}
    (hL : L = 0 ∨ L + 1 < numLayers n) {x : CallState}
    (hx : ∀ p,
      x.share (up c) n (index c) p = if s.load L (index c / 64 ^ L / 64) = turning (up c) (index c / 64 ^ L) ∧
      L + 1 < numLayers n ∧ p = (L + 1, index c / 64 ^ (L + 1)) then sign (up c) else 0)
    (habove : ∀ M, x = CallState.climbing M → 0 < M ∧ M < numLayers n)
    (hold : ∀ K j, (if (flip (up c) s L (index c / 64 ^ L)).bit (K + 1) j then 1 else 0 : ℤ) =
      (if s.bit (K + 1) j then 1 else 0) + (state c).share (up c) n (index c) (K + 1, j))
    (htop : ∀ K j, K + 1 = numLayers n → (state c).share (up c) n (index c) (K, j) = 0) :
    Mixed up n index (Function.update state c x) (flip (up c) s L (index c / 64 ^ L)) := by
  have hpos := numLayers_pos n
  have hlt := div_lt_layerLength (hindex c) L
  have hin : index c / 64 ^ L / 64 < s.width L := by
    rw [h.width L (by omega)]
    exact div_lt_wordCount hlt
  -- The word that turns and what is handed over cancel.
  have hbalance : ∀ K j, K + 1 < numLayers n →
      balance up n index (Function.update state c x) (flip (up c) s L (index c / 64 ^ L)) K j =
        balance up n index state s K j + (state c).share (up c) n (index c) (K + 1, j) := by
    intro K j hK
    have hsame : (if K = L ∧ j = index c / 64 ^ L / 64 ∧
        s.load L (index c / 64 ^ L / 64) = turning (up c) (index c / 64 ^ L) then sign (up c) else 0) =
        x.share (up c) n (index c) (K + 1, j) := by
      rw [hx]
      refine if_congr ?_ rfl rfl
      rw [div_pow_succ, Prod.mk.injEq]
      constructor
      · rintro ⟨rfl, rfl, hturn⟩
        exact ⟨hturn, hK, rfl, rfl⟩
      · rintro ⟨hturn, _, hKL, rfl⟩
        exact ⟨Nat.succ_inj.mp hKL, rfl, hturn⟩
    rw [balance_update (s := s), nonzero_flip hin, hsame]
    ring
  obtain ⟨word, hword⟩ := flip_eq_store (s := s) (u := up c) (L := L) (j := index c / 64 ^ L)
  refine ⟨?_, fun K hK => ?_, fun K hK j hj => ?_, fun d M hd => ?_, fun K hK j => ?_, fun K hK => ?_⟩
  · rw [hword, size_store]
    exact h.size
  · rw [hword, width_store]
    exact h.width K hK
  · rw [bit_flip hin] at hj
    split at hj
    · next hk => exact hk.1 ▸ hk.2 ▸ hlt
    · exact h.fits K hK j hj
  · rcases eq_or_ne d c with rfl | hdc
    · rw [Function.update_self] at hd
      exact habove M hd
    · rw [Function.update_of_ne hdc] at hd
      exact h.above d M hd
  · rw [hbalance K j (by omega), h.middle K hK j]
    exact (hold K j).symm
  · have hsame : balance up n index (Function.update state c x) (flip (up c) s L (index c / 64 ^ L)) K =
        balance up n index state s K := by
      funext j
      rw [hbalance K j (by omega), htop (K + 1) j hK, add_zero]
    rw [hsame, ← h.top K hK, hword, load_store _ _ _ _ hin, if_neg (by omega)]

/-- The step at the topmost layer adds up, whatever the word is. -/
theorem top_step [DecidableEq C] (h : Mixed up n index state s) (hindex : ∀ c, index c < n) {c : C} {L : ℕ}
    (hL : L + 2 = numLayers n) (hc : state c = CallState.climbing (L + 1)) {r : Bool} :
    Mixed up n index (Function.update state c (CallState.returned r))
      (s.store (L + 1) (index c / 64 ^ (L + 1) / 64)
        (shift (up c) (s.load (L + 1) (index c / 64 ^ (L + 1) / 64)) (flag (index c / 64 ^ (L + 1) % 64)))) := by
  have hlt := div_lt_layerLength (hindex c) (L + 1)
  have hword : index c / 64 ^ (L + 1) / 64 = 0 := by
    rw [← div_pow_succ, hL]
    exact div_numLayers (hindex c)
  have hin : index c / 64 ^ (L + 1) / 64 < s.width (L + 1) := by
    rw [h.width (L + 1) (by omega)]
    exact div_lt_wordCount hlt
  have hj : index c / 64 ^ (L + 1) < 64 := lt_of_top (by omega) hlt
  have hload := load_store s (L + 1) _ (shift (up c) (s.load (L + 1) (index c / 64 ^ (L + 1) / 64))
    (flag (index c / 64 ^ (L + 1) % 64))) hin
  have hsize := size_store s (L + 1) (index c / 64 ^ (L + 1) / 64)
    (shift (up c) (s.load (L + 1) (index c / 64 ^ (L + 1) / 64)) (flag (index c / 64 ^ (L + 1) % 64)))
  have hwidth := width_store s (L + 1) (index c / 64 ^ (L + 1) / 64)
    (shift (up c) (s.load (L + 1) (index c / 64 ^ (L + 1) / 64)) (flag (index c / 64 ^ (L + 1) % 64)))
  generalize s.store (L + 1) _ _ = t at hload hsize hwidth ⊢
  have hother : ∀ K w, K ≠ L + 1 → t.load K w = s.load K w := fun K w hK => by
    rw [hload, if_neg fun h => hK h.1]
  have hbit : ∀ K j, K ≠ L + 1 → t.bit K j = s.bit K j := fun K j hK => by
    rw [bit, bit, hother K _ hK]
  have hbalance :
    ∀ K j, K + 1 < numLayers n → balance up n index (Function.update state c (CallState.returned r)) t K j =
      balance up n index state s K j + if (K + 1, j) = (L + 1, index c / 64 ^ (L + 1)) then sign (up c)
        else 0 := by
    intro K j hK
    have hsame : nonzero t K j = nonzero s K j := by
      rw [nonzero, nonzero, hother K j (by omega)]
    rw [balance_update (s := s), hsame, hc, share_climbing, share_returned, sub_self, add_zero, sub_zero]
    congr 1
    exact if_congr (and_iff_right (by omega)) rfl rfl
  refine ⟨hsize.trans h.size, fun K hK => (hwidth K).trans (h.width K hK), fun K hK j hj => ?_, fun d M hd => ?_,
    fun K hK j => ?_, fun K hK => ?_⟩
  · rw [hbit K j (by omega)] at hj
    exact h.fits K hK j hj
  · rcases eq_or_ne d c with rfl | hdc
    · rw [Function.update_self] at hd
      cases hd
    · rw [Function.update_of_ne hdc] at hd
      exact h.above d M hd
  · have hne : (K + 1, j) ≠ (L + 1, index c / 64 ^ (L + 1)) := fun heq => by
      have := (Prod.mk.inj heq).1
      omega
    rw [hbalance K j (by omega), if_neg hne, add_zero, h.middle K hK j, hbit _ _ (by omega)]
  · obtain rfl : K = L := by omega
    rw [hload, if_pos ⟨rfl, hword.symm⟩, hword, h.top K hK, Nat.mod_eq_of_lt hj]
    refine (pack_add (up c) hj ?_ fun k hk => ?_).symm
    · rw [hbalance K _ (by omega), if_pos rfl]
    · rw [hbalance K _ (by omega), if_neg fun heq => hk (Prod.mk.inj heq).2, add_zero]

/-- A call that climbs is inside the layers. -/
theorem above_climb {L M : ℕ} (hL : 0 < L) (h : CallState.climb n L = CallState.climbing M) :
    0 < M ∧ M < numLayers n := by
  unfold CallState.climb at h
  split at h
  · next hlt =>
    obtain rfl := CallState.climbing.inj h
    exact ⟨hL, hlt⟩
  · cases h

/-- Reading the number of layers. -/
theorem size_step [DecidableEq C] (h : Mixed up n index state s) {c : C} (hc : state c = CallState.sizing) :
    Mixed up n index (Function.update state c (CallState.climb n 1)) s := by
  have hbalance : balance up n index (Function.update state c (CallState.climb n 1)) s =
      balance up n index state s := by
    funext L j
    rw [balance_update (s := s), sub_self, add_zero, hc, share_sizing, share_climb, add_sub_cancel_right]
  refine ⟨h.size, h.width, h.fits, fun d L hd => ?_, hbalance ▸ h.middle, hbalance ▸ h.top⟩
  rcases eq_or_ne d c with rfl | hdc
  · rw [Function.update_self] at hd
    exact above_climb one_pos hd
  · rw [Function.update_of_ne hdc] at hd
    exact h.above d L hd

/-- One step of one call keeps the invariant, if the flag it changes between the bottom and the top is
as it should be. -/
theorem step [DecidableEq C] {env : Empty → Prog IndexSet Empty Unit} (h : Mixed up n index state s)
    (hindex : ∀ c, index c < n) {c : C} {p : Prog IndexSet Empty Bool} {s' : IndexSet}
    (horder : ∀ L, 0 < L → L + 1 < numLayers n → state c = CallState.climbing L →
      s.bit L (index c / 64 ^ L) = !up c)
    (hstep : Step env ((state c).rest (up c) n (index c)) s p s') :
    ∃ x, p = x.rest (up c) n (index c) ∧ Mixed up n index (Function.update state c x) s' := by
  cases hc : state c with
  | entered =>
    rw [hc] at hstep
    have hzero : index c / 64 ^ 0 = index c := by rw [pow_zero, Nat.div_one]
    obtain ⟨rfl, rfl⟩ := step_entered (n := n) hstep
    refine ⟨_, rfl, ?_⟩
    have hin : index c / 64 < s.width 0 := by
      rw [h.width 0 (numLayers_pos n)]
      exact div_lt_wordCount (hindex c)
    rw [← hzero]
    refine h.flip_step hindex (Or.inl rfl) (fun q => ?_) (fun M hM => ?_) (fun K j => ?_) fun K j _ => ?_
    · rw [hzero]
      by_cases hturn : s.load 0 (index c / 64) = turning (up c) (index c)
      · rw [if_pos hturn, share_sizing]
        exact if_congr (and_iff_right hturn).symm rfl rfl
      · rw [if_neg hturn, share_returned, if_neg fun hq => hturn hq.1]
    · split at hM <;> cases hM
    · have hne : ¬(K + 1 = 0 ∧ j = index c) := fun hk => Nat.succ_ne_zero K hk.1
      rw [hzero, hc, share_entered, add_zero, bit_flip hin, if_neg hne]
    · rw [hc, share_entered]
  | sizing =>
    rw [hc] at hstep
    obtain ⟨rfl, rfl⟩ := step_sizing h.size hstep
    exact ⟨_, rfl, h.size_step hc⟩
  | climbing L =>
    rw [hc] at hstep
    obtain ⟨hpos, hL⟩ := h.above c L hc
    obtain ⟨rfl, rfl⟩ := step_climbing hL hstep
    refine ⟨_, rfl, ?_⟩
    by_cases hmiddle : L + 1 < numLayers n
    · have hbit := horder L hpos hmiddle hc
      have hin : index c / 64 ^ L / 64 < s.width L := by
        rw [h.width L hL]
        exact div_lt_wordCount (div_lt_layerLength (hindex c) L)
      rw [store_shift hbit]
      refine h.flip_step hindex (Or.inr hmiddle) (fun q => ?_) (fun M hM => ?_) (fun K j => ?_) fun K j hK => ?_
      · by_cases hturn : s.load L (index c / 64 ^ L / 64) = turning (up c) (index c / 64 ^ L)
        · rw [if_pos hturn, share_climb]
          exact if_congr (and_iff_right hturn).symm rfl rfl
        · rw [if_neg hturn, share_returned, if_neg fun hq => hturn hq.1]
      · split at hM
        · exact above_climb (Nat.succ_pos L) hM
        · cases hM
      · rw [hc, share_climbing, bit_flip hin]
        by_cases hk : K + 1 = L ∧ j = index c / 64 ^ L
        · obtain ⟨rfl, rfl⟩ := hk
          have hit : K + 1 = K + 1 ∧ index c / 64 ^ (K + 1) = index c / 64 ^ (K + 1) := ⟨rfl, rfl⟩
          have hit' : K + 1 < numLayers n ∧
              (K + 1, index c / 64 ^ (K + 1)) = (K + 1, index c / 64 ^ (K + 1)) := ⟨hL, rfl⟩
          rw [if_pos hit, if_pos hit', hbit]
          cases up c <;> simp [sign]
        · have hne : ¬(L < numLayers n ∧ (K + 1, j) = (L, index c / 64 ^ L)) := fun h => hk (Prod.mk.inj h.2)
          rw [if_neg hk, if_neg hne, add_zero]
      · rw [hc, share_climbing, if_neg]
        rintro ⟨_, heq⟩
        have := (Prod.mk.inj heq).1
        omega
    · obtain ⟨K, rfl⟩ : ∃ K, L = K + 1 := ⟨L - 1, by omega⟩
      have hlast : ∀ r, Mixed up n index (Function.update state c (CallState.returned r)) _ := fun r =>
        h.top_step hindex (by omega) hc (r := r)
      have hclimb : CallState.climb n (K + 1 + 1) = CallState.returned true := if_neg hmiddle
      rw [hclimb, ite_self]
      exact hlast true
  | returned r =>
    rw [hc] at hstep
    exact hstep.elim

end Mixed

/-- Between the bottom and the top, the next operation of call `c` finds its own flag clear if it adds it
and set if it subtracts it: no other operation has overtaken the one that left it so. -/
def InOrder (up : C → Bool) (n : ℕ) (index : C → ℕ) (threads : C → Prog IndexSet Empty Bool) (s : IndexSet)
    (c : C) : Prop :=
  ∀ L, 0 < L → L + 1 < numLayers n → threads c = updateUp (up c) (index c) (numLayers n) L →
    s.bit L (index c / 64 ^ L) = !up c

/-- Runs of all calls in which every operation between the bottom and the top is in order. -/
inductive OrderlyRun [DecidableEq C] (env : Empty → Prog IndexSet Empty Unit) (up : C → Bool) (n : ℕ)
    (index : C → ℕ) (s₀ : IndexSet) : (C → Prog IndexSet Empty Bool) → IndexSet → Prop
  | start : OrderlyRun env up n index s₀ (fun c => update (up c) (index c)) s₀
  | step {threads : C → Prog IndexSet Empty Bool} {s s' : IndexSet} {c : C} {p : Prog IndexSet Empty Bool}
      (run : OrderlyRun env up n index s₀ threads s) (order : InOrder up n index threads s c)
      (step : Step env (threads c) s p s') :
      OrderlyRun env up n index s₀ (Function.update threads c p) s'

/-- Up to 64 words at the bottom there is no layer between the bottom and the top. -/
theorem numLayers_le_two {n : ℕ} (hn : n ≤ 4096) : numLayers n ≤ 2 := by
  have hlength : (n + 63) >>> 6 ≤ 64 := by
    rw [shiftRight_six]
    omega
  have hnext : ((n + 63) >>> 6 + 63) >>> 6 ≤ 1 := by
    rw [shiftRight_six ((n + 63) >>> 6 + 63)]
    omega
  rw [numLayers]
  generalize (n + 63) >>> 6 = length at hlength hnext
  unfold countLayers
  split
  · unfold countLayers
    rw [if_neg (by omega)]
  · omega

variable [DecidableEq C] {n : ℕ} {up : C → Bool} {index : C → ℕ} {s₀ s : IndexSet}
  {threads : C → Prog IndexSet Empty Bool} {env : Empty → Prog IndexSet Empty Unit}

omit [Fintype C] in
/-- With at most two layers every run is in order. -/
theorem orderlyRun_of_le (hn : n ≤ 4096)
    (run : PoolSteps env (fun c => update (up c) (index c)) s₀ threads s) :
    OrderlyRun env up n index s₀ threads s := by
  have hlayers := numLayers_le_two hn
  generalize hstart : (fun c => update (up c) (index c)) = start at run
  induction run with
  | refl => exact hstart ▸ OrderlyRun.start
  | tail _ hstep ih =>
    refine OrderlyRun.step ih (fun L hpos hL _ => ?_) hstep
    omega

/-- The invariant along an orderly run. -/
theorem OrderlyRun.mixed {S : Finset ℕ} (h₀ : Represents n s₀ S) (hindex : ∀ c, index c < n)
    (run : OrderlyRun env up n index s₀ threads s) :
    ∃ state, threads = (fun c => (state c).rest (up c) n (index c)) ∧ Mixed up n index state s := by
  induction run with
  | start => exact ⟨fun _ => CallState.entered, rfl, Mixed.start up index h₀⟩
  | @step threads s s' c p _ order hstep ih =>
    obtain ⟨state, rfl, hmixed⟩ := ih
    obtain ⟨x, rfl, hnext⟩ := hmixed.step hindex
      (fun L hpos hL hc => order L hpos hL (by simp only [hc]; rfl)) hstep
    refine ⟨Function.update state c x, ?_, hnext⟩
    funext d
    rcases eq_or_ne d c with rfl | hd
    · simp
    · simp [Function.update_of_ne hd]

/-- Insertions and removals in any number and any interleaving leave the layers at rest, if the index
set has at most two layers or no operation between the bottom and the top overtakes another; the
operations then answer according to the flags at the bottom. -/
theorem mixed_updates (env : Empty → Prog IndexSet Empty Unit) (up : C → Bool) (n : ℕ) (index : C → ℕ)
    {S : Finset ℕ} {s₀ s : IndexSet} {threads : C → Prog IndexSet Empty Bool} (hindex : ∀ c, index c < n)
    (h₀ : Represents n s₀ S)
    (run : n ≤ 4096 ∧ PoolSteps env (fun c => update (up c) (index c)) s₀ threads s ∨
      OrderlyRun env up n index s₀ threads s)
    (r : C → Bool) (hr : ∀ c, threads c = ret (r c)) :
    Refines n s ((Finset.range n).filter fun i => s.bit 0 i = true) := by
  have hrun : OrderlyRun env up n index s₀ threads s := run.elim (fun h => orderlyRun_of_le h.1 h.2) id
  obtain ⟨state, rfl, hmixed⟩ := hrun.mixed h₀ hindex
  refine Represents.refines (hmixed.represents (r := r) fun c => ?_)
  exact CallState.eq_returned (fun L hc => (hmixed.above c L hc).2) (hr c)

end Pool

/-- Three calls on an empty set with three layers: insert 0, remove 0 and insert 64. -/
def overtaking (c : Fin 3) : Prog IndexSet Empty Bool := update (c ≠ 1) (if c = 2 then 64 else 0)

/-- The first insertion stops before its addition, the removal and the second insertion run, and the
first insertion goes on: the removal subtracts from a word to which nothing was added yet. -/
def overtakingRun : Option ((Fin 3 → Prog IndexSet Empty Bool) × IndexSet) :=
  runSchedule [0, 0, 1, 1, 1, 2, 2, 2, 0] overtaking (create 4097 false)

/-- After that run all calls have returned and 64 is in the set, but the root says it is empty. -/
theorem mixed_updates_overtaken : ∃ threads s,
    PoolSteps Empty.elim (fun c : Fin 3 => update (c ≠ 1) (if c = 2 then 64 else 0))
      (create 4097 false) threads s ∧
      (∀ c, threads c = ret true) ∧ s.bit 0 64 = true ∧ (exec (empty Loc.self) s).1 = true ∧
      ¬∃ S, Represents 4097 s S := by
  have hsome : overtakingRun.isSome = true := by decide +kernel
  obtain ⟨⟨threads, s⟩, hrun⟩ := Option.isSome_iff_exists.mp hsome
  have hthreads : ∀ c, (overtakingRun.map fun t => (t.1 c).result?) = some (some true) := by decide +kernel
  have hleaf : (overtakingRun.map fun t => t.2.bit 0 64) = some true := by decide +kernel
  have hroot : (overtakingRun.map fun t => t.2.load 2 0) = some 0 := by decide +kernel
  have hempty : (overtakingRun.map fun t => (exec (empty Loc.self) t.2).1) = some true := by decide +kernel
  rw [hrun] at hthreads hleaf hroot hempty
  have hleaf' : s.bit 0 64 = true := Option.some.inj hleaf
  have hroot' : s.load 2 0 = 0 := Option.some.inj hroot
  refine ⟨threads, s, (PoolSteps.refl _ _).schedule hrun,
    fun c => Prog.eq_ret_of_result? (Option.some.inj (hthreads c)),
    hleaf', Option.some.inj hempty, ?_⟩
  rintro ⟨S, hS⟩
  have h64 : 64 ∈ S := (hS.leaf 64).mp hleaf'
  have hnumLayers : numLayers 4097 = 3 := by decide +kernel
  have hzero := hS.root_eq_zero
  rw [hnumLayers] at hzero
  rw [hzero.mp hroot'] at h64
  exact Finset.notMem_empty 64 h64

/-- An insertion and a removal of the same index in a set with two layers. -/
theorem mixed_updates_two : ∃ s, Refines 100 s ((Finset.range 100).filter fun i => s.bit 0 i = true) ∧
    s.load 1 0 = 0 := by
  have hsome : (runSchedule [true, true, false, false, false, true] (fun up : Bool => update up 7)
      (create 100 false)).isSome = true := by decide +kernel
  obtain ⟨⟨threads, s⟩, hrun⟩ := Option.isSome_iff_exists.mp hsome
  have hthreads : ∀ c, ((runSchedule [true, true, false, false, false, true] (fun up : Bool => update up 7)
      (create 100 false)).map fun t => (t.1 c).result?) = some (some true) := by decide +kernel
  have hload : ((runSchedule [true, true, false, false, false, true] (fun up : Bool => update up 7)
      (create 100 false)).map fun t => t.2.load 1 0) = some 0 := by decide +kernel
  rw [hrun] at hthreads hload
  have hempty : Represents 100 (create 100 false) ∅ := represents_create 100 false
  exact ⟨s, mixed_updates Empty.elim (fun c : Bool => c) 100 (fun _ => 7) (by decide) hempty
    (Or.inl ⟨by decide, (PoolSteps.refl _ _).schedule hrun⟩) (fun _ => true)
    (fun c => Prog.eq_ret_of_result? (Option.some.inj (hthreads c))), Option.some.inj hload⟩

end IndexSet

end ToggleTree
