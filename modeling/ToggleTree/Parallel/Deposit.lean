import Mathlib.Data.Nat.Count
import ToggleTree.Parallel.Word

/-!
# Selecting a set bit by depositing a flag

A processor that can deposit bits finds the set bit number `i` without a loop: the flag `i` is
deposited at the set bits of the word, and the position of the result is read off. Both versions
of `popOffset` are characterised by the number of set bits below a position.
-/

namespace ToggleTree

/-- Deposit at the lowest `m` positions of the mask: the number of source bits used so far, and
the result. -/
def deposit (source mask : Word) : ℕ → ℕ × Word
  | 0 => (0, 0)
  | m + 1 =>
    let (k, dest) := deposit source mask m
    if mask.getLsbD m then (k + 1, if source.getLsbD k then dest ||| flag m else dest) else (k, dest)

/-- The bits of `source`, from the lowest on, move to the set bits of `mask`; all others are zero. -/
def pdep (source mask : Word) : Word := (deposit source mask 64).2

/-- The version of `popOffset` for processors with a bit-deposit instruction. -/
def popOffsetDeposit (i : ℕ) (word : Word) : ℕ := countrZero (pdep (flag i) word)

/-- The number of set bits below a position. -/
abbrev rankBelow (word : Word) (p : ℕ) : ℕ := Nat.count (fun b => word.getLsbD b = true) p

section Rank

variable {word : Word} {p q i : ℕ}

/-- A word has at most 64 flags. -/
theorem popCount_le (word : Word) : popCount word ≤ 64 := List.countP_le_length.trans_eq List.length_range

/-- A set bit stands in the enumeration behind those below it. -/
theorem bits_getElem?_rankBelow (hp : word.getLsbD p = true) : (bits word)[rankBelow word p]? = some p := by
  have hlt : p < 64 := bits_lt (mem_bits.mpr hp)
  have hrange : List.range 64 = List.range p ++ p :: List.range' (p + 1) (63 - p) := by
    rw [List.range_eq_range', List.range_eq_range', ← List.range'_succ, show 63 - p + 1 = 64 - p by omega]
    have happend := List.range'_append_1 (s := 0) (m := p) (n := 64 - p)
    rw [Nat.zero_add, Nat.add_sub_cancel' hlt.le] at happend
    exact happend.symm
  have hcount : rankBelow word p = ((List.range p).filter fun b => word.getLsbD b).length := by
    rw [rankBelow, Nat.count, List.countP_eq_length_filter]
    simp only [Bool.decide_eq_true]
  rw [bits, hrange, List.filter_append, List.filter_cons_of_pos hp, hcount, List.getElem?_append_right le_rfl,
    Nat.sub_self]
  rfl

/-- A set bit is determined by the number of set bits below it. -/
theorem rankBelow_inj (hp : word.getLsbD p = true) (hq : word.getLsbD q = true)
    (h : rankBelow word p = rankBelow word q) : p = q := by
  have heq := bits_getElem?_rankBelow hp
  rw [h, bits_getElem?_rankBelow hq] at heq
  exact (Option.some.inj heq).symm

/-- A flag that is counted is set. -/
theorem getLsbD_popOffset (h : i < popCount word) : word.getLsbD (popOffset i word) = true :=
  mem_bits.mp (popOffset_mem_bits h)

/-- The flags below the one that is counted. -/
theorem rankBelow_popOffset (h : i < popCount word) : rankBelow word (popOffset i word) = i := by
  have hlen : i < (bits word).length := popCount_eq_length word ▸ h
  refine ((List.getElem?_inj hlen (bits_nodup word)).mp ?_).symm
  rw [bits_getElem?_rankBelow (getLsbD_popOffset h), popOffset_eq_getD, List.getD_eq_getElem _ _ hlen,
    List.getElem?_eq_getElem hlen]

end Rank

/-- The deposit has used as many source bits as it has passed set bits of the mask. -/
theorem deposit_fst (source mask : Word) (m : ℕ) : (deposit source mask m).1 = rankBelow mask m := by
  induction m with
  | zero => rfl
  | succ m ih =>
    have hcount : rankBelow mask (m + 1) = rankBelow mask m + if mask.getLsbD m = true then 1 else 0 :=
      Nat.count_succ _ m
    rw [hcount, ← ih, deposit]
    dsimp only
    split
    · rfl
    · rfl

/-- The bits after some positions have received theirs. -/
theorem getLsbD_deposit (source mask : Word) {m : ℕ} (hm : m ≤ 64) (p : ℕ) :
    (deposit source mask m).2.getLsbD p =
      (decide (p < m) && (mask.getLsbD p && source.getLsbD (rankBelow mask p))) := by
  induction m with
  | zero => simp [deposit]
  | succ m ih =>
    have hsplit : decide (p < m + 1) = (decide (p < m) || decide (p = m)) := by
      rw [← Bool.decide_or]
      exact decide_eq_decide.mpr Nat.lt_succ_iff_lt_or_eq
    rw [hsplit, Bool.and_or_distrib_right, ← ih (by omega), deposit]
    dsimp only
    rw [deposit_fst]
    by_cases hp : p = m
    · subst hp
      have hold : (deposit source mask p).2.getLsbD p = false := by
        rw [ih (by omega)]
        simp
      by_cases hmask : mask.getLsbD p = true
      · by_cases hsource : source.getLsbD (rankBelow mask p) = true
        · simp [hmask, hsource, getLsbD_or_flag (show p < 64 by omega)]
        · simp [hmask, hsource]
      · simp [hmask]
    · split
      · split
        · simp [getLsbD_or_flag (show m < 64 by omega), hp]
        · simp [hp]
      · simp [hp]

/-- The bits of `pdep`: a position of the mask receives the bit of its rank. -/
theorem getLsbD_pdep (source mask : Word) (p : ℕ) :
    (pdep source mask).getLsbD p = (mask.getLsbD p && source.getLsbD (rankBelow mask p)) := by
  rw [pdep, getLsbD_deposit _ _ le_rfl]
  by_cases hp : p < 64
  · simp [hp]
  · simp [hp, BitVec.getLsbD_of_ge mask p (by omega)]

/-- A single flag is deposited at the set bit of its number. -/
theorem pdep_flag {i : ℕ} {word : Word} (h : i < popCount word) :
    pdep (flag i) word = flag (popOffset i word) := by
  refine (eq_flag_iff (bits_lt (popOffset_mem_bits h))).mpr fun p => ?_
  rw [getLsbD_pdep, getLsbD_flag (h.trans_le (popCount_le word)), Bool.eq_iff_iff, Bool.and_eq_true,
    decide_eq_true_eq, decide_eq_true_eq]
  constructor
  · rintro ⟨hp, hrank⟩
    exact rankBelow_inj hp (getLsbD_popOffset h) (hrank.trans (rankBelow_popOffset h).symm)
  · rintro rfl
    exact ⟨getLsbD_popOffset h, rankBelow_popOffset h⟩

/-- The lowest bit of a word with one flag. -/
theorem countrZero_flag {k : ℕ} (hk : k < 64) : countrZero (flag k) = k := by
  have hmem (i : ℕ) : i ∈ bits (flag k) ↔ i = k := by
    rw [mem_bits, getLsbD_flag hk, decide_eq_true_eq]
  rw [countrZero_eq_head]
  cases hbits : bits (flag k) with
  | nil =>
    rw [hbits] at hmem
    exact absurd ((hmem k).mpr rfl) List.not_mem_nil
  | cons p _ =>
    rw [hbits] at hmem
    exact (hmem p).mp List.mem_cons_self

/-- `popOffset` runs through the set bits in ascending order, and depositing a flag finds the same
positions. The deposited word is not zero, so its trailing zeros are defined. -/
theorem popOffset_selects (word : Word) :
    (∀ i < popCount word, word.getLsbD (popOffset i word) = true ∧ rankBelow word (popOffset i word) = i) ∧
    (∀ i j, i < j → j < popCount word → popOffset i word < popOffset j word) ∧
    (∀ p, word.getLsbD p = true ↔ ∃ i < popCount word, popOffset i word = p) ∧
    ∀ i < popCount word, pdep (flag i) word ≠ 0 ∧ popOffsetDeposit i word = popOffset i word := by
  refine ⟨fun i hi => ⟨getLsbD_popOffset hi, rankBelow_popOffset hi⟩, fun i j hij hj => ?_, fun p => ?_,
    fun i hi => ?_⟩
  · by_contra hle
    have hrank := Nat.count_monotone (fun b => word.getLsbD b = true) (not_lt.mp hle)
    rw [← rankBelow, ← rankBelow, rankBelow_popOffset hj, rankBelow_popOffset (hij.trans hj)] at hrank
    omega
  · rw [← mem_bits, ← map_popOffset_range, List.mem_map]
    simp only [List.mem_range]
  · have hlt : popOffset i word < 64 := bits_lt (popOffset_mem_bits hi)
    rw [popOffsetDeposit, pdep_flag hi]
    refine ⟨fun hzero => ?_, countrZero_flag hlt⟩
    have hbit := getLsbD_flag hlt (popOffset i word)
    rw [hzero, decide_eq_true rfl] at hbit
    simp at hbit

end ToggleTree
