import ToggleTree.Scheduler.Deque

/-!
# The packed counters of a deque

The word `pos` stores two unbounded counters `h ≤ t` modulo `2 ^ bits`, the head below the
tail. As long as they are less than `capacity` apart, the length read from the word is
`t - h`, and the updates of the word move one counter without touching the other.
-/

namespace ToggleTree

namespace DequeType

variable (T : DequeType)

/-- The word that packs the counters `h` and `t`. -/
def pack (h t : ℕ) : ℕ := (t * T.unit + h % T.unit) % T.range

/-- The slot of a counter value. -/
def place (i : ℕ) : ℕ := T.physic (i % T.unit)

/-- There is at least one number. -/
theorem unit_pos : 0 < T.unit := Nat.two_pow_pos _

/-- The places are among the numbers. -/
theorem capacity_le : T.capacity ≤ T.unit := T.le_pow

/-- The words are pairs of numbers. -/
theorem range_eq : T.range = T.unit * T.unit := by rw [range, unit, two_mul, pow_add]

/-- A word by its two numbers. -/
theorem pack_eq (h t : ℕ) : T.pack h t = t % T.unit * T.unit + h % T.unit := by
  have hlt : h % T.unit < T.unit := Nat.mod_lt _ T.unit_pos
  rw [pack, range_eq, Nat.mod_mul, Nat.mul_add_mod_self_right, Nat.mod_eq_of_lt hlt,
    Nat.mul_comm t, Nat.mul_add_div T.unit_pos, Nat.div_eq_of_lt hlt, add_zero]
  ring

/-- A number is taken modulo its range. -/
theorem toST_eq (x : ℕ) : T.toST x = x % T.unit := rfl

/-- A shift divides by the number of numbers. -/
theorem shiftRight_eq (p : ℕ) : p >>> T.bits = p / T.unit := Nat.shiftRight_eq_div_pow p T.bits

/-- The lower number of a word. -/
@[simp] theorem toST_pack (h t : ℕ) : T.toST (T.pack h t) = h % T.unit := by
  rw [pack_eq, toST_eq, Nat.mul_add_mod_self_right, Nat.mod_mod]

/-- The upper number of a word. -/
theorem shiftRight_pack (h t : ℕ) : T.pack h t >>> T.bits = t % T.unit := by
  have hlt : h % T.unit < T.unit := Nat.mod_lt _ T.unit_pos
  rw [pack_eq, shiftRight_eq, Nat.mul_comm, Nat.mul_add_div T.unit_pos, Nat.div_eq_of_lt hlt, add_zero]

/-- The head of a word is the place of its number. -/
@[simp] theorem head_pack (h t : ℕ) : T.head (T.pack h t) = T.place h := by
  rw [head, toST_pack, place]

/-- The tail of a word is the place of its number. -/
@[simp] theorem tail_pack (h t : ℕ) : T.tail (T.pack h t) = T.place t := by
  rw [tail, shiftRight_pack, toST_eq, Nat.mod_mod, place]

/-- A place is its own. -/
theorem physic_of_lt {i : ℕ} (h : i < T.capacity) : T.physic i = i := by
  unfold physic
  split
  · rfl
  · exact Nat.mod_eq_of_lt h

/-- The length of a deque. -/
theorem length_pack {h t : ℕ} (hle : h ≤ t) (hlt : t < h + T.capacity) :
    T.length (T.pack h t) = t - h := by
  have hcap := T.capacity_le
  have hdiff : t - h < T.unit := by omega
  have hsum : (t % T.unit + T.unit - h % T.unit) % T.unit = t - h := by
    have hmod := Nat.mod_lt h T.unit_pos
    have ht : t = h + (t - h) := by omega
    have key : t % T.unit + T.unit - h % T.unit ≡ t - h [MOD T.unit] := by
      refine Nat.ModEq.add_right_cancel' (h % T.unit) ?_
      rw [Nat.sub_add_cancel (by omega)]
      calc t % T.unit + T.unit ≡ t [MOD T.unit] := by
            rw [Nat.ModEq, Nat.add_mod_right, Nat.mod_mod]
        _ = t - h + h := by omega
        _ ≡ t - h + h % T.unit [MOD T.unit] := (Nat.mod_modEq h _).symm.add_left _
    exact Eq.trans key (Nat.mod_eq_of_lt hdiff)
  rw [length, toST_pack, shiftRight_pack, toST_eq, toST_eq, Nat.mod_mod]
  change T.physic ((t % T.unit + T.unit - h % T.unit) % T.unit) = t - h
  rw [hsum, physic_of_lt _ (by omega)]

/-- Adding to the tail. -/
theorem pack_add (h t k : ℕ) : (T.pack h t + k * T.unit) % T.range = T.pack h (t + k) := by
  rw [pack, pack, Nat.mod_add_mod]
  congr 1
  ring

/-- Subtracting from the tail. -/
theorem sub_pack {h t k : ℕ} (hk : k ≤ t) (hle : k ≤ T.unit) :
    T.sub (T.pack h t) (k * T.unit) = T.pack h (t - k) := by
  have hrange : k * T.unit ≤ T.range := by
    rw [range_eq]
    exact Nat.mul_le_mul_right _ hle
  obtain ⟨r, rfl⟩ := Nat.exists_eq_add_of_le hk
  rw [sub, pack, pack, Nat.mod_add_mod, Nat.add_sub_cancel_left]
  rw [show (k + r) * T.unit + h % T.unit + (T.range - k * T.unit) =
    r * T.unit + h % T.unit + T.range by rw [add_mul]; omega, Nat.add_mod_right]

/-- Storing the tail half alone. -/
theorem pack_store (h h' t k : ℕ) :
    T.toST (T.toST (T.pack h' t >>> T.bits) + k) <<< T.bits + T.toST (T.pack h t) =
      T.pack h (t + k) := by
  rw [shiftRight_pack, toST_pack, toST_eq, toST_eq, Nat.mod_mod, Nat.mod_add_mod, Nat.shiftLeft_eq,
    pack_eq]
  rfl

/-- The word that a thief proposes. -/
theorem pack_next (h t : ℕ) :
    (T.pack h t >>> T.bits) <<< T.bits ||| T.toST (T.toST (T.pack h t) + 1) = T.pack (h + 1) t := by
  have hlt : (h % T.unit + 1) % T.unit < 2 ^ T.bits := Nat.mod_lt _ T.unit_pos
  rw [shiftRight_pack, toST_pack, toST_eq, Nat.shiftLeft_eq, Nat.mul_comm,
    ← Nat.two_pow_add_eq_or_of_lt hlt, Nat.mod_add_mod, pack_eq]
  rw [Nat.mul_comm]
  rfl

/-- Moving a counter changes the word. -/
theorem pack_ne_tail {h t k : ℕ} (hk : 0 < k) (hlt : k < T.unit) : T.pack h (t + k) ≠ T.pack h t := by
  intro heq
  have hshift := congrArg (· >>> T.bits) heq
  simp only [shiftRight_pack] at hshift
  have hmod : t + k ≡ t + 0 [MOD T.unit] := hshift
  have hzero := (Nat.ModEq.add_left_cancel' t hmod).eq_of_lt_of_lt hlt T.unit_pos
  omega

/-- Moving the head changes the word. -/
theorem pack_ne_head (h t : ℕ) : T.pack (h + 1) t ≠ T.pack h t := by
  have hunit : 1 < T.unit := by
    have := T.three_le
    have := T.capacity_le
    omega
  intro heq
  have hlow := congrArg T.toST heq
  simp only [toST_pack] at hlow
  have hmod : h + 1 ≡ h + 0 [MOD T.unit] := hlow
  have hone := (Nat.ModEq.add_left_cancel' h hmod).eq_of_lt_of_lt hunit T.unit_pos
  omega

end DequeType

end ToggleTree
