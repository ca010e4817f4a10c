import ToggleTree.Checked.Loop

/-!
# Bytes

Numbers are stored with the least significant byte first. A list of records of a fixed width can be
read back at the multiples of the width, whatever stands before and behind it.

Nothing here refers to a particular program.
-/

namespace Checked

/-- A byte. -/
abbrev Byte := BitVec 8

/-- The lowest `k` bytes of a number. -/
def encode : ℕ → ℕ → List Byte
  | 0, _ => []
  | k + 1, x => BitVec.ofNat 8 x :: encode k (x / 256)

/-- The number that some bytes stand for. -/
def decode : List Byte → ℕ
  | [] => 0
  | b :: l => b.toNat + 256 * decode l

/-- The records `start`, …, `start + n - 1` of `k` bytes each. -/
def records (k start n : ℕ) (f : ℕ → ℕ) : List Byte := (List.range' start n).flatMap fun i => encode k (f i)

/-- Read a number of `k` bytes. -/
def readAt (bytes : List Byte) (k position : ℕ) : Option ℕ :=
  if position + k ≤ bytes.length then some (decode ((bytes.drop position).take k)) else none

/-- The bytes of the first elements of an array. -/
def bytesOf (k : ℕ) (a : Array ℕ) (count : ℕ) : Option (List Byte) :=
  if count ≤ a.size then some ((a.toList.take count).flatMap (encode k)) else none

/-- The first part of a program returns a known value. -/
theorem bind_eq_of_eq {α β : Type} {x : Option α} {a : α} (hx : x = some a) (f : α → Option β) :
    (x >>= f) = f a := by
  rw [hx]
  rfl

variable {k start n i x : ℕ} {f g : ℕ → ℕ}

/-- The number of bytes of an encoded number. -/
@[simp] theorem length_encode : (encode k x).length = k := by
  induction k generalizing x with
  | zero => rfl
  | succ k ih => rw [encode, List.length_cons, ih]

/-- The bytes are read as what they were written for, as far as there are enough of them. -/
theorem decode_encode : decode (encode k x) = x % 256 ^ k := by
  induction k generalizing x with
  | zero => simp [encode, decode, Nat.mod_one]
  | succ k ih =>
    have h256 : (2 : ℕ) ^ 8 = 256 := rfl
    rw [encode, decode, ih, BitVec.toNat_ofNat, h256, pow_succ', Nat.mod_mul]

/-- The number of bytes of some records. -/
@[simp] theorem length_records : (records k start n f).length = k * n := by
  unfold records
  induction n generalizing start with
  | zero => simp
  | succ n ih =>
    rw [List.range'_succ, List.flatMap_cons, List.length_append, ih, length_encode]
    ring

/-- No records are no bytes. -/
theorem records_zero : records k start 0 f = [] := rfl

/-- Records one after the other are the records of both. -/
theorem records_append (m : ℕ) : records k start n f ++ records k (start + n) m f =
    records k start (n + m) f := by
  rw [records, records, records, ← List.flatMap_append]
  have happend := @List.range'_append start n m 1
  rw [Nat.one_mul] at happend
  rw [happend]

/-- The records depend only on their contents. -/
theorem records_congr (h : ∀ i, start ≤ i → i < start + n → f i = g i) :
    records k start n f = records k start n g := by
  unfold records
  refine List.flatMap_congr fun i hi => ?_
  rw [List.mem_range'_1] at hi
  rw [h i hi.1 hi.2]

/-- The records of a shifted function. -/
theorem records_shift : records k 0 n (fun i => f (start + i)) = records k start n f := by
  unfold records
  induction n with
  | zero => rfl
  | succ n ih =>
    rw [List.range'_concat, List.range'_concat, List.flatMap_append, List.flatMap_append, ih]
    simp

/-- The first record and the others. -/
theorem records_succ : records k start (n + 1) f = encode k (f start) ++ records k (start + 1) n f := by
  rw [records, List.range'_succ, List.flatMap_cons]
  rfl

/-- A record is read back where it was written. -/
theorem readAt_records (before after : List Byte) (hi : i < n) :
    readAt (before ++ records k start n f ++ after) k (before.length + k * i) =
      some (f (start + i) % 256 ^ k) := by
  have hsplit : records k start n f =
      records k start i f ++ (encode k (f (start + i)) ++ records k (start + i + 1) (n - i - 1) f) := by
    rw [← records_succ, records_append]
    congr 1
    omega
  have hle : before.length + k * i + k ≤ (before ++ records k start n f ++ after).length := by
    rw [List.length_append, List.length_append, length_records]
    have := Nat.mul_le_mul_left k (show i + 1 ≤ n by omega)
    rw [Nat.mul_succ] at this
    omega
  have hdrop : (before ++ records k start n f ++ after).drop (before.length + k * i) =
      encode k (f (start + i)) ++ (records k (start + i + 1) (n - i - 1) f ++ after) := by
    have hlen : before.length + k * i = (before ++ records k start i f).length := by
      rw [List.length_append, length_records]
    rw [hsplit, hlen, ← List.append_assoc before, List.append_assoc (before ++ records k start i f),
      List.drop_left,
      List.append_assoc]
  rw [readAt, if_pos hle, hdrop, List.take_left' length_encode, decode_encode]

/-- The bytes of an array are its records. -/
theorem bytesOf_contents {a : Array ℕ} {size count : ℕ} (h : Contents a size f) (hcount : count ≤ size) :
    bytesOf k a count = some (records k 0 count f) := by
  rw [bytesOf, if_pos (by rw [h.size]; exact hcount), h.toList, ← List.map_take, List.take_range,
    min_eq_left hcount,
    List.flatMap_map, records, ← List.range_eq_range']

end Checked
