import ToggleTree.Primitives.Blocks

/-!
# Exclusive prefixes

A long range is cut into blocks of 2048 elements. The values of each block are folded, the folds of
the blocks are turned into what stands before the blocks, and every block continues from there. An
associative operation with an identity gives the same values as one pass over the whole range; it
need not be commutative. Within a block the values are stored one by one or in cache lines.
-/

namespace ToggleTree

open Checked

namespace Primitives

section Code

variable {T : Type} (combine : T → T → T) (identity uninit : T)

/-- `stream_store`: a cache line of values is copied to the positions from `i` on. -/
def streamStore (output : Array T) (i : ℕ) (values : Array T) (written : List ℕ) : Option (Array T × List ℕ) :=
  loop 0 values.size (output, written) fun j (output, written) => do
    let x ← values[j]?
    let output ← write output (i + j) x
    some (output, written ++ [i + j])

/-- The loop that stores the values one by one. -/
def scanPlain (start : ℕ) (f : ℕ → Option T) (first last : ℕ) (offset : T) (output : Array T) (written : List ℕ) :
    Option (T × Array T × List ℕ) :=
  loop first last (offset, output, written) fun i (offset, output, written) => do
    let output ← write output i offset
    let x ← f (start + i)
    some (combine offset x, output, written ++ [i])

/-- The values of a cache line. -/
def lineValues (start : ℕ) (f : ℕ → Option T) (capacity i : ℕ) (offset : T) : Option (T × Array T) :=
  loop 0 capacity (offset, Array.replicate capacity uninit) fun j (offset, values) => do
    let values ← write values j offset
    let x ← f (start + i + j)
    some (combine offset x, values)

/-- The loop that stores cache lines, and the values that are left. -/
def scanStreaming (start : ℕ) (f : ℕ → Option T) (capacity first last : ℕ) (offset : T) (output : Array T)
    (written : List ℕ) :
    Option (T × Array T × List ℕ) := do
  let lines := (last - first) / capacity
  let (offset, output, written) ← loop 0 lines (offset, output, written) fun k (offset, output, written) => do
    let i := first + k * capacity
    let (offset, values) ← lineValues combine uninit start f capacity i offset
    let (output, written) ← streamStore output i values written
    some (offset, output, written)
  scanPlain combine start f (first + lines * capacity) last offset output written

/-- The loop through a block; `size` is the size of an element and `copyable` whether it is trivially copyable. -/
def scanBlock (copyable : Bool) (size start : ℕ) (f : ℕ → Option T) (first last : ℕ) (offset : T)
    (output : Array T) (written : List ℕ) : Option (T × Array T × List ℕ) :=
  if copyable ∧ 64 % size = 0 then scanStreaming combine uninit start f (64 / size) first last offset
    output written
  else scanPlain combine start f first last offset output written

/-- `scan`, with the positions that are written. -/
def scan (copyable : Bool) (size : ℕ) (schedule : Schedule) (start stop : ℕ) (f : ℕ → Option T) :
    Option (Array T × List ℕ) :=
  let n := stop - start
  if n < 8192 then do
    let (total, output, written) ← scanPlain combine start f 0 n identity (Array.replicate (n + 1) uninit) []
    let output ← write output n total
    some (output, written ++ [n])
  else do
    let numBlocks := ceilDiv n 2048
    let offsets ← build (numBlocks + 1) fun block =>
      if block = numBlocks then some identity
      else loop (block * 2048) (min n (block * 2048 + 2048)) identity fun i total => do
        let x ← f (start + i)
        some (combine total x)
    let (offsets, total) ← loop 0 (numBlocks + 1) (offsets, identity) fun i (offsets, total) => do
      let tmp ← offsets[i]?
      let offsets ← write offsets i total
      some (offsets, combine total tmp)
    let output ← write (Array.replicate (n + 1) uninit) n total
    parallelLoop schedule numBlocks (output, [n]) fun block (output, written) => do
      let offset ← offsets[block]?
      let (_, output, written) ← scanBlock combine uninit copyable size start f (block * 2048)
        (min n (block * 2048 + 2048)) offset output written
      some (output, written)

end Code

section Prefixes

variable {T : Type} (combine : T → T → T) (identity : T) (g : ℕ → T)

/-- The fold of the first `i` values, from left to right. -/
def prefixOf (i : ℕ) : T := ((List.range i).map g).foldl combine identity

/-- The fold of the values from `first` up to `last`. -/
def foldOf (first last : ℕ) : T := ((List.range' first (last - first)).map g).foldl combine identity

/-- One more value. -/
theorem prefixOf_succ (i : ℕ) : prefixOf combine identity g (i + 1) =
    combine (prefixOf combine identity g i) (g i) := by
  rw [prefixOf, List.range_succ, List.map_append, List.foldl_append]
  rfl

/-- The fold over no values. -/
theorem foldOf_self (i : ℕ) : foldOf combine identity g i i = identity := by
  rw [foldOf, Nat.sub_self]
  rfl

/-- One more value in a range. -/
theorem foldOf_succ {first i : ℕ} (h : first ≤ i) :
    foldOf combine identity g first (i + 1) = combine (foldOf combine identity g first i) (g i) := by
  rw [foldOf, Nat.succ_sub h, List.range'_concat, List.map_append, List.foldl_append, Nat.one_mul,
    Nat.add_sub_cancel' h]
  rfl

/-- The operations that `scan` is made for. -/
structure Monoidal (combine : T → T → T) (identity : T) : Prop where
  assoc : ∀ x y z, combine (combine x y) z = combine x (combine y z)
  left : ∀ x, combine identity x = x
  right : ∀ x, combine x identity = x

variable {combine identity} in
/-- The fold of a block continues what stands before it. -/
theorem Monoidal.prefixOf_foldOf (h : Monoidal combine identity) {first last : ℕ} (hle : first ≤ last) :
    combine (prefixOf combine identity g first) (foldOf combine identity g first last) =
      prefixOf combine identity g last := by
  induction last, hle using Nat.le_induction with
  | base => rw [foldOf_self, h.right]
  | succ i hi ih => rw [foldOf_succ combine identity g hi, ← h.assoc, ih, ← prefixOf_succ combine identity g]

end Prefixes

section Plain

variable {T : Type} {combine : T → T → T} {uninit : T} {P g : ℕ → T} {f : ℕ → Option T}
  {n start first last : ℕ} {done : ℕ → Prop} {output : Array T} {written : List ℕ}

/-- The positions that are done hold their values. -/
def Scanned (P : ℕ → T) (n : ℕ) (done : ℕ → Prop) (output : Array T) : Prop :=
  ∃ h, Contents output (n + 1) h ∧ ∀ p ≤ n, done p → h p = P p

/-- Fewer positions are done. -/
theorem Scanned.mono {done' : ℕ → Prop} (h : Scanned P n done output) (hdone : ∀ p ≤ n, done' p → done p) :
    Scanned P n done' output := by
  obtain ⟨v, hv, hdone'⟩ := h
  exact ⟨v, hv, fun p hp hd => hdone' p hp (hdone p hp hd)⟩

/-- A position is written. -/
theorem Scanned.write (h : Scanned P n done output) {p : ℕ} (hp : p ≤ n) :
    ∃ output', Checked.write output p (P p) = some output' ∧ Scanned P n (fun q => done q ∨ q = p) output' := by
  obtain ⟨v, hv, hdone⟩ := h
  obtain ⟨output', hwrite, hv'⟩ := hv.write (show p < n + 1 by omega) (P p)
  refine ⟨output', hwrite, _, hv', fun q hq hor => ?_⟩
  by_cases heq : q = p
  · rw [heq, Function.update_self]
  · rw [Function.update_of_ne heq]
    exact hdone q hq (hor.resolve_right heq)

/-- Nothing has been written. -/
theorem Scanned.fresh (P : ℕ → T) (n : ℕ) (uninit : T) :
    Scanned P n (fun _ => False) (Array.replicate (n + 1) uninit) :=
  ⟨_, Contents.replicate _ _, fun _ _ hf => hf.elim⟩

/-- One more position at the end of a range. -/
theorem range'_extend {i : ℕ} (h : first ≤ i) : List.range' first (i + 1 - first) =
    List.range' first (i - first) ++ [i] := by
  rw [Nat.succ_sub h, List.range'_concat, Nat.one_mul, Nat.add_sub_cancel' h]

variable (hP : ∀ i, P (i + 1) = combine (P i) (g i)) (hf : ∀ i < n, f (start + i) = some (g i))
include hP hf

/-- The plain inner loop writes the prefixes of its range. -/
theorem returns_scanPlain (hle : first ≤ last) (hlast : last ≤ n) (houtput : Scanned P n done output) :
    Returns (fun r => r.1 = P last ∧ Scanned P n (fun p => done p ∨ first ≤ p ∧ p < last) r.2.1 ∧
      r.2.2 = written ++ List.range' first (last - first))
        (scanPlain combine start f first last (P first) output written) := by
  refine Returns.loop (I := fun i (r : T × Array T × List ℕ) => r.1 = P i ∧
    Scanned P n (fun p => done p ∨ first ≤ p ∧ p < i) r.2.1 ∧
    r.2.2 = written ++ List.range' first (i - first)) hle ?_ ?_
  · refine ⟨rfl, houtput.mono fun p _ hor => hor.resolve_right (by omega), ?_⟩
    rw [Nat.sub_self]
    exact (List.append_nil _).symm
  · rintro i ⟨offset, output, log⟩ hi hi' ⟨rfl, houtput, rfl⟩
    obtain ⟨output', hwrite, houtput'⟩ := houtput.write (show i ≤ n by omega)
    refine Returns.bind_eq hwrite (Returns.bind_eq (hf i (by omega))
      (Returns.pure ⟨(hP i).symm, houtput'.mono fun p _ hor => ?_, ?_⟩))
    · rcases hor with hd | hrange
      · exact Or.inl (Or.inl hd)
      · by_cases heq : p = i
        · exact Or.inr heq
        · exact Or.inl (Or.inr (by omega))
    · rw [range'_extend hi, List.append_assoc]

/-- The values of a line are the prefixes of its positions. -/
theorem returns_lineValues {capacity i : ℕ} (hlast : i + capacity ≤ n) :
    Returns (fun r => r.1 = P (i + capacity) ∧ Contents r.2 capacity fun j => P (i + j))
      (lineValues combine uninit start f capacity i (P i)) := by
  refine (Returns.loop (I := fun j (r : T × Array T) => r.1 = P (i + j) ∧
    ∃ h, Contents r.2 capacity h ∧ ∀ k < j, h k = P (i + k)) (Nat.zero_le _) ?_ ?_).mono ?_
  · exact ⟨rfl, _, Contents.replicate _ _, fun k hk => absurd hk (Nat.not_lt_zero k)⟩
  · rintro j ⟨offset, values⟩ - hj ⟨rfl, h, hh, hvalues⟩
    obtain ⟨values', hwrite, hh'⟩ := hh.write hj (P (i + j))
    have hread : f (start + i + j) = some (g (i + j)) := by
      rw [Nat.add_assoc]
      exact hf (i + j) (by omega)
    refine Returns.bind_eq hwrite (Returns.bind_eq hread
      (Returns.pure ⟨(hP (i + j)).symm, _, hh', fun k hk => ?_⟩))
    by_cases heq : k = j
    · rw [heq, Function.update_self]
    · rw [Function.update_of_ne heq]
      exact hvalues k (by omega)
  · rintro ⟨offset, values⟩ ⟨rfl, h, hh, hvalues⟩
    exact ⟨rfl, hh.congr hvalues⟩

omit hP hf in
/-- A line is stored. -/
theorem returns_streamStore {capacity i : ℕ} {values : Array T} (hlast : i + capacity ≤ n + 1)
    (hvalues : Contents values capacity fun j => P (i + j)) (houtput : Scanned P n done output) :
    Returns (fun r => Scanned P n (fun p => done p ∨ i ≤ p ∧ p < i + capacity) r.1 ∧
      r.2 = written ++ List.range' i capacity) (streamStore output i values written) := by
  unfold streamStore
  rw [hvalues.size]
  refine Returns.loop (I := fun j (r : Array T × List ℕ) => Scanned P n (fun p => done p ∨ i ≤ p ∧
    p < i + j) r.1 ∧
    r.2 = written ++ List.range' i j) (Nat.zero_le _) ?_ ?_
  · exact ⟨houtput.mono fun p _ hor => hor.resolve_right (by omega), (List.append_nil _).symm⟩
  · rintro j ⟨output, log⟩ - hj ⟨houtput, rfl⟩
    obtain ⟨output', hwrite, houtput'⟩ := houtput.write (show i + j ≤ n by omega)
    refine Returns.bind_eq (hvalues.get j hj)
      (Returns.bind_eq hwrite (Returns.pure ⟨houtput'.mono fun p _ hor => ?_, ?_⟩))
    · rcases hor with hd | hrange
      · exact Or.inl (Or.inl hd)
      · by_cases heq : p = i + j
        · exact Or.inr heq
        · exact Or.inl (Or.inr (by omega))
    · rw [List.range'_concat, Nat.one_mul, List.append_assoc]

/-- The inner loop with streaming stores writes the prefixes of its range. -/
theorem returns_scanStreaming {capacity : ℕ} (hle : first ≤ last) (hlast : last ≤ n)
    (houtput : Scanned P n done output) :
    Returns (fun r => r.1 = P last ∧ Scanned P n (fun p => done p ∨ first ≤ p ∧ p < last) r.2.1 ∧
      r.2.2 = written ++ List.range' first (last - first))
      (scanStreaming combine uninit start f capacity first last (P first) output written) := by
  have hlines : first + (last - first) / capacity * capacity ≤ last := by
    have := Nat.div_mul_le_self (last - first) capacity
    omega
  unfold scanStreaming
  dsimp only
  generalize (last - first) / capacity = lines at *
  refine (Returns.loop (I := fun k (r : T × Array T × List ℕ) => r.1 = P (first + k * capacity) ∧
    Scanned P n (fun p => done p ∨ first ≤ p ∧ p < first + k * capacity) r.2.1 ∧
    r.2.2 = written ++ List.range' first (k * capacity)) (Nat.zero_le _) ?_ ?_).bind ?_
  · rw [Nat.zero_mul]
    exact ⟨rfl, houtput.mono fun p _ hor => hor.resolve_right (by omega), (List.append_nil _).symm⟩
  · rintro k ⟨offset, output, log⟩ - hk ⟨rfl, houtput, rfl⟩
    have hend : first + k * capacity + capacity ≤ last := by
      have hmul := Nat.mul_le_mul_right capacity (Nat.succ_le_of_lt hk)
      rw [Nat.succ_mul] at hmul
      omega
    refine (returns_lineValues hP hf (hend.trans hlast)).bind ?_
    rintro ⟨offset, values⟩ ⟨rfl, hvalues⟩
    refine (returns_streamStore (by omega) hvalues houtput).bind ?_
    rintro ⟨output', log⟩ ⟨houtput', rfl⟩
    rw [Nat.succ_mul, ← Nat.add_assoc]
    refine Returns.pure ⟨rfl, houtput'.mono fun p _ hor => ?_, ?_⟩
    · rcases hor with hd | hrange
      · exact Or.inl (Or.inl hd)
      · by_cases hlt : p < first + k * capacity
        · exact Or.inl (Or.inr ⟨hrange.1, hlt⟩)
        · exact Or.inr (by omega)
    · have happend := @List.range'_append first (k * capacity) capacity 1
      rw [Nat.one_mul] at happend
      rw [List.append_assoc, happend]
  · rintro ⟨offset, output, log⟩ ⟨rfl, houtput, rfl⟩
    refine (returns_scanPlain hP hf hlines hlast houtput).mono fun r ⟨htotal, hscanned, hlog⟩ =>
      ⟨htotal, hscanned.mono fun p _ hor => ?_, ?_⟩
    · rcases hor with hd | hrange
      · exact Or.inl (Or.inl hd)
      · by_cases hlt : p < first + lines * capacity
        · exact Or.inl (Or.inr ⟨hrange.1, hlt⟩)
        · exact Or.inr (by omega)
    · have happend := @List.range'_append first (lines * capacity) (last - (first + lines * capacity)) 1
      rw [Nat.one_mul,
        show lines * capacity + (last - (first + lines * capacity)) = last - first by omega] at happend
      rw [hlog, List.append_assoc, happend]

/-- Either inner loop writes the prefixes of its range. -/
theorem returns_scanBlock {copyable : Bool} {size : ℕ} (hle : first ≤ last) (hlast : last ≤ n)
    (houtput : Scanned P n done output) :
    Returns (fun r => r.1 = P last ∧ Scanned P n (fun p => done p ∨ first ≤ p ∧ p < last) r.2.1 ∧
      r.2.2 = written ++ List.range' first (last - first))
      (scanBlock combine uninit copyable size start f first last (P first) output written) := by
  unfold scanBlock
  split
  · exact returns_scanStreaming hP hf hle hlast houtput
  · exact returns_scanPlain hP hf hle hlast houtput

end Plain

section Scan

variable {T : Type} {combine : T → T → T} {identity : T} {g : ℕ → T} {f : ℕ → Option T} {n start numBlocks : ℕ}

/-- The first pass over a block returns its fold. -/
theorem returns_foldOf {first last : ℕ} (hle : first ≤ last) (hlast : last ≤ n)
    (hf : ∀ i < n, f (start + i) = some (g i)) :
    (loop first last identity fun i total => do
      let x ← f (start + i)
      some (combine total x)) = some (foldOf combine identity g first last) := by
  obtain ⟨total, heq, htotal⟩ : Returns (fun total => total = foldOf combine identity g first last)
      (loop first last identity fun i total => do
        let x ← f (start + i)
        some (combine total x)) := by
    refine Returns.loop (I := fun i total => total = foldOf combine identity g first i) hle
      (foldOf_self ..).symm ?_
    rintro i total hi hi' rfl
    exact Returns.bind_eq (hf i (by omega)) (Returns.pure (foldOf_succ combine identity g hi).symm)
  rw [heq, htotal]

/-- The folds of the blocks become what stands before the blocks. -/
theorem returns_scanOffsetsOf (h : Monoidal combine identity) (hcover : n ≤ numBlocks * 2048)
    (hinside : ∀ b < numBlocks, b * 2048 < n)
    {offsets : Array T} (hoffsets : Contents offsets (numBlocks + 1) fun b =>
      if b = numBlocks then identity else foldOf combine identity g (b * 2048) (min n (b * 2048 + 2048))) :
    Returns (fun r : Array T × T => Contents r.1 (numBlocks + 1)
      (fun b => prefixOf combine identity g (min n (b * 2048))) ∧
        r.2 = prefixOf combine identity g n)
      (loop 0 (numBlocks + 1) (offsets, identity) fun i (offsets, total) => do
        let tmp ← offsets[i]?
        let offsets ← write offsets i total
        some (offsets, combine total tmp)) := by
  have hbehind (i : ℕ) (hi : numBlocks ≤ i) : n ≤ (i + 1) * 2048 :=
    hcover.trans (Nat.mul_le_mul_right _ (by omega))
  refine (Returns.loop (I := fun i (r : Array T × T) => Contents r.1 (numBlocks + 1) (fun b =>
      if b < i then prefixOf combine identity g (min n (b * 2048))
      else if b = numBlocks then identity else foldOf combine identity g (b * 2048) (min n (b * 2048 + 2048))) ∧
    r.2 = prefixOf combine identity g (min n (i * 2048))) (Nat.zero_le _) ?_ ?_).mono ?_
  · refine ⟨hoffsets.congr fun b _ => (if_neg (Nat.not_lt_zero b)).symm, ?_⟩
    rw [Nat.zero_mul, Nat.min_zero]
    rfl
  · rintro i ⟨offsets, total⟩ - hi ⟨hoffsets, rfl⟩
    refine Returns.bind_eq (hoffsets.get i hi) ?_
    obtain ⟨offsets', hwrite, hoffsets'⟩ := hoffsets.write hi (prefixOf combine identity g (min n (i * 2048)))
    refine Returns.bind_eq hwrite (Returns.pure ⟨hoffsets'.congr fun b _ => ?_, ?_⟩)
    · by_cases heq : b = i
      · rw [heq, Function.update_self, if_pos (Nat.lt_succ_self i)]
      · rw [Function.update_of_ne heq]
        exact if_congr (by omega) rfl rfl
    · dsimp only
      rw [if_neg (lt_irrefl i)]
      by_cases hlast : i = numBlocks
      · have hnext : min n ((i + 1) * 2048) = n := min_eq_left (hbehind i hlast.ge)
        rw [if_pos hlast, h.right, hnext, hlast, min_eq_left hcover]
      · have hlt := hinside i (by omega)
        rw [if_neg hlast, min_eq_right hlt.le, Nat.succ_mul]
        exact h.prefixOf_foldOf g (by omega)
  · rintro ⟨offsets, total⟩ ⟨hoffsets, rfl⟩
    refine ⟨hoffsets.congr fun b hb => if_pos hb, ?_⟩
    have hlast : min n ((numBlocks + 1) * 2048) = n := min_eq_left (hbehind numBlocks le_rfl)
    rw [hlast]

/-- A position occurs once in a range that has it. -/
theorem count_range' (first len p : ℕ) :
    (List.range' first len).count p = if first ≤ p ∧ p < first + len then 1 else 0 := by
  rw [List.Nodup.count List.nodup_range']
  exact if_congr List.mem_range'_1 rfl rfl

/-- Two cases that exclude each other. -/
theorem ite_add_ite {A B : Prop} [Decidable A] [Decidable B] (h : ¬(A ∧ B)) :
    ((if A then 1 else 0) + if B then 1 else 0) = if A ∨ B then 1 else 0 := by
  by_cases hA : A <;> by_cases hB : B <;> simp_all

/-- `scan` returns all prefixes and writes every position once. -/
theorem returns_scan (h : Monoidal combine identity) (uninit : T) (copyable : Bool) (size : ℕ)
    (schedule : Schedule) (hn : n < 2 ^ 60) (hf : ∀ i < n, f (start + i) = some (g i)) :
    Returns (fun r => Contents r.1 (n + 1) (prefixOf combine identity g) ∧ r.2.Perm (List.range (n + 1)))
      (scan combine identity uninit copyable size schedule start (start + n) f) := by
  have hP := prefixOf_succ combine identity g
  unfold scan
  dsimp only
  rw [Nat.add_sub_cancel_left]
  split
  · refine (returns_scanPlain hP hf (Nat.zero_le n) le_rfl (Scanned.fresh _ n uninit)).bind ?_
    rintro ⟨total, output, written⟩ ⟨rfl, houtput, rfl⟩
    obtain ⟨output', hwrite, v, hv, hdone⟩ := houtput.write le_rfl
    refine Returns.bind_eq hwrite (Returns.pure ⟨hv.congr fun p hp => hdone p (by omega) (by omega), ?_⟩)
    rw [List.nil_append, Nat.sub_zero, ← List.range_eq_range', ← List.range_succ]
  · have hcover : n ≤ 2048 * ceilDiv n 2048 := le_mul_ceilDiv (by omega) (by omega)
    have hinside : ∀ b < ceilDiv n 2048, b * 2048 < n := by
      intro b hb
      rw [ceilDiv_eq (by omega)] at hb
      omega
    rw [Nat.mul_comm] at hcover
    generalize ceilDiv n 2048 = numBlocks at *
    refine (Returns.build (g := fun b => if b = numBlocks then identity else
      foldOf combine identity g (b * 2048) (min n (b * 2048 + 2048))) fun b hb => ?_).bind fun offsets
        hoffsets => ?_
    · split
      · rfl
      · have hlt := hinside b (by omega)
        exact returns_foldOf (by omega) (min_le_left _ _) hf
    refine (returns_scanOffsetsOf h hcover hinside hoffsets).bind ?_
    rintro ⟨offsets, total⟩ ⟨hoffsets, rfl⟩
    obtain ⟨output, hwrite, houtput⟩ := (Scanned.fresh (prefixOf combine identity g) n uninit).write le_rfl
    refine Returns.bind_eq hwrite ((Returns.parallelLoop (I := fun done (r : Array T × List ℕ) =>
      Scanned (prefixOf combine identity g) n (fun p => p = n ∨ p < n ∧ p / 2048 ∈ done) r.1 ∧
      ∀ p, r.2.count p = if p = n ∨ p < n ∧ p / 2048 ∈ done then 1 else 0) ?_ ?_).mono ?_)
    · refine ⟨houtput.mono fun p _ hor => Or.inr
        (hor.resolve_right fun hmem => Finset.notMem_empty _ hmem.2), fun p => ?_⟩
      rw [List.count_singleton]
      by_cases hp : p = n
      · simp [hp]
      · have hnone : ¬(p = n ∨ p < n ∧ p / 2048 ∈ (∅ : Finset ℕ)) :=
          fun hor => hor.elim hp fun hmem => Finset.notMem_empty _ hmem.2
        rw [if_neg hnone, if_neg (by simpa using Ne.symm hp)]
    · rintro done block ⟨output, written⟩ hblock hnot ⟨houtput, hcount⟩
      have hlt := hinside block hblock
      have hfirst : min n (block * 2048) = block * 2048 := min_eq_right hlt.le
      refine Returns.bind_eq (hoffsets.get block (by omega)) ?_
      rw [hfirst]
      have hmem (p : ℕ) : block * 2048 ≤ p ∧ p < min n (block * 2048 + 2048) ↔
        p < n ∧ p / 2048 = block := by omega
      refine (returns_scanBlock hP hf (by omega) (min_le_left _ _) houtput).bind ?_
      rintro ⟨offset, output', written'⟩ ⟨-, houtput', rfl⟩
      refine Returns.pure ⟨houtput'.mono fun p _ hor => ?_, fun p => ?_⟩
      · rw [hmem p, Finset.mem_insert] at *
        tauto
      · have hblock' : p / 2048 ∈ done → p / 2048 ≠ block := fun hd heq => hnot (heq ▸ hd)
        rw [List.count_append, hcount p, count_range', Nat.add_sub_cancel' (by omega), if_congr (hmem p) rfl rfl,
          ite_add_ite (by rintro ⟨rfl | hd, hb⟩ <;> [omega; exact hblock' hd.2 hb.2])]
        refine if_congr ?_ rfl rfl
        rw [Finset.mem_insert]
        tauto
    · rintro ⟨output, written⟩ ⟨⟨v, hv, hdone⟩, hcount⟩
      have hall : ∀ p, p ≤ n → p = n ∨ p < n ∧ p / 2048 ∈ Finset.range numBlocks := by
        intro p hp
        rw [Finset.mem_range]
        omega
      refine ⟨hv.congr fun p hp => hdone p (by omega) (hall p (by omega)), List.perm_iff_count.mpr fun p => ?_⟩
      rw [hcount p, List.range_eq_range', count_range']
      refine if_congr ⟨fun hor => by omega, fun hp => hall p (by omega)⟩ rfl rfl

/-- `scan` gives the folds from the left of all initial ranges and writes every position once, for every
length, and whether the values are stored one by one or in cache lines. -/
theorem scan_prefixes (h : Monoidal combine identity) (uninit : T) (copyable : Bool) (size : ℕ)
    (schedule : Schedule) (f : ℕ → T) {stop : ℕ} (hle : start ≤ stop) (hn : stop - start < 2 ^ 60) :
    ∃ output written, scan combine identity uninit copyable size schedule start stop (fun i => some (f i)) =
      some (output, written) ∧
      output.size = stop - start + 1 ∧
      (∀ i ≤ stop - start, output[i]? = some (((List.range' start i).map f).foldl combine identity)) ∧
      written.Perm (List.range (stop - start + 1)) := by
  have hstop : start + (stop - start) = stop := by omega
  have hscan :
    Returns _ (scan combine identity uninit copyable size schedule start (start + (stop - start)) fun i =>
      some (f i)) :=
    returns_scan (g := fun i => f (start + i)) h uninit copyable size schedule hn fun _ _ => rfl
  rw [hstop] at hscan
  obtain ⟨⟨output, written⟩, heq, houtput, hwritten⟩ := hscan
  refine ⟨output, written, heq, houtput.size, fun i hi => ?_, hwritten⟩
  have hrange : List.range' start i = (List.range i).map (start + ·) := by
    rw [List.range_eq_range', List.map_add_range', Nat.add_zero]
  rw [houtput.get i (by omega), prefixOf, hrange, List.map_map]
  rfl

/-- The prefixes of the lists `[2], [3], …`, which concatenation does not let commute: of three of them in one
pass, and of ten thousand in five blocks that run last to first and store cache lines. -/
theorem scan_prefixes_append :
    (∃ output written, scan (· ++ ·) ([] : List ℕ) [] true 24 Schedule.ascending 2 5 (fun i => some [i]) =
        some (output, written) ∧
      output.size = 5 - 2 + 1 ∧
      (∀ i ≤ 5 - 2, output[i]? = some (((List.range' 2 i).map fun i => [i]).foldl (· ++ ·) [])) ∧
      written.Perm (List.range (5 - 2 + 1))) ∧
    ∃ output written, scan (· ++ ·) ([] : List ℕ) [] true 8 Schedule.descending 2 10002 (fun i => some [i]) =
        some (output, written) ∧
      output.size = 10002 - 2 + 1 ∧
      (∀ i ≤ 10002 - 2, output[i]? = some (((List.range' 2 i).map fun i => [i]).foldl (· ++ ·) [])) ∧
      written.Perm (List.range (10002 - 2 + 1)) := by
  have happend : Monoidal (· ++ ·) ([] : List ℕ) := ⟨List.append_assoc, List.nil_append, List.append_nil⟩
  constructor
  · exact scan_prefixes happend [] true 24 Schedule.ascending (fun i => [i]) (by norm_num) (by norm_num)
  · exact scan_prefixes happend [] true 8 Schedule.descending (fun i => [i]) (by norm_num) (by norm_num)

end Scan

end Primitives

end ToggleTree
