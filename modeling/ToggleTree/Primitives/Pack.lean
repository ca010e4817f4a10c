import ToggleTree.Parallel.Word
import ToggleTree.Primitives.Blocks

/-!
# Packing

The condition is evaluated into mask words, one bit for every index. The set bits of the words
before a block tell where its output starts, so the blocks can be written in any order. The output
lists what is kept in the order of the indices, and does not show the blocks. The condition is
evaluated once for every index, the function once for every index that is kept.
-/

namespace ToggleTree

open Checked

namespace Primitives

section Code

variable {T : Type}

/-- `pack_mask_word`: the bits of up to 64 indices. -/
def packMaskWord (base stop : ℕ) (condition : ℕ → Option Bool) : Option Word :=
  loop 0 (min 64 (stop - base)) 0 fun i m => do
    let c ← condition (base + i)
    some (m ||| if c then flag i else 0)

/-- The mask words from `first` up to `last`, and the number of bits that are set in them. -/
def packWords (start stop : ℕ) (condition : ℕ → Option Bool) (first last : ℕ) (mask : Array Word) :
    Option (Array Word × ℕ) :=
  loop first last (mask, 0) fun w (mask, count) => do
    let m ← packMaskWord (start + w * 64) stop condition
    let mask ← write mask w m
    some (mask, count + popCount m)

/-- Clearing the lowest bit makes a word smaller. -/
theorem and_sub_one_lt {m : Word} (h : m ≠ 0) : (m &&& (m - 1)).toNat < m.toNat := by
  have hpos : 0 < m.toNat := Nat.pos_of_ne_zero fun h0 => h (BitVec.eq_of_toNat_eq (by simpa using h0))
  have hone : (1 : Word).toNat = 1 := rfl
  have hsub : (m - 1).toNat = m.toNat - 1 := by
    rw [BitVec.toNat_sub_of_le (by rw [BitVec.le_def, hone]; exact hpos), hone]
  calc (m &&& (m - 1)).toNat ≤ (m - 1).toNat := by rw [BitVec.toNat_and]; exact Nat.and_le_right
    _ < m.toNat := by omega

/-- The loop over the set bits of a mask word. -/
def unpackWord (f : ℕ → Option T) (base : ℕ) (m : Word) (output : Array T) (offset : ℕ) : Option (Array T × ℕ) :=
  if h : m ≠ 0 then do
    let x ← f (base + countrZero m)
    let output ← write output offset x
    unpackWord f base (m &&& (m - 1)) output (offset + 1)
  else some (output, offset)
termination_by m.toNat
decreasing_by exact and_sub_one_lt h

/-- Write what the mask words from `first` up to `last` keep. -/
def unpackWords (start : ℕ) (f : ℕ → Option T) (mask : Array Word) (first last offset : ℕ) (output : Array T) :
    Option (Array T) := do
  let (output, _) ← loop first last (output, offset) fun w (output, offset) => do
    let m ← mask[w]?
    unpackWord f (start + w * 64) m output offset
  some output

end Code

section Traced

variable {T : Type}

/-- `pack_mask_word`, with the indices at which the condition is evaluated. -/
def packMaskWordTraced (base stop : ℕ) (condition : ℕ → Option Bool) (evaluated : List ℕ) :
    Option (Word × List ℕ) :=
  loop 0 (min 64 (stop - base)) (0, evaluated) fun i (m, evaluated) => do
    let c ← condition (base + i)
    some (m ||| if c then flag i else 0, evaluated ++ [base + i])

/-- The mask words from `first` up to `last`. -/
def packWordsTraced (start stop : ℕ) (condition : ℕ → Option Bool) (first last : ℕ) (mask : Array Word)
    (evaluated : List ℕ) :
    Option ((Array Word × ℕ) × List ℕ) :=
  loop first last ((mask, 0), evaluated) fun w ((mask, count), evaluated) => do
    let (m, evaluated) ← packMaskWordTraced (start + w * 64) stop condition evaluated
    let mask ← write mask w m
    some ((mask, count + popCount m), evaluated)

/-- The loop over the set bits of a mask word, with the indices at which the function is evaluated. -/
def unpackWordTraced (f : ℕ → Option T) (base : ℕ) (m : Word) (output : Array T) (offset : ℕ) (applied : List ℕ) :
    Option ((Array T × ℕ) × List ℕ) :=
  if _ : m ≠ 0 then do
    let x ← f (base + countrZero m)
    let output ← write output offset x
    unpackWordTraced f base (m &&& (m - 1)) output (offset + 1) (applied ++ [base + countrZero m])
  else some ((output, offset), applied)
termination_by m.toNat
decreasing_by exact and_sub_one_lt ‹m ≠ 0›

/-- Write what the mask words from `first` up to `last` keep. -/
def unpackWordsTraced (start : ℕ) (f : ℕ → Option T) (mask : Array Word) (first last offset : ℕ)
    (output : Array T) (applied : List ℕ) : Option (Array T × List ℕ) := do
  let ((output, _), applied) ← loop first last ((output, offset), applied) fun w ((output, offset), applied) => do
    let m ← mask[w]?
    unpackWordTraced f (start + w * 64) m output offset applied
  some (output, applied)

/-- What a run of `pack_impl` gives, and the indices at which the condition and the function have been
evaluated. -/
structure Packing (T : Type) where
  total : ℕ
  output : Array T
  evaluated : List ℕ
  applied : List ℕ

/-- `pack_impl` -/
def packImpl (getOutput : ℕ → Array T) (fresh : Word) (numWorkers : ℕ) (schedules : ℕ → Schedule) (start stop : ℕ)
    (condition : ℕ → Option Bool) (f : ℕ → Option T) : Option (Packing T) :=
  let n := stop - start
  let numWords := ceilDiv n 64
  if n < 8192 then do
    let ((mask, total), evaluated) ← packWordsTraced start stop condition 0 numWords
      (Array.replicate numWords fresh) []
    let (output, applied) ← unpackWordsTraced start f mask 0 numWords 0 (getOutput total) []
    some ⟨total, output, evaluated, applied⟩
  else do
    let numBlocks := min (numWorkers * 16) (ceilDiv numWords 16)
    let blockWords := ceilDiv numWords numBlocks
    let ((mask, counts), evaluated) ← parallelLoop (schedules 0) numBlocks
      ((Array.replicate numWords fresh, Array.replicate numBlocks 0), []) fun block
        ((mask, counts), evaluated) => do
        let ((mask, count), evaluated) ← packWordsTraced start stop condition (block * blockWords)
          (min numWords (block * blockWords + blockWords)) mask evaluated
        let counts ← write counts block count
        some ((mask, counts), evaluated)
    let (counts, total) ← loop 0 numBlocks (counts, 0) fun block (counts, total) => do
      let count ← counts[block]?
      let total := total + count
      let counts ← write counts block (total - count)
      some (counts, total)
    let (output, applied) ← parallelLoop (schedules 1) numBlocks (getOutput total, []) fun block
      (output, applied) => do
      let offset ← counts[block]?
      unpackWordsTraced start f mask (block * blockWords)
        (min numWords (block * blockWords + blockWords)) offset output applied
    some ⟨total, output, evaluated, applied⟩

/-- `pack`: the output is a new array of the right size; `fresh` and `uninit` are what new memory holds. -/
def pack (uninit : ℕ → T) (fresh : Word) (numWorkers : ℕ) (schedules : ℕ → Schedule) (start stop : ℕ)
    (condition : ℕ → Option Bool) (f : ℕ → Option T) : Option (Array T) :=
  (packImpl (fun total => Array.ofFn fun i : Fin total => uninit i) fresh numWorkers schedules start stop
    condition f).map Packing.output

/-- `pack_into` -/
def packInto (output : Array T) (fresh : Word) (numWorkers : ℕ) (schedules : ℕ → Schedule) (start stop : ℕ)
    (condition : ℕ → Option Bool) (f : ℕ → Option T) : Option (Packing T) :=
  packImpl (fun _ => output) fresh numWorkers schedules start stop condition f

end Traced

section Traces

variable {T : Type} {f : ℕ → Option T} {condition : ℕ → Option Bool} {start stop first last : ℕ}

/-- The indices of a mask word. -/
def wordIndices (start stop w : ℕ) : List ℕ := List.range' (start + w * 64) (min 64 (stop - (start + w * 64)))

/-- The indices that a mask word keeps. -/
def wordKept (start : ℕ) (mask : Array Word) (w : ℕ) : List ℕ :=
  ((mask[w]?).map bits).getD [] |>.map (start + w * 64 + ·)

/-- The traced word of the mask evaluates the condition at its positions. -/
theorem packMaskWordTraced_eq (w : ℕ) (evaluated : List ℕ) :
    packMaskWordTraced (start + w * 64) stop condition evaluated =
    (packMaskWord (start + w * 64) stop condition).map fun m => (m, evaluated ++ wordIndices start stop w) := by
  have hindices : wordIndices start stop w =
      (List.range' 0 (min 64 (stop - (start + w * 64)) - 0)).flatMap fun i => [start + w * 64 + i] := by
    rw [← List.map_eq_flatMap, List.map_add_range', Nat.sub_zero, Nat.add_zero]
    rfl
  rw [hindices]
  refine loop_trace (fun i m evaluated => ?_) 0 _ 0 evaluated
  cases condition (start + w * 64 + i) <;> rfl

/-- The traced words of the mask evaluate the condition at their positions. -/
theorem packWordsTraced_eq (mask : Array Word) (evaluated : List ℕ) :
    packWordsTraced start stop condition first last mask evaluated =
      (packWords start stop condition first last mask).map fun r =>
        (r, evaluated ++ (List.range' first (last - first)).flatMap (wordIndices start stop)) := by
  refine loop_trace (fun w ⟨mask, count⟩ evaluated => ?_) first last _ evaluated
  dsimp only
  rw [packMaskWordTraced_eq]
  cases packMaskWord (start + w * 64) stop condition with
  | none => rfl
  | some m => cases hwrite : write mask w m <;> simp [hwrite]

/-- The traced word applies the function at its bits. -/
theorem unpackWordTraced_eq (base : ℕ) (m : Word) (output : Array T) (offset : ℕ) (applied : List ℕ) :
    unpackWordTraced f base m output offset applied =
      (unpackWord f base m output offset).map fun r => (r, applied ++ (bits m).map (base + ·)) := by
  induction hn : m.toNat using Nat.strong_induction_on generalizing m output offset applied with
  | _ size ih =>
    rw [unpackWordTraced, unpackWord]
    by_cases hzero : m = 0
    · rw [dif_neg (not_not.mpr hzero), dif_neg (not_not.mpr hzero), bits_eq_nil_iff.mpr hzero]
      simp
    · obtain ⟨k, r, hk⟩ := toNat_eq_lowest hzero
      rw [dif_pos hzero, dif_pos hzero, bits_lowest hk, countrZero_eq_head, bits_lowest hk, List.headD_cons]
      cases f (base + k) with
      | none => rfl
      | some x =>
        cases hwrite : write output offset x with
        | none => simp [hwrite]
        | some output' =>
          simp only [Option.bind_eq_bind, Option.bind_some, hwrite]
          rw [ih _ (hn ▸ and_sub_one_lt hzero) _ output' _ _ rfl, List.map_cons, List.append_assoc]
          rfl

/-- The traced words apply the function at their bits. -/
theorem unpackWordsTraced_eq (mask : Array Word) (offset : ℕ) (output : Array T) (applied : List ℕ) :
    unpackWordsTraced start f mask first last offset output applied =
      (unpackWords start f mask first last offset output).map fun output =>
        (output, applied ++ (List.range' first (last - first)).flatMap (wordKept start mask)) := by
  unfold unpackWordsTraced unpackWords
  have hbody : ∀ w (s : Array T × ℕ) applied, (fun w ((output, offset), applied) => do
      let m ← mask[w]?
      unpackWordTraced f (start + w * 64) m output offset applied :
        ℕ → (Array T × ℕ) × List ℕ → _) w (s, applied) =
        ((fun w (output, offset) => do
          let m ← mask[w]?
          unpackWord f (start + w * 64) m output offset : ℕ → Array T × ℕ → _) w s).map fun s =>
            (s, applied ++ wordKept start mask w) := by
    intro w s applied
    cases hm : mask[w]? with
    | none => simp [hm]
    | some m =>
      simp only [Option.bind_eq_bind, wordKept, hm, Option.bind_some, Option.map_some, Option.getD_some]
      exact unpackWordTraced_eq ..
  refine (congrArg (· >>= _) (loop_trace hbody first last (output, offset) applied)).trans ?_
  cases loop first last (output, offset) (fun w (output, offset) => do
    let m ← mask[w]?
    unpackWord f (start + w * 64) m output offset) <;> rfl

end Traces

section Words

variable {c : ℕ → Bool} {w n start : ℕ} {m : Word}

/-- The word holds the condition for 64 indices. -/
def IsMask (c : ℕ → Bool) (w : ℕ) (m : Word) : Prop := ∀ k < 64, m.getLsbD k = c (w * 64 + k)

/-- The number of indices before `i` that are kept. -/
def kept (c : ℕ → Bool) (i : ℕ) : ℕ := Nat.count (fun k => c k = true) i

/-- One more position. -/
theorem kept_succ (i : ℕ) : kept c (i + 1) = kept c i + if c i then 1 else 0 := Nat.count_succ ..

/-- A longer part keeps more positions. -/
theorem kept_mono {i j : ℕ} (h : i ≤ j) : kept c i ≤ kept c j := Nat.count_monotone _ h

/-- A position that is kept counts for the later ones. -/
theorem kept_lt {i j : ℕ} (hc : c i = true) (hij : i < j) : kept c i < kept c j := by
  have hsucc := kept_succ (c := c) i
  rw [if_pos hc] at hsucc
  exact (show kept c i < kept c (i + 1) by omega).trans_le (kept_mono hij)

/-- Different positions that are kept have different places. -/
theorem kept_inj {i j : ℕ} (hi : c i = true) (hj : c j = true) (h : kept c i = kept c j) : i = j := by
  rcases lt_trichotomy i j with hlt | heq | hlt
  · exact absurd h (kept_lt hi hlt).ne
  · exact heq
  · exact absurd h (kept_lt hj hlt).ne'

/-- The bits of a word counted from a position on. -/
theorem kept_add_length (hm : IsMask c w m) (j : ℕ) (hj : j ≤ 64) :
    kept c (w * 64 + j) + ((List.range' j (64 - j)).filter fun k => m.getLsbD k).length =
      kept c (w * 64 + 64) := by
  induction hn : 64 - j generalizing j with
  | zero =>
    obtain rfl : j = 64 := by omega
    rfl
  | succ l ih =>
    have hstep := ih (j + 1) (by omega) (by omega)
    have hsucc := kept_succ (c := c) (w * 64 + j)
    rw [List.range'_succ, List.filter_cons, hm j (by omega)]
    rw [← Nat.add_assoc] at hstep
    cases hc : c (w * 64 + j) with
    | true =>
      rw [if_pos hc] at hsucc
      rw [if_pos rfl, List.length_cons]
      omega
    | false =>
      rw [hc, if_neg Bool.false_ne_true] at hsucc
      rw [if_neg Bool.false_ne_true]
      omega

/-- The positions that a word of the mask keeps. -/
theorem kept_add_popCount (hm : IsMask c w m) : kept c (w * 64) + popCount m = kept c ((w + 1) * 64) := by
  have h := kept_add_length hm 0 (by omega)
  rw [popCount_eq_length, bits, List.range_eq_range', Nat.add_mul]
  exact h

/-- A word of the mask is packed. -/
theorem returns_packMaskWord {condition : ℕ → Option Bool} (hc : ∀ i, n ≤ i → c i = false)
    (hcond : ∀ i < n, condition (start + i) = some (c i)) :
    Returns (IsMask c w) (packMaskWord (start + w * 64) (start + n) condition) := by
  unfold packMaskWord
  refine (Returns.loop (I := fun t m => ∀ k < 64, m.getLsbD k = (decide (k < t) && c (w * 64 + k)))
    (Nat.zero_le _) ?_ ?_).mono ?_
  · intro k hk
    simp
  · intro t m _ ht hI
    have hbase : condition (start + w * 64 + t) = some (c (w * 64 + t)) := by
      rw [Nat.add_assoc]
      exact hcond _ (by omega)
    refine Returns.bind_eq hbase (Returns.pure fun k hk => ?_)
    have hflag :
      (if c (w * 64 + t) then flag t else 0 : Word).getLsbD k = (decide (k = t) && c (w * 64 + t)) := by
      cases c (w * 64 + t) with
      | true => rw [if_pos rfl, getLsbD_flag (by omega), Bool.and_true]
      | false => simp
    rw [BitVec.getLsbD_or, hI k hk, hflag]
    rcases lt_trichotomy k t with hlt | rfl | hlt
    · simp [hlt, show k < t + 1 by omega, hlt.ne]
    · simp
    · simp [show ¬k < t by omega, show ¬k < t + 1 by omega, hlt.ne']
  · intro m hI k hk
    rw [hI k hk]
    by_cases hin : k < min 64 (start + n - (start + w * 64))
    · rw [decide_eq_true hin, Bool.true_and]
    · rw [decide_eq_false hin, Bool.false_and, hc _ (by omega)]

/-- The mask words that are done. -/
def Masked (c : ℕ → Bool) (numWords : ℕ) (done : ℕ → Prop) (mask : Array Word) : Prop :=
  ∃ h, Contents mask numWords h ∧ ∀ w < numWords, done w → IsMask c w (h w)

/-- The words of a block of the mask are packed. -/
theorem returns_packWords {condition : ℕ → Option Bool} {numWords first last : ℕ} {done : ℕ → Prop}
    {mask : Array Word}
    (hc : ∀ i, n ≤ i → c i = false) (hcond : ∀ i < n, condition (start + i) = some (c i))
    (hlast : last ≤ numWords)
    (hmask : Masked c numWords done mask) :
    Returns (fun r => Masked c numWords (fun w => done w ∨ first ≤ w ∧ w < last) r.1 ∧
      kept c (min first last * 64) + r.2 = kept c (last * 64))
        (packWords start (start + n) condition first last mask) := by
  unfold packWords
  rcases Nat.lt_or_ge last first with hlt | hle
  · obtain ⟨h, hmask, hdone⟩ := hmask
    refine Returns.loop_of_le hlt.le ⟨⟨h, hmask, fun w hw hor => hdone w hw (hor.resolve_right (by omega))⟩, ?_⟩
    rw [min_eq_right hlt.le, Nat.add_zero]
  rw [min_eq_left hle]
  refine Returns.loop (I := fun t (r : Array Word × ℕ) =>
    Masked c numWords (fun w => done w ∨ first ≤ w ∧ w < t) r.1 ∧
    kept c (first * 64) + r.2 = kept c (t * 64)) hle ?_ ?_
  · obtain ⟨h, hmask, hdone⟩ := hmask
    exact ⟨⟨h, hmask, fun w hw hor => hdone w hw (hor.resolve_right (by omega))⟩, rfl⟩
  · rintro t ⟨mask, count⟩ _ ht ⟨⟨h, hmask, hdone⟩, hcount⟩
    refine (returns_packMaskWord hc hcond).bind fun m hm => ?_
    obtain ⟨mask', hwrite, hmask'⟩ := hmask.write (i := t) (by omega) m
    refine Returns.bind_eq hwrite (Returns.pure ⟨⟨_, hmask', fun w hw hor => ?_⟩, ?_⟩)
    · by_cases heq : w = t
      · rw [heq, Function.update_self]
        exact hm
      · rw [Function.update_of_ne heq]
        exact hdone w hw (hor.imp_right fun hrange => by omega)
    · have hpop := kept_add_popCount hm
      dsimp only at hcount ⊢
      omega

end Words

section Output

variable {T : Type} {c : ℕ → Bool} {g v₀ : ℕ → T} {f : ℕ → Option T} {w n start size total : ℕ} {m : Word}
  {output : Array T}

/-- Unpacking a word goes through its bits. -/
theorem unpackWord_eq (f : ℕ → Option T) (base offset : ℕ) (m : Word) (output : Array T) :
    unpackWord f base m output offset = (bits m).foldlM (fun s k => do
      let x ← f (base + k)
      let output ← write s.1 s.2 x
      some (output, s.2 + 1)) (output, offset) := by
  induction hn : m.toNat using Nat.strong_induction_on generalizing m output offset with
  | _ size ih =>
    rw [unpackWord]
    by_cases hzero : m = 0
    · rw [dif_neg (not_not.mpr hzero), bits_eq_nil_iff.mpr hzero]
      rfl
    · obtain ⟨k, r, hk⟩ := toNat_eq_lowest hzero
      rw [dif_pos hzero, countrZero_eq_head, bits_lowest hk, List.headD_cons, List.foldlM_cons]
      dsimp only
      cases f (base + k) with
      | none => rfl
      | some x =>
        cases hwrite : write output offset x with
        | none => simp [hwrite]
        | some output' =>
          simp only [Option.bind_eq_bind, Option.bind_some, hwrite]
          exact ih _ (hn ▸ and_sub_one_lt hzero) (offset + 1) _ output' rfl

/-- The kept indices whose output is written; what lies behind them is still that of `v₀`. -/
def Packed (c : ℕ → Bool) (g : ℕ → T) (size total : ℕ) (v₀ : ℕ → T) (done : ℕ → Prop) (output : Array T) : Prop :=
  ∃ h, Contents output size h ∧ (∀ i, c i = true → done i → h (kept c i) = g i) ∧ ∀ p, total ≤ p →
    p < size → h p = v₀ p

/-- Fewer positions are done. -/
theorem Packed.mono {done done' : ℕ → Prop} (h : Packed c g size total v₀ done output)
    (hdone : ∀ i, c i = true → done' i → done i) : Packed c g size total v₀ done' output := by
  obtain ⟨v, hv, hplaced, hrest⟩ := h
  exact ⟨v, hv, fun i hi hd => hplaced i hi (hdone i hi hd), hrest⟩

/-- Writing one output keeps the others. -/
theorem Packed.write {done : ℕ → Prop} {i : ℕ} (h : Packed c g size total v₀ done output) (hi : c i = true)
    (htotal : kept c i < total) (hsize : total ≤ size) :
    ∃ output', Checked.write output (kept c i) (g i) = some output' ∧
      Packed c g size total v₀ (fun j => done j ∨ j = i) output' := by
  obtain ⟨v, hv, hplaced, hrest⟩ := h
  obtain ⟨output', hwrite, hv'⟩ := hv.write (htotal.trans_le hsize) (g i)
  refine ⟨output', hwrite, _, hv', fun j hj hor => ?_, fun p hp hp' => ?_⟩
  · by_cases heq : j = i
    · rw [heq, Function.update_self]
    · rw [Function.update_of_ne fun hkept => heq (kept_inj hj hi hkept)]
      exact hplaced j hj (hor.resolve_right heq)
  · rw [Function.update_of_ne (by omega)]
    exact hrest p hp hp'

/-- The bits of a word from a position on. -/
theorem returns_unpackBits (hc : ∀ i, n ≤ i → c i = false) (hf : ∀ i < n, c i = true → f (start + i) = some (g i))
    (hm : IsMask c w m) (hsize : kept c n ≤ size) (j : ℕ) (hj : j ≤ 64) {done : ℕ → Prop}
    (houtput : Packed c g size (kept c n) v₀ done output) :
    Returns (fun r => Packed c g size (kept c n) v₀ (fun i => done i ∨ w * 64 + j ≤ i ∧
      i < w * 64 + 64) r.1 ∧ r.2 = kept c (w * 64 + 64))
      (((List.range' j (64 - j)).filter fun k => m.getLsbD k).foldlM (fun s k => do
        let x ← f (start + w * 64 + k)
        let output ← write s.1 s.2 x
        some (output, s.2 + 1)) (output, kept c (w * 64 + j))) := by
  induction hn : 64 - j generalizing j output done with
  | zero =>
    obtain rfl : j = 64 := by omega
    exact Returns.pure ⟨houtput.mono fun i _ hor => hor.resolve_right (by omega), rfl⟩
  | succ l ih =>
    have hsucc := kept_succ (c := c) (w * 64 + j)
    rw [List.range'_succ, List.filter_cons, hm j (by omega)]
    cases hbit : c (w * 64 + j) with
    | true =>
      have hlt : w * 64 + j < n := by
        by_contra hge
        rw [hc _ (by omega)] at hbit
        exact Bool.false_ne_true hbit
      rw [hbit, if_pos rfl] at hsucc
      rw [if_pos rfl, List.foldlM_cons]
      have hread : f (start + w * 64 + j) = some (g (w * 64 + j)) := by
        rw [Nat.add_assoc]
        exact hf _ hlt hbit
      obtain ⟨output', hwrite, houtput'⟩ := houtput.write hbit (kept_lt hbit hlt) hsize
      have hrest := ih (j + 1) (by omega) houtput' (by omega)
      rw [← Nat.add_assoc, hsucc] at hrest
      rw [hread]
      dsimp only [Option.bind_eq_bind, Option.bind_some]
      rw [hwrite]
      refine hrest.mono fun r hr => ⟨hr.1.mono fun i _ hor => ?_, hr.2⟩
      rcases hor with hdone | hrange
      · exact Or.inl (Or.inl hdone)
      · by_cases heq : i = w * 64 + j
        · exact Or.inl (Or.inr heq)
        · exact Or.inr (by omega)
    | false =>
      have hsame : kept c (w * 64 + j) = kept c (w * 64 + (j + 1)) := by
        rw [← Nat.add_assoc, hsucc, hbit]
        rfl
      rw [if_neg Bool.false_ne_true, hsame]
      refine (ih (j + 1) (by omega) houtput (by omega)).mono fun r hr => ⟨hr.1.mono fun i hi hor => ?_, hr.2⟩
      refine hor.imp_right fun hrange => ?_
      have hne : i ≠ w * 64 + j := fun heq => by rw [heq, hbit] at hi; exact Bool.false_ne_true hi
      omega

/-- The words of a block are unpacked. -/
theorem returns_unpackWords {mask : Array Word} {numWords : ℕ} (first last : ℕ) (hc : ∀ i, n ≤ i → c i = false)
    (hf : ∀ i < n, c i = true → f (start + i) = some (g i)) (hmask : Masked c numWords (fun _ => True) mask)
    (hlast : last ≤ numWords) (hsize : kept c n ≤ size) {done : ℕ → Prop}
    (houtput : Packed c g size (kept c n) v₀ done output) :
    Returns (Packed c g size (kept c n) v₀ fun i => done i ∨ min first last * 64 ≤ i ∧ i < last * 64)
      (unpackWords start f mask first last (kept c (min first last * 64)) output) := by
  unfold unpackWords
  rcases Nat.lt_or_ge last first with hlt | hle
  · refine (Returns.loop_of_le (Q := fun r => Packed c g size (kept c n) v₀ done r.1) hlt.le houtput).bind
      fun r hr => ?_
    exact Returns.pure (hr.mono fun i _ hor => hor.resolve_right (by omega))
  rw [min_eq_left hle]
  obtain ⟨h, hmask, hwords⟩ := hmask
  refine (Returns.loop (I := fun t r => Packed c g size (kept c n) v₀ (fun i => done i ∨ first * 64 ≤ i ∧
    i < t * 64) r.1 ∧
    r.2 = kept c (t * 64)) hle ?_ ?_).bind fun r hr => Returns.pure hr.1
  · exact ⟨houtput.mono fun i _ hor => hor.resolve_right (by omega), rfl⟩
  · rintro t ⟨output, offset⟩ _ ht ⟨houtput, hoffset⟩
    obtain rfl : offset = kept c (t * 64) := hoffset
    refine Returns.bind_eq (hmask.get t (by omega)) ?_
    rw [unpackWord_eq, bits, List.range_eq_range']
    refine (returns_unpackBits hc hf (hwords t (by omega) trivial) hsize 0 (by omega) houtput).mono fun r
      hr => ⟨hr.1.mono fun i _ hor => ?_, ?_⟩
    · rcases hor with hdone | hrange
      · exact Or.inl (Or.inl hdone)
      · by_cases hword : i < t * 64
        · exact Or.inl (Or.inr ⟨hrange.1, hword⟩)
        · exact Or.inr (by omega)
    · rw [Nat.add_mul]
      exact hr.2

/-- The output at the places of the positions that are kept. -/
theorem map_kept {h : ℕ → T} (hplaced : ∀ i, c i = true → i < n → h (kept c i) = g i) :
    (List.range (kept c n)).map h = ((List.range n).filter c).map g := by
  induction n with
  | zero => rfl
  | succ n ih =>
    have hprevious := ih fun i hi hlt => hplaced i hi (Nat.lt_succ_of_lt hlt)
    have hsucc := kept_succ (c := c) n
    rw [List.range_succ, List.filter_append, List.map_append, ← hprevious, hsucc]
    cases hn : c n with
    | true =>
      have hlast := hplaced n hn (Nat.lt_succ_self n)
      rw [if_pos rfl, List.range_succ, List.map_append, List.map_singleton, hlast]
      simp [hn]
    | false => simp [hn]

/-- The number of the positions that are kept. -/
theorem length_filter (c : ℕ → Bool) (n : ℕ) : ((List.range n).filter c).length = kept c n := by
  have hlength := congrArg List.length (map_kept (g := kept c) (h := id) (n := n) fun _ _ _ => rfl)
  rwa [List.length_map, List.length_map, List.length_range, eq_comm] at hlength

/-- Everything that is kept has been placed. -/
theorem Packed.toList (h : Packed c g size (kept c n) v₀ (fun i => i < n) output) (hsize : kept c n ≤ size) :
    output.toList = ((List.range n).filter c).map g ++ (List.range' (kept c n) (size - kept c n)).map v₀ := by
  obtain ⟨v, hv, hplaced, hrest⟩ := h
  have hrange : List.range size = List.range (kept c n) ++ List.range' (kept c n) (size - kept c n) := by
    have happend := @List.range'_append 0 (kept c n) (size - kept c n) 1
    rw [Nat.one_mul, Nat.zero_add, Nat.add_sub_cancel' hsize] at happend
    rw [List.range_eq_range', List.range_eq_range', happend]
  rw [hv.toList, hrange, List.map_append, map_kept hplaced]
  refine congrArg _ (List.map_congr_left fun p hp => ?_)
  rw [List.mem_range'_1] at hp
  exact hrest p hp.1 (by omega)

end Output

section Pack

variable {T : Type} {c : ℕ → Bool} {g : ℕ → T} {f : ℕ → Option T} {condition : ℕ → Option Bool}
  {n start numWorkers : ℕ}

/-- No position after the input is kept. -/
theorem kept_of_le (hc : ∀ i, n ≤ i → c i = false) {i : ℕ} (hi : n ≤ i) : kept c i = kept c n := by
  induction i, hi using Nat.le_induction with
  | base => rfl
  | succ i hi ih => rw [kept_succ, hc i hi, if_neg Bool.false_ne_true, Nat.add_zero, ih]

/-- The first mask word of a block. -/
def bound (numWords blockWords b : ℕ) : ℕ := min numWords (b * blockWords)

/-- What is kept before a block. -/
def before (c : ℕ → Bool) (numWords blockWords b : ℕ) : ℕ := kept c (bound numWords blockWords b * 64)

/-- Every mask word belongs to a block. -/
theorem exists_bound {numWords numBlocks blockWords w : ℕ} (hcover : numWords ≤ numBlocks * blockWords)
    (hw : w < numWords) :
    ∃ b < numBlocks, bound numWords blockWords b ≤ w ∧ w < bound numWords blockWords (b + 1) := by
  have hpositive : 0 < blockWords := Nat.pos_of_ne_zero fun h0 => by rw [h0, Nat.mul_zero] at hcover; omega
  have hdiv := Nat.div_add_mod w blockWords
  have hmod := Nat.mod_lt w hpositive
  rw [Nat.mul_comm] at hdiv
  refine ⟨w / blockWords, ?_, ?_, ?_⟩
  · exact (Nat.div_lt_iff_lt_mul hpositive).mpr (hw.trans_le hcover)
  · unfold bound
    omega
  · rw [bound, Nat.succ_mul]
    omega

/-- The number of blocks and their mask words. -/
theorem blocks_spec {numWords : ℕ} (hworkers : 1 ≤ numWorkers) (hpos : 0 < numWords)
    (hbound : numWords < 2 ^ 60) :
    numWords ≤ min (numWorkers * 16) (ceilDiv numWords 16) * ceilDiv numWords
      (min (numWorkers * 16) (ceilDiv numWords 16)) := by
  have hceil := ceilDiv_pos (x := numWords) (k := 16) (by omega) (by omega) hpos
  have hfew : min (numWorkers * 16) (ceilDiv numWords 16) ≤ numWords := by
    rw [ceilDiv_eq (x := numWords) (by omega)]
    omega
  exact le_mul_ceilDiv (by omega) (by omega)

section Blocks

variable {numWords numBlocks blockWords : ℕ} (schedule : Schedule) (hc : ∀ i, n ≤ i → c i = false)
  (hcover : numWords ≤ numBlocks * blockWords)

/-- A block begins at its bound. -/
theorem block_first (b : ℕ) : min (b * blockWords) (min numWords (b * blockWords + blockWords)) =
    bound numWords blockWords b := by
  unfold bound
  omega

/-- A block ends at the next bound. -/
theorem block_last (b : ℕ) : min numWords (b * blockWords + blockWords) = bound numWords blockWords (b + 1) := by
  rw [bound, Nat.succ_mul]

include hc hcover

/-- The blocks evaluate the condition everywhere and count what they keep. -/
theorem returns_packBlocks (hcond : ∀ i < n, condition (start + i) = some (c i)) (fresh : Word) :
    Returns (fun r : Array Word × Array ℕ => Masked c numWords (fun _ => True) r.1 ∧
      ∃ d, Contents r.2 numBlocks d ∧ ∀ b < numBlocks,
        before c numWords blockWords b + d b = before c numWords blockWords (b + 1))
      (parallelLoop schedule numBlocks (Array.replicate numWords fresh, Array.replicate numBlocks 0)
        fun block (mask, counts) => do
          let (mask, count) ← packWords start (start + n) condition (block * blockWords)
            (min numWords (block * blockWords + blockWords)) mask
          let counts ← write counts block count
          some (mask, counts)) := by
  refine (Returns.parallelLoop (I := fun done (r : Array Word × Array ℕ) =>
    Masked c numWords (fun w => ∃ b ∈ done,
      bound numWords blockWords b ≤ w ∧ w < bound numWords blockWords (b + 1)) r.1 ∧
    ∃ d, Contents r.2 numBlocks d ∧ ∀ b ∈ done, before c numWords blockWords b + d b =
      before c numWords blockWords (b + 1)) ?_ ?_).mono ?_
  · refine ⟨⟨_, Contents.replicate _ _, fun w _ ⟨b, hb, _⟩ => absurd hb (Finset.notMem_empty b)⟩, _,
      Contents.replicate _ _, ?_⟩
    exact fun b hb => absurd hb (Finset.notMem_empty b)
  · rintro done block ⟨mask, counts⟩ hblock hnot ⟨hmask, d, hd, hcounts⟩
    refine (returns_packWords hc hcond (min_le_left _ _) hmask).bind ?_
    rintro ⟨mask', count⟩ ⟨hmask', hcount⟩
    obtain ⟨counts', hwrite, hd'⟩ := hd.write hblock count
    refine Returns.bind_eq hwrite (Returns.pure ⟨?_, _, hd', fun b hb => ?_⟩)
    · obtain ⟨h, hm, hwords⟩ := hmask'
      refine ⟨h, hm, fun w hw ⟨b, hb, hrange⟩ => hwords w hw ?_⟩
      rcases Finset.mem_insert.mp hb with rfl | hb
      · refine Or.inr ⟨?_, by rw [block_last]; exact hrange.2⟩
        have := hrange.1
        unfold bound at this
        omega
      · exact Or.inl ⟨b, hb, hrange⟩
    · rcases Finset.mem_insert.mp hb with rfl | hb
      · rw [Function.update_self, before, before, ← block_first b, ← block_last b]
        exact hcount
      · rw [Function.update_of_ne fun heq : b = block => hnot (heq ▸ hb)]
        exact hcounts b hb
  · rintro ⟨mask, counts⟩ ⟨⟨h, hm, hdone⟩, d, hd, hcounts⟩
    refine ⟨⟨h, hm, fun w hw _ => hdone w hw ?_⟩, d, hd, fun b hb => hcounts b (Finset.mem_range.mpr hb)⟩
    obtain ⟨b, hb, hrange⟩ := exists_bound hcover hw
    exact ⟨b, Finset.mem_range.mpr hb, hrange⟩

/-- The counts become the positions where the blocks start. -/
theorem returns_blockOffsets (htotal : n ≤ numWords * 64) {counts : Array ℕ} {d : ℕ → ℕ}
    (hd : Contents counts numBlocks d)
    (hcounts : ∀ b < numBlocks, before c numWords blockWords b + d b = before c numWords blockWords (b + 1)) :
    Returns (fun r : Array ℕ × ℕ => Contents r.1 numBlocks (before c numWords blockWords) ∧ r.2 = kept c n)
      (loop 0 numBlocks (counts, 0) fun block (counts, total) => do
        let count ← counts[block]?
        let total := total + count
        let counts ← write counts block (total - count)
        some (counts, total)) := by
  refine (Returns.loop (I := fun t (r : Array ℕ × ℕ) =>
    Contents r.1 numBlocks (fun b => if b < t then before c numWords blockWords b else d b) ∧
    r.2 = before c numWords blockWords t) (Nat.zero_le _) ?_ ?_).mono ?_
  · refine ⟨hd.congr fun b _ => (if_neg (Nat.not_lt_zero b)).symm, ?_⟩
    rw [before, bound, Nat.zero_mul, Nat.min_zero, Nat.zero_mul]
    exact (Nat.count_zero _).symm
  · rintro t ⟨counts, total⟩ - ht ⟨hd, rfl⟩
    refine Returns.bind_eq (hd.get t ht) ?_
    dsimp only
    obtain ⟨counts', hwrite, hd'⟩ := hd.write ht (before c numWords blockWords t)
    rw [if_neg (lt_irrefl t), Nat.add_sub_cancel]
    refine Returns.bind_eq hwrite (Returns.pure ⟨hd'.congr fun b _ => ?_, hcounts t ht⟩)
    by_cases heq : b = t
    · rw [heq, Function.update_self, if_pos (Nat.lt_succ_self t)]
    · rw [Function.update_of_ne heq]
      exact if_congr (by omega) rfl rfl
  · rintro ⟨counts, total⟩ ⟨hd, rfl⟩
    refine ⟨hd.congr fun b hb => if_pos hb, ?_⟩
    rw [before, bound, min_eq_left hcover, kept_of_le hc htotal]

/-- The blocks place what they keep. -/
theorem returns_unpackBlocks (hf : ∀ i < n, c i = true → f (start + i) = some (g i)) (htotal : n ≤ numWords * 64)
    {mask : Array Word} {counts : Array ℕ} {size : ℕ} {v₀ : ℕ → T} {output : Array T}
    (hmask : Masked c numWords (fun _ => True) mask)
    (hcounts : Contents counts numBlocks (before c numWords blockWords)) (hsize : kept c n ≤ size)
    (houtput : Contents output size v₀) :
    Returns (Packed c g size (kept c n) v₀ fun i => i < n)
      (parallelLoop schedule numBlocks output fun block output => do
      let offset ← counts[block]?
      unpackWords start f mask (block * blockWords)
        (min numWords (block * blockWords + blockWords)) offset output) := by
  refine (Returns.parallelLoop (I := fun done => Packed c g size (kept c n) v₀ fun i => ∃ b ∈ done,
    bound numWords blockWords b * 64 ≤ i ∧ i < bound numWords blockWords (b + 1) * 64) ?_ ?_).mono ?_
  · exact ⟨v₀, houtput, fun i _ ⟨b, hb, _⟩ => absurd hb (Finset.notMem_empty b), fun _ _ _ => rfl⟩
  · intro done block output hblock hnot houtput
    refine Returns.bind_eq (hcounts.get block hblock) ?_
    have hunpack := returns_unpackWords (block * blockWords) (min numWords (block * blockWords + blockWords))
      hc hf hmask (min_le_left _ _) hsize houtput
    rw [block_first, block_last] at hunpack
    rw [block_last]
    refine hunpack.mono fun output' hout => hout.mono fun i _ ⟨b, hb, hrange⟩ => ?_
    rcases Finset.mem_insert.mp hb with rfl | hb
    · exact Or.inr hrange
    · exact Or.inl ⟨b, hb, hrange⟩
  · intro output hout
    refine hout.mono fun i _ hi => ?_
    obtain ⟨b, hb, hrange⟩ := exists_bound hcover (show i / 64 < numWords by omega)
    exact ⟨b, Finset.mem_range.mpr hb, by omega, by omega⟩

end Blocks

section Indices

variable {numWords numBlocks blockWords stop : ℕ} {mask : Array Word}

/-- The mask words of a block. -/
def blockWordsOf (numWords blockWords b : ℕ) : List ℕ :=
  List.range' (b * blockWords) (min numWords (b * blockWords + blockWords) - b * blockWords)

/-- The blocks take the mask words apart. -/
theorem flatMap_blocks (hcover : numWords ≤ numBlocks * blockWords) :
    (List.range numBlocks).flatMap (blockWordsOf numWords blockWords) = List.range numWords := by
  have key : ∀ t, (List.range t).flatMap (blockWordsOf numWords blockWords) =
    List.range (bound numWords blockWords t) := by
    intro t
    induction t with
    | zero => rw [bound, Nat.zero_mul, Nat.min_zero]; rfl
    | succ t ih =>
      rw [List.range_succ, List.flatMap_append, ih, List.flatMap_singleton, blockWordsOf, block_last]
      rcases Nat.lt_or_ge numWords (t * blockWords) with hlt | hle
      · have h₁ : bound numWords blockWords t = numWords := min_eq_left hlt.le
        have h₂ : bound numWords blockWords (t + 1) = numWords := min_eq_left (by rw [Nat.succ_mul]; omega)
        rw [h₁, h₂, Nat.sub_eq_zero_of_le hlt.le, List.range'_zero, List.append_nil]
      · have h₁ : bound numWords blockWords t = t * blockWords := min_eq_right hle
        have h₂ : t * blockWords ≤ bound numWords blockWords (t + 1) := by rw [← block_last]; omega
        have happend :=
          @List.range'_append 0 (t * blockWords) (bound numWords blockWords (t + 1) - t * blockWords) 1
        rw [Nat.one_mul, Nat.zero_add, Nat.add_sub_cancel' h₂] at happend
        rw [h₁, List.range_eq_range', List.range_eq_range', happend]
  rw [key, bound, min_eq_left hcover]

/-- The words together have the positions of the input. -/
theorem flatMap_wordIndices (hcover : n ≤ numWords * 64) :
    (List.range numWords).flatMap (wordIndices start (start + n)) = List.range' start n := by
  have key : ∀ t, (List.range t).flatMap (wordIndices start (start + n)) =
    List.range' start (min (t * 64) n) := by
    intro t
    induction t with
    | zero => rw [Nat.zero_mul, Nat.zero_min]; rfl
    | succ t ih =>
      rw [List.range_succ, List.flatMap_append, ih, List.flatMap_singleton, wordIndices]
      rcases Nat.lt_or_ge n (t * 64) with hlt | hle
      · rw [min_eq_right hlt.le, show min ((t + 1) * 64) n = n by omega,
          show start + n - (start + t * 64) = 0 by omega, Nat.min_zero,
          List.range'_zero, List.append_nil]
      · have happend := @List.range'_append start (t * 64) (min 64 (start + n - (start + t * 64))) 1
        rw [Nat.one_mul] at happend
        rw [min_eq_left hle, happend]
        congr 1
        omega
  rw [key, min_eq_right hcover]

/-- Some words together have their positions. -/
theorem flatMap_words (t : ℕ) : (List.range t).flatMap (fun w => List.range' (w * 64) 64) =
    List.range (t * 64) := by
  induction t with
  | zero => rfl
  | succ t ih =>
    have happend := @List.range'_append 0 (t * 64) 64 1
    rw [Nat.one_mul, Nat.zero_add] at happend
    rw [List.range_succ, List.flatMap_append, ih, List.flatMap_singleton, Nat.succ_mul,
      List.range_eq_range', List.range_eq_range',
      happend]

/-- Only positions of the input are kept. -/
theorem filter_range_of_le (hc : ∀ i, n ≤ i → c i = false) {k : ℕ} (hk : n ≤ k) :
    (List.range k).filter c = (List.range n).filter c := by
  induction k, hk using Nat.le_induction with
  | base => rfl
  | succ k hk ih => rw [List.range_succ, List.filter_append, ih, List.filter_singleton, hc k hk]; simp

/-- The mask words keep the indices with the condition. -/
theorem flatMap_wordKept (hc : ∀ i, n ≤ i → c i = false) (hcover : n ≤ numWords * 64)
    (hmask : Masked c numWords (fun _ => True) mask) :
    (List.range numWords).flatMap (wordKept start mask) = ((List.range n).filter c).map (start + ·) := by
  obtain ⟨h, hm, hwords⟩ := hmask
  have hword : ∀ w ∈ List.range numWords, wordKept start mask w =
    ((List.range' (w * 64) 64).filter c).map (start + ·) := by
    intro w hw
    rw [List.mem_range] at hw
    have hbits : bits (h w) = (List.range 64).filter fun k => c (w * 64 + k) :=
      List.filter_congr fun k hk => hwords w hw trivial k (List.mem_range.mp hk)
    have hshift : List.range' (w * 64) 64 = (List.range 64).map (w * 64 + ·) := by
      rw [List.range_eq_range', List.map_add_range', Nat.add_zero]
    rw [wordKept, hm.get w hw, Option.map_some, Option.getD_some, hbits, hshift, List.filter_map, List.map_map]
    exact List.map_congr_left fun k _ => Nat.add_assoc start (w * 64) k
  have hflat : (List.range numWords).flatMap (wordKept start mask) =
      (((List.range numWords).flatMap fun w => List.range' (w * 64) 64).filter c).map (start + ·) := by
    rw [List.filter_flatMap, List.map_flatMap]
    exact List.flatMap_congr hword
  rw [hflat, flatMap_words, filter_range_of_le hc hcover]

end Indices

section Implementation

variable {numWords numBlocks blockWords stop : ℕ}

/-- The traced blocks pack the mask and evaluate the condition in their order. -/
theorem packBlocksTraced_eq (schedule : Schedule) (mask : Array Word) (counts : Array ℕ) (evaluated : List ℕ) :
    parallelLoop schedule numBlocks ((mask, counts), evaluated) (fun block ((mask, counts), evaluated) => do
      let ((mask, count), evaluated) ← packWordsTraced start stop condition (block * blockWords)
        (min numWords (block * blockWords + blockWords)) mask evaluated
      let counts ← write counts block count
      some ((mask, counts), evaluated)) =
    (parallelLoop schedule numBlocks (mask, counts) fun block (mask, counts) => do
      let (mask, count) ← packWords start stop condition (block * blockWords)
        (min numWords (block * blockWords + blockWords)) mask
      let counts ← write counts block count
      some (mask, counts)).map fun r => (r, evaluated ++
        (schedule.order numBlocks).flatMap fun block => (blockWordsOf numWords blockWords block).flatMap
          (wordIndices start stop)) := by
  refine parallelLoop_trace (fun block ⟨mask, counts⟩ evaluated => ?_) schedule numBlocks _ evaluated
  dsimp only
  rw [packWordsTraced_eq]
  cases packWords start stop condition (block * blockWords)
    (min numWords (block * blockWords + blockWords)) mask with
  | none => rfl
  | some r => cases hwrite : write counts block r.2 <;> simp [hwrite, blockWordsOf]

/-- The traced blocks unpack the mask and apply the function in their order. -/
theorem unpackBlocksTraced_eq (schedule : Schedule) (mask : Array Word) (counts : Array ℕ)
    (output : Array T) (applied : List ℕ) :
    parallelLoop schedule numBlocks (output, applied) (fun block (output, applied) => do
      let offset ← counts[block]?
      unpackWordsTraced start f mask (block * blockWords)
        (min numWords (block * blockWords + blockWords)) offset output applied) =
    (parallelLoop schedule numBlocks output fun block output => do
      let offset ← counts[block]?
      unpackWords start f mask (block * blockWords)
        (min numWords (block * blockWords + blockWords)) offset output).map fun output =>
        (output, applied ++
          (schedule.order numBlocks).flatMap fun block => (blockWordsOf numWords blockWords block).flatMap
            (wordKept start mask)) := by
  refine parallelLoop_trace (fun block output applied => ?_) schedule numBlocks output applied
  cases hoffset : counts[block]? with
  | none => simp
  | some offset => exact unpackWordsTraced_eq ..

/-- The blocks that run in some order evaluate what the mask words say. -/
theorem perm_blocks {F : ℕ → List ℕ} (schedule : Schedule) (hcover : numWords ≤ numBlocks * blockWords) :
    ((schedule.order numBlocks).flatMap fun block => (blockWordsOf numWords blockWords block).flatMap F).Perm
      ((List.range numWords).flatMap F) := by
  rw [← flatMap_blocks hcover, List.flatMap_assoc]
  exact (schedule.perm numBlocks).flatMap_right _

/-- `pack_impl` returns what is kept, evaluates the condition once at every position and applies the
function once at every position that is kept. -/
theorem returns_packImpl (getOutput : ℕ → Array T) (fresh : Word) (schedules : ℕ → Schedule)
    (hworkers : 1 ≤ numWorkers)
    (hn : n < 2 ^ 63) (hc : ∀ i, n ≤ i → c i = false) (hcond : ∀ i < n, condition (start + i) = some (c i))
    (hf : ∀ i < n, c i = true → f (start + i) = some (g i)) {size : ℕ} {v₀ : ℕ → T}
    (houtput : Contents (getOutput (kept c n)) size v₀) (hsize : kept c n ≤ size) :
    Returns (fun r => r.total = kept c n ∧
        r.output.toList = ((List.range n).filter c).map g ++ (List.range' (kept c n) (size - kept c n)).map v₀ ∧
        r.evaluated.Perm (List.range' start n) ∧ r.applied.Perm (((List.range n).filter c).map (start + ·)))
      (packImpl getOutput fresh numWorkers schedules start (start + n) condition f) := by
  unfold packImpl
  dsimp only
  rw [Nat.add_sub_cancel_left]
  have hcover : n ≤ 64 * ceilDiv n 64 := le_mul_ceilDiv (by omega) (by omega)
  rw [Nat.mul_comm] at hcover
  generalize hwords : ceilDiv n 64 = numWords at *
  split
  · have hfresh : Masked c numWords (fun _ => False) (Array.replicate numWords fresh) :=
      ⟨_, Contents.replicate _ _, fun w _ hf => hf.elim⟩
    have hzero : kept c 0 = 0 := Nat.count_zero _
    obtain ⟨⟨mask, total⟩, heq, ⟨h, hm, hdone⟩, hcount⟩ := returns_packWords hc hcond le_rfl hfresh
    rw [Nat.zero_min, Nat.zero_mul, hzero, kept_of_le hc hcover, Nat.zero_add] at hcount
    dsimp only at hcount hm
    subst hcount
    have hmask : Masked c numWords (fun _ => True) mask :=
      ⟨h, hm, fun w hw _ => hdone w hw (Or.inr ⟨Nat.zero_le w, hw⟩)⟩
    have hempty : Packed c g size (kept c n) v₀ (fun _ => False) (getOutput (kept c n)) :=
      ⟨v₀, houtput, fun _ _ hf => hf.elim, fun _ _ _ => rfl⟩
    have hunpack := returns_unpackWords 0 numWords hc hf hmask le_rfl hsize hempty
    rw [Nat.zero_min, Nat.zero_mul, hzero] at hunpack
    obtain ⟨output, heq', hpacked⟩ := hunpack
    rw [packWordsTraced_eq, heq]
    refine Returns.bind_eq rfl ?_
    dsimp only
    rw [unpackWordsTraced_eq, heq']
    refine Returns.bind_eq rfl
      (Returns.pure ⟨rfl, (hpacked.mono fun i _ hi => Or.inr ⟨Nat.zero_le i, by omega⟩).toList hsize, ?_, ?_⟩)
    · rw [List.nil_append, Nat.sub_zero, ← List.range_eq_range', flatMap_wordIndices hcover]
      exact List.Perm.refl _
    · rw [List.nil_append, Nat.sub_zero, ← List.range_eq_range', flatMap_wordKept hc hcover hmask]
  · have hpos : 0 < numWords := by omega
    have hbound : numWords < 2 ^ 60 := by
      rw [← hwords, ceilDiv_eq (by omega)]
      omega
    have hcover' := blocks_spec hworkers hpos hbound
    generalize min (numWorkers * 16) (ceilDiv numWords 16) = numBlocks at *
    generalize ceilDiv numWords numBlocks = blockWords at *
    obtain ⟨⟨mask, counts⟩, heq, hmask, d, hd, hcounts⟩ := returns_packBlocks (schedules 0) hc hcover' hcond fresh
    rw [packBlocksTraced_eq, heq]
    refine Returns.bind_eq rfl ((returns_blockOffsets hc hcover' hcover hd hcounts).bind ?_)
    rintro ⟨counts', total⟩ ⟨hcounts', rfl⟩
    obtain ⟨output, heq', hpacked⟩ :=
      returns_unpackBlocks (schedules 1) hc hcover' hf hcover hmask hcounts' hsize houtput
    dsimp only
    rw [unpackBlocksTraced_eq, heq']
    refine Returns.bind_eq rfl (Returns.pure ⟨rfl, hpacked.toList hsize, ?_, ?_⟩)
    · rw [List.nil_append, ← flatMap_wordIndices hcover]
      exact perm_blocks (schedules 0) hcover'
    · rw [List.nil_append, ← flatMap_wordKept hc hcover hmask]
      exact perm_blocks (schedules 1) hcover'

/-- `pack` lists what is kept in the order of the indices. -/
theorem returns_pack (uninit : ℕ → T) (fresh : Word) (schedules : ℕ → Schedule) (hworkers : 1 ≤ numWorkers)
    (hn : n < 2 ^ 63) (hc : ∀ i, n ≤ i → c i = false) (hcond : ∀ i < n, condition (start + i) = some (c i))
    (hf : ∀ i < n, c i = true → f (start + i) = some (g i)) :
    Returns (fun output => output.toList = ((List.range n).filter c).map g)
      (pack uninit fresh numWorkers schedules start (start + n) condition f) := by
  obtain ⟨r, heq, -, houtput, -⟩ :=
    returns_packImpl (fun total => Array.ofFn fun i : Fin total => uninit i) fresh schedules hworkers hn hc
    hcond hf (Contents.ofFn _ _) le_rfl
  rw [pack, heq]
  refine Returns.pure ?_
  rw [houtput, Nat.sub_self, List.range'_zero, List.map_nil, List.append_nil]

end Implementation

section Specification

variable {stop : ℕ} {output : Array T} {v₀ : ℕ → T}

/-- The values at the indices with the condition, in ascending order. -/
def packed (c : ℕ → Bool) (f : ℕ → T) (start stop : ℕ) : List T :=
  ((List.range' start (stop - start)).filter c).map f

/-- The condition has been evaluated once for every index, and the function once for every index that is kept. -/
structure Packing.EvaluatesOnce (r : Packing T) (c : ℕ → Bool) (start stop : ℕ) : Prop where
  evaluated : r.evaluated.Perm (List.range' start (stop - start))
  applied : r.applied.Perm ((List.range' start (stop - start)).filter c)

/-- The rest of the output is as it was. -/
theorem drop_toList {size k : ℕ} (h : Contents output size v₀) :
    (List.range' k (size - k)).map v₀ = output.toList.drop k := by
  rw [h.toList, ← List.map_drop, List.range_eq_range', List.drop_range', Nat.zero_add, Nat.mul_one]

/-- `pack_impl` returns the filtered values at the start of the output. -/
theorem returns_packImpl_packed (fresh : Word) (schedules : ℕ → Schedule) (c : ℕ → Bool) (f : ℕ → T)
    (getOutput : ℕ → Array T) (hle : start ≤ stop) (hn : stop - start < 2 ^ 63)
    (hworkers : 1 ≤ numWorkers) {size : ℕ} (houtput : Contents (getOutput (packed c f start stop).length) size v₀)
    (hsize : (packed c f start stop).length ≤ size) :
    Returns (fun r => r.total = (packed c f start stop).length ∧
        r.output.toList = packed c f start stop ++ (getOutput (packed c f start stop).length).toList.drop
          (packed c f start stop).length ∧
        r.EvaluatesOnce c start stop)
      (packImpl getOutput fresh numWorkers schedules start stop (fun i => some (c i)) fun i => some (f i)) := by
  have hshift :
    ((List.range (stop - start)).filter fun k => decide (k < stop - start) && c (start + k)).map (start + ·) =
      (List.range' start (stop - start)).filter c := by
    have hrange : List.range' start (stop - start) = (List.range (stop - start)).map (start + ·) := by
      rw [List.range_eq_range', List.map_add_range', Nat.add_zero]
    rw [hrange, List.filter_map]
    refine congrArg _ (List.filter_congr fun k hk => ?_)
    rw [decide_eq_true (List.mem_range.mp hk), Bool.true_and]
    rfl
  have hvalues :
    ((List.range (stop - start)).filter fun k => decide (k < stop - start) && c (start + k)).map
      (fun k => f (start + k)) = packed c f start stop := by
    rw [packed, ← hshift, List.map_map]
    rfl
  have hkept : kept (fun k => decide (k < stop - start) && c (start + k)) (stop - start) =
    (packed c f start stop).length := by
    rw [← length_filter, ← hvalues, List.length_map]
  have hstop : start + (stop - start) = stop := by omega
  have hc : ∀ i, stop - start ≤ i → (decide (i < stop - start) && c (start + i)) = false := by
    intro i hi
    rw [decide_eq_false (Nat.not_lt.mpr hi), Bool.false_and]
  have hcond : ∀ i < stop - start, some (c (start + i)) = some (decide (i < stop - start) && c (start + i)) := by
    intro i hi
    rw [decide_eq_true hi, Bool.true_and]
  rw [← hkept] at houtput hsize
  have hpack :
    Returns _ (packImpl getOutput fresh numWorkers schedules start (start + (stop - start)) (fun i => some (c i))
      fun i => some (f i)) :=
    returns_packImpl (g := fun k => f (start + k)) getOutput fresh schedules hworkers hn hc hcond
      (fun _ _ _ => rfl) houtput hsize
  rw [hstop] at hpack
  refine hpack.mono fun r ⟨htotal, hout, hevaluated, happlied⟩ =>
    ⟨htotal.trans hkept, ?_, hevaluated, hshift ▸ happlied⟩
  rw [hout, hvalues, drop_toList houtput, hkept]

/-- `pack` and `pack_into` give the values at the indices with the condition in ascending order,
whatever the number of workers, and evaluate the condition and the function no more than necessary. -/
theorem pack_filters_maps (uninit : ℕ → T) (fresh : Word) (schedules : ℕ → Schedule) (c : ℕ → Bool)
    (f : ℕ → T) (hle : start ≤ stop) (hn : stop - start < 2 ^ 60) (hworkers : 1 ≤ numWorkers) :
    (pack uninit fresh numWorkers schedules start stop (fun i => some (c i))
      (fun i => some (f i)) = some (packed c f start stop).toArray ∧
      ∃ r, packImpl (fun total => Array.ofFn fun i : Fin total => uninit i) fresh numWorkers schedules start stop
          (fun i => some (c i)) (fun i => some (f i)) = some r ∧
        r.output = (packed c f start stop).toArray ∧ r.EvaluatesOnce c start stop) ∧
    ∀ output : Array T, (packed c f start stop).length ≤ output.size →
      ∃ r, packInto output fresh numWorkers schedules start stop (fun i => some (c i))
        (fun i => some (f i)) = some r ∧
        r.total = (packed c f start stop).length ∧
        r.output.toList = packed c f start stop ++ output.toList.drop (packed c f start stop).length ∧
        r.EvaluatesOnce c start stop := by
  refine ⟨?_, fun output hsize => ?_⟩
  · obtain ⟨r, heq, -, hout, honce⟩ :=
      returns_packImpl_packed fresh schedules c f
        (fun total => Array.ofFn fun i : Fin total => uninit i) hle (by omega) hworkers (Contents.ofFn _ _) le_rfl
    have houtput : r.output = (packed c f start stop).toArray := by
      rw [← Array.toList_inj, hout, List.drop_eq_nil_of_le (by simp), List.append_nil]
    exact ⟨by rw [pack, heq, Option.map_some, houtput], r, heq, houtput, honce⟩
  · have hcontents : Contents output output.size fun i => output.getD i (uninit 0) :=
      ⟨rfl, fun i hi => by simp [Array.getD, hi]⟩
    exact returns_packImpl_packed fresh schedules c f (fun _ => output) hle (by omega) hworkers hcontents hsize

/-- The odd numbers below ten, packed from one block, and those below ten thousand, packed from ten blocks that
run last to first. -/
theorem pack_filters_maps_odd :
    ((pack (fun _ => 0) 0 3 (fun _ => Schedule.ascending) 0 10 (fun i => some (i % 2 == 1)) (fun i => some i) =
        some (packed (fun i => i % 2 == 1) id 0 10).toArray ∧
      ∃ r, packImpl (fun total => Array.ofFn fun _ : Fin total => 0) 0 3 (fun _ => Schedule.ascending) 0 10
          (fun i => some (i % 2 == 1)) (fun i => some i) = some r ∧
        r.output = (packed (fun i => i % 2 == 1) id 0 10).toArray ∧ r.EvaluatesOnce (fun i => i % 2 == 1) 0 10) ∧
    packed (fun i => i % 2 == 1) id 0 10 = [1, 3, 5, 7, 9]) ∧
    (pack (fun _ => 0) 7 3 (fun _ => Schedule.descending) 0 10000 (fun i => some (i % 2 == 1)) (fun i => some i) =
        some (packed (fun i => i % 2 == 1) id 0 10000).toArray ∧
      ∃ r, packImpl (fun total => Array.ofFn fun _ : Fin total => 0) 7 3 (fun _ => Schedule.descending) 0 10000
          (fun i => some (i % 2 == 1)) (fun i => some i) = some r ∧
        r.output = (packed (fun i => i % 2 == 1) id 0 10000).toArray ∧
        r.EvaluatesOnce (fun i => i % 2 == 1) 0 10000) := by
  refine ⟨⟨(pack_filters_maps (fun _ => 0) 0 (fun _ => Schedule.ascending) (fun i => i % 2 == 1) id
    (Nat.zero_le 10) (by norm_num) (by norm_num)).1, rfl⟩, ?_⟩
  exact (pack_filters_maps (fun _ => 0) 7 (fun _ => Schedule.descending) (fun i => i % 2 == 1) id
    (Nat.zero_le 10000) (by norm_num) (by norm_num)).1

end Specification

end Pack

end Primitives

end ToggleTree
