import ToggleTree.IndexSet.ConsumeRange

/-!
# The window of a range

The masks of `for_range` are built by two shifts for each word. Below the root the mask of the
parent word keeps both counts under 64. At the root the count that drops the flags up to `l` is
bounded only while `l` lies inside the capacity `64 ^ numLayers n` of the tree; nothing guards it
there, while the other count is guarded by the test against `r`.
-/

namespace ToggleTree

open ForkJoin ForkJoin.Prog

namespace IndexSet

/-- The words, the calls of the function, and the shift counts evaluated. -/
abbrev WindowState := IndexSet × List ℕ × List ℕ

variable {ι : Type} {env : ι → Prog WindowState ι Unit} {n l r : ℕ} {S : Finset ℕ} {s : IndexSet}

/-- `for_range` that tells an observer the shift counts it evaluates. -/
def forRangeTraced {σ ι : Type} (ℓ : Loc σ IndexSet) (observe : ℕ → Prog σ ι Unit) (l r : ℕ)
    (f : ℕ → Prog σ ι Unit) : Prog σ ι Unit := do
  let isEmpty ← empty ℓ
  if isEmpty = true ∨ l ≥ r then return ()
  else do
    let size ← layers ℓ
    forRangeAtTraced ℓ observe false l r f (size - 1) 0

/-- With an observer that does nothing, this is `for_range`. -/
theorem forRangeTraced_silent {σ ι : Type} (ℓ : Loc σ IndexSet) (l r : ℕ) (f : ℕ → Prog σ ι Unit) :
    forRangeTraced ℓ (fun _ => ret ()) l r f = forRange ℓ l r f := by
  unfold forRangeTraced forRange
  simp only [forRangeAtTraced_silent]

/-- A call of the function notes its index. -/
def logCall (i : ℕ) : Prog WindowState ι Unit := modify fun st => (st.1, st.2.1 ++ [i], st.2.2)

/-- A shift notes its count. -/
def logShift (count : ℕ) : Prog WindowState ι Unit :=
  modify fun st => (st.1, st.2.1, st.2.2 ++ [count])

/-- The run of `for_range` with its calls and shift counts logged. -/
def windowRun (l r : ℕ) : Prog WindowState ι Unit := forRangeTraced Loc.fst logShift l r logCall

/-- In every run `for_range` leaves the words alone and calls its function once for each element of
the window, and no state of a run has evaluated a shift by a whole word. -/
structure VisitsWindow (env : ι → Prog WindowState ι Unit) (s : IndexSet) (S : Finset ℕ)
    (l r : ℕ) : Prop where
  calls : Total env (fun _ st => st.1 = s ∧ st.2.1.Perm ((inRange S l r).sort (· ≤ ·)))
    (windowRun l r) (s, [], [])
  shifts : ∀ p st, Steps env (windowRun l r) (s, [], []) p st → ∀ c ∈ st.2.2, c < 64

section Inside

/-- The words stay as they are while the elements of `T` are visited with narrow shifts. -/
def windowing (s : IndexSet) (T : Finset ℕ) : Protocol WindowState (Multiset (ℕ × ℕ)) where
  inv st front := st.1 = s ∧ Called T front st.2.1 ∧ ∀ c ∈ st.2.2, c < 64
  rel _ _ := True
  refl _ := trivial
  trans _ _ := trivial

/-- A call of the function is part of the window. -/
theorem logCall_windowing {T : Finset ℕ} {i : ℕ} (hi : i ∈ T) (st : WindowState) :
    Ensures (windowing s T) env (fun _ _ a => a = 0) (logCall i) st {(0, i)} := by
  have hstep : Ensures (windowing s T) env (fun _ _ a => a = 0)
      (logCall i >>= fun _ => ret ()) st {(0, i)} := by
    refine Ensures.modify fun st' o _ hinv => ⟨0, trivial, ⟨hinv.1, ?_, hinv.2.2⟩, ?_⟩
    · rw [zero_add]
      exact hinv.2.1.call hi
    · exact Ensures.ret fun _ _ _ hinv => ⟨0, hinv, rfl⟩
  rwa [bind_ret] at hstep

/-- A shift by fewer than 64 is part of the window. -/
theorem logShift_windowing {T : Finset ℕ} {c : ℕ} (hc : c < 64) (st : WindowState) :
    Ensures (windowing s T) env (fun _ _ a => a = 0) (logShift c) st 0 := by
  have hstep : Ensures (windowing s T) env (fun _ _ a => a = 0)
      (logShift c >>= fun _ => ret ()) st 0 := by
    refine Ensures.modify fun st' o _ hinv => ⟨0, trivial, ⟨hinv.1, hinv.2.1, fun d hd => ?_⟩, ?_⟩
    · rcases List.mem_append.mp hd with hd | hd
      · exact hinv.2.2 d hd
      · rwa [List.mem_singleton.mp hd]
    · exact Ensures.ret fun _ _ _ hinv => ⟨0, hinv, rfl⟩
  rwa [bind_ret] at hstep

/-- The root word tells whether the set is empty, whatever a branch holds. -/
theorem empty_windowing (h : Represents n s S) {T : Finset ℕ} (st : WindowState)
    {front : Multiset (ℕ × ℕ)} :
    Ensures (windowing s T) env (fun b _ a => b = decide (S = ∅) ∧ a = front) (empty Loc.fst) st front := by
  unfold empty
  refine Ensures.read fun st' o _ hinv => Ensures.read fun st'' o' _ hinv' =>
    Ensures.ret fun _ _ _ hinv'' => ⟨front, hinv'', ?_, rfl⟩
  rw [decide_eq_decide, ← h.root_eq_zero, ← h.size, ← hinv.1]
  change st''.1.load (st'.1.toggle.size - 1) 0 = 0 ↔ st'.1.load (st'.1.toggle.size - 1) 0 = 0
  rw [hinv'.1, ← hinv.1]

/-- Reading a word of the front and masking it. -/
theorem read_windowing (h : Represents n s S) {L w : ℕ} (hgood : AliveInRange n S l r (L + 1) w)
    (st : WindowState) :
    Ensures (windowing s (inRange S l r)) env
      (fun x _ a => (∀ o ∈ bits (x &&& rangeMask L (w * 64 ^ (L + 1)) l r),
          AliveInRange n S l r L (64 * w + o)) ∧
        a = children L w (x &&& rangeMask L (w * 64 ^ (L + 1)) l r))
      (atomicRead (word Loc.fst L w)) st {(L + 1, w)} := by
  have hL : L < numLayers n := hgood.1.1
  have hstep : Ensures (windowing s (inRange S l r)) env
      (fun x _ a => (∀ o ∈ bits (x &&& rangeMask L (w * 64 ^ (L + 1)) l r),
          AliveInRange n S l r L (64 * w + o)) ∧
        a = children L w (x &&& rangeMask L (w * 64 ^ (L + 1)) l r))
      (atomicRead (word Loc.fst L w) >>= ret) st {(L + 1, w)} := by
    refine Ensures.read fun st' o _ hinv => ?_
    have hword : (word Loc.fst L w).get st' = s.load L w := by
      rw [← hinv.1]
      rfl
    rw [hword]
    refine Ensures.ret fun st'' o' _ hinv' => ⟨_, ⟨hinv'.1, ?_, hinv'.2.2⟩, fun k hk => ?_, rfl⟩
    · exact hinv'.2.1.visit fun i hi hiw => mem_bits_masked_of_below h hL hgood.2 hi hiw
    · obtain ⟨hk, hover⟩ := (mem_bits_masked hgood.2).mp hk
      exact ⟨alive_child h hL hk, hover⟩
  rwa [bind_ret] at hstep

/-- Inside the capacity of the tree every branch of `for_range` keeps the protocol. -/
theorem windowRun_ensures (h : Represents n s S) (hl : S = ∅ ∨ l < 64 ^ numLayers n) :
    Ensures (windowing s (inRange S l r)) env (fun _ _ a => a = 0) (windowRun l r) (s, [], [])
      {(numLayers n, 0)} := by
  have hpos := numLayers_pos n
  unfold windowRun forRangeTraced
  refine (empty_windowing h _).bind ?_
  rintro _ st _ ⟨rfl, rfl⟩
  by_cases hskip : S = ∅ ∨ r ≤ l
  · rw [if_pos (by simpa using hskip)]
    have hnone : inRange S l r = ∅ := inRange_eq_empty hskip
    refine Ensures.ret fun st'' o'' _ hinv'' => ⟨0, ⟨hinv''.1, fun i => ?_, hinv''.2.2⟩, rfl⟩
    have hi := hinv''.2.1 i
    rw [hnone] at hi ⊢
    simpa using hi
  · rw [if_neg (by simpa using hskip)]
    push Not at hskip
    have hcap : l < 64 ^ numLayers n := hl.resolve_left (Finset.nonempty_iff_ne_empty.mp hskip.1)
    refine Ensures.read fun st'' o'' _ hinv'' => ?_
    have hsize : (Loc.fst.get st'' : IndexSet).toggle.size = numLayers n := by
      rw [← h.size, ← hinv''.1]
      rfl
    rw [hsize]
    have htraverse : Ensures (windowing s (inRange S l r)) env (fun _ _ a => a = 0)
        (forRangeAtTraced Loc.fst logShift false l r logCall (numLayers n - 1)
          (0 * 64 ^ (numLayers n - 1 + 1))) st'' {(numLayers n - 1 + 1, 0)} := by
      refine forRangeAtTraced_ensures (fun K v => {(K, v)}) (AliveInRange n S l r)
        (fun L w t hgood => read_windowing h hgood t)
        (fun L w t hgood => logShift_windowing (lowShift_lt hgood.2.1) t)
        (fun L w t hgood => logShift_windowing (highShift_lt hgood.2.2) t)
        (fun i t hgood => ?_) _ _ _ ?_
      · exact (logCall_windowing (mem_inRange_of_alive hgood) t).bind fun _ t' _ ha =>
          Ensures.ret fun _ _ _ hinv => ⟨0, by rwa [ha] at hinv, rfl⟩
      · rw [Nat.sub_add_cancel hpos]
        exact ⟨alive_root h hskip.1, by omega, by omega⟩
    rwa [zero_mul, Nat.sub_add_cancel hpos] at htraverse

/-- Inside the capacity of the tree `for_range` visits its window. -/
theorem visitsWindow (h : Represents n s S) (hl : S = ∅ ∨ l < 64 ^ numLayers n) :
    VisitsWindow env s S l r := by
  have hrun : Ensures (windowing s (inRange S l r)) env (fun _ _ a => a = 0) (windowRun l r) (s, [], [])
      {(numLayers n, 0)} := windowRun_ensures h hl
  have hstart : (windowing s (inRange S l r)).inv (s, [], []) {(numLayers n, 0)} :=
    ⟨rfl, Called.start fun i hi => div_numLayers (h.lt (mem_inRange.mp hi).1), fun _ hc => by simp at hc⟩
  constructor
  · refine (hrun.total hstart).mono ?_
    rintro _ st ⟨_, _, ⟨hst, hcalled, _⟩, rfl⟩
    exact ⟨hst, hcalled.perm⟩
  · intro p st run
    obtain ⟨_, hinv, _⟩ := hrun.invariant hstart run
    exact hinv.2.2

end Inside

section Outside

/-- Past the capacity of the tree the first shift count of a nonempty set is too large. -/
theorem lowShift_root_le (hl : 64 ^ numLayers n ≤ l) : 64 ≤ lowShift (numLayers n - 1) 0 l := by
  have hpos := numLayers_pos n
  have hpow : 64 ^ numLayers n = 64 * 64 ^ (numLayers n - 1) := by
    rw [← pow_succ', Nat.sub_add_cancel hpos]
  have hp : 0 < 64 ^ numLayers n := by positivity
  rw [lowShift, if_pos (by omega), Nat.sub_zero, offsetIndex_eq, one_mul,
    Nat.le_div_iff_mul_le (by positivity)]
  omega

/-- The traversal of any word evaluates its first shift count right after reading it. -/
theorem steps_lowShift (L index : ℕ) :
    ∃ p : Prog WindowState ι Unit, Steps env (forRangeAtTraced Loc.fst logShift false l r logCall L index)
      (s, [], []) p (s, [], [lowShift L index l]) := by
  cases L with
  | zero => exact ⟨_, Steps.head ⟨rfl, rfl⟩ (Steps.head ⟨rfl, rfl⟩ (Steps.refl _ _))⟩
  | succ L => exact ⟨_, Steps.head ⟨rfl, rfl⟩ (Steps.head ⟨rfl, rfl⟩ (Steps.refl _ _))⟩

/-- Past the capacity of the tree some run on a nonempty set evaluates too large a shift. -/
theorem not_visitsWindow (h : Represents n s S) (hlr : l < r) (hne : S ≠ ∅)
    (hl : 64 ^ numLayers n ≤ l) : ¬VisitsWindow env s S l r := by
  intro hvisits
  have hread : Total env (fun b st => st = (s, [], []) ∧ b = decide (S = ∅)) (empty Loc.fst)
      ((s, [], []) : WindowState) := empty_total h
  obtain ⟨_, _, hempty, rfl, rfl⟩ := hread.returns
  obtain ⟨p, hshift⟩ : ∃ p : Prog WindowState ι Unit, Steps env
      (forRangeAtTraced Loc.fst logShift false l r logCall (numLayers n - 1) 0) (s, [], []) p
      (s, [], [lowShift (numLayers n - 1) 0 l]) := steps_lowShift _ _
  have hguard : ¬(decide (S = ∅) = true ∨ l ≥ r) := by
    rw [decide_eq_true_eq]
    exact not_or.mpr ⟨hne, by omega⟩
  have hrest : Steps env (if decide (S = ∅) = true ∨ l ≥ r then return () else do
      let size ← layers Loc.fst
      forRangeAtTraced Loc.fst logShift false l r logCall (size - 1) 0) ((s, [], []) : WindowState) p
      (s, [], [lowShift (numLayers n - 1) 0 l]) := by
    rw [if_neg hguard]
    refine Steps.head ⟨rfl, rfl⟩ ?_
    change Steps env (forRangeAtTraced Loc.fst logShift false l r logCall (s.toggle.size - 1) 0) _ _ _
    rw [h.size]
    exact hshift
  have hnarrow := hvisits.shifts p _ ((hempty.bind_left _).trans hrest) _ (List.mem_singleton.mpr rfl)
  have := lowShift_root_le hl
  omega

end Outside

/-- `for_range` visits exactly its window, with no shift by a whole word, if and only if the set is
empty or `l` lies inside the capacity of the tree. -/
theorem forRange_iff (h : Represents n s S) (hlr : l < r) :
    VisitsWindow env s S l r ↔ S = ∅ ∨ l < 64 ^ numLayers n := by
  refine ⟨fun hvisits => ?_, visitsWindow h⟩
  by_contra hout
  push Not at hout
  exact not_visitsWindow h hlr (Finset.nonempty_iff_ne_empty.mp hout.1) hout.2 hvisits

/-- A window of a set of 100 indices, in a tree of capacity 4096. -/
theorem forRange_iff_hundred :
    VisitsWindow (fun e : Empty => e.elim) (create 100 true) (Finset.range 100) 70 200 := by
  have hlayers : numLayers 100 = 2 := by simp [numLayers, countLayers]
  refine (forRange_iff (represents_create 100 true) (by norm_num)).mpr (Or.inr ?_)
  rw [hlayers]
  norm_num

/-- A window past the capacity of a tree with one word: the first shift count is 64. -/
theorem forRange_overshifts : Represents 1 (create 1 true) {0} ∧
    ¬VisitsWindow (fun e : Empty => e.elim) (create 1 true) {0} 64 65 := by
  have h : Represents 1 (create 1 true) {0} := represents_create 1 true
  have hlayers : numLayers 1 = 1 := by simp [numLayers, countLayers]
  exact ⟨h, not_visitsWindow h (by norm_num) (Finset.singleton_ne_empty 0) (by rw [hlayers]; norm_num)⟩

end IndexSet

end ToggleTree
