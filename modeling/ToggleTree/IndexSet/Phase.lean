import ToggleTree.ForkJoin.Pool
import ToggleTree.IndexSet.Update

/-!
# Concurrent phases of one kind of update

Any number of threads run `insert` calls only, or `remove` calls only, interleaved step by
step. The state of a call in flight determines what it owes, and the layers disagree
exactly where some call in flight owes a flag. The words at the end do not depend on the
interleaving.
-/

namespace ToggleTree

open ForkJoin ForkJoin.Prog

namespace IndexSet

variable {n : ℕ}

/-- The update of a phase: `insert` when `up` is true, `remove` otherwise. -/
def update (up : Bool) (i : ℕ) : Prog IndexSet Empty Bool :=
  if up then insert Loc.self i else remove Loc.self i

/-- The loop of the update over the upper layers. -/
def updateUp (up : Bool) (i size layer : ℕ) : Prog IndexSet Empty Bool :=
  if up then insertUp Loc.self i size layer else removeUp Loc.self i size layer

/-- Where a call stands: before its first step, before it reads the number of layers,
before its step at a layer, or returned. -/
inductive CallState
  | entered
  | sizing
  | climbing (layer : ℕ)
  | returned (result : Bool)

/-- The rest of the program of a call. -/
def CallState.rest (up : Bool) (n i : ℕ) : CallState → Prog IndexSet Empty Bool
  | entered => update up i
  | sizing => layers Loc.self >>= fun size => updateUp up i size 1
  | climbing layer => updateUp up i (numLayers n) layer
  | returned result => ret result

/-- The flags that a call in flight owes to the layers. -/
def CallState.owed (n i : ℕ) : CallState → Multiset (ℕ × ℕ)
  | entered => 0
  | sizing => debt n 1 i
  | climbing layer => debt n layer i
  | returned _ => 0

/-- The call has changed the set; if it has returned, it has returned true. -/
def CallState.Won : CallState → Prop
  | entered => False
  | sizing => True
  | climbing _ => True
  | returned result => result = true

/-- Proceed to a layer, or return if there is none. -/
def CallState.climb (n layer : ℕ) : CallState :=
  if layer < numLayers n then climbing layer else returned true

/-- What a call that goes on in a layer has left. -/
theorem CallState.rest_climb (up : Bool) (n i layer : ℕ) :
    (climb n layer).rest up n i = updateUp up i (numLayers n) layer := by
  unfold climb
  split
  · rfl
  · next h =>
    cases up
    · rw [updateUp, if_neg Bool.false_ne_true, removeUp, if_neg h]
      rfl
    · rw [updateUp, if_pos rfl, insertUp, if_neg h]
      rfl

/-- What a call that goes on in a layer still owes. -/
theorem CallState.owed_climb (n i layer : ℕ) : (climb n layer).owed n i = debt n layer i := by
  unfold climb
  split
  · rfl
  · next h => rw [debt, if_neg h]; rfl

/-- A call that goes on in a layer has won. -/
theorem CallState.won_climb (n layer : ℕ) : (climb n layer).Won := by
  unfold climb
  split
  · trivial
  · rfl

/-- A call whose program has returned stands at its result. -/
theorem CallState.eq_returned {up : Bool} {n i : ℕ} {x : CallState} {r : Bool}
    (habove : ∀ L, x = climbing L → L < numLayers n) (h : x.rest up n i = ret r) : x = returned r := by
  cases x with
  | entered => cases up <;> cases h
  | sizing => cases h
  | climbing L =>
    have hL := habove L rfl
    rw [CallState.rest] at h
    cases up
    · rw [updateUp, if_neg Bool.false_ne_true, removeUp, if_pos hL] at h
      cases h
    · rw [updateUp, if_pos rfl, insertUp, if_pos hL] at h
      cases h
  | returned b =>
    cases h
    rfl

/-- Set or clear a flag. -/
def flip (up : Bool) (s : IndexSet) (L j : ℕ) : IndexSet :=
  if up then s.setBit L j else s.clearBit L j

/-- Add or subtract a flag. -/
def shift (up : Bool) (word offset : Word) : Word := if up then word + offset else word - offset

/-- The word that makes an update continue to the next layer. -/
def turning (up : Bool) (j : ℕ) : Word := if up then 0 else flag (j % 64)

/-- The bits after one is changed. -/
theorem bit_flip {up : Bool} {s : IndexSet} {L j : ℕ} (h : j / 64 < s.width L) (K k : ℕ) :
    (flip up s L j).bit K k = if K = L ∧ k = j then up else s.bit K k := by
  cases up
  · rw [flip, if_neg Bool.false_ne_true, bit_clearBit h]
    by_cases hk : K = L ∧ k = j <;> simp [hk]
  · rw [flip, if_pos rfl, bit_setBit h]
    by_cases hk : K = L ∧ k = j <;> simp [hk]

/-- Setting a bit that is set changes nothing. -/
theorem setBit_of_set {s : IndexSet} {L j : ℕ} (h : s.bit L j = true) : s.setBit L j = s := by
  have hsame : s.load L (j / 64) ||| flag (j % 64) = s.load L (j / 64) := by
    refine BitVec.eq_of_getLsbD_eq fun i _ => ?_
    rw [getLsbD_or_flag (Nat.mod_lt _ (by norm_num))]
    by_cases hi : i = j % 64
    · subst hi
      rw [show (s.load L (j / 64)).getLsbD (j % 64) = true from h, Bool.true_or]
    · simp [hi]
  rw [setBit, hsame, store_load]

/-- Changing a bit to what it is changes nothing. -/
theorem flip_of_bit {up : Bool} {s : IndexSet} {L j : ℕ} (h : s.bit L j = up) :
    flip up s L j = s := by
  cases up
  · exact clearBit_of_clear h
  · exact setBit_of_set h

/-- Where the flag is not yet flipped, the arithmetic of the upper layers flips it. -/
theorem store_shift {up : Bool} {s : IndexSet} {L j : ℕ} (h : s.bit L j = !up) :
    s.store L (j / 64) (shift up (s.load L (j / 64)) (flag (j % 64))) = flip up s L j := by
  cases up
  · exact store_sub_flag h
  · exact store_add_flag h

/-- An update that turns a word around finds its own flag not yet flipped. -/
theorem bit_of_turning {up : Bool} {s : IndexSet} {L j : ℕ} (h : s.load L (j / 64) = turning up j) :
    s.bit L j = !up := by
  rw [bit, h]
  cases up
  · rw [turning, if_neg Bool.false_ne_true, getLsbD_flag (Nat.mod_lt _ (by norm_num))]
    simp
  · rw [turning, if_pos rfl]
    simp

section Steps

variable {up : Bool} {i : ℕ} {s s' : IndexSet} {p : Prog IndexSet Empty Bool}
  {env : Empty → Prog IndexSet Empty Unit}

/-- The first step of a call. -/
theorem step_entered (h : Step env (update up i) s p s') :
    s' = flip up s 0 i ∧
      p = (if s.load 0 (i / 64) = turning up i then CallState.sizing
        else CallState.returned (decide (s.bit 0 i = !up))).rest up n i := by
  have hmod : i % 64 < 64 := Nat.mod_lt _ (by norm_num)
  have hid : wordId 0 i = i / 64 := by simp [wordId_eq]
  have hoffset : wordOffset 0 i = flag (i % 64) := by simp [wordOffset_eq]
  have hflag : s.load 0 (i / 64) &&& flag (i % 64) = 0 ↔ s.bit 0 i = false :=
    and_flag_eq_zero_iff hmod
  cases up
  · obtain ⟨rfl, rfl⟩ := h
    rw [hid, hoffset]
    refine ⟨rfl, ?_⟩
    change (if s.load 0 (i / 64) ≠ flag (i % 64) then _ else _) = _
    rw [turning, if_neg Bool.false_ne_true]
    split
    · refine congrArg ret (decide_eq_decide.mpr ?_)
      rw [Ne]
      exact (not_congr hflag).trans (by rw [Bool.not_eq_false]; rfl)
    · next heq =>
      rw [if_pos (not_not.mp heq)]
      rfl
  · obtain ⟨rfl, rfl⟩ := h
    rw [hid, hoffset]
    refine ⟨rfl, ?_⟩
    change (if s.load 0 (i / 64) ≠ 0 then _ else _) = _
    rw [turning, if_pos rfl]
    split
    · exact congrArg ret (decide_eq_decide.mpr hflag)
    · next heq =>
      rw [if_pos (not_not.mp heq)]
      rfl

/-- Reading the number of layers. -/
theorem step_sizing (hsize : s.toggle.size = numLayers n)
    (h : Step env (CallState.sizing.rest up n i) s p s') :
    s' = s ∧ p = (CallState.climb n 1).rest up n i := by
  obtain ⟨rfl, rfl⟩ := h
  refine ⟨rfl, ?_⟩
  rw [CallState.rest_climb, ← hsize]
  rfl

/-- The step at an upper layer. -/
theorem step_climbing {L : ℕ} (hL : L < numLayers n)
    (h : Step env ((CallState.climbing L).rest up n i) s p s') :
    s' = s.store L (i / 64 ^ L / 64)
        (shift up (s.load L (i / 64 ^ L / 64)) (flag (i / 64 ^ L % 64))) ∧
      p = (if s.load L (i / 64 ^ L / 64) = turning up (i / 64 ^ L) then CallState.climb n (L + 1)
        else CallState.returned true).rest up n i := by
  rw [CallState.rest] at h
  cases up
  · rw [updateUp, if_neg Bool.false_ne_true, removeUp, if_pos hL] at h
    obtain ⟨rfl, rfl⟩ := h
    rw [wordId_eq, wordOffset_eq]
    refine ⟨rfl, ?_⟩
    change (if s.load L (i / 64 ^ L / 64) ≠ flag (i / 64 ^ L % 64) then _ else _) = _
    rw [turning, if_neg Bool.false_ne_true]
    split
    · rfl
    · next heq =>
      rw [if_pos (not_not.mp heq), CallState.rest_climb]
      rfl
  · rw [updateUp, if_pos rfl, insertUp, if_pos hL] at h
    obtain ⟨rfl, rfl⟩ := h
    rw [wordId_eq, wordOffset_eq]
    refine ⟨rfl, ?_⟩
    change (if s.load L (i / 64 ^ L / 64) ≠ 0 then _ else _) = _
    rw [turning, if_pos rfl]
    split
    · rfl
    · next heq =>
      rw [if_pos (not_not.mp heq), CallState.rest_climb]
      rfl

end Steps

/-- The leaf step of a call that changes the set. -/
theorem Settling.flipLeaf {up : Bool} {s : IndexSet} {owed : Multiset (ℕ × ℕ)} {i : ℕ}
    (h : Settling up n s owed) (hi : i < n) (hbit : s.bit 0 i = !up) :
    Settling up n (flip up s 0 i)
      ((if s.load 0 (i / 64) = turning up i then debt n 1 i else 0) + owed) := by
  have hdebt := handOver_eq_debt n 0 i (s.load 0 (i / 64) = turning up i)
  rw [pow_zero, Nat.div_one, zero_add] at hdebt
  rw [← hdebt, add_comm _ owed]
  cases up
  · exact h.clearLeaf hbit
  · exact h.setLeaf hi

/-- The step of a call at a layer where it owes its flag. -/
theorem Settling.flipUpper {up : Bool} {s : IndexSet} {owed : Multiset (ℕ × ℕ)} {i L : ℕ}
    (h : Settling up n s ({(L + 1, i / 64 ^ (L + 1))} + owed)) (hi : i < n) :
    Settling up n (flip up s (L + 1) (i / 64 ^ (L + 1)))
      ((if s.load (L + 1) (i / 64 ^ (L + 1) / 64) = turning up (i / 64 ^ (L + 1))
        then debt n (L + 1 + 1) i else 0) + owed) := by
  rw [← handOver_eq_debt, add_comm _ owed]
  cases up
  · exact h.lower
  · exact h.raise (div_lt_layerLength hi (L + 1))

section Pool

variable {C : Type} [Fintype C]

/-- What holds at every moment of a phase that starts at rest with the set `S`: the call
`c` updates `index c` and stands at `state c`. -/
structure Phase (up : Bool) (n : ℕ) (S : Finset ℕ) (index : C → ℕ) (state : C → CallState)
    (s : IndexSet) : Prop where
  settling : Settling up n s (∑ c, (state c).owed n (index c))
  reached : ∀ c, state c ≠ CallState.entered → s.bit 0 (index c) = up
  kept : ∀ i, (∀ c, index c = i → state c = CallState.entered) → s.bit 0 i = decide (i ∈ S)
  above : ∀ c L, state c = CallState.climbing L → 0 < L ∧ L < numLayers n
  changed : ∀ c, (state c).Won → decide (index c ∈ S) = !up
  unique : ∀ c d, index c = index d → (state c).Won → (state d).Won → c = d
  winner : ∀ c, state c ≠ CallState.entered → decide (index c ∈ S) = !up →
    ∃ d, index d = index c ∧ (state d).Won

namespace Phase

variable {up : Bool} {S : Finset ℕ} {index : C → ℕ} {state : C → CallState} {s : IndexSet}

/-- No call has started. -/
theorem start (up : Bool) (index : C → ℕ) (h : Represents n s S) :
    Phase up n S index (fun _ => CallState.entered) s where
  settling := by
    have hzero : ∑ c, CallState.entered.owed n (index c) = 0 := Finset.sum_eq_zero fun _ _ => rfl
    rw [hzero]
    exact h.settling up
  reached c hc := (hc rfl).elim
  kept i _ := by rw [Bool.eq_iff_iff, decide_eq_true_eq, h.leaf]
  above c L hc := by cases hc
  changed c hc := hc.elim
  unique c d _ hc := hc.elim
  winner c hc := (hc rfl).elim

/-- A call that has returned stands at its result. -/
theorem state_of_ret (h : Phase up n S index state s) {c : C} {r : Bool}
    (hc : (state c).rest up n (index c) = ret r) : state c = CallState.returned r :=
  CallState.eq_returned (fun L hL => (h.above c L hL).2) hc

/-- The flag that a call is about to add is clear, the one it is about to subtract is set. -/
theorem bit_climbing (h : Phase up n S index state s) {c : C} {L : ℕ}
    (hc : state c = CallState.climbing L) : s.bit L (index c / 64 ^ L) = !up := by
  obtain ⟨hpos, hL⟩ := h.above c L hc
  obtain ⟨K, rfl⟩ : ∃ K, L = K + 1 := ⟨L - 1, by omega⟩
  refine (h.settling.of_owed (Multiset.mem_sum.mpr ⟨c, Finset.mem_univ c, ?_⟩)).2.2
  rw [hc, CallState.owed, debt, if_pos hL]
  exact Multiset.mem_singleton_self _

/-- Once every call has returned, the layers are at rest again. -/
theorem represents (h : Phase up n S index state s) {r : C → Bool}
    (hr : ∀ c, state c = CallState.returned (r c)) :
    Represents n s (if up then S ∪ Finset.univ.image index else S \ Finset.univ.image index) := by
  have howed : ∑ c, (state c).owed n (index c) = 0 :=
    Finset.sum_eq_zero fun c _ => by rw [hr]; rfl
  have hset := h.settling
  rw [howed] at hset
  refine hset.represents fun i => ?_
  by_cases hi : ∃ c, index c = i
  · obtain ⟨c, rfl⟩ := hi
    rw [h.reached c (by simp [hr])]
    cases up <;> simp
  · push Not at hi
    rw [h.kept i fun c hc => (hi c hc).elim]
    cases up <;> simp [hi]

variable [DecidableEq C]

/-- What all calls but one owe. -/
theorem sum_owed_update (index : C → ℕ) (state : C → CallState) (c : C) (x : CallState) :
    ∑ d, (Function.update state c x d).owed n (index d) =
      x.owed n (index c) + ∑ d ∈ Finset.univ.erase c, (state d).owed n (index d) := by
  rw [← Finset.add_sum_erase _ _ (Finset.mem_univ c), Function.update_self]
  congr 1
  refine Finset.sum_congr rfl fun d hd => ?_
  rw [Function.update_of_ne (Finset.ne_of_mem_erase hd)]

/-- A call that has started stays on the same side when it moves on. -/
theorem advance (h : Phase up n S index state s) {c : C} {x : CallState} {s' : IndexSet}
    (hc : state c ≠ CallState.entered) (hx : x ≠ CallState.entered)
    (hwon : x.Won ↔ (state c).Won)
    (habove : ∀ L, x = CallState.climbing L → 0 < L ∧ L < numLayers n)
    (hleaf : ∀ i, s'.bit 0 i = s.bit 0 i)
    (hset : Settling up n s'
      (x.owed n (index c) + ∑ d ∈ Finset.univ.erase c, (state d).owed n (index d))) :
    Phase up n S index (Function.update state c x) s' := by
  have hent (d : C) : Function.update state c x d ≠ CallState.entered ↔ state d ≠ CallState.entered := by
    rcases eq_or_ne d c with rfl | hd
    · rw [Function.update_self]
      exact iff_of_true hx hc
    · rw [Function.update_of_ne hd]
  have hwons (d : C) : (Function.update state c x d).Won ↔ (state d).Won := by
    rcases eq_or_ne d c with rfl | hd
    · rwa [Function.update_self]
    · rw [Function.update_of_ne hd]
  refine ⟨?_, ?_, ?_, ?_, ?_, ?_, ?_⟩
  · rwa [sum_owed_update]
  · intro d hd
    rw [hleaf, h.reached d ((hent d).mp hd)]
  · intro i hi
    rw [hleaf]
    refine h.kept i fun d hd => ?_
    by_contra hne
    exact (hent d).mpr hne (hi d hd)
  · intro d L hd
    rcases eq_or_ne d c with rfl | hdc
    · rw [Function.update_self] at hd
      exact habove L hd
    · rw [Function.update_of_ne hdc] at hd
      exact h.above d L hd
  · intro d hd
    exact h.changed d ((hwons d).mp hd)
  · intro d e hde hd he
    exact h.unique d e hde ((hwons d).mp hd) ((hwons e).mp he)
  · intro d hd hdS
    obtain ⟨e, he, hw⟩ := h.winner d ((hent d).mp hd) hdS
    exact ⟨e, he, (hwons e).mpr hw⟩

/-- A call that takes its first step, whether or not it changes the set. -/
theorem enter (h : Phase up n S index state s) {c : C} {x : CallState} {s' : IndexSet}
    (hc : state c = CallState.entered) (hx : x ≠ CallState.entered)
    (hwon : x.Won ↔ s.bit 0 (index c) = !up)
    (habove : ∀ L, x ≠ CallState.climbing L)
    (hleaf : ∀ i, s'.bit 0 i = if i = index c then up else s.bit 0 i)
    (hset : Settling up n s'
      (x.owed n (index c) + ∑ d ∈ Finset.univ.erase c, (state d).owed n (index d))) :
    Phase up n S index (Function.update state c x) s' := by
  -- Whether this call wins is decided by the calls for its index that came before it.
  have hfirst : s.bit 0 (index c) = !up → decide (index c ∈ S) = !up ∧
      ∀ d, index d = index c → state d = CallState.entered := by
    intro hb
    have hnone : ∀ d, index d = index c → state d = CallState.entered := by
      intro d hd
      by_contra hne
      have hup := h.reached d hne
      rw [hd, hb] at hup
      cases up <;> simp at hup
    exact ⟨(h.kept _ hnone).symm.trans hb, hnone⟩
  have hold (d : C) (hd : (state d).Won) : state d ≠ CallState.entered := by
    intro he
    rw [he] at hd
    exact hd
  refine ⟨?_, ?_, ?_, ?_, ?_, ?_, ?_⟩
  · rwa [sum_owed_update]
  · intro d hd
    rw [hleaf]
    split
    · rfl
    · next hdi =>
      have hdc : d ≠ c := by
        rintro rfl
        exact hdi rfl
      rw [Function.update_of_ne hdc] at hd
      exact h.reached d hd
  · intro i hi
    have hic : i ≠ index c := by
      rintro rfl
      have := hi c rfl
      rw [Function.update_self] at this
      exact hx this
    rw [hleaf, if_neg hic]
    refine h.kept i fun d hd => ?_
    have := hi d hd
    rwa [Function.update_of_ne (by rintro rfl; exact hic hd.symm)] at this
  · intro d L hd
    rcases eq_or_ne d c with rfl | hdc
    · rw [Function.update_self] at hd
      exact (habove L hd).elim
    · rw [Function.update_of_ne hdc] at hd
      exact h.above d L hd
  · intro d hd
    rcases eq_or_ne d c with rfl | hdc
    · rw [Function.update_self] at hd
      exact (hfirst (hwon.mp hd)).1
    · rw [Function.update_of_ne hdc] at hd
      exact h.changed d hd
  · intro d e hde hd he
    rcases eq_or_ne d c with rfl | hdc
    · rcases eq_or_ne e d with rfl | hec
      · rfl
      · rw [Function.update_self] at hd
        rw [Function.update_of_ne hec] at he
        exact (hold e he ((hfirst (hwon.mp hd)).2 e hde.symm)).elim
    · rw [Function.update_of_ne hdc] at hd
      rcases eq_or_ne e c with rfl | hec
      · rw [Function.update_self] at he
        exact (hold d hd ((hfirst (hwon.mp he)).2 d hde)).elim
      · rw [Function.update_of_ne hec] at he
        exact h.unique d e hde hd he
  · intro d hd hdS
    -- Either an earlier call for this index has won, or this call does.
    by_cases hdi : index d = index c
    · by_cases hb : s.bit 0 (index c) = !up
      · exact ⟨c, hdi.symm, by rw [Function.update_self]; exact hwon.mpr hb⟩
      · have hex : ∃ e, index e = index c ∧ state e ≠ CallState.entered := by
          by_contra hno
          push Not at hno
          rw [← hdi] at hb hno
          exact hb ((h.kept _ hno).trans hdS)
        obtain ⟨e, he, hne⟩ := hex
        obtain ⟨w, hw, hwin⟩ := h.winner e hne (by rw [he, ← hdi]; exact hdS)
        have hwc : w ≠ c := by
          rintro rfl
          exact hold w hwin hc
        exact ⟨w, by rw [hw, he, hdi], by rwa [Function.update_of_ne hwc]⟩
    · have hdc : d ≠ c := by
        rintro rfl
        exact hdi rfl
      rw [Function.update_of_ne hdc] at hd
      obtain ⟨w, hw, hwin⟩ := h.winner d hd hdS
      have hwc : w ≠ c := by
        rintro rfl
        exact hold w hwin hc
      exact ⟨w, hw, by rwa [Function.update_of_ne hwc]⟩

/-- One step of one call keeps the invariant and flips at most one flag. -/
theorem step {env : Empty → Prog IndexSet Empty Unit} (h : Phase up n S index state s)
    (hindex : ∀ c, index c < n) {c : C} {p : Prog IndexSet Empty Bool} {s' : IndexSet}
    (hstep : Step env ((state c).rest up n (index c)) s p s') :
    ∃ x, p = x.rest up n (index c) ∧ Phase up n S index (Function.update state c x) s' ∧
      (s' = s ∨ ∃ L j, j / 64 < s.width L ∧ s.bit L j = (!up) ∧ s' = flip up s L j) := by
  have hsum := Finset.add_sum_erase Finset.univ (fun d => (state d).owed n (index d))
    (Finset.mem_univ c)
  have hset := h.settling
  rw [← hsum] at hset
  have hleafIn : index c / 64 < s.width 0 := hset.inBounds (numLayers_pos n) (hindex c)
  cases hc : state c with
  | entered =>
    rw [hc] at hstep hset
    obtain ⟨rfl, rfl⟩ := step_entered (n := n) hstep
    refine ⟨_, rfl, ?_, ?_⟩
    · by_cases hbit : s.bit 0 (index c) = !up
      · have hflip := hset.flipLeaf (hindex c) hbit
        have hzero : CallState.entered.owed n (index c) = 0 := rfl
        rw [hzero, zero_add] at hflip
        refine h.enter hc ?_ ?_ ?_ (fun i => ?_) ?_
        · split <;> simp
        · refine iff_of_true ?_ hbit
          split
          · trivial
          · exact decide_eq_true hbit
        · intro L
          split <;> simp
        · rw [bit_flip hleafIn]
          simp
        · split
          · next hturn =>
            rw [if_pos hturn] at hflip
            exact hflip
          · next hturn =>
            rw [if_neg hturn] at hflip
            exact hflip
      · have hsame : s.bit 0 (index c) = up := by
          revert hbit
          cases up <;> cases s.bit 0 (index c) <;> simp
        have hturn : s.load 0 (index c / 64) ≠ turning up (index c) := fun ht =>
          hbit (bit_of_turning ht)
        rw [if_neg hturn, decide_eq_false hbit, flip_of_bit hsame]
        refine h.enter hc (by simp) (iff_of_false (by simp [CallState.Won]) hbit) (by simp)
          (fun i => ?_) hset
        split
        · next hi => rw [hi, hsame]
        · rfl
    · by_cases hbit : s.bit 0 (index c) = !up
      · exact Or.inr ⟨0, index c, hleafIn, hbit, rfl⟩
      · refine Or.inl (flip_of_bit ?_)
        revert hbit
        cases up <;> cases s.bit 0 (index c) <;> simp
  | sizing =>
    rw [hc] at hstep hset
    obtain ⟨rfl, rfl⟩ := step_sizing hset.size hstep
    refine ⟨_, rfl, ?_, Or.inl rfl⟩
    refine h.advance (by simp [hc]) (by unfold CallState.climb; split <;> simp) ?_ ?_ (fun _ => rfl) ?_
    · rw [hc]
      exact iff_of_true (CallState.won_climb n 1) trivial
    · intro L hL
      unfold CallState.climb at hL
      split at hL
      · obtain rfl := CallState.climbing.inj hL
        exact ⟨one_pos, ‹_›⟩
      · cases hL
    · rwa [CallState.owed_climb]
  | climbing L =>
    rw [hc] at hstep hset
    obtain ⟨hpos, hL⟩ := h.above c L hc
    obtain ⟨K, rfl⟩ : ∃ K, L = K + 1 := ⟨L - 1, by omega⟩
    obtain ⟨hs', rfl⟩ := step_climbing hL hstep
    have howed : (CallState.climbing (K + 1)).owed n (index c) = {(K + 1, index c / 64 ^ (K + 1))} :=
      if_pos hL
    rw [howed] at hset
    obtain ⟨_, _, hbit⟩ := hset.of_owed (show (K + 1, index c / 64 ^ (K + 1)) ∈ _ by simp)
    rw [store_shift hbit] at hs'
    subst hs'
    have hin : index c / 64 ^ (K + 1) / 64 < s.width (K + 1) :=
      hset.inBounds hL (div_lt_layerLength (hindex c) (K + 1))
    have hflip := hset.flipUpper (hindex c)
    refine ⟨_, rfl, ?_, Or.inr ⟨_, _, hin, hbit, rfl⟩⟩
    refine h.advance (by simp [hc]) ?_ ?_ ?_ (fun i => ?_) ?_
    · unfold CallState.climb
      split
      · split <;> simp
      · simp
    · rw [hc]
      refine iff_of_true ?_ trivial
      split
      · exact CallState.won_climb n _
      · rfl
    · intro M hM
      unfold CallState.climb at hM
      split at hM
      · split at hM
        · obtain rfl := CallState.climbing.inj hM
          exact ⟨by omega, ‹_›⟩
        · cases hM
      · cases hM
    · rw [bit_flip hin]
      simp
    · split
      · next hturn =>
        rw [if_pos hturn] at hflip
        rwa [CallState.owed_climb]
      · next hturn =>
        rw [if_neg hturn] at hflip
        exact hflip
  | returned r =>
    rw [hc] at hstep
    exact hstep.elim

/-- A flag that disagrees with its word is owed by exactly one call. -/
theorem owed_unique (h : Phase up n S index state s) {L j : ℕ} (hL : L + 1 < numLayers n)
    (hne : ¬s.Agrees L j) : ∃! c, (L + 1, j) ∈ (state c).owed n (index c) := by
  have hmem := (h.settling.mem (L + 1) j).mpr ⟨L, rfl, hL, hne⟩
  obtain ⟨c, _, hc⟩ := Multiset.mem_sum.mp hmem
  refine ⟨c, hc, fun d hd => ?_⟩
  by_contra hdc
  have hnodup := h.settling.nodup
  rw [← Finset.add_sum_erase _ _ (Finset.mem_univ c)] at hnodup
  refine Multiset.disjoint_left.mp (Multiset.nodup_add.mp hnodup).2.2 hc ?_
  exact Multiset.mem_sum.mpr ⟨d, Finset.mem_erase.mpr ⟨hdc, Finset.mem_univ d⟩, hd⟩

end Phase

end Pool

/-- Run updates one after the other. -/
def runUpdates (up : Bool) (calls : List ℕ) (s : IndexSet) : IndexSet :=
  calls.foldl (fun s i => (exec (update up i) s).2) s

/-- One update, run alone. -/
theorem represents_exec_update (up : Bool) {S : Finset ℕ} {s : IndexSet} {i : ℕ} (hi : i < n)
    (h : Represents n s S) :
    Represents n (exec (update up i) s).2 (if up then Insert.insert i S else S.erase i) := by
  cases up
  · have htotal : Total Empty.elim _ (remove Loc.self i) s := remove_total Loc.self_lawful h
    obtain ⟨_, t, ht, hrep⟩ := htotal.exec
    change Represents n (exec (remove Loc.self i) s).2 _
    rw [ht]
    exact hrep
  · have htotal : Total Empty.elim _ (insert Loc.self i) s := insert_total Loc.self_lawful hi h
    obtain ⟨_, t, ht, hrep⟩ := htotal.exec
    change Represents n (exec (insert Loc.self i) s).2 _
    rw [ht]
    exact hrep

/-- The sequential run of the updates, in any order. -/
theorem represents_runUpdates {up : Bool} {S : Finset ℕ} {s : IndexSet} (calls : List ℕ)
    (hcalls : ∀ i ∈ calls, i < n) (h : Represents n s S) :
    Represents n (runUpdates up calls s)
      (if up then S ∪ calls.toFinset else S \ calls.toFinset) := by
  induction calls generalizing S s with
  | nil => cases up <;> simpa [runUpdates] using h
  | cons i calls ih =>
    have hi : i < n := hcalls i List.mem_cons_self
    have hrest : ∀ j ∈ calls, j < n := fun j hj => hcalls j (List.mem_cons_of_mem i hj)
    have := ih hrest (represents_exec_update up hi h)
    cases up
    · rw [if_neg Bool.false_ne_true] at this ⊢
      rwa [List.toFinset_cons, Finset.sdiff_insert, ← Finset.erase_sdiff_comm]
    · rw [if_pos rfl] at this ⊢
      rwa [List.toFinset_cons, Finset.union_insert, ← Finset.insert_union]

/-- The guarantees of a phase of updates of one kind, at any moment: `threads` are the
programs that the calls still have to run, `s₀` is the state in which the phase started. -/
structure PhaseGuarantees {C : Type} [Fintype C] (up : Bool) (n : ℕ) (S : Finset ℕ) (index : C → ℕ)
    (s₀ : IndexSet) (threads : C → Prog IndexSet Empty Bool) (s : IndexSet) : Prop where
  shape : Shape n s
  /-- The next step of any call changes one flag or none. -/
  single : ∀ env c p s', Step env (threads c) s p s' → s' = s ∨
    ∃ L j, j / 64 < s.width L ∧ ∀ K k, s'.bit K k = if K = L ∧ k = j then up else s.bit K k
  /-- While flags are being set, none of them is set above a zero word. -/
  covered : up = true → ∀ L j, L + 1 < numLayers n → s.bit (L + 1) j = true → s.load L j ≠ 0
  /-- Every disagreement between a flag and its word is owed by one call in flight, whose
  addition does not overflow or whose subtraction does not borrow. -/
  owed : ∃ state : C → CallState,
    (∀ c, threads c = (state c).rest up n (index c)) ∧
    (∀ L j, L + 1 < numLayers n → ¬s.Agrees L j →
      ∃! c, (L + 1, j) ∈ (state c).owed n (index c)) ∧
    ∀ c L, state c = CallState.climbing L →
      if up then
        (s.load L (wordId L (index c)) + wordOffset L (index c)).toNat =
          (s.load L (wordId L (index c))).toNat + (wordOffset L (index c)).toNat
      else
        (s.load L (wordId L (index c)) - wordOffset L (index c)).toNat +
          (wordOffset L (index c)).toNat = (s.load L (wordId L (index c))).toNat
  /-- Once all calls have returned, one of them has returned true for each index that
  changed, and the words are those of the calls run one after the other in any order. -/
  finished : ∀ r : C → Bool, (∀ c, threads c = ret (r c)) →
    (∀ c, r c = true → decide (index c ∈ S) = !up) ∧
    (∀ c, decide (index c ∈ S) = (!up) → ∃! d, index d = index c ∧ r d = true) ∧
    Represents n s (if up then S ∪ Finset.univ.image index else S \ Finset.univ.image index) ∧
    ∀ calls : List ℕ, (calls : Multiset ℕ) = Finset.univ.val.map index →
      s = runUpdates up calls s₀

/-- The invariant of a phase implies its guarantees. -/
theorem Phase.guarantees {C : Type} [Fintype C] [DecidableEq C] {up : Bool} {S : Finset ℕ}
    {index : C → ℕ} {state : C → CallState} {s₀ s : IndexSet} (hindex : ∀ c, index c < n)
    (h₀ : Represents n s₀ S) (h : Phase up n S index state s) :
    PhaseGuarantees up n S index s₀ (fun c => (state c).rest up n (index c)) s where
  shape := h.settling.toShape
  single env c p s' hstep := by
    obtain ⟨_, _, _, hs'⟩ := h.step hindex hstep
    rcases hs' with rfl | ⟨L, j, hin, _, rfl⟩
    · exact Or.inl rfl
    · exact Or.inr ⟨L, j, hin, bit_flip hin⟩
  covered hup L j hL hj := by
    subst hup
    rcases h.settling.sided L j hL with ha | hb
    · exact ha.mp hj
    · rw [hj] at hb
      cases hb
  owed := by
    refine ⟨state, fun _ => rfl, fun L j hL hne => h.owed_unique hL hne, fun c L hc => ?_⟩
    have hbit := h.bit_climbing hc
    have hmod : index c / 64 ^ L % 64 < 64 := Nat.mod_lt _ (by norm_num)
    rw [wordId_eq, wordOffset_eq]
    cases up
    · rw [if_neg Bool.false_ne_true, sub_flag hmod hbit]
      refine (BitVec.toNat_add_of_and_eq_zero ?_).symm.trans ?_
      · refine (and_flag_eq_zero_iff hmod).mpr ?_
        rw [getLsbD_and_not_flag hmod, decide_eq_true rfl, Bool.not_true, Bool.and_false]
      · rw [← sub_flag hmod hbit, BitVec.sub_add_cancel]
    · rw [if_pos rfl]
      exact BitVec.toNat_add_of_and_eq_zero ((and_flag_eq_zero_iff hmod).mpr hbit)
  finished r hr := by
    have hstate (c : C) : state c = CallState.returned (r c) := h.state_of_ret (hr c)
    have hrep := h.represents hstate
    have hwon (c : C) : (state c).Won ↔ r c = true := by rw [hstate]; rfl
    refine ⟨fun c hc => h.changed c ((hwon c).mpr hc), fun c hc => ?_, hrep, fun calls hcalls => ?_⟩
    · obtain ⟨d, hd, hw⟩ := h.winner c (by simp [hstate]) hc
      refine ⟨d, ⟨hd, (hwon d).mp hw⟩, fun e he => ?_⟩
      exact h.unique e d (he.1.trans hd.symm) ((hwon e).mpr he.2) hw
    · have hmem (i : ℕ) : i ∈ calls ↔ i ∈ Finset.univ.image index := by
        rw [← Multiset.mem_coe, hcalls, Multiset.mem_map]
        simp
      have hsame : calls.toFinset = Finset.univ.image index := by
        ext i
        rw [List.mem_toFinset, hmem]
      refine hrep.eq ?_
      rw [← hsame]
      refine represents_runUpdates calls (fun i hi => ?_) h₀
      obtain ⟨c, _, rfl⟩ := Finset.mem_image.mp ((hmem i).mp hi)
      exact hindex c

/-- Every run of a pool of updates stays in the phase. -/
theorem Phase.of_run {C : Type} [Fintype C] [DecidableEq C] {env : Empty → Prog IndexSet Empty Unit} {up : Bool}
    {index : C → ℕ} {S : Finset ℕ} {s₀ s : IndexSet} {threads : C → Prog IndexSet Empty Bool}
    (hindex : ∀ c, index c < n)
    (h₀ : Represents n s₀ S) (run : PoolSteps env (fun c => update up (index c)) s₀ threads s) :
    ∃ state, threads = (fun c => (state c).rest up n (index c)) ∧ Phase up n S index state s := by
  refine run.invariant
    (I := fun threads s => ∃ state, threads = (fun c => (state c).rest up n (index c)) ∧
      Phase up n S index state s) ?_ ⟨fun _ => CallState.entered, rfl, Phase.start up index h₀⟩
  rintro _ s c p s' ⟨state, rfl, h⟩ hstep
  obtain ⟨x, rfl, hnext, _⟩ := h.step hindex hstep
  refine ⟨Function.update state c x, ?_, hnext⟩
  funext d
  rcases eq_or_ne d c with rfl | hd
  · simp
  · simp [Function.update_of_ne hd]

/-- Threads that run only insertions, or only removals, keep the guarantees of a phase in
every state they pass through. -/
theorem concurrent_updates {C : Type} [Fintype C] [DecidableEq C]
    (env : Empty → Prog IndexSet Empty Unit) (up : Bool) (index : C → ℕ) {S : Finset ℕ}
    {s₀ s : IndexSet} {threads : C → Prog IndexSet Empty Bool} (hindex : ∀ c, index c < n)
    (h₀ : Represents n s₀ S)
    (run : PoolSteps env (fun c => update up (index c)) s₀ threads s) :
    PhaseGuarantees up n S index s₀ threads s := by
  obtain ⟨state, rfl, hphase⟩ := Phase.of_run hindex h₀ run
  exact hphase.guarantees hindex h₀

/-- Two threads insert different indices of one set and have both taken their first step. -/
theorem concurrent_updates_two_inserts :
    ∃ threads : Bool → Prog IndexSet Empty Bool, ∃ s : IndexSet,
      s.load 0 0 = 1 ∧ s.load 0 1 = 1 ∧ s.load 1 0 = 0 ∧
        PhaseGuarantees true 65 ∅ (fun c => if c then 64 else 0) (create 65 false) threads s := by
  have hempty : Represents 65 (create 65 false) ∅ := represents_create 65 false
  refine ⟨_, _, ?_, ?_, ?_, concurrent_updates Empty.elim true (fun c : Bool => if c then 64 else 0)
    (by decide) hempty (PoolSteps.tail (c := true)
      (PoolSteps.tail (c := false) (PoolSteps.refl _ _) (by exact ⟨rfl, rfl⟩))
      (by exact ⟨rfl, rfl⟩))⟩
  all_goals decide +kernel

end IndexSet

end ToggleTree
