import ToggleTree.IndexSet.Query
import ToggleTree.IndexSet.Update

/-!
# Visiting every element

`for_each` and `consume_each` call their function exactly once for each element, in every
schedule; `consume_each` leaves every word zero. Run sequentially, both go through the
elements in ascending order.
-/

namespace ToggleTree

open ForkJoin ForkJoin.Prog

namespace IndexSet

variable {ι : Type} {env : ι → Prog (IndexSet × List ℕ) ι Unit} {n : ℕ} {S : Finset ℕ} {s : IndexSet}

/-- The function passed to a traversal: note the index in the log of calls. -/
def record (i : ℕ) : Prog (IndexSet × List ℕ) ι Unit := modify fun st => (st.1, st.2 ++ [i])

/-- The words stay as they are while a traversal calls `record` on the elements of `T`. -/
def visiting (s : IndexSet) (T : Finset ℕ) : Protocol (IndexSet × List ℕ) (Multiset (ℕ × ℕ)) where
  inv st front := st.1 = s ∧ Called T front st.2
  rel _ _ := True
  refl _ := trivial
  trans _ _ := trivial

/-- Calling `record` under the front token of an index. -/
theorem record_visiting {T : Finset ℕ} {i : ℕ} (hi : i ∈ T) (st : IndexSet × List ℕ) :
    Ensures (visiting s T) env (fun _ _ a => a = 0) (record i) st {(0, i)} := by
  have hstep : Ensures (visiting s T) env (fun _ _ a => a = 0)
      (record i >>= fun _ => ret ()) st {(0, i)} := by
    refine Ensures.modify fun st' o _ hinv => ⟨0, trivial, ⟨hinv.1, ?_⟩, ?_⟩
    · rw [zero_add]
      exact hinv.2.call hi
    · exact Ensures.ret fun _ _ _ hinv => ⟨0, hinv, rfl⟩
  rwa [bind_ret] at hstep

/-- A visit that only reads the word. -/
theorem visitWord_visiting (h : Represents n s S) {L w : ℕ} (hL : L < numLayers n)
    (st : IndexSet × List ℕ) :
    Ensures (visiting s S) env
      (fun x _ a => (∀ o ∈ bits x, Alive n S L (64 * w + o)) ∧ a = children L w x)
      (visitWord Loc.fst false L (w * 64 ^ (L + 1))) st {(L + 1, w)} := by
  unfold visitWord
  rw [wordId_node]
  refine Ensures.read fun st' o _ hinv => ?_
  have hword : (word Loc.fst L w).get st' = s.load L w := by
    rw [← hinv.1]
    rfl
  rw [hword, if_neg Bool.false_ne_true]
  refine Ensures.ret fun st'' o' _ hinv' => ⟨children L w (s.load L w), ⟨hinv'.1, ?_⟩, ?_, rfl⟩
  · exact hinv'.2.visit fun i hi hiw => mem_bits_of_below h hL hi hiw
  · exact fun o ho => alive_child h hL ho

/-- `for_each` calls its function once for each element and leaves the words unchanged. -/
theorem forEach_total (h : Represents n s S) :
    Total env (fun _ st => st.1 = s ∧ st.2.Perm (S.sort (· ≤ ·))) (forEach Loc.fst record) (s, []) := by
  have hpos := numLayers_pos n
  unfold forEach
  refine (empty_total h).bind ?_
  rintro _ st ⟨hst, rfl⟩
  rw [hst]
  by_cases hempty : S = ∅
  · rw [decide_eq_true hempty, if_pos rfl]
    subst hempty
    exact Total.ret ⟨rfl, by simp⟩
  · rw [decide_eq_false hempty, if_neg Bool.false_ne_true]
    refine Total.read ?_
    have htraverse : Ensures (visiting s S) env _ _ _ _ :=
      forEachAt_ensures (fun K v => {(K, v)}) (Alive n S)
        (fun L w st hgood => visitWord_visiting h hgood.1 st)
        (fun i st hgood => record_visiting (by simpa [Alive] using hgood.2) st)
        (numLayers n - 1) 0 (s, [])
        (by rw [Nat.sub_add_cancel hpos]; exact alive_root h (Finset.nonempty_iff_ne_empty.mpr hempty))
    rw [zero_mul, Nat.sub_add_cancel hpos] at htraverse
    have hstart : (visiting s S).inv (s, []) {(numLayers n, 0)} :=
      ⟨rfl, Called.start fun i hi => div_numLayers (h.lt hi)⟩
    change Total env _ (forEachAt Loc.fst false record (s.toggle.size - 1) 0) _
    rw [h.size]
    refine (htraverse.total hstart).mono ?_
    rintro _ st' ⟨_, _, ⟨hst', hcalled⟩, rfl⟩
    exact ⟨hst', hcalled.perm⟩

section Consume

/-- The word of layer `L` above `i` has not been visited: the node of the front that covers
`i` is that word or lies above it. -/
def Unread (front : Multiset (ℕ × ℕ)) (L i : ℕ) : Prop := ∃ p ∈ front, L < p.1 ∧ i / 64 ^ p.1 = p.2

/-- What is unread of two parts. -/
theorem unread_add {a b : Multiset (ℕ × ℕ)} {L i : ℕ} :
    Unread (a + b) L i ↔ Unread a L i ∨ Unread b L i := by
  simp only [Unread, Multiset.mem_add, or_and_right, exists_or]

/-- What is unread of a node. -/
theorem unread_singleton {K v L i : ℕ} : Unread {(K, v)} L i ↔ L < K ∧ i / 64 ^ K = v := by
  simp [Unread]

/-- What is unread of the children at the flags of a word. -/
theorem unread_children {K L w i : ℕ} {x : Word} :
    Unread (children L w x) K i ↔
      K < L ∧ i / 64 ^ (L + 1) = w ∧ i / 64 ^ L % 64 ∈ bits x := by
  rw [div_pow_succ]
  constructor
  · rintro ⟨p, hp, hlt, hi⟩
    obtain ⟨o, ho, rfl⟩ := mem_children.mp hp
    have := bits_lt ho
    change i / 64 ^ L = 64 * w + o at hi
    rw [hi, show (64 * w + o) / 64 = w by omega, show (64 * w + o) % 64 = o by omega]
    exact ⟨hlt, rfl, ho⟩
  · rintro ⟨hlt, hw, ho⟩
    exact ⟨_, mem_children.mpr ⟨_, ho, rfl⟩, hlt, by rw [← hw, Nat.div_add_mod]⟩

/-- An index that no node of the front covers is read. -/
theorem not_unread {front : Multiset (ℕ × ℕ)} {L i : ℕ} (h : covers front i = 0) :
    ¬Unread front L i := by
  rintro ⟨p, hp, _, hi⟩
  exact Multiset.countP_eq_zero.mp h p hp hi

/-- What remains unread after a visit. -/
theorem unread_visit {front : Multiset (ℕ × ℕ)} {calls : List ℕ} {K L w i : ℕ} {x : Word}
    (hcalled : Called S ({(L + 1, w)} + front) calls) (hi : i ∈ S)
    (hx : i / 64 ^ (L + 1) = w → i / 64 ^ L % 64 ∈ bits x) :
    Unread (children L w x + front) K i ↔
      Unread ({(L + 1, w)} + front) K i ∧ ¬(K = L ∧ i / 64 ^ L / 64 = w) := by
  rw [unread_add, unread_add, unread_singleton, unread_children, ← div_pow_succ]
  by_cases hw : i / 64 ^ (L + 1) = w
  · have hcover := hcalled.covers_le hi
    rw [covers_add, covers_singleton, if_pos hw] at hcover
    have hnone : ¬Unread front K i := not_unread (by omega)
    simp only [hw, hx hw, hnone, and_self, and_true, or_false]
    omega
  · simp only [hw, and_false, false_and, false_or, not_false_eq_true, and_true]

/-- The words while a traversal clears them: visited words are zero and the others are as they were. -/
structure Draining (n : ℕ) (S : Finset ℕ) (t : IndexSet) (front : Multiset (ℕ × ℕ)) (calls : List ℕ) : Prop where
  size : t.toggle.size = numLayers n
  width : ∀ L < numLayers n, t.width L = layerLength n (L + 1)
  bit : ∀ L < numLayers n, ∀ j, t.bit L j = true ↔ ∃ i ∈ S, i / 64 ^ L = j ∧ Unread front L i
  called : Called S front calls

namespace Draining

variable {t : IndexSet} {front : Multiset (ℕ × ℕ)} {calls : List ℕ}

/-- No word has been visited. -/
theorem start (h : Represents n s S) : Draining n S s {(numLayers n, 0)} [] where
  size := h.size
  width := h.width
  bit L hL j := by
    rw [h.bit_iff hL]
    refine exists_congr fun i => and_congr_right fun hi => (and_iff_left ?_).symm
    exact unread_singleton.mpr ⟨hL, div_numLayers (h.lt hi)⟩
  called := Called.start fun i hi => div_numLayers (h.lt hi)

/-- A word of the front is as it was. -/
theorem load_eq (h : Represents n s S) {L w : ℕ} (hd : Draining n S t ({(L + 1, w)} + front) calls)
    (hL : L < numLayers n) : t.load L w = s.load L w := by
  refine BitVec.eq_of_getLsbD_eq fun k hk => ?_
  have hbit (u : IndexSet) : u.bit L (64 * w + k) = (u.load L w).getLsbD k := by
    rw [IndexSet.bit, show (64 * w + k) / 64 = w by omega, show (64 * w + k) % 64 = k by omega]
  rw [← hbit, ← hbit, Bool.eq_iff_iff, hd.bit L hL, h.bit_iff hL]
  refine exists_congr fun i => and_congr_right fun _ => and_iff_left_of_imp fun hik => ?_
  rw [unread_add, unread_singleton, div_pow_succ]
  exact Or.inl ⟨by omega, by omega⟩

/-- Clearing a word of the front hands over to its children. -/
theorem visit (h : Represents n s S) {L w : ℕ} (hgood : Alive n S (L + 1) w)
    (hd : Draining n S t ({(L + 1, w)} + front) calls) :
    Draining n S (t.store L w 0) (children L w (s.load L w) + front) calls := by
  have hL : L < numLayers n := hgood.1
  obtain ⟨i₀, hi₀, hw⟩ := hgood.2
  have hin : w < t.width L := by
    rw [hd.width L hL, ← hw]
    exact div_lt_layerLength (h.lt hi₀) (L + 1)
  refine ⟨by simpa using hd.size, fun K hK => by simpa using hd.width K hK, fun K hK j => ?_, ?_⟩
  · rw [IndexSet.bit, load_store _ _ _ _ hin]
    have hsplit : (∃ i ∈ S, i / 64 ^ K = j ∧ Unread (children L w (s.load L w) + front) K i) ↔
        (∃ i ∈ S, i / 64 ^ K = j ∧ Unread ({(L + 1, w)} + front) K i) ∧ ¬(K = L ∧ j / 64 = w) := by
      constructor
      · rintro ⟨i, hi, rfl, hu⟩
        rw [unread_visit hd.called hi (mem_bits_of_below h hL hi)] at hu
        refine ⟨⟨i, hi, rfl, hu.1⟩, ?_⟩
        rintro ⟨rfl, hj⟩
        exact hu.2 ⟨rfl, hj⟩
      · rintro ⟨⟨i, hi, rfl, hu⟩, hne⟩
        refine ⟨i, hi, rfl, (unread_visit hd.called hi (mem_bits_of_below h hL hi)).mpr ⟨hu, ?_⟩⟩
        rintro ⟨rfl, hj⟩
        exact hne ⟨rfl, hj⟩
    rw [hsplit, ← hd.bit K hK j]
    by_cases hvisited : K = L ∧ j / 64 = w
    · rw [if_pos hvisited]
      simp [hvisited]
    · rw [if_neg hvisited]
      exact (and_iff_left hvisited).symm
  · exact hd.called.visit fun i hi hiw => mem_bits_of_below h hL hi hiw

/-- A call for an index of the front. -/
theorem call {i : ℕ} (hd : Draining n S t ({(0, i)} + front) calls) (hi : i ∈ S) :
    Draining n S t front (calls ++ [i]) where
  size := hd.size
  width := hd.width
  bit L hL j := by
    rw [hd.bit L hL j]
    simp only [unread_add, unread_singleton, Nat.not_lt_zero, false_and, false_or]
  called := hd.called.call hi

/-- At the end all words are zero. -/
theorem represents (hd : Draining n S t 0 calls) : Represents n t ∅ := by
  have hclear (L : ℕ) (hL : L < numLayers n) (j : ℕ) : t.bit L j = false := by
    rw [Bool.eq_false_iff, Ne, hd.bit L hL]
    rintro ⟨i, _, _, hu⟩
    exact not_unread (covers_zero i) hu
  refine ⟨⟨hd.size, hd.width, fun L hL j hj => ?_⟩, fun i => ?_, fun L hL j => ?_⟩
  · rw [hclear L hL] at hj
    cases hj
  · simp [hclear 0 (numLayers_pos n)]
  · rw [hclear (L + 1) hL, load_ne_zero_iff]
    simp [hclear L (by omega)]

end Draining

/-- Visited words are zero and the others are as they were. -/
def consuming (n : ℕ) (S : Finset ℕ) : Protocol (IndexSet × List ℕ) (Multiset (ℕ × ℕ)) where
  inv st front := st.1.toggle.size = numLayers n ∧
    (∀ L < numLayers n, st.1.width L = layerLength n (L + 1)) ∧
    (∀ L < numLayers n, ∀ j, st.1.bit L j = true ↔ ∃ i ∈ S, i / 64 ^ L = j ∧ Unread front L i) ∧
    Called S front st.2
  rel _ _ := True
  refl _ := trivial
  trans _ _ := trivial

/-- The invariant of the consuming traversal. -/
theorem consuming_inv {st : IndexSet × List ℕ} {front : Multiset (ℕ × ℕ)} :
    (consuming n S).inv st front ↔ Draining n S st.1 front st.2 :=
  ⟨fun h => ⟨h.1, h.2.1, h.2.2.1, h.2.2.2⟩, fun h => ⟨h.size, h.width, h.bit, h.called⟩⟩

/-- The call of an index records it. -/
theorem record_consuming {i : ℕ} (hi : i ∈ S) (st : IndexSet × List ℕ) :
    Ensures (consuming n S) env (fun _ _ a => a = 0) (record i) st {(0, i)} := by
  have hstep : Ensures (consuming n S) env (fun _ _ a => a = 0)
      (record i >>= fun _ => ret ()) st {(0, i)} := by
    refine Ensures.modify fun st' o _ hinv => ⟨0, trivial, ?_, Ensures.ret fun _ _ _ hinv => ⟨0, hinv, rfl⟩⟩
    rw [zero_add]
    exact consuming_inv.mpr ((consuming_inv.mp hinv).call hi)
  rwa [bind_ret] at hstep

/-- A visit that reads the word and then clears it. -/
theorem visitWord_consuming (h : Represents n s S) {L w : ℕ} (hgood : Alive n S (L + 1) w)
    (st : IndexSet × List ℕ) :
    Ensures (consuming n S) env
      (fun x _ a => (∀ o ∈ bits x, Alive n S L (64 * w + o)) ∧ a = children L w x)
      (visitWord Loc.fst true L (w * 64 ^ (L + 1))) st {(L + 1, w)} := by
  have hL : L < numLayers n := hgood.1
  unfold visitWord
  rw [wordId_node]
  refine Ensures.read fun st' o _ hinv => ?_
  have hword : (word Loc.fst L w).get st' = s.load L w := (consuming_inv.mp hinv).load_eq h hL
  rw [hword, if_pos rfl]
  refine Ensures.modify fun st'' o' _ hinv' => ⟨children L w (s.load L w), trivial, ?_, ?_⟩
  · exact consuming_inv.mpr ((consuming_inv.mp hinv').visit h hgood)
  · exact Ensures.ret fun _ _ _ hinv => ⟨_, hinv, fun o ho => alive_child h hL ho, rfl⟩

/-- `consume_each` calls its function once for each element and empties the set. -/
theorem consumeEach_total (h : Represents n s S) :
    Total env (fun _ st => Represents n st.1 ∅ ∧ st.2.Perm (S.sort (· ≤ ·)))
      (consumeEach Loc.fst record) (s, []) := by
  have hpos := numLayers_pos n
  unfold consumeEach
  refine (empty_total h).bind ?_
  rintro _ st ⟨hst, rfl⟩
  rw [hst]
  by_cases hempty : S = ∅
  · rw [decide_eq_true hempty, if_pos rfl]
    subst hempty
    exact Total.ret ⟨h, by simp⟩
  · rw [decide_eq_false hempty, if_neg Bool.false_ne_true]
    refine Total.read ?_
    have htraverse : Ensures (consuming n S) env _ _ _ _ :=
      forEachAt_ensures (fun K v => {(K, v)}) (Alive n S)
        (fun L w st hgood => visitWord_consuming h hgood st)
        (fun i st hgood => record_consuming (by simpa [Alive] using hgood.2) st)
        (numLayers n - 1) 0 (s, [])
        (by rw [Nat.sub_add_cancel hpos]; exact alive_root h (Finset.nonempty_iff_ne_empty.mpr hempty))
    rw [zero_mul, Nat.sub_add_cancel hpos] at htraverse
    change Total env _ (forEachAt Loc.fst true record (s.toggle.size - 1) 0) _
    rw [h.size]
    refine (htraverse.total (consuming_inv.mpr (Draining.start h))).mono ?_
    rintro _ st' ⟨_, _, hinv, rfl⟩
    have hdrained := consuming_inv.mp hinv
    exact ⟨hdrained.represents, hdrained.called.perm⟩

end Consume

section Sequential

/-- A sequential loop over the images of a list. -/
theorem seqEach_map {σ β γ : Type} (bs : List β) (g : β → γ) (f : γ → Prog σ ι Unit) :
    seqEach (bs.map g) f = seqEach bs fun b => f (g b) := by
  induction bs with
  | nil => rfl
  | cons b bs ih => rw [List.map_cons, seqEach, ih, seqEach]

/-- Run sequentially, a parallel loop over the flags of a word visits them in ascending order. -/
theorem exec_parallelFor_bits {σ : Type} (x : Word) (f : ℕ → Prog σ Empty Unit) (st : σ) :
    exec (parallelFor 0 (popCount x) fun i => f (popOffset i x)) st = exec (seqEach (bits x) f) st := by
  rw [exec_parallelFor, ← map_popOffset_range, seqEach_map, Nat.sub_zero, List.range_eq_range']

/-- Storing a word keeps the other words. -/
theorem load_store_of_ne {t : IndexSet} {L w K v : ℕ} (x : Word) (h : ¬(K = L ∧ v = w)) :
    (t.store L w x).load K v = t.load K v := by
  by_cases hin : w < t.width L
  · rw [load_store _ _ _ _ hin, if_neg h]
  · have hsame : t.store L w x = t := by
      obtain ⟨a⟩ := t
      simp only [width, not_lt, Array.getD_eq_getD_getElem?] at hin
      simp only [store, IndexSet.mk.injEq]
      refine Array.ext (by simp) fun M h₁ h₂ => ?_
      rw [Array.getElem_modify]
      split
      · next hM =>
        subst hM
        rw [Array.getElem?_eq_getElem h₂, Option.getD_some] at hin
        exact Array.setIfInBounds_eq_of_size_le hin
      · rfl
    rw [hsame]

/-- Word `v` of layer `K` is at or below word `w` of layer `L`. -/
def Under (L w K v : ℕ) : Prop := K ≤ L ∧ v / 64 ^ (L - K) = w

/-- What is below a child is below its parent. -/
theorem Under.parent {L w o K v : ℕ} (h : Under L (64 * w + o) K v) (ho : o < 64) :
    Under (L + 1) w K v := by
  refine ⟨by have := h.1; omega, ?_⟩
  rw [show L + 1 - K = L - K + 1 by have := h.1; omega, div_pow_succ, h.2]
  omega

/-- A node is not below a node of a lower layer. -/
theorem not_under_self (L w v : ℕ) : ¬Under L v (L + 1) w := fun h => by
  have := h.1
  omega

/-- The words at or below a node are those of the set that `s` represents. -/
def Intact (s t : IndexSet) (L w : ℕ) : Prop := ∀ K v, Under L w K v → t.load K v = s.load K v

/-- Run sequentially, the traversal of a node calls its function on the elements below it in
ascending order and touches no word outside the node. -/
theorem exec_forEachAt (h : Represents n s S) (consume : Bool) {L : ℕ} (hL : L < numLayers n)
    (w : ℕ) (t : IndexSet) (calls : List ℕ) (hsame : Intact s t L w) :
    ∃ t', exec (forEachAt Loc.fst consume record L (w * 64 ^ (L + 1))) (t, calls) =
        ((), t', calls ++ below S (L + 1) w) ∧
      ∀ K v, ¬Under L w K v → t'.load K v = t.load K v := by
  have hvisit (L w : ℕ) (t : IndexSet) (calls : List ℕ) (hsame : Intact s t L w) :
      exec (visitWord Loc.fst consume L (w * 64 ^ (L + 1))) (t, calls) =
        (s.load L w, if consume then t.store L w 0 else t, calls) := by
    have hword : t.load L w = s.load L w := hsame L w ⟨le_rfl, by simp⟩
    unfold visitWord
    rw [wordId_node, ← hword]
    cases consume <;> rfl
  induction L generalizing w t calls with
  | zero =>
    refine ⟨if consume then t.store 0 w 0 else t, ?_, ?_⟩
    · unfold forEachAt
      rw [exec_bind, hvisit 0 w t calls hsame]
      simp only [leaf_index]
      rw [exec_parallelFor_bits _ fun o => record (64 * w + o), h.below_leaf]
      generalize (if consume then t.store 0 w 0 else t) = t'
      induction bits (s.load 0 w) generalizing calls with
      | nil => rw [List.map_nil, List.append_nil]; rfl
      | cons o os ih =>
        have hrest := ih (calls ++ [64 * w + o])
        rw [List.map_cons, List.append_cons]
        exact hrest
    · intro K v hout
      split
      · refine load_store_of_ne 0 ?_
        rintro ⟨rfl, rfl⟩
        exact hout ⟨le_rfl, by simp⟩
      · rfl
  | succ L ih =>
    -- The children are visited one after the other; those not yet visited stay intact.
    have hchildren : ∀ (os : List ℕ) (t : IndexSet) (calls : List ℕ), os.Nodup → (∀ o ∈ os, o < 64) →
        (∀ o ∈ os, Intact s t L (64 * w + o)) →
        ∃ t', exec (seqEach os fun o => forEachAt Loc.fst consume record L
              ((64 * w + o) * 64 ^ (L + 1))) (t, calls) =
            ((), t', calls ++ os.flatMap fun o => below S (L + 1) (64 * w + o)) ∧
          ∀ K v, (∀ o ∈ os, ¬Under L (64 * w + o) K v) → t'.load K v = t.load K v := by
      intro os
      induction os with
      | nil => exact fun t calls _ _ _ => ⟨t, by simp [seqEach, exec], fun _ _ _ => rfl⟩
      | cons o os ihos =>
        intro t calls hnodup hlt hintact
        obtain ⟨ho, hos⟩ := List.nodup_cons.mp hnodup
        obtain ⟨t₁, hexec₁, hframe₁⟩ :=
          ih (by omega) (64 * w + o) t calls (hintact o List.mem_cons_self)
        obtain ⟨t₂, hexec₂, hframe₂⟩ := ihos t₁ (calls ++ below S (L + 1) (64 * w + o)) hos
          (fun o' ho' => hlt o' (List.mem_cons_of_mem _ ho')) (fun o' ho' K v hu => by
            rw [hframe₁ K v, hintact o' (List.mem_cons_of_mem _ ho') K v hu]
            rintro ⟨_, hv⟩
            have hsum : 64 * w + o' = 64 * w + o := hu.2.symm.trans hv
            exact ho (by rwa [show o = o' by omega]))
        refine ⟨t₂, ?_, fun K v hout => ?_⟩
        · rw [seqEach, exec_bind, hexec₁]
          refine hexec₂.trans ?_
          rw [List.flatMap_cons, List.append_assoc]
        · rw [hframe₂ K v fun o' ho' => hout o' (List.mem_cons_of_mem _ ho'),
            hframe₁ K v (hout o List.mem_cons_self)]
    obtain ⟨t', hexec, hframe⟩ := hchildren (bits (s.load (L + 1) w))
      (if consume then t.store (L + 1) w 0 else t) calls (bits_nodup _) (fun o ho => bits_lt ho)
      (fun o ho K v hu => by
        have hstore : (if consume then t.store (L + 1) w 0 else t).load K v = t.load K v := by
          split
          · refine load_store_of_ne 0 ?_
            rintro ⟨rfl, rfl⟩
            exact not_under_self _ _ _ hu
          · rfl
        rw [hstore]
        exact hsame K v (hu.parent (bits_lt ho)))
    refine ⟨t', ?_, fun K v hout => ?_⟩
    · unfold forEachAt
      rw [exec_bind, hvisit (L + 1) w t calls hsame]
      simp only [child_index]
      rw [exec_parallelFor_bits _ fun o =>
        forEachAt Loc.fst consume record L ((64 * w + o) * 64 ^ (L + 1)), hexec, h.below_word hL]
    · rw [hframe K v fun o ho hu => hout (hu.parent (bits_lt ho))]
      split
      · refine load_store_of_ne 0 ?_
        rintro ⟨rfl, rfl⟩
        exact hout ⟨le_rfl, by simp⟩
      · rfl

/-- The first step of both operations, run sequentially. -/
theorem exec_empty (h : Represents n s S) :
    exec (empty Loc.fst) (s, ([] : List ℕ)) = (decide (S = ∅), s, []) := by
  have htotal : Total Empty.elim _ (empty Loc.fst) (s, ([] : List ℕ)) := empty_total h
  obtain ⟨h₁, h₂⟩ := htotal.exec
  exact Prod.ext h₂ h₁

/-- Run alone, a traversal from the root calls its function on the elements in their order. -/
theorem exec_root (h : Represents n s S) (consume : Bool) :
    (exec (forEachAt Loc.fst consume record (s.toggle.size - 1) 0) (s, [])).2.2 = S.sort (· ≤ ·) := by
  have hpos := numLayers_pos n
  obtain ⟨t, hexec, _⟩ := exec_forEachAt h consume (show numLayers n - 1 < numLayers n by omega) 0 s []
    fun _ _ _ => rfl
  rw [zero_mul, Nat.sub_add_cancel hpos, h.below_root, List.nil_append] at hexec
  rw [h.size, hexec]

/-- Run sequentially, `for_each` goes through the elements in ascending order. -/
theorem exec_forEach (h : Represents n s S) :
    (exec (forEach Loc.fst record) (s, [])).2.2 = S.sort (· ≤ ·) := by
  unfold forEach
  rw [exec_bind, exec_empty h]
  by_cases hempty : S = ∅
  · subst hempty
    simp [exec]
  · rw [decide_eq_false hempty, if_neg Bool.false_ne_true]
    exact exec_root h false

/-- Run sequentially, `consume_each` goes through the elements in ascending order. -/
theorem exec_consumeEach (h : Represents n s S) :
    (exec (consumeEach Loc.fst record) (s, [])).2.2 = S.sort (· ≤ ·) := by
  unfold consumeEach
  rw [exec_bind, exec_empty h]
  by_cases hempty : S = ∅
  · subst hempty
    simp [exec]
  · rw [decide_eq_false hempty, if_neg Bool.false_ne_true]
    exact exec_root h true

end Sequential

end IndexSet

end ToggleTree
