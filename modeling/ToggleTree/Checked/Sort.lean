import ToggleTree.Checked.Loop

/-!
# Sorting a range of an array

A sorting function permutes every list and orders it by a strict weak order, for which different
elements may be equivalent. Sorting a range of an array leaves the rest of the array alone.

Nothing here refers to a particular program.
-/

namespace Checked

variable {α : Type}

/-- Incomparable elements are equivalent, and the order is strict on the classes. -/
structure StrictWeakOrder (less : α → α → Bool) : Prop where
  irrefl : ∀ x, less x x = false
  trans : ∀ x y z, less x y = true → less y z = true → less x z = true
  equiv_trans : ∀ x y z, less x y = false → less y x = false → less y z = false → less z y = false →
    less x z = false ∧ less z x = false

/-- No element is less than an earlier one. -/
def Sorted (less : α → α → Bool) (l : List α) : Prop := l.Pairwise fun x y => less y x = false

/-- The function permutes and sorts every list. -/
structure Sorts (less : α → α → Bool) (sort : List α → List α) : Prop where
  perm : ∀ l, (sort l).Perm l
  sorted : ∀ l, Sorted less (sort l)

namespace StrictWeakOrder

variable {less : α → α → Bool} {x y z : α}

/-- Of two entries only one precedes the other. -/
theorem asymm (h : StrictWeakOrder less) (hxy : less x y = true) : less y x = false := by
  by_contra hyx
  have := h.trans x y x hxy (by simpa using hyx)
  rw [h.irrefl] at this
  exact Bool.false_ne_true this

/-- What is not below `y` is not below anything that is not above `y`. -/
theorem not_less_trans (h : StrictWeakOrder less) (hyx : less y x = false) (hzy : less z y = false) :
    less z x = false := by
  by_contra hzx
  have hzx : less z x = true := by simpa using hzx
  cases hxy : less x y with
  | true =>
    have := h.trans z x y hzx hxy
    rw [hzy] at this
    exact Bool.false_ne_true this
  | false =>
    cases hyz : less y z with
    | true =>
      have := h.trans y z x hyz hzx
      rw [hyx] at this
      exact Bool.false_ne_true this
    | false =>
      have := (h.equiv_trans x y z hxy hyx hyz hzy).2
      rw [hzx] at this
      exact Bool.false_ne_true this.symm

/-- What precedes an entry precedes what does not precede that entry. -/
theorem less_of_less_of_not (h : StrictWeakOrder less) (hxy : less x y = true) (hzy : less z y = false) :
    less x z = true := by
  by_contra hxz
  have := h.not_less_trans hzy (by simpa using hxz)
  rw [hxy] at this
  exact Bool.false_ne_true this.symm

/-- What does not follow an entry precedes what that entry precedes. -/
theorem less_of_not_of_less (h : StrictWeakOrder less) (hyx : less y x = false) (hyz : less y z = true) :
    less x z = true := by
  by_contra hxz
  have := h.not_less_trans (by simpa using hxz) hyx
  rw [hyz] at this
  exact Bool.false_ne_true this.symm

end StrictWeakOrder

/-- Sorting keeps the length. -/
theorem Sorts.length_eq {less : α → α → Bool} {sort : List α → List α} (h : Sorts less sort) (l : List α) :
    (sort l).length = l.length := (h.perm l).length_eq

/-- Sort the elements from `start` up to `stop`. -/
def sortRange (sort : List α → List α) (a : Array α) (start stop : ℕ) : Option (Array α) :=
  if start ≤ stop ∧ stop ≤ a.size then
    some (a.toList.take start ++ sort ((a.toList.take stop).drop start) ++ a.toList.drop stop).toArray
  else none

/-- The elements from `start` up to `stop`. -/
def segment (f : ℕ → α) (start stop : ℕ) : List α := (List.range' start (stop - start)).map f

/-- The elements after the range has been sorted. -/
def sortedOn (sort : List α → List α) (f : ℕ → α) (start stop p : ℕ) : α :=
  if start ≤ p ∧ p < stop then (sort (segment f start stop)).getD (p - start) (f p) else f p

variable {less : α → α → Bool} {sort : List α → List α} {a : Array α} {f g : ℕ → α} {n start stop p q : ℕ}

/-- The length of a segment. -/
@[simp] theorem length_segment : (segment f start stop).length = stop - start := by
  rw [segment, List.length_map, List.length_range']

/-- A range in three parts around a segment. -/
theorem range_split (hle : start ≤ stop) (hn : stop ≤ n) :
    (List.range n).map f = (List.range start).map f ++ segment f start stop ++ segment f stop n := by
  have h₁ : List.range' 0 start ++ List.range' start (stop - start) = List.range' 0 stop := by
    have := @List.range'_append 0 start (stop - start) 1
    rwa [Nat.one_mul, Nat.zero_add, Nat.add_sub_cancel' hle] at this
  have h₂ : List.range' 0 stop ++ List.range' stop (n - stop) = List.range' 0 n := by
    have := @List.range'_append 0 stop (n - stop) 1
    rwa [Nat.one_mul, Nat.zero_add, Nat.add_sub_cancel' hn] at this
  rw [segment, segment, ← List.map_append, ← List.map_append, List.range_eq_range', List.range_eq_range', h₁, h₂]

/-- Sorting a segment leaves the entries outside it. -/
theorem sortedOn_outside (h : p < start ∨ stop ≤ p) : sortedOn sort f start stop p = f p := by
  rw [sortedOn, if_neg (by omega)]

/-- The result inside the range depends on nothing else. -/
theorem sortedOn_congr (hfg : ∀ p, start ≤ p → p < stop → f p = g p) (hp : start ≤ p) (hp' : p < stop) :
    sortedOn sort f start stop p = sortedOn sort g start stop p := by
  have hsegment : segment f start stop = segment g start stop := by
    refine List.map_congr_left fun q hq => ?_
    rw [List.mem_range'_1] at hq
    exact hfg q (by omega) (by omega)
  rw [sortedOn, sortedOn, hsegment, hfg p hp hp']

/-- The entries of the sorted segment. -/
theorem getElem?_sort (h : Sorts less sort) (hp : start ≤ p) (hp' : p < stop) :
    (sort (segment f start stop))[p - start]? = some (sortedOn sort f start stop p) := by
  have hlt : p - start < (sort (segment f start stop)).length := by
    rw [h.length_eq, length_segment]
    omega
  rw [sortedOn, if_pos ⟨hp, hp'⟩, List.getD_eq_getElem?_getD, List.getElem?_eq_getElem hlt, Option.getD_some]

/-- The segment after it has been sorted. -/
theorem segment_sortedOn (h : Sorts less sort) :
    segment (sortedOn sort f start stop) start stop = sort (segment f start stop) := by
  refine List.ext_getElem? fun i => ?_
  by_cases hi : i < stop - start
  · rw [segment, List.getElem?_map, List.getElem?_range' hi, Option.map_some]
    have hget :=
      getElem?_sort (f := f) h (show start ≤ start + 1 * i by omega) (show start + 1 * i < stop by omega)
    rw [← hget]
    congr 1
    omega
  · rw [List.getElem?_eq_none (by rw [length_segment]; omega),
      List.getElem?_eq_none (by rw [h.length_eq, length_segment]; omega)]

/-- Sorting a range permutes the elements. -/
theorem sortedOn_perm (h : Sorts less sort) (hle : start ≤ stop) (hn : stop ≤ n) :
    ((List.range n).map (sortedOn sort f start stop)).Perm ((List.range n).map f) := by
  have hlow : (List.range start).map (sortedOn sort f start stop) = (List.range start).map f :=
    List.map_congr_left fun p hp => sortedOn_outside (Or.inl (List.mem_range.mp hp))
  have hhigh : segment (sortedOn sort f start stop) stop n = segment f stop n := by
    refine List.map_congr_left fun p hp => sortedOn_outside (Or.inr ?_)
    rw [List.mem_range'_1] at hp
    exact hp.1
  rw [range_split hle hn, range_split hle hn, hlow, hhigh, segment_sortedOn h]
  exact ((h.perm _).append_left _).append_right _

/-- Every element of the sorted range comes from the range. -/
theorem exists_sortedOn (h : Sorts less sort) (hp : start ≤ p) (hp' : p < stop) :
    ∃ q, start ≤ q ∧ q < stop ∧ sortedOn sort f start stop p = f q := by
  have hmem := (h.perm _).mem_iff.mp (List.mem_of_getElem? (getElem?_sort (f := f) h hp hp'))
  obtain ⟨q, hq, heq⟩ := List.mem_map.mp hmem
  rw [List.mem_range'_1] at hq
  exact ⟨q, by omega, by omega, heq.symm⟩

/-- The range is sorted. -/
theorem sortedOn_sorted (h : Sorts less sort) (hp : start ≤ p) (hpq : p < q) (hq : q < stop) :
    less (sortedOn sort f start stop q) (sortedOn sort f start stop p) = false := by
  have hsorted := h.sorted (segment f start stop)
  have hp' := getElem?_sort (f := f) h hp (hpq.trans hq)
  have hq' := getElem?_sort (f := f) h (hp.trans hpq.le) hq
  obtain ⟨hlt, hp'⟩ := List.getElem?_eq_some_iff.mp hp'
  obtain ⟨hlt', hq'⟩ := List.getElem?_eq_some_iff.mp hq'
  rw [← hp', ← hq']
  exact List.pairwise_iff_getElem.mp hsorted _ _ hlt hlt' (by omega)

/-- Sorting a range in bounds succeeds. -/
theorem Contents.sortRange (ha : Contents a n f) (h : Sorts less sort) (hle : start ≤ stop) (hn : stop ≤ n) :
    ∃ a', Checked.sortRange sort a start stop = some a' ∧ Contents a' n (sortedOn sort f start stop) := by
  refine ⟨_, if_pos ⟨hle, ha.size.symm ▸ hn⟩, ?_⟩
  have htake : a.toList.take start = (List.range start).map f := by
    rw [ha.toList, ← List.map_take, List.take_range, min_eq_left (hle.trans hn)]
  have hsegment : (a.toList.take stop).drop start = segment f start stop := by
    rw [ha.toList, ← List.map_take, List.take_range, min_eq_left hn, segment, ← List.map_drop]
    congr 1
    rw [List.range_eq_range', List.drop_range', Nat.zero_add, Nat.mul_one]
  have hdrop : a.toList.drop stop = segment f stop n := by
    rw [ha.toList, segment, ← List.map_drop]
    congr 1
    rw [List.range_eq_range', List.drop_range', Nat.zero_add, Nat.mul_one]
  have hlow : (List.range start).map f = (List.range start).map (sortedOn sort f start stop) :=
    List.map_congr_left fun p hp => (sortedOn_outside (Or.inl (List.mem_range.mp hp))).symm
  have hhigh : segment f stop n = segment (sortedOn sort f start stop) stop n := by
    refine List.map_congr_left fun p hp => (sortedOn_outside (Or.inr ?_)).symm
    rw [List.mem_range'_1] at hp
    exact hp.1
  rw [htake, hsegment, hdrop, ← segment_sortedOn h, hlow, hhigh, ← range_split hle hn]
  refine ⟨by rw [List.size_toArray, List.length_map, List.length_range], fun i hi => ?_⟩
  rw [List.getElem?_toArray, List.getElem?_map, List.getElem?_range hi, Option.map_some]

end Checked
