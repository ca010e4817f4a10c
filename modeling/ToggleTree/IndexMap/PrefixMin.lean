import ToggleTree.IndexMap.Extract

/-!
# Prefix minima

An element is a prefix minimum if its value is not above the value of any earlier element. The least
value of the elements before a node is the prefix with which the node is called, whichever of the
earlier nodes have been selected, so that every call sees what a scan over the whole set would see.
-/

namespace ToggleTree

open Checked

namespace IndexMap

open IndexSet

variable {T : Type} [LinearOrder T] [OrderTop T] {n : ℕ} {S : Finset ℕ} {sequence : ℕ → T}

/-- The least value of the elements before an index. -/
def minBefore (sequence : ℕ → T) (S : Finset ℕ) (index : ℕ) : T := (S.filter fun i => i < index).inf sequence

/-- The elements with an earlier element of lower value. -/
def notPrefixMin (sequence : ℕ → T) (S : Finset ℕ) : Finset ℕ :=
  S.filter fun i => ¬sequence i ≤ minBefore sequence S i

/-- What is at most the least value before an index. -/
theorem le_minBefore {t : T} {index : ℕ} :
    t ≤ minBefore sequence S index ↔ ∀ i ∈ S, i < index → t ≤ sequence i := by
  rw [minBefore, Finset.le_inf_iff]
  simp only [Finset.mem_filter, and_imp]

/-- The least value before an index decreases with the index. -/
theorem minBefore_anti {i j : ℕ} (h : i ≤ j) : minBefore sequence S j ≤ minBefore sequence S i :=
  le_minBefore.mpr fun k hk hki => le_minBefore.mp le_rfl k hk (by omega)

section Scan

variable {word : Word} {K w : ℕ}

/-- The running prefix at a child is the least value before it. -/
theorem prefix_eq (hword : FlagWord word S K w) {offsets rest : List ℕ} {o : ℕ}
    (h : bits word = offsets ++ o :: rest)
    {prefixMin : T} (hrunning : ∀ t, t ≤ prefixMin ↔ t ≤ minBefore sequence S (w * 64 ^ (K + 1)) ∧
      ∀ p ∈ offsets, t ≤ minBelow sequence S K (64 * w + p)) :
    prefixMin = minBefore sequence S ((64 * w + o) * 64 ^ K) := by
  have hpos : 0 < 64 ^ K := by positivity
  have hstart : w * 64 ^ (K + 1) = 64 * w * 64 ^ K := by rw [pow_succ]; ring
  have hsorted := bits_pairwise word
  rw [h, List.pairwise_append, List.pairwise_cons] at hsorted
  refine eq_of_forall_le_iff fun t => ?_
  rw [hrunning t, hstart, le_minBefore, le_minBefore]
  constructor
  · rintro ⟨hbefore, hoffsets⟩ i hi hlt
    rw [← Nat.div_lt_iff_lt_mul hpos] at hlt
    by_cases hle : i < 64 * w * 64 ^ K
    · exact hbefore i hi hle
    · rw [← Nat.div_lt_iff_lt_mul hpos, not_lt] at hle
      have ho : o < 64 := bits_lt (show o ∈ bits word by rw [h]; simp)
      obtain ⟨p, hp⟩ := Nat.exists_eq_add_of_le hle
      have hmem : p ∈ bits word := (hword p).mpr ⟨by omega, i, hi, hp⟩
      rw [h, List.mem_append, List.mem_cons] at hmem
      rcases hmem with hmem | rfl | hmem
      · exact le_minBelow.mp (hoffsets p hmem) i hi hp
      · omega
      · have := hsorted.2.1.1 p hmem
        omega
  · intro ht
    refine ⟨fun i hi hlt => ht i hi (hlt.trans_le (Nat.mul_le_mul_right _ (by omega))), fun p hp => ?_⟩
    refine le_minBelow.mpr fun i hi hip => ht i hi ?_
    rw [← Nat.div_lt_iff_lt_mul hpos, hip]
    have := hsorted.2.2 p hp o List.mem_cons_self
    omega

omit [OrderTop T] in
/-- The running prefix after a child, selected or not. -/
theorem le_prefix_snoc {prefixMin value start : T} {least : ℕ → T} {offsets : List ℕ} {o : ℕ}
    (hrunning : ∀ t, t ≤ prefixMin ↔ t ≤ start ∧ ∀ p ∈ offsets, t ≤ least p) (hvalue : value = least o) (t : T) :
    t ≤ (if value ≤ prefixMin then value else prefixMin) ↔ t ≤ start ∧ ∀ p ∈ offsets ++ [o], t ≤ least p := by
  have hmin : (if value ≤ prefixMin then value else prefixMin) = min prefixMin value := by
    split
    · next hle => exact (min_eq_right hle).symm
    · next hle => exact (min_eq_left (not_le.mp hle).le).symm
  rw [hmin, le_min_iff, hrunning, hvalue, and_assoc]
  refine and_congr_right fun _ => ?_
  simp only [List.mem_append, List.mem_singleton, or_imp, forall_and, forall_eq]

/-- A loop over the flags of a node with a running prefix selects the children whose least value is not above the
least value before them. -/
theorem scanPrefix_spec {σ : Type} (newWord : σ → Word) (aggregate running : σ → T) {step : σ → ℕ → σ} {start : σ}
    {value : ℕ → T} (Extra : List ℕ → σ → Prop) (hword : FlagWord word S K w)
    (hvalue : ∀ o ∈ bits word, value o = minBelow sequence S K (64 * w + o))
    (hstart : newWord start = 0 ∧ aggregate start = ⊤ ∧ running start = minBefore sequence S (w * 64 ^ (K + 1)))
    (hselect : ∀ r o, value o ≤ running r →
      newWord (step r o) = newWord r ∧ aggregate (step r o) = aggregate r ∧ running (step r o) = value o)
    (hkeep : ∀ r, ∀ o ∈ bits word, ¬value o ≤ running r →
      newWord (step r o) = newWord r ||| ToggleTree.flag o ∧ aggregate (step r o) = min (aggregate r) (value o) ∧
        running (step r o) = running r)
    (hextra : Extra [] start) (hnext : ∀ offsets r, ∀ o ∈ bits word,
      running r = minBefore sequence S ((64 * w + o) * 64 ^ K) → Extra offsets r →
        Extra (offsets ++ [o]) (step r o)) :
    Scanned (bits word) (fun o => value o ≤ minBefore sequence S ((64 * w + o) * 64 ^ K)) value
        (newWord ((bits word).foldl step start)) (aggregate ((bits word).foldl step start)) ∧
      Extra (bits word) ((bits word).foldl step start) := by
  -- the part of the word that the loop has gone through
  have key : ∀ offsets rest, bits word = offsets ++ rest →
      Scanned offsets (fun o => value o ≤ minBefore sequence S ((64 * w + o) * 64 ^ K)) value
          (newWord (offsets.foldl step start)) (aggregate (offsets.foldl step start)) ∧
        Extra offsets (offsets.foldl step start) ∧
        ∀ t, t ≤ running (offsets.foldl step start) ↔ t ≤ minBefore sequence S (w * 64 ^ (K + 1)) ∧
          ∀ p ∈ offsets, t ≤ minBelow sequence S K (64 * w + p) := by
    intro offsets
    induction offsets using List.reverseRecOn with
    | nil =>
      obtain ⟨hzero, htop, hfirst⟩ := hstart
      refine fun _ _ => ⟨?_, hextra, fun t => ?_⟩
      · rw [List.foldl_nil, hzero, htop]
        exact Scanned.start
      · rw [List.foldl_nil, hfirst]
        simp
    | append_singleton offsets o ih =>
      intro rest h
      rw [List.append_assoc, List.singleton_append] at h
      obtain ⟨hscan, hE, hrunning⟩ := ih (o :: rest) h
      have hmem : o ∈ bits word := by rw [h]; simp
      have heq := prefix_eq hword h hrunning
      have hsnoc := le_prefix_snoc hrunning (hvalue o hmem)
      have hE' := hnext offsets _ o hmem heq hE
      rw [List.foldl_append, List.foldl_cons, List.foldl_nil]
      by_cases hle : value o ≤ running (offsets.foldl step start)
      · obtain ⟨hflag, hagg, hrun⟩ := hselect _ o hle
        rw [hflag, hagg, hrun]
        simp only [if_pos hle] at hsnoc
        exact ⟨hscan.skip (heq ▸ hle), hE', hsnoc⟩
      · obtain ⟨hflag, hagg, hrun⟩ := hkeep _ o hmem hle
        rw [hflag, hagg, hrun]
        simp only [if_neg hle] at hsnoc
        exact ⟨hscan.keep (heq ▸ hle) (bits_lt hmem), hE', hsnoc⟩
  obtain ⟨hscan, hE, _⟩ := key (bits word) [] (List.append_nil _).symm
  exact ⟨hscan, hE⟩

/-- The value of an index is the least value below its own node. -/
theorem minBelow_leaf (hword : FlagWord word S 0 w) {o : ℕ} (ho : o ∈ bits word) :
    sequence (64 * w + o) = minBelow sequence S 0 (64 * w + o) := by
  obtain ⟨_, i, hi, hio⟩ := (hword o).mp ho
  rw [pow_zero, Nat.div_one] at hio
  have hfilter : (S.filter fun j => j / 64 ^ 0 = 64 * w + o) = {64 * w + o} := by
    ext j
    rw [Finset.mem_filter, Finset.mem_singleton, pow_zero, Nat.div_one]
    exact ⟨And.right, fun hj => ⟨by rw [hj, ← hio]; exact hi, hj⟩⟩
  rw [minBelow, hfilter, Finset.inf_singleton]

/-- The loop over the flags of a leaf node splits them into prefix minima and the others. -/
theorem scanLeafPrefix_spec (sequence : ℕ → T) (hword : FlagWord word S 0 w) :
    Scanned (bits word) (fun o => sequence (64 * w + o) ≤ minBefore sequence S ((64 * w + o) * 64 ^ 0))
      (fun o => sequence (64 * w + o))
      (scanLeafPrefix sequence (minBefore sequence S (w * 64 ^ (0 + 1))) (w * 64 ^ (0 + 1)) word).1
      (scanLeafPrefix sequence (minBefore sequence S (w * 64 ^ (0 + 1))) (w * 64 ^ (0 + 1)) word).2.1 := by
  unfold scanLeafPrefix
  simp only [leaf_index]
  rw [foldl_popOffset fun (r : Word × T × T) o => if sequence (64 * w + o) ≤ r.2.2 then
    (r.1, r.2.1, sequence (64 * w + o))
    else (r.1 ||| wordOffset 0 (64 * w + o), min r.2.1 (sequence (64 * w + o)), r.2.2)]
  refine (scanPrefix_spec (fun r : Word × T × T => r.1) (fun r => r.2.1) (fun r => r.2.2) (fun _ _ => True) hword
    (fun o => minBelow_leaf hword) ⟨rfl, rfl, rfl⟩ (fun r o hle => ?_)
    (fun r o ho hle => ?_) trivial fun _ _ _ _ _ _ => trivial).1
  · rw [if_pos hle]
    exact ⟨rfl, rfl, rfl⟩
  · have hoffset : wordOffset 0 (64 * w + o) = ToggleTree.flag o := by
      simpa using wordOffset_child (L := 0) (w := w) (bits_lt ho)
    rw [if_neg hle, hoffset]
    exact ⟨rfl, rfl, rfl⟩

variable {m : IndexMap T} {L : ℕ}

/-- The first loop over the flags of an inner node splits them by the least value before them. -/
theorem scanNodePrefix_spec (hword : FlagWord word S (L + 1) w)
    (haug : ∀ o ∈ bits word, m.augval L (64 * w + o) = minBelow sequence S (L + 1) (64 * w + o)) :
    Scanned (bits word)
        (fun o => m.augval L (64 * w + o) ≤ minBefore sequence S ((64 * w + o) * 64 ^ (L + 1)))
        (fun o => m.augval L (64 * w + o))
        (scanNodePrefix (minBefore sequence S (w * 64 ^ (L + 1 + 1))) L (w * 64 ^ (L + 1 + 1)) word m).newWord
        (scanNodePrefix (minBefore sequence S (w * 64 ^ (L + 1 + 1))) L (w * 64 ^ (L + 1 + 1)) word m).aggregate ∧
      (scanNodePrefix (minBefore sequence S (w * 64 ^ (L + 1 + 1))) L
        (w * 64 ^ (L + 1 + 1)) word m).childIndices =
        ((bits word).filter fun o => m.augval L (64 * w + o) ≤ minBefore sequence S
          ((64 * w + o) * 64 ^ (L + 1))).map
          fun o => ((64 * w + o) * 64 ^ (L + 1), minBefore sequence S ((64 * w + o) * 64 ^ (L + 1))) := by
  unfold scanNodePrefix
  simp only [child_index, wordId_node]
  rw [foldl_popOffset fun (r : PrefixScan T) o => if m.augval L (64 * w + o) ≤ r.prefixMin then
    { r with
      childIndices := r.childIndices ++ [((64 * w + o) * 64 ^ (L + 1), r.prefixMin)]
      prefixMin := m.augval L (64 * w + o) }
    else { r with
      newWord := r.newWord ||| ToggleTree.flag o
      aggregate := min r.aggregate (m.augval L (64 * w + o)) }]
  refine scanPrefix_spec (fun r : PrefixScan T => r.newWord) (fun r => r.aggregate) (fun r => r.prefixMin)
    (fun offsets r => r.childIndices =
      (offsets.filter fun o => m.augval L (64 * w + o) ≤ minBefore sequence S ((64 * w + o) * 64 ^ (L + 1))).map
        fun o => ((64 * w + o) * 64 ^ (L + 1), minBefore sequence S ((64 * w + o) * 64 ^ (L + 1))))
    hword haug ⟨rfl, rfl, rfl⟩ (fun r o hle => ?_)
      (fun r o _ hle => ?_) rfl fun offsets r o _ hrunning hchildren => ?_
  · rw [if_pos hle]
    exact ⟨rfl, rfl, rfl⟩
  · rw [if_neg hle]
    exact ⟨rfl, rfl, rfl⟩
  · rw [List.filter_append, List.map_append, ← hchildren, hrunning]
    by_cases hle : m.augval L (64 * w + o) ≤ minBefore sequence S ((64 * w + o) * 64 ^ (L + 1))
    · rw [if_pos hle]
      simp [hle]
    · rw [if_neg hle]
      simp [hle]

end Scan

section Loop

variable {l : List ℕ} {P : ℕ → Prop} [DecidablePred P] {flags : ℕ → Word} {values : ℕ → T}

omit [OrderTop T] in
/-- A loop that collects flags and a least value collects each of them. -/
theorem foldl_pair (x : Word) (y : T) :
    l.foldl (fun (q : Word × T) i => if P i then (q.1 ||| flags i, min q.2 (values i)) else q) (x, y) =
      (l.foldl (fun newWord i => if P i then newWord ||| flags i else newWord) x,
        l.foldl (fun aggregate i => if P i then min aggregate (values i) else aggregate) y) := by
  induction l generalizing x y with
  | nil => rfl
  | cons i l ih =>
    simp only [List.foldl_cons]
    split <;> exact ih _ _

omit [OrderTop T] in
/-- What is at most the least of the selected values. -/
theorem le_foldl_min {y t : T} :
    t ≤ l.foldl (fun aggregate i => if P i then min aggregate (values i) else aggregate) y ↔
      t ≤ y ∧ ∀ i ∈ l, P i → t ≤ values i := by
  induction l generalizing y with
  | nil => simp
  | cons i l ih =>
    rw [List.foldl_cons, ih]
    by_cases hP : P i
    · simp [hP, and_assoc]
    · simp [hP]

end Loop

variable (schedule : ℕ → ℕ → Schedule)

/-- What an extraction of the prefix minima below a node leaves behind. -/
structure PrefixExtractedBelow (n : ℕ) (sequence : ℕ → T) (S : Finset ℕ) (L w : ℕ)
    (m m' : IndexMap T) : Prop where
  nodes : ∀ K v, Under L w K v → ExactNode sequence (notPrefixMin sequence S) m' K v
  changed : ChangedBelow n L w m m'
  dirty : m'.dirty = m.dirty

/-- A call of `extract_prefix_min` below a node removes the prefix minima and leaves the nodes exact. -/
theorem extractPrefixMinAt_spec (hS : ∀ i ∈ S, i < n) {L w : ℕ} {m : IndexMap T} (hin : InBounds n L w)
    (halloc : Allocated n m) (hexact : ∀ K v, Under L w K v → ExactNode sequence S m K v) :
    PrefixExtractedBelow n sequence S L w m (extractPrefixMinAt schedule sequence L (w * 64 ^ (L + 1))
      (minBefore sequence S (w * 64 ^ (L + 1))) m) := by
  induction L generalizing w m with
  | zero =>
    have htop := hexact 0 w (under_self 0 w)
    have hscan := scanLeafPrefix_spec sequence htop.flag
    unfold extractPrefixMinAt
    simp only [wordId_node]
    generalize scanLeafPrefix sequence _ (w * 64 ^ (0 + 1)) (m.flag.load 0 w) = r at hscan
    have hnode := node_write r.1 r.2.1 halloc hin
    refine ⟨fun K v hu => ?_, changedBelow_write _ _ halloc hin fun _ _ _ => rfl, rfl⟩
    obtain rfl : K = 0 := Nat.le_zero.mp hu.1
    obtain rfl : v = w := by simpa using hu.2
    have hself := hnode 0 v
    rw [if_pos ⟨rfl, rfl⟩] at hself
    refine exactNode_leaf htop.flag hscan (fun o _ => ?_) (congrArg Prod.fst hself)
      (congrArg (fun x => x.2.2) hself)
    rw [notPrefixMin, Finset.mem_filter, pow_zero, mul_one]
  | succ L ih =>
    have htop := hexact (L + 1) w (under_self (L + 1) w)
    have haug (o : ℕ) (ho : o ∈ bits (m.flag.load (L + 1) w)) :
        m.augval L (64 * w + o) = minBelow sequence S (L + 1) (64 * w + o) :=
      (hexact L _ ((under_self L _).parent (bits_lt ho))).augval
    obtain ⟨hscan, hchildren⟩ := scanNodePrefix_spec htop.flag haug
    unfold extractPrefixMinAt
    simp only [wordId_node]
    generalize scanNodePrefix _ L (w * 64 ^ (L + 1 + 1)) (m.flag.load (L + 1) w) m = r at hscan hchildren
    have hsel := Selection.of_filter (m.flag.load (L + 1) w) fun o =>
      m.augval L (64 * w + o) ≤ minBefore sequence S ((64 * w + o) * 64 ^ (L + 1))
    generalize (bits (m.flag.load (L + 1) w)).filter (fun o =>
      m.augval L (64 * w + o) ≤ minBefore sequence S ((64 * w + o) * 64 ^ (L + 1))) = offsets at hsel hchildren
    have hlength : r.childIndices.length = offsets.length := by rw [hchildren, List.length_map]
    rw [hlength]
    let child := fun i => 64 * w + offsets.getD i 0
    have hindex (i : ℕ) (hi : i < offsets.length) : r.childIndices.getD i (0, ⊤) =
        (child i * 64 ^ (L + 1), minBefore sequence S (child i * 64 ^ (L + 1))) := by
      rw [hchildren, getD_map _ _ hi]
    have hloop := parallelFold_below (fun m : IndexMap T => m) (n := n) (L := L)
      (k := offsets.length) child (schedule (L + 1) w) m
      (fun i m =>
        let child := r.childIndices.getD i (0, ⊤)
        extractPrefixMinAt schedule sequence L child.1 child.2 m)
      (fun done m' => m'.dirty = m.dirty ∧
        ∀ i ∈ done, ∀ K v, Under L (child i) K v → ExactNode sequence (notPrefixMin sequence S) m' K v)
      (fun i hi j hj => hsel.injective w hi hj) halloc ⟨rfl, fun i hi => absurd hi (Finset.notMem_empty i)⟩ (by
        intro done i m' hi hnot hdone halloc' hfresh ⟨hdirty, hnodes⟩
        have hp := ih (m := m') (hsel.inBounds htop.flag hS hin.1 hi) halloc' fun K v hu =>
          (hexact K v (hsel.under hi hu)).of_node (hfresh K v hu)
        dsimp only
        rw [hindex i hi]
        refine ⟨⟨hp.dirty.trans hdirty, fun j hj K v hu => ?_⟩, hp.changed⟩
        rcases Finset.mem_insert.mp hj with rfl | hj
        · exact hp.nodes K v hu
        · refine (hnodes j hj K v hu).of_node (hp.changed.same K v fun hu' => hnot ?_)
          exact hsel.injective w (hdone j hj) hi (hu.unique hu') ▸ hj)
    generalize parallelFold (schedule (L + 1) w) offsets.length m _ = m' at hloop ⊢
    obtain ⟨⟨hdirty, hnodes⟩, halloc', hsame⟩ := hloop
    rw [foldl_pair]
    refine ⟨nodes_of_selected hin halloc' (Finset.filter_subset _ _) hexact hsel.mem (fun o ho => ?_)
      (fun o _ ho K v hu => hsame K v fun i hi => Selection.not_under ho hu hi) (fun _ _ _ _ _ _ => rfl)
      (fun o ho hsel i hi hio => ?_) hscan (hsel.mem_newWord fun i hi => congrArg Prod.fst (hindex i hi))
        (fun t => ?_),
      changedBelow_write _ _ halloc' hin fun K v hu => hsame K v fun i hi hu' => hu (hsel.under hi hu'), hdirty⟩
    · obtain ⟨i, hi, rfl⟩ := exists_getD ho
      exact hnodes i (Finset.mem_range.mpr hi)
    · -- a prefix minimum below the child would make the child's least value a prefix minimum too
      refine Finset.mem_filter.mpr ⟨hi, fun hle => hsel ?_⟩
      rw [haug o ho]
      refine ((le_minBelow.mp le_rfl i hi hio).trans hle).trans (minBefore_anti ?_)
      rw [← hio]
      exact Nat.div_mul_le_self i _
    · rw [le_foldl_min]
      refine and_congr_right fun _ => ⟨fun ht o ho hne => ?_, fun ht i hi hne => ?_⟩
      · obtain ⟨i, hi, rfl⟩ := exists_getD ho
        have hle := ht i (List.mem_range.mpr hi)
        rw [hindex i hi, wordId_node] at hle
        exact hle hne
      · have hi' := List.mem_range.mp hi
        rw [hindex i hi', wordId_node] at hne ⊢
        exact ht _ (getD_mem hi') hne

/-- An extraction of the prefix minima leaves a map that is exact for the other elements. -/
theorem extractPrefixMin_spec {m : IndexMap T} (h : Exact n sequence S m) :
    Exact n sequence (notPrefixMin sequence S) (extractPrefixMin schedule sequence m) := by
  have hpos := numLayers_pos n
  unfold extractPrefixMin
  by_cases hS : S = ∅
  · rw [if_pos (h.empty_iff.mpr hS)]
    subst hS
    exact h
  · rw [if_neg fun hc => hS (h.empty_iff.mp hc), h.layers]
    obtain ⟨i, hi⟩ := Finset.nonempty_iff_ne_empty.mpr hS
    have hin : InBounds n (numLayers n - 1) 0 :=
      ⟨by omega, i, h.flag.lt hi, by rw [Nat.sub_add_cancel hpos]; exact div_numLayers (h.flag.lt hi)⟩
    have hr := extractPrefixMinAt_spec schedule (fun i hi => h.flag.lt hi) hin h.allocated
      fun K v hu => h.node (by have := hu.1; omega) v
    have hstart : minBefore sequence S 0 = ⊤ := by simp [minBefore]
    rw [zero_mul, hstart] at hr
    exact h.of_changed (Finset.filter_subset _ _) hr.nodes hr.changed hr.dirty

end IndexMap

end ToggleTree
