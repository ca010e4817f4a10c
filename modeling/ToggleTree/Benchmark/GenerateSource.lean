import Mathlib.Data.Set.Card
import ToggleTree.Checked.Reduce
import ToggleTree.Checked.Runs
import ToggleTree.Graph.CSR
import ToggleTree.GraphFile.RoundTrip
import ToggleTree.Primitives.SampleSort
import ToggleTree.Primitives.Scan
import ToggleTree.UnionFind.Labels

/-!
# Choosing the sources of a graph

The driver labels every vertex with the least vertex of its component, sorts the labels and measures
their runs. The longest run belongs to the largest component, and the sources are the first
pseudo-random vertices that lie in it.
-/

namespace ToggleTree

open Checked LinkForest Primitives SortedRuns UnionFind

namespace Benchmark

/-- The comparison that sorts the labels. -/
def labelLess (x y : ℕ) : Bool := decide (x < y)

/-- The position where a run of labels begins, and 0 at all other positions. -/
def runBegin (sorted : Array ℕ) (i : ℕ) : Option ℕ :=
  if i = 0 then some (lo32 i)
  else do
    let label ← sorted[i]?
    let previous ← sorted[i - 1]?
    some (if label ≠ previous then lo32 i else 0)

/-- Whether a run of labels ends at a position. -/
def isRunEnd (sorted : Array ℕ) (n i : ℕ) : Option Bool :=
  if i + 1 = n then some true
  else do
    let next ← sorted[i + 1]?
    let label ← sorted[i]?
    some (next != label)

/-- The length and the label of the run that ends at a position, and 0 if none does. -/
def runAt (sorted runStart : Array ℕ) (n i : ℕ) : Option ℕ := do
  let runEnd ← isRunEnd sorted n i
  if runEnd then do
    let start ← runStart[i + 1]?
    let length ← subtract (i + 1) start
    let label ← sorted[i]?
    some (glue32 (lo32 length) label)
  else some 0

section Code

variable (sort : List ℕ → List ℕ) (uninit : ℕ → ℕ) (numWorkers : ℕ) (schedules : ℕ → Schedule)
  (schedule : Schedule)

/-- The label of the longest run. -/
def mostLabel (label : Array ℕ) : Option ℕ := do
  let n := label.size
  let (sorted, _) ← sampleSort labelLess sort 4 uninit numWorkers schedules label
  let (runStart, _) ← scan max 0 (uninit 0) true 4 schedule 0 n (runBegin sorted)
  let most ← reduce max 0 1024 0 n (runAt sorted runStart n)
  some (lo32 most)

/-- The pseudo-random vertex with number `i`. -/
def draw (n i : ℕ) : ℕ := (hash32 (BitVec.ofNat 32 i)).toNat % n

/-- The loop that picks the sources among the vertices that are drawn. -/
def pickSources (label : Array ℕ) (drawn : ℕ → ℕ) (numRounds n most i : ℕ) (sources : List ℕ) : Option (List ℕ) :=
  if sources.length < numRounds ∧ i < n then do
    let l ← label[drawn i]?
    pickSources label drawn numRounds n most (i + 1) (if l = most then sources ++ [drawn i] else sources)
  else some sources
termination_by n - i

/-- The sources that the driver prints and stores, once the labels are there. -/
def generateSource (numRounds : ℕ) (label : Array ℕ) : Option (List ℕ) := do
  let most ← mostLabel sort uninit numWorkers schedules schedule label
  pickSources label (draw label.size) numRounds label.size most 0 []

end Code

/-- The slots that the driver unites: it passes every edge once, from its smaller end. -/
abbrev ForwardSlot (G : CSR) : Type := {slot : ℕ × ℕ // slot.1 < G.n ∧ G.OutSlot slot.1 slot.2 ∧
    slot.1 < G.outEdge slot.2}

/-- The call for a slot. -/
def uniteSlot (G : CSR) (slot : ForwardSlot G) : UnionFind.Call := .unite slot.1.1 (G.outEdge slot.1.2)

/-- The labels that the driver computes, with the accesses of both loops in the order of a schedule. -/
def ccLabel (G : CSR) (unites : List (ForwardSlot G)) (finds : List (Fin G.n)) : Labels G.n :=
  labelled (2 ^ 32 - 1) G.n (uniteSlot G) unites finds

/-- The vertices that are connected with `s`. -/
def component (r : ℕ → ℕ → Prop) (s : ℕ) : Set ℕ := {y | Connected r s y}

/-- No component has more vertices than that of `s`, and none with as many has a larger least vertex. -/
def InLargest (r : ℕ → ℕ → Prop) (n s : ℕ) : Prop :=
  ∀ t < n, (component r t).ncard < (component r s).ncard ∨
    (component r t).ncard = (component r s).ncard ∧ sInf (component r t) ≤ sInf (component r s)

open Classical in
/-- The first vertices of the largest component among the pseudo-random ones. -/
noncomputable def largestSources (r : ℕ → ℕ → Prop) (n numRounds : ℕ) : List ℕ :=
  (((List.range n).map (draw n)).filter fun s => InLargest r n s).take numRounds

section Runs

variable {sort : List ℕ → List ℕ} {uninit : ℕ → ℕ} {numWorkers n : ℕ} {f g : ℕ → ℕ}
  {label sorted runStart : Array ℕ}

/-- The order of the labels is a strict weak one. -/
theorem labelLess_strict : StrictWeakOrder labelLess := by
  refine ⟨fun x => ?_, fun x y z => ?_, fun x y z => ?_⟩ <;>
    simp only [labelLess, decide_eq_true_eq, decide_eq_false_iff_not] <;>
    omega

/-- The maximum with 0 is a monoid. -/
theorem monoidal_max : Monoidal (T := ℕ) max 0 := ⟨max_assoc, Nat.zero_max, Nat.max_zero⟩

/-- The running maximum of the beginnings is the beginning of the run of a position. -/
theorem prefixOf_begins (g : ℕ → ℕ) (i : ℕ) :
    prefixOf max 0 (fun i => if Begins g i then i else 0) i = start g i := by
  induction i with
  | zero => rfl
  | succ i ih => rw [prefixOf_succ, ih, start]

/-- The cell of a position is its number if a run begins there. -/
theorem runBegin_eq (hsorted : Contents sorted n g) (hn : n < 2 ^ 32) {i : ℕ} (hi : i < n) :
    runBegin sorted i = some (if Begins g i then i else 0) := by
  have hlo : lo32 i = i := Nat.mod_eq_of_lt (hi.trans hn)
  rw [runBegin, hlo]
  by_cases hzero : i = 0
  · rw [if_pos hzero, if_pos (show Begins g i from Or.inl hzero)]
  · rw [if_neg hzero, hsorted.get i hi, hsorted.get (i - 1) (by omega)]
    refine congrArg some (if_congr ?_ rfl rfl)
    rw [Begins, or_iff_right hzero]

/-- The test of a position tells whether a run ends there. -/
theorem isRunEnd_eq (hsorted : Contents sorted n g) {i : ℕ} (hi : i < n) :
    isRunEnd sorted n i = some (decide (Ends g n i)) := by
  rw [isRunEnd]
  by_cases hlast : i + 1 = n
  · rw [if_pos hlast, decide_eq_true (show Ends g n i from Or.inl hlast)]
  · rw [if_neg hlast, hsorted.get i hi, hsorted.get (i + 1) (by omega)]
    refine congrArg some (Bool.eq_iff_iff.mpr ?_)
    rw [decide_eq_true_eq, bne_iff_ne, Ends, or_iff_right hlast]

/-- The value of a position for the reduction. -/
def runValue (g : ℕ → ℕ) (n i : ℕ) : ℕ :=
  if Ends g n i then ((List.range n).map g).count (g i) * 2 ^ 32 + g i else 0

variable (hg : ∀ i j, i ≤ j → j < n → g i ≤ g j)
include hg

/-- The cell of a position is its value as the end of a run. -/
theorem runAt_eq (hsorted : Contents sorted n g) (hstart : Contents runStart (n + 1) (start g)) (hn : n < 2 ^ 32)
    (hlabel : ∀ i < n, g i < 2 ^ 32) {i : ℕ} (hi : i < n) :
    runAt sorted runStart n i = some (runValue g n i) := by
  rw [runAt, isRunEnd_eq hsorted hi, runValue]
  by_cases hends : Ends g n i
  · have hle : start g (i + 1) ≤ i + 1 := (start_spec hg hi).1.trans (Nat.le_succ i)
    have hsmall : i + 1 - start g (i + 1) < 2 ^ 32 := by omega
    rw [if_pos hends, decide_eq_true hends, run_length hg hi hends, hstart.get (i + 1) (by omega),
      hsorted.get i hi]
    simp only [Option.bind_eq_bind, Option.bind_some, if_true, subtract, if_pos hle]
    rw [lo32, Nat.mod_eq_of_lt hsmall, GraphFile.glue32_eq hsmall (hlabel i hi)]
  · rw [if_neg hends, decide_eq_false hends]
    rfl

omit hg in
/-- The largest value of the reduction belongs to the mode of the labels. -/
theorem sup_runValue (hpos : 0 < n) (hlabel : ∀ i < n, g i < 2 ^ 32) :
    IsMode ((List.range n).map g) (lo32 ((Finset.Ico 0 n).sup (runValue g n))) := by
  obtain ⟨i, hi, heq⟩ := Finset.exists_mem_eq_sup (Finset.Ico 0 n) ⟨0, Finset.mem_Ico.mpr ⟨le_rfl, hpos⟩⟩
    (runValue g n)
  have hi := (Finset.mem_Ico.mp hi).2
  have hmax (k : ℕ) (hk : k < n) : ((List.range n).map g).count (g k) * 2 ^ 32 + g k ≤ runValue g n i := by
    obtain ⟨j, hj, hends, hjk⟩ := exists_ends (g := g) hk
    have hle : runValue g n j ≤ (Finset.Ico 0 n).sup (runValue g n) :=
      Finset.le_sup (Finset.mem_Ico.mpr ⟨Nat.zero_le j, hj⟩)
    rw [heq, runValue, if_pos hends, hjk] at hle
    exact hle
  have hcount : 0 < ((List.range n).map g).count (g i) :=
    List.count_pos_iff.mpr (List.mem_map.mpr ⟨i, List.mem_range.mpr hi, rfl⟩)
  have hends : Ends g n i := by
    by_contra hends
    have hle := hmax i hi
    rw [runValue, if_neg hends] at hle
    omega
  rw [runValue, if_pos hends] at hmax
  have hlo : lo32 (((List.range n).map g).count (g i) * 2 ^ 32 + g i) = g i := by
    rw [lo32, Nat.mul_comm, Nat.mul_add_mod, Nat.mod_eq_of_lt (hlabel i hi)]
  rw [heq, runValue, if_pos hends, hlo]
  exact isMode_of_max hlabel hi hmax

omit hg in
/-- The label of the longest run is the one that most vertices have. -/
theorem returns_mostLabel (hsort : Sorts labelLess sort) (uninit : ℕ → ℕ) (hworkers : 1 ≤ numWorkers)
    (hworkers' : numWorkers < 2 ^ 32)
    (schedules : ℕ → Schedule) (schedule : Schedule) (hcontents : Contents label n f) (hn : n < 2 ^ 32)
    (hlabel : ∀ i < n, f i < 2 ^ 32) :
    Returns (fun most => 0 < n → IsMode ((List.range n).map f) most)
      (mostLabel sort uninit numWorkers schedules schedule label) := by
  rw [mostLabel, hcontents.size]
  refine (returns_sampleSort_sorted labelLess_strict hsort uninit f schedules hcontents
    (hn.trans (by norm_num)) hworkers hworkers').bind ?_
  rintro ⟨sorted, _⟩ ⟨g, hsorted, hperm, hordered⟩
  have hg : ∀ i j, i ≤ j → j < n → g i ≤ g j := by
    intro i j hij hj
    rcases hij.eq_or_lt with rfl | hlt
    · exact le_rfl
    · have hpair := List.pairwise_map.mp hordered
      have hnot := List.pairwise_iff_getElem.mp hpair i j (by rw [List.length_range]; omega)
        (by rw [List.length_range]; exact hj) hlt
      rw [List.getElem_range, List.getElem_range, labelLess, decide_eq_false_iff_not] at hnot
      exact not_lt.mp hnot
  have hlabel' : ∀ i < n, g i < 2 ^ 32 := by
    intro i hi
    obtain ⟨k, hk, heq⟩ := List.mem_map.mp (hperm.mem_iff.mp (List.mem_map.mpr ⟨i, List.mem_range.mpr hi, rfl⟩))
    rw [← heq]
    exact hlabel k (List.mem_range.mp hk)
  have hbegins : ∀ i < n, runBegin sorted (0 + i) = some (if Begins g i then i else 0) := by
    intro i hi
    rw [Nat.zero_add]
    exact runBegin_eq hsorted hn hi
  have hscan := returns_scan monoidal_max (uninit 0) true 4 schedule (hn.trans (by norm_num)) hbegins
  rw [Nat.zero_add] at hscan
  refine hscan.bind ?_
  rintro ⟨runStart, _⟩ ⟨hstart, -⟩
  have hstart' := hstart.congr fun i _ => prefixOf_begins g i
  have hreduce : reduce max 0 1024 0 n (runAt sorted runStart n) = some ((Finset.Ico 0 n).sup (runValue g n)) :=
    reduce_sup 1024 (Nat.zero_le n) fun i _ hi => runAt_eq hg hsorted hstart' hn hlabel' hi
  exact Returns.bind_eq hreduce (Returns.pure fun hpos => (sup_runValue hpos hlabel').perm hperm)

end Runs

section Picking

variable {label : Array ℕ} {f drawn : ℕ → ℕ} {numRounds n most i : ℕ} {sources : List ℕ}

/-- The loop keeps the first vertices that have the label. -/
theorem pickSources_eq (hcontents : Contents label n f) (hdrawn : ∀ i < n, drawn i < n) (hi : i ≤ n)
    (hlength : sources.length ≤ numRounds) :
    pickSources label drawn numRounds n most i sources =
      some ((sources ++ ((List.range' i (n - i)).map drawn).filter fun s => f s = most).take numRounds) := by
  induction hleft : n - i generalizing i sources with
  | zero =>
    rw [pickSources, if_neg (by omega)]
    simp only [List.range'_zero, List.map_nil, List.filter_nil, List.append_nil, List.take_of_length_le hlength]
  | succ left ih =>
    rw [pickSources]
    by_cases hmore : sources.length < numRounds
    · rw [if_pos ⟨hmore, by omega⟩, hcontents.get _ (hdrawn i (by omega))]
      dsimp only [Option.bind_eq_bind, Option.bind_some]
      by_cases hmost : f (drawn i) = most
      · have hlength' : (sources ++ [drawn i]).length ≤ numRounds := by
          rw [List.length_append]
          exact hmore
        rw [if_pos hmost, ih (by omega) hlength' (by omega), List.range'_succ, List.map_cons,
          List.filter_cons, if_pos (decide_eq_true hmost), List.append_assoc]
        rfl
      · rw [if_neg hmost, ih (by omega) hlength (by omega), List.range'_succ, List.map_cons,
          List.filter_cons, decide_eq_false hmost, if_neg Bool.false_ne_true]
    · have hfull : sources.length = numRounds := le_antisymm hlength (not_lt.mp hmore)
      rw [if_neg fun h => hmore h.1, List.take_left' hfull]

end Picking

section Components

variable {r : ℕ → ℕ → Prop} {f : ℕ → ℕ} {n s t most : ℕ}

/-- Connected vertices have the same component. -/
theorem component_eq (h : Connected r s t) : component r s = component r t :=
  Set.ext fun _ => ⟨fun hy => h.symm.trans hy, fun hy => h.trans hy⟩

/-- Connected vertices are vertices. -/
theorem lt_iff_of_connected (hr : ∀ x y, r x y → x < n ∧ y < n) (h : Connected r s t) : s < n ↔ t < n := by
  induction h with
  | rel x y hxy => exact iff_of_true (hr x y hxy).1 (hr x y hxy).2
  | refl x => exact Iff.rfl
  | symm x y _ ih => exact ih.symm
  | trans x y z _ _ ih₁ ih₂ => exact ih₁.trans ih₂

variable (hr : ∀ x y, r x y → x < n ∧ y < n) (hf : ∀ s < n, IsLeast (component r s) (f s))
include hf

/-- The label is the least vertex of the component. -/
theorem sInf_component (hs : s < n) : sInf (component r s) = f s := (hf s hs).csInf_eq

/-- Two vertices have the same label if they are connected. -/
theorem label_eq_iff (hs : s < n) (ht : t < n) : f t = f s ↔ Connected r s t := by
  constructor
  · intro heq
    have htf : Connected r t (f s) := heq ▸ (hf t ht).1
    exact (hf s hs).1.trans htf.symm
  · intro hconn
    have hleast := hf t ht
    rw [← component_eq hconn] at hleast
    exact hleast.unique (hf s hs)

include hr

/-- As many vertices have a label as its component has vertices. -/
theorem count_label (hs : s < n) : ((List.range n).map f).count (f s) = (component r s).ncard := by
  have hset : component r s = ↑{t ∈ Finset.range n | f t = f s} := by
    ext t
    rw [Finset.mem_coe, Finset.mem_filter, Finset.mem_range]
    constructor
    · intro hconn
      have ht : t < n := (lt_iff_of_connected hr hconn).mp hs
      exact ⟨ht, (label_eq_iff hf hs ht).mpr hconn⟩
    · rintro ⟨ht, heq⟩
      exact (label_eq_iff hf hs ht).mp heq
  rw [SortedRuns.count_eq, Nat.count_eq_card_filter_range, hset, Set.ncard_coe_finset]

/-- The vertices with the label that most vertices have are those of the largest component. -/
theorem label_eq_mode_iff (hmode : IsMode ((List.range n).map f) most) (hs : s < n) :
    f s = most ↔ InLargest r n s := by
  constructor
  · rintro rfl
    intro t ht
    have hmost := hmode.2 (f t) (List.mem_map.mpr ⟨t, List.mem_range.mpr ht, rfl⟩)
    rw [count_label hr hf ht, count_label hr hf hs] at hmost
    rw [sInf_component hf ht, sInf_component hf hs]
    exact hmost
  · intro hlargest
    obtain ⟨t, ht, rfl⟩ := hmode.exists_index
    have hmost := hmode.2 (f s) (List.mem_map.mpr ⟨s, List.mem_range.mpr hs, rfl⟩)
    have hle := hlargest t ht
    rw [count_label hr hf ht, count_label hr hf hs] at hmost
    rw [sInf_component hf ht, sInf_component hf hs] at hle
    omega

end Components

section Program

variable {G : CSR} {sort : List ℕ → List ℕ} {numWorkers : ℕ}

/-- A call of `unite` stays within the vertices. -/
theorem uniteSlot_within (G : CSR) (slot : ForwardSlot G) : (uniteSlot G slot).Within G.n :=
  ⟨slot.2.1, CSR.outEdge_lt slot.2.1 slot.2.2.1⟩

/-- The calls connect what the edges connect. -/
theorem connected_united (hG : ∀ u v, G.Edge u v → G.Edge v u) (x y : ℕ) :
    Connected (United (uniteSlot G)) x y ↔ Connected G.Edge x y := by
  have hforward {u v : ℕ} (hedge : G.Edge u v) (hlt : u < v) : Connected (United (uniteSlot G)) u v := by
    obtain ⟨hu, i, hi, rfl⟩ := hedge
    exact Connected.of_rel ⟨⟨(u, i), hu, hi, hlt⟩, rfl⟩
  constructor
  · refine Connected.lift fun u v hunited => ?_
    obtain ⟨⟨⟨a, i⟩, ha, hi, _⟩, hcall⟩ := hunited
    cases hcall
    exact Connected.of_rel ⟨ha, i, hi, rfl⟩
  · refine Connected.lift fun u v hedge => ?_
    rcases lt_trichotomy u v with hlt | rfl | hgt
    · exact hforward hedge hlt
    · exact Connected.refl u
    · exact (hforward (hG u v hedge) hgt).symm

/-- The labels are the least vertices of the components. -/
theorem isLeast_ccLabel (hG : ∀ u v, G.Edge u v → G.Edge v u) {unites : List (ForwardSlot G)}
    {finds : List (Fin G.n)}
    (hunited : AllUnited (uniteSlot G) (UnionFind.run (2 ^ 32 - 1) unites (State.init (uniteSlot G))))
    (hstored : ∀ s, (ccLabel G unites finds).vertices s = .stored) {s : ℕ} (hs : s < G.n) :
    IsLeast (component G.Edge s) ((ccLabel G unites finds).parent s) := by
  have h := isLeast_labelled (uniteSlot_within G) hunited (hstored ⟨s, hs⟩)
  have hset : {y | Connected (United (uniteSlot G)) s y} = component G.Edge s := Set.ext fun y =>
    connected_united hG s y
  rwa [hset] at h

/-- Once the labels are the least vertices, the sources come from the largest component. -/
theorem generateSource_of_isLeast {r : ℕ → ℕ → Prop} {label : Array ℕ} {f : ℕ → ℕ} {n : ℕ}
    (hcontents : Contents label n f)
    (hr : ∀ x y, r x y → x < n ∧ y < n) (hleast : ∀ s < n, IsLeast (component r s) (f s)) (hn : n < 2 ^ 32)
    (hsort : Sorts labelLess sort) (hworkers : 1 ≤ numWorkers) (hworkers' : numWorkers < 2 ^ 32) (uninit : ℕ → ℕ)
    (schedules : ℕ → Schedule) (schedule : Schedule) (numRounds : ℕ) :
    generateSource sort uninit numWorkers schedules schedule numRounds label =
      some (largestSources r n numRounds) := by
  have hlabel (s : ℕ) (hs : s < n) : f s < 2 ^ 32 := ((hleast s hs).2 (Connected.refl s)).trans_lt (hs.trans hn)
  have hdrawn : ∀ i < n, draw n i < n := fun i hi => Nat.mod_lt _ (Nat.zero_lt_of_lt hi)
  obtain ⟨most, hmost, hmode⟩ := returns_mostLabel hsort uninit hworkers hworkers' schedules schedule hcontents hn
    hlabel
  rw [generateSource, hmost, hcontents.size]
  dsimp only [Option.bind_eq_bind, Option.bind_some]
  rw [pickSources_eq hcontents hdrawn (Nat.zero_le _) (Nat.zero_le _), List.nil_append, Nat.sub_zero,
    ← List.range_eq_range', largestSources]
  refine congrArg (fun l => some (List.take numRounds l)) (List.filter_congr fun s hs => ?_)
  obtain ⟨i, hi, rfl⟩ := List.mem_map.mp hs
  have hi := List.mem_range.mp hi
  exact decide_eq_decide.mpr (label_eq_mode_iff hr hleast (hmode (Nat.zero_lt_of_lt hi)) (hdrawn i hi))

/-- For every order of the accesses in all loops, the driver picks the first pseudo-random vertices that
lie in the component with the most vertices; of several such components it takes the one whose least
vertex is largest. -/
theorem generateSource_largest (hG : ∀ u v, G.Edge u v → G.Edge v u) (hn : G.n < 2 ^ 32)
    (hsort : Sorts labelLess sort)
    (hworkers : 1 ≤ numWorkers) (hworkers' : numWorkers < 2 ^ 32) (unites : List (ForwardSlot G))
    (finds : List (Fin G.n))
    (hunited : AllUnited (uniteSlot G) (UnionFind.run (2 ^ 32 - 1) unites (State.init (uniteSlot G))))
    (hstored : ∀ s, (ccLabel G unites finds).vertices s = .stored) (uninit : ℕ → ℕ) (schedules : ℕ → Schedule)
    (schedule : Schedule)
    (numRounds : ℕ) :
    generateSource sort uninit numWorkers schedules schedule numRounds
      (Array.ofFn fun s : Fin G.n => (ccLabel G unites finds).parent s) =
      some (largestSources G.Edge G.n numRounds) :=
  generateSource_of_isLeast (Contents.ofFn _ _) (fun _ _ hedge => ⟨hedge.1, hedge.lt⟩)
    (fun _ hs => isLeast_ccLabel hG hunited hstored hs)
    hn hsort hworkers hworkers' uninit schedules schedule numRounds

/-- The sorting function of the standard library sorts labels. -/
theorem sorts_labels : Sorts labelLess fun l => l.mergeSort fun x y => decide (x ≤ y) := by
  refine ⟨fun l => List.mergeSort_perm l _, fun l => ?_⟩
  have hpairwise : (l.mergeSort fun x y => decide (x ≤ y)).Pairwise fun x y => decide (x ≤ y) = true := by
    refine List.pairwise_mergeSort (fun x y z => ?_) (fun x y => ?_) l
    · simp only [decide_eq_true_eq]
      omega
    · simp only [Bool.or_eq_true, decide_eq_true_eq]
      omega
  exact hpairwise.imp fun {x y} h => by simpa [labelLess] using h

/-- The only slot of `twoWays` that is united. -/
def firstSlot : ForwardSlot CSR.twoWays := ⟨(0, 0), Nat.two_pos, ⟨Nat.zero_le _, Nat.one_pos⟩, Nat.one_pos⟩

/-- The graph has one slot to unite along. -/
theorem eq_firstSlot (slot : ForwardSlot CSR.twoWays) : slot = firstSlot := by
  obtain ⟨⟨u, i⟩, hu, ⟨hi, hi'⟩, hlt⟩ := slot
  have hu : u < 2 := hu
  have hi : u ≤ i := hi
  have hi' : i < u + 1 := hi'
  obtain rfl : i = u := by omega
  interval_cases i
  · rfl
  · exact absurd hlt (by decide)

/-- The two iterations in turns. -/
def inTurns : List (Fin CSR.twoWays.n) := (List.replicate 5 [(⟨0, by decide⟩ : Fin 2), ⟨1, by decide⟩]).flatten

/-- The edges of the graph go both ways. -/
theorem twoWays_edge_symm {u v : ℕ} (h : CSR.twoWays.Edge u v) : CSR.twoWays.Edge v u := by
  obtain ⟨hu, i, ⟨hi, hi'⟩, rfl⟩ := h
  have hu : u < 2 := hu
  have hi : u ≤ i := hi
  have hi' : i < u + 1 := hi'
  obtain rfl : i = u := by omega
  interval_cases i
  · exact ⟨Nat.one_lt_two, 1, ⟨le_rfl, Nat.one_lt_two⟩, rfl⟩
  · exact ⟨Nat.two_pos, 0, ⟨le_rfl, Nat.one_pos⟩, rfl⟩

/-- A run of seven calls has united along every edge of the graph. -/
theorem twoWays_allUnited : AllUnited (uniteSlot CSR.twoWays)
    (UnionFind.run (2 ^ 32 - 1) (List.replicate 7 firstSlot) (State.init (uniteSlot CSR.twoWays))) := by
  intro slot i j _
  rw [eq_firstSlot slot]
  exact ⟨_, rfl⟩

/-- The labelling has stored the label of every vertex. -/
theorem twoWays_stored (s : Fin CSR.twoWays.n) :
    (ccLabel CSR.twoWays (List.replicate 7 firstSlot) inTurns).vertices s = .stored := by
  have hturns : ∀ s : Fin 2, s.val + 4 ≤ inTurns.count s := by decide
  exact labelled_stored _ (uniteSlot_within _) _ (hturns s)

/-- Two vertices that name each other. -/
theorem generateSource_largest_twoWays :
    generateSource (fun l => l.mergeSort fun x y => decide (x ≤ y))
      (fun _ => 0) 1 (fun _ => Schedule.ascending) Schedule.ascending 5
      (Array.ofFn fun s : Fin CSR.twoWays.n =>
        (ccLabel CSR.twoWays (List.replicate 7 firstSlot) inTurns).parent s) =
      some (largestSources CSR.twoWays.Edge CSR.twoWays.n 5) :=
  generateSource_largest (fun _ _ => twoWays_edge_symm) (by decide) sorts_labels le_rfl (by decide)
    (List.replicate 7 firstSlot) inTurns
    twoWays_allUnited twoWays_stored (fun _ => 0) (fun _ => Schedule.ascending) Schedule.ascending 5

end Program

end Benchmark

end ToggleTree
