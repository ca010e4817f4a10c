import ToggleTree.IndexSet.Bounds
import ToggleTree.IndexSet.Mixed

/-!
# Sets that have been operated on

The states of a set that its constructor, phases of concurrent updates and traversals can produce,
whatever the updates of a phase and the functions of a traversal do. If no update overtakes another
and functions only remove the index they are called on, each such state represents a set of indices,
so the accesses of the next operation stay inside. Otherwise they need not: a subtraction that comes
before the addition it cancels can leave flags beyond the end of a layer.
-/

namespace ToggleTree

open ForkJoin ForkJoin.Prog

namespace IndexSet

variable {σ ι : Type} {n : ℕ} {S : Finset ℕ} {s : IndexSet}

section Draining

variable {env : ι → Prog σ ι Unit} {ℓ : Loc σ IndexSet}

/-- The words of a set that a traversal clears, wherever the set is. -/
def draining (ℓ : Loc σ IndexSet) (n : ℕ) (S : Finset ℕ) : Protocol σ (Multiset (ℕ × ℕ)) where
  inv st front := ∃ calls, Draining n S (ℓ.get st) front calls
  rel _ _ := True
  refl _ := trivial
  trans _ _ := trivial

/-- A visit that reads a word and then clears it. -/
theorem visitWord_draining (hℓ : ℓ.Lawful) (h : Represents n s S) {L w : ℕ}
    (hgood : Alive n S (L + 1) w) (st : σ) :
    Ensures (draining ℓ n S) env (fun x _ a => (∀ o ∈ bits x, Alive n S L (64 * w + o)) ∧ a = children L w x)
      (visitWord ℓ true L (w * 64 ^ (L + 1))) st {(L + 1, w)} := by
  have hL : L < numLayers n := hgood.1
  unfold visitWord
  rw [wordId_node]
  refine Ensures.read fun st' o _ hinv => ?_
  obtain ⟨_, hd⟩ := hinv
  have hword : (word ℓ L w).get st' = s.load L w := hd.load_eq h hL
  rw [hword, if_pos rfl]
  refine Ensures.modify fun st'' o' _ hinv' => ⟨children L w (s.load L w), trivial, ?_, ?_⟩
  · obtain ⟨calls, hd'⟩ := hinv'
    refine ⟨calls, ?_⟩
    change Draining n S (ℓ.get (ℓ.put ((ℓ.get st'').store L w 0) st'')) _ _
    rw [hℓ.get_put]
    exact hd'.visit h hgood
  · exact Ensures.ret fun _ _ _ hinv => ⟨_, hinv, fun o ho => alive_child h hL ho, rfl⟩

/-- A program that leaves the words alone uses up the token of an index. -/
theorem call_draining {α : Type} {p : Prog σ ι α} {i : ℕ} {st : σ} (hi : i ∈ S)
    (hp : ∀ st, Ensures (draining ℓ n S) env (fun _ _ a => a = 0) p st 0) :
    Ensures (draining ℓ n S) env (fun _ _ a => a = 0) p st {(0, i)} := by
  refine Ensures.update fun st' o _ hinv => ?_
  obtain ⟨calls, hd⟩ := hinv
  refine ⟨0, ⟨calls ++ [i], ?_⟩, hp st'⟩
  rw [zero_add]
  exact hd.call hi

/-- A traversal that clears every word it visits ends with the empty set. -/
theorem total_draining {α : Type} {p : Prog σ ι α} {st : σ} (h : Represents n (ℓ.get st) S)
    (hp : Ensures (draining ℓ n S) env (fun _ _ a => a = 0) p st {(numLayers n, 0)}) :
    Total env (fun _ st' => Represents n (ℓ.get st') ∅) p st := by
  refine (hp.total ⟨[], Draining.start h⟩).mono ?_
  rintro _ st' ⟨_, _, ⟨calls, hd⟩, rfl⟩
  exact hd.represents

/-- `consume_each` empties the set, whatever its function does elsewhere. -/
theorem consumeEach_empties (hℓ : ℓ.Lawful) {f : ℕ → Prog σ ι Unit}
    (hf : ∀ i ∈ S, ∀ st, Ensures (draining ℓ n S) env (fun _ _ a => a = 0) (f i) st 0) {st : σ}
    (h : Represents n (ℓ.get st) S) :
    Total env (fun _ st' => Represents n (ℓ.get st') ∅) (consumeEach ℓ f) st := by
  have hpos := numLayers_pos n
  refine (empty_total h).bind ?_
  rintro _ st' ⟨hst, rfl⟩
  rw [hst]
  by_cases hempty : S = ∅
  · rw [decide_eq_true hempty, if_pos rfl]
    subst hempty
    exact Total.ret h
  · rw [decide_eq_false hempty, if_neg Bool.false_ne_true]
    refine Total.read ?_
    have hroot : Alive n S (numLayers n - 1 + 1) 0 := by
      rw [Nat.sub_add_cancel hpos]
      exact alive_root h (Finset.nonempty_iff_ne_empty.mpr hempty)
    have htraverse : Ensures (draining ℓ n S) env _ _ _ _ :=
      forEachAt_ensures (fun K v => {(K, v)}) (Alive n S) (fun L w st hgood => visitWord_draining hℓ h hgood st)
        (fun i st hgood => call_draining (by simpa [Alive] using hgood.2) (hf i (by simpa [Alive] using hgood.2)))
        (numLayers n - 1) 0 st hroot
    rw [zero_mul, Nat.sub_add_cancel hpos] at htraverse
    rw [h.size]
    exact total_draining h htraverse

end Draining

namespace Traversal

variable {υ α : Type} {env : ι → Prog (Traversal υ) ι Unit}

/-- A function that removes nothing leaves the words alone. -/
theorem Visiting.draining {i : ℕ} {p : Prog (Traversal υ) ι α} (h : Visiting false n i p) (st : Traversal υ) :
    Ensures (draining words n S) env (fun _ _ a => a = 0) p st 0 := by
  induction h generalizing st with
  | ret a => exact Ensures.ret fun _ _ _ hinv => ⟨0, hinv, rfl⟩
  | work g _ _ ih => exact Ensures.atom fun _ _ _ hinv => ⟨0, trivial, hinv, ih _ _⟩
  | pick d _ _ ih => exact Ensures.pick fun b => ih b st
  | lookUp j _ _ _ ih => exact Ensures.atom fun _ _ _ hinv => ⟨0, trivial, hinv, ih _ _⟩
  | remove hremoves _ _ _ => exact (Bool.false_ne_true hremoves).elim
  | fork _ _ _ _ _ _ ihl ihr ih =>
    rw [← add_zero (0 : Multiset (ℕ × ℕ))]
    refine Ensures.fork (ihl st) (ihr st) ?_
    rintro b c st' _ _ rfl rfl
    rw [add_zero]
    exact ih b c st'

/-- The traversals of a set of size `n`. The functions passed to `consume_each` are of the kind
`functions false`, all others of the kind `functions true`, which may remove the index they are called on. -/
inductive Traverses (functions : Bool → ℕ → ProgClass (Traversal υ) ι) (n : ℕ) :
    {α : Type} → Prog (Traversal υ) ι α → Prop
  | forEach {f : ℕ → Prog (Traversal υ) ι Unit} (hf : ∀ i < n, functions true i _ (f i)) :
      Traverses functions n (forEach words (visitor f))
  | consumeEach {f : ℕ → Prog (Traversal υ) ι Unit} (hf : ∀ i < n, functions false i _ (f i)) :
      Traverses functions n (consumeEach words (visitor f))
  | forRange {l r : ℕ} (hl : l < n) {f : ℕ → Prog (Traversal υ) ι Unit}
      (hf : ∀ i < n, functions true i _ (f i)) : Traverses functions n (forRange words l r (visitor f))
  | consumeRange {l r : ℕ} (hl : l < n) {f : ℕ → Prog (Traversal υ) ι Unit}
      (hf : ∀ i < n, functions true i _ (f i)) : Traverses functions n (consumeRange words l r (visitor f))
  | reduce {T : Type} (combine : T → T → T) (identity : T) {f : ℕ → Prog (Traversal υ) ι T}
      (hf : ∀ i < n, functions true i _ (f i)) : Traverses functions n (reduce words combine identity (visitor f))

/-- Functions of another kind that allows as much. -/
theorem Traverses.mono {functions functions' : Bool → ℕ → ProgClass (Traversal υ) ι} {p : Prog (Traversal υ) ι α}
    (hfunctions : ∀ removes i, i < n → ∀ T q, functions removes i T q → functions' removes i T q)
    (hp : Traverses functions n p) : Traverses functions' n p := by
  cases hp with
  | forEach hf => exact .forEach fun i hi => hfunctions _ i hi _ _ (hf i hi)
  | consumeEach hf => exact .consumeEach fun i hi => hfunctions _ i hi _ _ (hf i hi)
  | forRange hl hf => exact .forRange hl fun i hi => hfunctions _ i hi _ _ (hf i hi)
  | consumeRange hl hf => exact .consumeRange hl fun i hi => hfunctions _ i hi _ _ (hf i hi)
  | reduce combine identity hf => exact .reduce combine identity fun i hi => hfunctions _ i hi _ _ (hf i hi)

/-- Functions that work on data of their own, look up indices and, where `removes` is set, remove the
index they are called on. -/
def Selfish (n : ℕ) (removes : Bool) (i : ℕ) : ProgClass (Traversal υ) ι := fun _ p => Visiting removes n i p

/-- Functions that look up, insert and remove whatever indices they like. -/
def Free (n : ℕ) (_ : Bool) (_ : ℕ) : ProgClass (Traversal υ) ι := fun _ p => Updating n p

/-- Removing the index of the call is one way of updating the set. -/
theorem Selfish.free {removes : Bool} {i : ℕ} (hi : i < n) (T : Type) (p : Prog (Traversal υ) ι T)
    (h : Selfish n removes i T p) : Free n removes i T p := by
  unfold Selfish at h
  unfold Free
  induction h with
  | ret a => exact Updating.ret a
  | work g next _ ih => exact Updating.work g next ih
  | pick d next _ ih => exact Updating.pick d next ih
  | lookUp j hj next _ ih => exact Updating.lookUp j hj next ih
  | remove _ next _ ih => exact Updating.removeSelf i hi next ih
  | fork left right next _ _ _ ihl ihr ih => exact Updating.fork left right next ihl ihr ih

/-- A traversal whose functions only remove the index they are called on leaves a set of indices. -/
theorem Traverses.represents {p : Prog (Traversal υ) ι α} (hp : Traverses (Selfish n) n p) (h : Represents n s S)
    (u : υ) : Total env (fun _ st => ∃ S', Represents n st.set S') p ⟨s, [], [], u⟩ := by
  have hself {removes : Bool} {T : Type} {f : ℕ → Prog (Traversal υ) ι T}
    (hf : ∀ i < n, Visiting removes n i (f i))
      (i : ℕ) (hi : i ∈ S) : SelfRemoving i (f i) := (hf i (h.lt hi)).selfRemoving
  have hrange {l r : ℕ} (i : ℕ) (hi : i ∈ inRange S l r) : i ∈ S := (mem_inRange.mp hi).1
  cases hp with
  | forEach hf =>
    refine (total_removing (logs υ false) h (fun _ => id) (forEach_keeps h (hself hf) _) rfl rfl rfl).mono ?_
    exact fun _ st hst => ⟨_, hst.1⟩
  | consumeEach hf =>
    refine (consumeEach_empties words_lawful (fun i hi st => ?_) h).mono fun _ st hst => ⟨∅, hst⟩
    refine Ensures.atom fun _ _ _ hinv => ⟨0, trivial, hinv, ?_⟩
    exact (hf i (h.lt hi)).draining _
  | forRange hl hf =>
    refine (total_removing (logs υ false) h hrange (forRange_keeps h (hself hf) hl _) rfl rfl rfl).mono ?_
    exact fun _ st hst => ⟨_, hst.1⟩
  | consumeRange hl hf =>
    refine (total_removing (logs υ true) h hrange (consumeRange_keeps h (hself hf) hl _) rfl rfl rfl).mono ?_
    exact fun _ st hst => ⟨_, hst.1⟩
  | reduce combine identity hf =>
    refine (total_removing (logs υ false) h (fun _ => id) (reduce_keeps h (hself hf) combine identity _) rfl rfl
      rfl).mono ?_
    exact fun _ st hst => ⟨_, hst.1⟩

end Traversal

/-- The states that the constructor, phases of insertions and removals by any number of threads, and
traversals can produce, whatever is updated at the same time. -/
inductive Operated (n : ℕ) : IndexSet → Prop
  | create (initValue : Bool) : Operated n (create n initValue)
  | phase {C : Type} [Fintype C] [DecidableEq C] {s s' : IndexSet} {up : C → Bool} {index : C → ℕ}
      {threads : C → Prog IndexSet Empty Bool} (h : Operated n s) (hindex : ∀ c, index c < n)
      (run : PoolSteps Empty.elim (fun c => update (up c) (index c)) s threads s')
      (hdone : ∀ c, ∃ b, threads c = ret b) : Operated n s'
  | traverse {υ α : Type} {s : IndexSet} {u : υ} {p : Prog (Traversal υ) Empty α} {v : α} {st : Traversal υ}
      (h : Operated n s) (hp : Traversal.Traverses (Traversal.Free n) n p)
      (run : Steps Empty.elim p ⟨s, [], [], u⟩ (ret v) st) : Operated n st.set

/-- The states that are reached if the updates of a phase are all of one kind, or the set has at most
two layers, or no operation between the bottom and the top overtakes the one it cancels, and if the
functions of traversals update the set by removing the index they are called on at most. -/
inductive Orderly (n : ℕ) : IndexSet → Prop
  | create (initValue : Bool) : Orderly n (create n initValue)
  | phase {C : Type} [Fintype C] [DecidableEq C] {s s' : IndexSet} {up : C → Bool} {index : C → ℕ}
      {threads : C → Prog IndexSet Empty Bool} (h : Orderly n s) (hindex : ∀ c, index c < n)
      (run : PoolSteps Empty.elim (fun c => update (up c) (index c)) s threads s')
      (order : (∀ c d, up c = up d) ∨ n ≤ 4096 ∨ OrderlyRun Empty.elim up n index s threads s')
      (hdone : ∀ c, ∃ b, threads c = ret b) : Orderly n s'
  | traverse {υ α : Type} {s : IndexSet} {u : υ} {p : Prog (Traversal υ) Empty α} {v : α} {st : Traversal υ}
      (h : Orderly n s) (hp : Traversal.Traverses (Traversal.Selfish n) n p)
      (run : Steps Empty.elim p ⟨s, [], [], u⟩ (ret v) st) : Orderly n st.set

/-- An orderly run is a run. -/
theorem Orderly.operated (h : Orderly n s) : Operated n s := by
  induction h with
  | create initValue => exact .create initValue
  | phase _ hindex run _ hdone ih => exact .phase ih hindex run hdone
  | traverse _ hp run ih => exact .traverse ih (hp.mono fun _ _ hi => Traversal.Selfish.free hi) run

/-- Updates of one kind leave a set of indices. -/
theorem represents_of_same {C : Type} [Fintype C] [DecidableEq C] {s' : IndexSet} {up : C → Bool} {index : C → ℕ}
    {threads : C → Prog IndexSet Empty Bool} (h : Represents n s S) (hindex : ∀ c, index c < n)
    (run : PoolSteps Empty.elim (fun c => update (up c) (index c)) s threads s') (same : ∀ c d, up c = up d)
    (hdone : ∀ c, ∃ b, threads c = ret b) : ∃ S', Represents n s' S' := by
  obtain ⟨kind, hkind⟩ : ∃ kind, ∀ c, up c = kind := by
    rcases isEmpty_or_nonempty C with hC | ⟨⟨c⟩⟩
    · exact ⟨true, fun c => (hC.false c).elim⟩
    · exact ⟨up c, fun d => same d c⟩
  obtain rfl : up = fun _ => kind := funext hkind
  obtain ⟨state, rfl, hphase⟩ := Phase.of_run hindex h run
  choose result hresult using hdone
  exact ⟨_, hphase.represents fun c => hphase.state_of_ret (hresult c)⟩

/-- Updates of which none overtakes another leave a set of indices. -/
theorem represents_of_orderlyRun {C : Type} [Fintype C] [DecidableEq C] {s' : IndexSet} {up : C → Bool}
    {index : C → ℕ} {threads : C → Prog IndexSet Empty Bool} (h : Represents n s S) (hindex : ∀ c, index c < n)
    (run : OrderlyRun Empty.elim up n index s threads s') (hdone : ∀ c, ∃ b, threads c = ret b) :
    ∃ S', Represents n s' S' := by
  obtain ⟨state, rfl, hmixed⟩ := run.mixed h hindex
  choose result hresult using hdone
  exact ⟨_, hmixed.represents fun c => CallState.eq_returned (fun L hc => (hmixed.above c L hc).2) (hresult c)⟩

/-- After an orderly run the layers are at rest. -/
theorem Orderly.represents (h : Orderly n s) : ∃ S, Represents n s S := by
  induction h with
  | create initValue => exact ⟨_, represents_create n initValue⟩
  | phase _ hindex run order hdone ih =>
    obtain ⟨S, hS⟩ := ih
    rcases order with same | hn | hrun
    · exact represents_of_same hS hindex run same hdone
    · exact represents_of_orderlyRun hS hindex (orderlyRun_of_le hn run) hdone
    · exact represents_of_orderlyRun hS hindex hrun hdone
  | traverse _ hp run ih =>
    obtain ⟨S, hS⟩ := ih
    exact (hp.represents hS _).result run

section Outside

variable {υ : Type} {env : ι → Prog (Traversal υ) ι Unit}

/-- Layers that have word `w` of layer `L`. -/
def wide (L w : ℕ) : IndexSet := ⟨Array.replicate (L + 1) (Array.replicate (w + 1) 0)⟩

/-- The length of the one layer. -/
theorem width_wide (L w : ℕ) : (wide L w).width L = w + 1 := by
  simp [wide, width, Array.getD_eq_getD_getElem?]

/-- The word of the one layer is 0. -/
theorem load_wide (L w : ℕ) : (wide L w).load L w = 0 := by
  simp [wide, load, Array.getD_eq_getD_getElem?]

/-- A step that reads a word is only allowed where that word is. -/
theorem ok_of_read {ok : ℕ → ℕ → Prop} {L w : ℕ}
    (h : TreeStep (Traversal.words : Loc (Traversal υ) IndexSet) ok _
      fun st => ((word Traversal.words L w).get st, st)) (u : υ) : ok L w := by
  -- Two sets that differ in this word only.
  let st : Traversal υ := ⟨wide L w, [], [], u⟩
  let st' : Traversal υ := ⟨(wide L w).store L w 1, [], [], u⟩
  have hdiffer : (word Traversal.words L w).get st' ≠ (word Traversal.words L w).get st := by
    change ((wide L w).store L w 1).load L w ≠ (wide L w).load L w
    rw [load_store _ _ _ _ (width_wide L w ▸ Nat.lt_succ_self w), if_pos ⟨rfl, rfl⟩, load_wide]
    decide
  have hother {K v : ℕ} (hne : ¬(K = L ∧ v = w)) :
      (word Traversal.words K v).get st' = (word Traversal.words K v).get st := load_store_of_ne 1 hne
  generalize hact : (fun st : Traversal υ => ((word Traversal.words L w).get st, st)) = act at h
  have hvalue (t : Traversal υ) : (word Traversal.words L w).get t = (act t).1 :=
    congrArg Prod.fst (congrFun hact t)
  cases h with
  | size g =>
    refine (hdiffer ?_).elim
    rw [hvalue st', hvalue st]
    exact congrArg g (size_store (wide L w) L w 1)
  | @word _ _ K v hok haccess =>
    by_cases hsame : K = L ∧ v = w
    · obtain ⟨rfl, rfl⟩ := hsame
      exact hok
    · refine (hdiffer ?_).elim
      rw [hvalue st', hvalue st]
      cases haccess with
      | load g => exact congrArg g (hother hsame)
      | update f => exact congrArg (fun x => (f x).1) (hother hsame)
  | aside haside =>
    have hsame := congrArg Prod.fst (haside ((wide L w).store L w 1) st)
    rw [← hact] at hsame
    exact (hdiffer hsame).elim

/-- The indices of four calls on an empty set with three layers: insert 0, remove 0, insert 64 and remove 64. -/
def strayingIndex (c : Fin 4) : ℕ := if c ≤ 1 then 0 else 64

/-- The four calls. -/
def straying (c : Fin 4) : Prog IndexSet Empty Bool := update (c = 0 ∨ c = 2) (strayingIndex c)

/-- The first insertion stops before its addition, the next two calls run, the first insertion goes on, and
the last removal finds a word that it takes for its own flag. -/
def strayingRun : Option ((Fin 4 → Prog IndexSet Empty Bool) × IndexSet) :=
  runSchedule [0, 0, 1, 1, 1, 2, 2, 2, 0, 3, 3, 3, 3] straying (create 4097 false)

/-- That run leaves the root with all its flags set, though there are only two words below it. -/
theorem operated_straying : ∃ s, Operated 4097 s ∧ s.toggle.size = 3 ∧ s.width 1 = 2 ∧
    s.load 2 0 = BitVec.allOnes 64 := by
  have hsome : strayingRun.isSome = true := by decide +kernel
  obtain ⟨⟨threads, s⟩, hrun⟩ := Option.isSome_iff_exists.mp hsome
  have hthreads : ∀ c, (strayingRun.map fun t => (t.1 c).result?) = some (some true) := by decide +kernel
  have hsize : (strayingRun.map fun t => t.2.toggle.size) = some 3 := by decide +kernel
  have hwidth : (strayingRun.map fun t => t.2.width 1) = some 2 := by decide +kernel
  have hroot : (strayingRun.map fun t => t.2.load 2 0) = some (BitVec.allOnes 64) := by decide +kernel
  rw [hrun] at hthreads hsize hwidth hroot
  have hindex : ∀ c, strayingIndex c < 4097 := by decide
  have hsteps : PoolSteps Empty.elim (fun c => update (c = 0 ∨ c = 2) (strayingIndex c))
    (create 4097 false) threads s :=
    (PoolSteps.refl _ _).schedule hrun
  have hdone : ∀ c, ∃ b, threads c = ret b := by
    intro c
    exact ⟨true, Prog.eq_ret_of_result? (Option.some.inj (hthreads c))⟩
  exact ⟨s, (Operated.create false).phase hindex hsteps hdone, Option.some.inj hsize, Option.some.inj hwidth,
    Option.some.inj hroot⟩

/-- A set whose root word has all its flags set, over two words: `sample` goes on to the third. -/
theorem not_accessesInside_of_root {n : ℕ} {s : IndexSet} (hsize : s.toggle.size = 3) (hwidth : s.width 1 = 2)
    (hroot : s.load 2 0 = BitVec.allOnes 64) (u : υ) : ¬Traversal.AccessesInside env n ⟨s, [], [], u⟩ := by
  intro h
  have hempty : StaysInside env Traversal.words
      (if decide (s.load (s.toggle.size - 1) 0 = 0) then (ret (2 ^ 64 - 1, 2) : Prog (Traversal υ) ι
        (ℕ × Word)) else do
        let size ← layers Traversal.words
        sampleAt Traversal.words 2 (size - 1) 0) ⟨s, [], [], u⟩ := (h.sample 2).next.next
  rw [hsize, hroot, if_neg (by decide)] at hempty
  have hroot' : StaysInside env Traversal.words
      (sampleAt Traversal.words 2 (s.toggle.size - 1) 0) ⟨s, [], [], u⟩ := hempty.next
  rw [hsize] at hroot'
  have hchild : StaysInside env Traversal.words (sampleAt Traversal.words (rollDice 2) 1
      (0 + offsetIndex 2 (popOffset ((rollDice 2).toNat % popCount (s.load 2 0)) (s.load 2 0)))) ⟨s, [], [], u⟩ :=
    hroot'.next
  have hindex :
    0 + offsetIndex 2 (popOffset ((rollDice 2).toNat % popCount (BitVec.allOnes 64)) (BitVec.allOnes 64)) =
      2 * 64 ^ 2 := by decide +kernel
  rw [hroot, hindex] at hchild
  have hread : TreeStep Traversal.words s.HasWord _
      fun st : Traversal υ => ((word Traversal.words 1 2).get st, st) := hchild _ _ (Steps.refl _ _)
  have hin := (ok_of_read hread u).2
  rw [hwidth] at hin
  exact lt_irrefl 2 hin

end Outside

end IndexSet

end ToggleTree
