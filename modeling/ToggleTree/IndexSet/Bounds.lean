import ToggleTree.IndexSet.Query
import ToggleTree.IndexSet.SelfRemoval
import ToggleTree.Parallel.Access

/-!
# Accesses stay inside the layers

Which words an operation reads and writes follows from its index, or from the flags it has read: no
flag past the end of a layer is ever set, so every flag leads to a word that has been allocated. The
root word is the one access that depends on neither, and a set of size 0 has no words at all.
-/

namespace ToggleTree

open ForkJoin ForkJoin.Prog

namespace IndexSet

variable {σ ι : Type} {n : ℕ} {s : IndexSet}

/-- Word `w` of layer `L` has been allocated. -/
def HasWord (s : IndexSet) (L w : ℕ) : Prop := L < s.toggle.size ∧ w < s.width L

/-- Word `w` of layer `L` of a set of size `n`. -/
def InTree (n L w : ℕ) : Prop := L < numLayers n ∧ w < layerLength n (L + 1)

/-- Every flag of the word, read as word `w` of layer `L`, lies inside the layer. -/
def Fits (n L w : ℕ) (x : Word) : Prop := ∀ o ∈ bits x, 64 * w + o < layerLength n L

/-- The layers have the lengths that the constructor gives them. -/
structure Sized (n : ℕ) (s : IndexSet) : Prop where
  size : s.toggle.size = numLayers n
  width : ∀ L < numLayers n, s.width L = layerLength n (L + 1)

/-- A tree with a shape has its sizes. -/
theorem Shape.sized (h : Shape n s) : Sized n s := ⟨h.size, h.width⟩

/-- Storing a word keeps the sizes. -/
theorem Sized.store (h : Sized n s) (L w : ℕ) (x : Word) : Sized n (s.store L w x) :=
  ⟨(size_store s L w x).trans h.size, fun K hK => (width_store s L w x K).trans (h.width K hK)⟩

/-- A word of the tree is allocated. -/
theorem Sized.hasWord (h : Sized n s) {L w : ℕ} (hin : InTree n L w) : HasWord s L w := by
  rw [HasWord, h.size, h.width L hin.1]
  exact hin

/-- The words on the path of an index are in the tree. -/
theorem inTree_wordId {i L : ℕ} (hi : i < n) (hL : L < numLayers n) : InTree n L (wordId L i) := by
  rw [wordId_eq, ← div_pow_succ]
  exact ⟨hL, div_lt_layerLength hi (L + 1)⟩

/-- A set with at least one index has a root word. -/
theorem inTree_root (hn : 1 ≤ n) : InTree n (numLayers n - 1) 0 := by
  have hpos := numLayers_pos n
  refine ⟨by omega, ?_⟩
  have hzero : 0 / 64 ^ (numLayers n - 1 + 1) < layerLength n (numLayers n - 1 + 1) := div_lt_layerLength hn _
  rwa [Nat.zero_div] at hzero

/-- The flags of a word lie inside its layer. -/
theorem Shape.load_fits (h : Shape n s) {L : ℕ} (hL : L < numLayers n) (w : ℕ) : Fits n L w (s.load L w) := by
  intro o ho
  have hlt := bits_lt ho
  refine h.fits L hL _ ?_
  rw [bit, show (64 * w + o) / 64 = w by omega, show (64 * w + o) % 64 = o by omega]
  exact mem_bits.mp ho

/-- Writing flags that lie inside the layer. -/
theorem Shape.store (h : Shape n s) {L w : ℕ} {x : Word} (hin : InTree n L w) (hx : Fits n L w x) :
    Shape n (s.store L w x) where
  size := (size_store s L w x).trans h.size
  width K hK := (width_store s L w x K).trans (h.width K hK)
  fits K hK j hj := by
    have hw : w < s.width L := by
      rw [h.width L hin.1]
      exact hin.2
    rw [bit, load_store s L w x hw] at hj
    split at hj
    · next heq =>
      obtain ⟨rfl, rfl⟩ := heq
      have hlt := hx _ (mem_bits.mpr hj)
      rwa [Nat.div_add_mod] at hlt
    · exact h.fits K hK j hj

section Fits

variable {L w : ℕ} {x y : Word}

/-- The empty word has no flags. -/
theorem fits_zero : Fits n L w 0 := fun o ho => by simp at ho

/-- The flags of both words. -/
theorem Fits.or (hx : Fits n L w x) (hy : Fits n L w y) : Fits n L w (x ||| y) := by
  intro o ho
  rw [mem_bits, BitVec.getLsbD_or, Bool.or_eq_true] at ho
  exact ho.elim (fun h => hx o (mem_bits.mpr h)) fun h => hy o (mem_bits.mpr h)

/-- Some of the flags of a word. -/
theorem Fits.and (hx : Fits n L w x) (y : Word) : Fits n L w (x &&& y) := by
  intro o ho
  rw [mem_bits, BitVec.getLsbD_and, Bool.and_eq_true] at ho
  exact hx o (mem_bits.mpr ho.1)

end Fits

/-- A step of an operation on the set: it reads the number of layers, or accesses one of the words
that `ok` allows, or works on something else. -/
inductive TreeStep (ℓ : Loc σ IndexSet) (ok : ℕ → ℕ → Prop) : Kind σ
  | size {β : Type} (g : ℕ → β) : TreeStep ℓ ok β fun s => (g (ℓ.get s).toggle.size, s)
  | word {β : Type} {act : σ → β × σ} {L w : ℕ} (h : ok L w) (hact : Accesses (word ℓ L w) act) :
      TreeStep ℓ ok β act
  | aside {β : Type} {act : σ → β × σ} (h : Aside ℓ act) : TreeStep ℓ ok β act

/-- More words may be accessed. -/
theorem TreeStep.mono {ℓ : Loc σ IndexSet} {ok ok' : ℕ → ℕ → Prop} (hok : ∀ L w, ok L w → ok' L w) {β : Type}
    {act : σ → β × σ} (h : TreeStep ℓ ok β act) : TreeStep ℓ ok' β act := by
  cases h with
  | size g => exact .size g
  | word h hact => exact .word (hok _ _ h) hact
  | aside h => exact .aside h

/-- The step of an operation does not change the lengths of the layers. -/
theorem TreeStep.sized {ℓ : Loc σ IndexSet} {ok : ℕ → ℕ → Prop} (hℓ : ℓ.Lawful) {β : Type} {act : σ → β × σ}
    (h : TreeStep ℓ ok β act) {st : σ} (hst : Sized n (ℓ.get st)) : Sized n (ℓ.get (act st).2) := by
  cases h with
  | size g => exact hst
  | word _ hact =>
    cases hact with
    | load g => exact hst
    | update f =>
      change Sized n (ℓ.get (ℓ.put _ st))
      rw [hℓ.get_put]
      exact hst.store _ _ _
  | aside h =>
    rw [h.get_eq hℓ]
    exact hst

section Guarded

variable {ℓ : Loc σ IndexSet} {I : σ → Prop} {A : Kind σ} {C : ProgClass σ ι}

/-- The steps of an operation that only reads the set, in states whose flags lie inside the layers. -/
structure Reads (n : ℕ) (ℓ : Loc σ IndexSet) (I : σ → Prop) (A : Kind σ) : Prop where
  shape : ∀ st, I st → Shape n (ℓ.get st)
  size : A _ fun st => ((ℓ.get st).toggle.size, st)
  word : ∀ L w, InTree n L w → A _ fun st => ((IndexSet.word ℓ L w).get st, st)

section Children

/-- Each child of a word has been allocated, where the results of the children are collected. -/
theorem collect_guarded {T : Type} {p : ℕ → Prog σ ι T} {L : ℕ} (hL : L + 1 < numLayers n)
    (hp : ∀ v, InTree n L v → Guarded I A C (p (v * 64 ^ (L + 1))) fun _ => True) {w : ℕ} {x : Word}
    (hx : Fits n (L + 1) w x) :
    Guarded I A C (parallelCollect 0 (popCount x) fun i =>
      p (w * 64 ^ (L + 1 + 1) + offsetIndex (L + 1) (popOffset i x))) fun _ => True := by
  refine Guarded.parallelCollect fun i _ hi => ?_
  rw [child_index]
  exact hp _ ⟨by omega, hx _ (popOffset_mem_bits hi)⟩

end Children

section Traversal

variable (h : Reads n ℓ I A)
include h

end Traversal

/-- The steps of an operation that changes the set, in states whose layers are allocated. -/
structure Writes (n : ℕ) (ℓ : Loc σ IndexSet) (I : σ → Prop) (A : Kind σ) : Prop where
  sized : ∀ st, I st → Sized n (ℓ.get st)
  size : A _ fun st => ((ℓ.get st).toggle.size, st)
  fetch : ∀ L w, InTree n L w → ∀ f : Word → Word,
    A _ fun st => ((word ℓ L w).get st, (word ℓ L w).put (f ((word ℓ L w).get st)) st)

section Update

variable (h : Writes n ℓ I A) {i : ℕ} (hi : i < n)
include h hi

/-- The atomic update of a word on the path of an index stays inside. -/
theorem fetch_guarded {L : ℕ} (hL : L < numLayers n) (f : Word → Word) :
    Guarded I A C (fetchAndUpdate (word ℓ L (wordId L i)) f : Prog σ ι Word) fun _ => True :=
  Guarded.act (h.fetch L _ (inTree_wordId hi hL) f) fun _ _ => trivial

/-- The climb of `insert` stays inside. -/
theorem insertUp_guarded (L : ℕ) :
    Guarded I A C (insertUp ℓ i (numLayers n) L : Prog σ ι Bool) fun _ => True := by
  induction hn : numLayers n - L generalizing L with
  | zero =>
    unfold insertUp
    exact Guarded.ite (fun hL => by omega) fun _ => Guarded.ret trivial
  | succ d ih =>
    unfold insertUp
    refine Guarded.ite (fun hL => ?_) fun _ => Guarded.ret trivial
    exact (fetch_guarded h hi hL _).bind fun _ _ =>
      Guarded.ite (fun _ => Guarded.ret trivial) fun _ => ih (L + 1) (by omega)

/-- `insert` stays inside. -/
theorem insert_guarded : Guarded I A C (insert ℓ i : Prog σ ι Bool) fun _ => True := by
  refine (fetch_guarded h hi (numLayers_pos n) _).bind fun _ _ =>
    Guarded.ite (fun _ => Guarded.ret trivial) fun _ => ?_
  refine (Guarded.act (Q := fun size => size = numLayers n) h.size fun st hst => (h.sized st hst).size).bind ?_
  rintro size rfl
  exact insertUp_guarded h hi 1

end Update

end Guarded

/-- In every run, whatever comes next accesses only words that have been allocated. -/
def StaysInside {α : Type} (env : ι → Prog σ ι Unit) (ℓ : Loc σ IndexSet) (p : Prog σ ι α) (st : σ) : Prop :=
  ∀ q st', Steps env p st q st' → Pending (TreeStep ℓ (ℓ.get st').HasWord) q

section Inside

variable {α : Type} {env : ι → Prog σ ι Unit} {ℓ : Loc σ IndexSet} {I : σ → Prop} {p : Prog σ ι α}
  {Q : α → Prop} {st : σ}

/-- A program that is confined in all states it reaches. -/
theorem StaysInside.of_run (h : Guarded I (TreeStep ℓ (InTree n)) ProgClass.none p Q)
    (hI : ∀ st, I st → Sized n (ℓ.get st))
    (hrun : ∀ q st', Steps env p st q st' → I st') : StaysInside env ℓ p st := by
  intro q st' run
  refine (h.confined_none.run hrun run).pending.mono fun _ _ hact => hact.mono fun L w hin => ?_
  exact (hI st' (hrun q st' run)).hasWord hin

/-- The accesses after the first step stay inside as well. -/
theorem StaysInside.next {β : Type} {act : σ → β × σ} {rest : β → Prog σ ι α}
    (h : StaysInside env ℓ (atom act rest) st) : StaysInside env ℓ (rest (act st).1) (act st).2 :=
  fun q st' run => h q st' (Steps.head ⟨rfl, rfl⟩ run)

/-- Steps that only read keep everything. -/
theorem Reads.keeping {A : Kind σ} (h : Reads n ℓ I A) : Reads n ℓ I (A.keeping I) where
  shape := h.shape
  size := ⟨h.size, fun _ hst => hst⟩
  word L w hin := ⟨h.word L w hin, fun _ hst => hst⟩

end Inside

namespace Traversal

variable {υ α : Type} {env : ι → Prog (Traversal υ) ι Unit}

/-- The words are a part of the state. -/
theorem words_lawful : (words : Loc (Traversal υ) IndexSet).Lawful :=
  ⟨fun _ _ => rfl, fun _ => rfl, fun _ _ _ => rfl⟩

/-- Programs called on `i` that work on data of their own, look up indices and, where `removes` is
set, remove `i`. -/
inductive Visiting (removes : Bool) (n i : ℕ) : {α : Type} → Prog (Traversal υ) ι α → Prop
  | ret {α : Type} (a : α) : Visiting removes n i (ret a)
  | work {α β : Type} (g : υ → β × υ) (next : β → Prog (Traversal υ) ι α)
      (rest : ∀ b, Visiting removes n i (next b)) :
      Visiting removes n i (atom (fun st => ((g st.user).1, { st with user := (g st.user).2 })) next)
  | pick {α β : Type} (dflt : β) (next : β → Prog (Traversal υ) ι α)
      (rest : ∀ b, Visiting removes n i (next b)) : Visiting removes n i (pick dflt next)
  | lookUp {α : Type} (j : ℕ) (hj : j < n) (next : Bool → Prog (Traversal υ) ι α)
      (rest : ∀ b, Visiting removes n i (next b)) : Visiting removes n i (contains words j >>= next)
  | remove {α : Type} (hremoves : removes = true) (next : Bool → Prog (Traversal υ) ι α)
      (rest : ∀ b, Visiting removes n i (next b)) : Visiting removes n i (removeSelf i >>= next)
  | fork {α β γ : Type} (left : Prog (Traversal υ) ι β) (right : Prog (Traversal υ) ι γ)
      (next : β → γ → Prog (Traversal υ) ι α) (hleft : Visiting removes n i left)
      (hright : Visiting removes n i right) (rest : ∀ b c, Visiting removes n i (next b c)) :
      Visiting removes n i (fork left right next)

/-- A visitor removes at most its own index. -/
theorem Visiting.selfRemoving {removes : Bool} {i : ℕ} {p : Prog (Traversal υ) ι α} (h : Visiting removes n i p) :
    SelfRemoving i p := by
  induction h with
  | ret a => exact SelfRemoving.ret a
  | work g _ _ ih => exact SelfRemoving.atom _ _ (fun st => ⟨(g st.user).2, rfl⟩) ih
  | pick d _ _ ih => exact SelfRemoving.pick d _ ih
  | lookUp j _ _ _ ih => exact SelfRemoving.atom _ _ (fun st => ⟨st.user, rfl⟩) fun _ => ih _
  | remove _ _ _ ih => exact SelfRemoving.remove _ ih
  | fork _ _ _ _ _ _ ihl ihr ih => exact SelfRemoving.fork _ _ _ ihl ihr ih

/-- Programs that work on data of their own and insert, remove and look up indices, in any number of
concurrent branches. -/
inductive Updating (n : ℕ) : {α : Type} → Prog (Traversal υ) ι α → Prop
  | ret {α : Type} (a : α) : Updating n (ret a)
  | work {α β : Type} (g : υ → β × υ) (next : β → Prog (Traversal υ) ι α) (rest : ∀ b, Updating n (next b)) :
      Updating n (atom (fun st => ((g st.user).1, { st with user := (g st.user).2 })) next)
  | pick {α β : Type} (dflt : β) (next : β → Prog (Traversal υ) ι α) (rest : ∀ b, Updating n (next b)) :
      Updating n (pick dflt next)
  | lookUp {α : Type} (i : ℕ) (hi : i < n) (next : Bool → Prog (Traversal υ) ι α)
      (rest : ∀ b, Updating n (next b)) : Updating n (contains words i >>= next)
  | insert {α : Type} (i : ℕ) (hi : i < n) (next : Bool → Prog (Traversal υ) ι α)
      (rest : ∀ b, Updating n (next b)) : Updating n (insert words i >>= next)
  | remove {α : Type} (i : ℕ) (hi : i < n) (next : Bool → Prog (Traversal υ) ι α)
      (rest : ∀ b, Updating n (next b)) : Updating n (remove words i >>= next)
  | removeSelf {α : Type} (i : ℕ) (hi : i < n) (next : Bool → Prog (Traversal υ) ι α)
      (rest : ∀ b, Updating n (next b)) : Updating n (removeSelf i >>= next)
  | fork {α β γ : Type} (left : Prog (Traversal υ) ι β) (right : Prog (Traversal υ) ι γ)
      (next : β → γ → Prog (Traversal υ) ι α) (hleft : Updating n left) (hright : Updating n right)
      (rest : ∀ b c, Updating n (next b c)) : Updating n (fork left right next)

/-- The accesses of every operation on the set in the state `s` stay inside the layers, in every
schedule: those of updates that run concurrently, and those of the traversals with any function that
works on data of its own, looks up indices and removes the index it is called on. The words that
`consume_each` reads are cleared before the calls, so the function passed to it removes nothing. -/
structure AccessesInside (env : ι → Prog (Traversal υ) ι Unit) (n : ℕ) (st : Traversal υ) : Prop where
  empty : StaysInside env words (IndexSet.empty words) st
  contains : ∀ i < n, StaysInside env words (IndexSet.contains words i) st
  insert : ∀ i < n, StaysInside env words (IndexSet.insert words i) st
  remove : ∀ i < n, StaysInside env words (IndexSet.remove words i) st
  update : ∀ (α : Type) (p : Prog (Traversal υ) ι α), Updating n p → StaysInside env words p st
  forEach : ∀ f, (∀ i < n, Visiting true n i (f i)) →
    StaysInside env words (IndexSet.forEach words (visitor f)) st
  consumeEach : ∀ f, (∀ i < n, Visiting false n i (f i)) →
    StaysInside env words (IndexSet.consumeEach words (visitor f)) st
  forRange : ∀ l < n, ∀ r f, (∀ i < n, Visiting true n i (f i)) →
    StaysInside env words (IndexSet.forRange words l r (visitor f)) st
  consumeRange : ∀ l < n, ∀ r f, (∀ i < n, Visiting true n i (f i)) →
    StaysInside env words (IndexSet.consumeRange words l r (visitor f)) st
  reduce : ∀ (T : Type) (combine : T → T → T) (identity : T) (f : ℕ → Prog (Traversal υ) ι T),
    (∀ i < n, Visiting true n i (f i)) → StaysInside env words
      (IndexSet.reduce words combine identity (visitor f)) st
  numElements : StaysInside env words (IndexSet.numElements words) st
  sample : ∀ dice, StaysInside env words (IndexSet.sample words dice) st

section Operations

variable {S : Finset ℕ}

end Operations

end Traversal

end IndexSet

end ToggleTree
