import ToggleTree.Allocator.Teardown

/-!
# The arrays

The arrays are the only clients of the allocator. An array asks for a block when it is built, hands
it over when it is moved, and gives it back when it is destroyed or assigned to; its fields change
before the call of the allocator, or after it, and other workers run in between. The contract of
`deallocate` is not assumed here: an array passes what its fields say.
-/

namespace ToggleTree

namespace Pool

/-- The fields of an `Array<T>`. -/
structure Fields where
  data : Option ℕ
  size : ℕ

/-- The member function of an array that a worker is executing, while it is in the allocator. -/
inductive Task (ι : Type)
  | none
  /-- a constructor, in `allocate` -/
  | building (i : ι)
  /-- `operator=(Array &&)`, in `deallocate` -/
  | assigning (i j : ι)
  /-- the destructor, in `deallocate` -/
  | destroying (i : ι)

namespace Task

variable {ι : Type}

/-- The variables that a task works on. -/
def Uses (i : ι) : Task ι → Prop
  | none => False
  | building k | destroying k => k = i
  | assigning k j => k = i ∨ j = i

/-- The block of the array is being given back. -/
def Frees (i : ι) : Task ι → Prop
  | assigning k _ | destroying k => k = i
  | _ => False

/-- A task that frees an array works on it. -/
theorem Frees.uses {i : ι} {t : Task ι} (h : t.Frees i) : t.Uses i := by
  cases t with
  | assigning k j => exact Or.inl h
  | destroying k => exact h
  | _ => exact h.elim

end Task

/-- The size of the request of a call of `allocate`. -/
def Control.request : Control → Option ℕ
  | .readLocal bytes | .followLocal bytes _ | .popLocal bytes _ _ | .tryPop bytes | .readGlobal bytes
  | .followGlobal bytes _ | .popGlobal bytes _ _ | .unlockPop bytes _ | .obtain bytes => some bytes
  | _ => none

/-- The block that `allocate` returns, if its next access is the last one. -/
def Control.result (fresh : ℕ) : Control → Option ℕ
  | .popLocal _ p _ | .unlockPop _ (some p) => some p
  | .obtain _ => some fresh
  | _ => none

/-- The arrays of a program, those that do not exist being `none`. -/
structure Heap (W ι : Type) where
  pool : State W
  array : ι → Option Fields
  task : W → Task ι

namespace Heap

variable {W ι : Type} [DecidableEq W] [DecidableEq ι]

/-- The heap before any variable is used, over the memory of an allocator without blocks. -/
def init (W ι : Type) : Heap W ι := ⟨State.init W, fun _ => none, fun _ => .none⟩

/-- No worker executes a member function of the array. -/
def Unused (h : Heap W ι) (i : ι) : Prop := ∀ w, ¬(h.task w).Uses i

/-- Sets the array of a variable. -/
def setArray (h : Heap W ι) (i : ι) (a : Option Fields) : Heap W ι :=
  { h with array := Function.update h.array i a }

/-- Sets what a worker does. -/
def setTask (h : Heap W ι) (w : W) (t : Task ι) : Heap W ι := { h with task := Function.update h.task w t }

/-- The fields of `j` go to `i`, and `j` becomes empty. -/
def take (h : Heap W ι) (i j : ι) : Heap W ι := (h.setArray i (h.array j)).setArray j (some ⟨none, 0⟩)

/-- A call of `deallocate` with what the fields of the array say. -/
def giveBack (h : Heap W ι) (w : W) (p bytes : ℕ) : Heap W ι :=
  { h with pool := (h.pool.setLive p none).goto w (.checkLocal bytes p) }

/-- The call of the allocator has returned, and the member function goes on. -/
def finish (h : Heap W ι) (w : W) (result : Option ℕ) : Heap W ι :=
  match h.task w with
  | .none => h
  | .building i => (h.setArray i ((h.array i).map fun a => { a with data := result })).setTask w .none
  | .assigning i j => (h.take i j).setTask w .none
  | .destroying i => (h.setArray i none).setTask w .none

/-- One step of a worker; `itemSize` is the `sizeof` of the items of an array. -/
inductive Step (itemSize : ι → ℕ) (h : Heap W ι) : Heap W ι → Prop
  /-- a constructor of an array without items, or the default constructor -/
  | buildEmpty {i : ι} (hi : h.array i = none) : Step itemSize h (h.setArray i (some ⟨none, 0⟩))
  | build {w : W} {i : ι} {n : ℕ} (hw : h.task w = .none) (hi : h.array i = none) (hunused : h.Unused i)
      (hpos : 1 ≤ n * itemSize i) (hmax : n * itemSize i ≤ 2 ^ 63) :
      Step itemSize h ({ h with pool := h.pool.goto w (.readLocal (n * itemSize i)) }.setArray i (some ⟨none, n⟩)
        |>.setTask w (.building i))
  /-- the move constructor -/
  | move {i j : ι} {a : Fields} (hi : h.array i = none) (hj : h.array j = some a) (hiu : h.Unused i)
    (hju : h.Unused j) (hsize : itemSize i = itemSize j) : Step itemSize h (h.take i j)
  | assignEmpty {i j : ι} {a b : Fields} (hi : h.array i = some a) (hj : h.array j = some b) (hne : i ≠ j)
      (hiu : h.Unused i) (hju : h.Unused j) (hsize : itemSize i = itemSize j) (hdata : a.data = none) :
      Step itemSize h (h.take i j)
  | assign {w : W} {i j : ι} {a b : Fields} {p : ℕ} (hw : h.task w = .none) (hi : h.array i = some a)
    (hj : h.array j = some b)
      (hne : i ≠ j) (hiu : h.Unused i) (hju : h.Unused j) (hsize : itemSize i = itemSize j)
        (hdata : a.data = some p) :
      Step itemSize h ((h.giveBack w p (a.size * itemSize i)).setTask w (.assigning i j))
  | destroyEmpty {i : ι} {a : Fields} (hi : h.array i = some a) (hunused : h.Unused i) (hdata : a.data = none) :
      Step itemSize h (h.setArray i none)
  | destroy {w : W} {i : ι} {a : Fields} {p : ℕ} (hw : h.task w = .none) (hi : h.array i = some a)
    (hunused : h.Unused i)
      (hdata : a.data = some p) :
        Step itemSize h ((h.giveBack w p (a.size * itemSize i)).setTask w (.destroying i))
  /-- an item is written -/
  | write {i : ι} {a : Fields} {p : ℕ} (q : Option ℕ) (hi : h.array i = some a) (hunused : h.Unused i)
    (hdata : a.data = some p) :
      Step itemSize h { h with pool := h.pool.setNext p q }
  | access {w : W} (fresh : ℕ) (hw : h.pool.control w ≠ .idle)
      (hfresh : ∀ bytes, h.pool.control w = .obtain bytes → h.pool.block fresh = none)
      (hmore : (h.pool.access w fresh (h.pool.control w)).control w ≠ .idle) :
      Step itemSize h { h with pool := h.pool.access w fresh (h.pool.control w) }
  | return {w : W} (fresh : ℕ) (hw : h.pool.control w ≠ .idle)
      (hfresh : ∀ bytes, h.pool.control w = .obtain bytes → h.pool.block fresh = none)
      (hidle : (h.pool.access w fresh (h.pool.control w)).control w = .idle) :
      Step itemSize h ({ h with pool := h.pool.access w fresh (h.pool.control w) }.finish w
        ((h.pool.control w).result fresh))

/-- The states that a program with arrays can reach. -/
inductive Reachable (itemSize : ι → ℕ) : Heap W ι → Prop
  | init : Reachable itemSize (init W ι)
  | step {h h' : Heap W ι} (hreach : Reachable itemSize h) (hstep : Step itemSize h h') : Reachable itemSize h'

/-- The array owns the block. -/
def Holds (h : Heap W ι) (i : ι) (p n : ℕ) : Prop := h.array i = some ⟨some p, n⟩ ∧ ∀ w, ¬(h.task w).Frees i

end Heap

section Access

variable {W : Type} [DecidableEq W] {s : State W} {w v : W} {fresh bytes p : ℕ}

/-- A step of the allocator for one worker leaves where the others stand. -/
theorem control_access (hv : v ≠ w) (c : Control) : (s.access w fresh c).control v = s.control v := by
  have hgoto (s : State W) (c : Control) : (s.goto w c).control v = s.control v := Function.update_of_ne hv _ _
  have hhand (s : State W) (bytes p : ℕ) : (s.hand w bytes p).control v = s.control v :=
    Function.update_of_ne hv _ _
  cases c with
  | idle => rfl
  | readLocal bytes =>
    dsimp only [State.access]
    split <;> exact hgoto _ _
  | tryPop bytes =>
    dsimp only [State.access]
    split <;> exact hgoto _ _
  | readGlobal bytes =>
    dsimp only [State.access]
    split <;> exact hgoto _ _
  | unlockPop bytes found =>
    cases found with
    | none => exact hgoto _ _
    | some p => exact hhand _ _ _
  | popLocal bytes p next => exact hhand _ _ _
  | obtain bytes => exact hhand _ _ _
  | checkLocal bytes p =>
    dsimp only [State.access]
    split <;> exact hgoto _ _
  | tryPush bytes p =>
    dsimp only [State.access]
    split <;> exact hgoto _ _
  | _ => exact hgoto _ _

/-- A call that returns a block makes it live, with the size of the request. -/
theorem access_result {c : Control} (h : c.result fresh = some p) :
    ∃ bytes, c.request = some bytes ∧ (s.access w fresh c).live = Function.update s.live p (some bytes) ∧
      (s.access w fresh c).control w = .idle := by
  cases c with
  | popLocal bytes q next =>
    obtain rfl := Option.some.inj h
    exact ⟨bytes, rfl, rfl, Function.update_self _ _ _⟩
  | unlockPop bytes found =>
    cases found with
    | none => cases h
    | some q =>
      obtain rfl := Option.some.inj h
      exact ⟨bytes, rfl, rfl, Function.update_self _ _ _⟩
  | obtain bytes =>
    obtain rfl := Option.some.inj h
    exact ⟨bytes, rfl, rfl, Function.update_self _ _ _⟩
  | _ => cases h

omit [DecidableEq W] in
/-- Only `allocate` returns something. -/
theorem result_eq_none {c : Control} (hrequest : c.request = none) : c.result fresh = none := by
  cases c with
  | popLocal bytes p next => cases hrequest
  | unlockPop bytes result => cases hrequest
  | obtain bytes => cases hrequest
  | _ => rfl

/-- A call that does not return a block yet goes on with its request, or is a call of `deallocate`. -/
theorem access_no_result {c : Control} (hc : c ≠ .idle) (h : c.result fresh = none) :
    (s.access w fresh c).live = s.live ∧ ((s.access w fresh c).control w).request = c.request ∧
      (c.request ≠ none → (s.access w fresh c).control w ≠ .idle) := by
  have hgo (s' : State W) (c' : Control) (hlive : s'.live = s.live) (hrequest : c'.request = c.request)
      (hidle : c.request ≠ none → c' ≠ .idle) : (s'.goto w c').live = s.live ∧
        ((s'.goto w c').control w).request = c.request ∧
        (c.request ≠ none → (s'.goto w c').control w ≠ .idle) := by
    have hself : (s'.goto w c').control w = c' := Function.update_self _ _ _
    rw [hself]
    exact ⟨hlive, hrequest, hidle⟩
  cases c with
  | idle => exact absurd rfl hc
  | readLocal bytes =>
    dsimp only [State.access]
    split
    · exact hgo _ _ rfl rfl fun _ => nofun
    · split
      · exact hgo _ _ rfl rfl fun _ => nofun
      · exact hgo _ _ rfl rfl fun _ => nofun
  | tryPop bytes =>
    dsimp only [State.access]
    split
    · exact hgo _ _ rfl rfl fun _ => nofun
    · exact hgo _ _ rfl rfl fun _ => nofun
  | readGlobal bytes =>
    dsimp only [State.access]
    split
    · exact hgo _ _ rfl rfl fun _ => nofun
    · exact hgo _ _ rfl rfl fun _ => nofun
  | unlockPop bytes found =>
    cases found with
    | none => exact hgo _ _ rfl rfl fun _ => nofun
    | some p => cases h
  | popLocal bytes p next => cases h
  | obtain bytes => cases h
  | checkLocal bytes p =>
    dsimp only [State.access]
    split
    · exact hgo _ _ rfl rfl fun hne => (hne rfl).elim
    · exact hgo _ _ rfl rfl fun hne => (hne rfl).elim
  | tryPush bytes p =>
    dsimp only [State.access]
    split
    · exact hgo _ _ rfl rfl fun hne => (hne rfl).elim
    · exact hgo _ _ rfl rfl fun hne => (hne rfl).elim
  | followLocal bytes p => exact hgo _ _ rfl rfl fun _ => nofun
  | followGlobal bytes p => exact hgo _ _ rfl rfl fun _ => nofun
  | popGlobal bytes p next => exact hgo _ _ rfl rfl fun _ => nofun
  | _ => exact hgo _ _ rfl rfl fun hne => (hne rfl).elim

/-- A block that is about to be returned is not live. -/
theorem Reachable.result_not_live (h : Reachable s) (hresult : (s.control w).result fresh = some p)
    (hfresh : ∀ bytes, s.control w = .obtain bytes → s.block fresh = none) : s.live p = none := by
  have hplace := h.inv.guarantees.place p
  have hother {x : Place W} (hx : s.At p x) (hne : x ≠ .live) : s.live p = none := by
    by_contra hlive
    obtain ⟨bytes, hbytes⟩ := Option.ne_none_iff_exists'.mp hlive
    by_cases hblock : s.block p = none
    · exact hplace.2 hblock x hx
    · exact hne ((hplace.1 hblock).unique hx ⟨bytes, hbytes⟩)
  have hfits := h.inv.2.fits w
  cases hc : s.control w with
  | popLocal bytes q next =>
    rw [hc] at hresult hfits
    obtain rfl := Option.some.inj hresult
    exact hother (x := .localChain w (bucketOf bytes) 0) hfits.2.1 nofun
  | unlockPop bytes found =>
    rw [hc] at hresult
    cases found with
    | none => cases hresult
    | some q =>
      obtain rfl := Option.some.inj hresult
      exact hother (x := .call w) (by rw [State.At, hc]; rfl) nofun
  | obtain bytes =>
    rw [hc] at hresult
    obtain rfl := Option.some.inj hresult
    by_contra hlive
    obtain ⟨bytes, hbytes⟩ := Option.ne_none_iff_exists'.mp hlive
    exact hplace.2 (hfresh _ hc) .live ⟨bytes, hbytes⟩
  | _ =>
    rw [hc] at hresult
    cases hresult

end Access

section Tallies

variable {ι : Type} {live live' : ℕ → Option ℕ} {itemSize : ι → ℕ} {holds holds' : ι → ℕ → ℕ → Prop}
  {i j : ι} {p n : ℕ}

/-- The live blocks are the blocks of the arrays, and two arrays have no block in common. -/
structure Tallies (live : ℕ → Option ℕ) (itemSize : ι → ℕ) (holds : ι → ℕ → ℕ → Prop) : Prop where
  held : ∀ p bytes, live p = some bytes ↔ ∃ i n, holds i p n ∧ n * itemSize i = bytes
  unique : ∀ i j p n m, holds i p n → holds j p m → i = j ∧ n = m

/-- A block that was not live goes to an array. -/
theorem Tallies.add (h : Tallies live itemSize holds) (hp : live p = none)
    (hholds : ∀ k q m, holds' k q m ↔ k = i ∧ q = p ∧ m = n ∨ holds k q m) :
    Tallies (Function.update live p (some (n * itemSize i))) itemSize holds' where
  held q bytes := by
    have hold (k : ι) (m : ℕ) : ¬holds k p m := fun hk => by
      have hlive := (h.held p (m * itemSize k)).mpr ⟨k, m, hk, rfl⟩
      rw [hp] at hlive
      cases hlive
    by_cases hq : q = p
    · subst hq
      rw [Function.update_self]
      constructor
      · intro heq
        exact ⟨i, n, (hholds i q n).mpr (Or.inl ⟨rfl, rfl, rfl⟩), Option.some.inj heq⟩
      · rintro ⟨k, m, hk, rfl⟩
        rcases (hholds k q m).mp hk with ⟨rfl, _, rfl⟩ | hk
        · rfl
        · exact (hold k m hk).elim
    · rw [Function.update_of_ne hq, h.held]
      constructor
      · rintro ⟨k, m, hk, rfl⟩
        exact ⟨k, m, (hholds k q m).mpr (Or.inr hk), rfl⟩
      · rintro ⟨k, m, hk, rfl⟩
        exact ⟨k, m, ((hholds k q m).mp hk).resolve_left fun heq => hq heq.2.1, rfl⟩
  unique k l q m m' hk hl := by
    have hold (k : ι) (m : ℕ) : ¬holds k p m := fun hk => by
      have hlive := (h.held p (m * itemSize k)).mpr ⟨k, m, hk, rfl⟩
      rw [hp] at hlive
      cases hlive
    rcases (hholds k q m).mp hk with ⟨rfl, rfl, rfl⟩ | hk
    · rcases (hholds l q m').mp hl with ⟨rfl, _, rfl⟩ | hl
      · exact ⟨rfl, rfl⟩
      · exact (hold l m' hl).elim
    · rcases (hholds l q m').mp hl with ⟨rfl, rfl, rfl⟩ | hl
      · exact (hold k m hk).elim
      · exact h.unique k l q m m' hk hl

/-- An array gives its block back. -/
theorem Tallies.remove (h : Tallies live itemSize holds) (hi : holds i p n)
    (hsingle : ∀ q m, holds i q m → q = p) (hholds : ∀ k q m, holds' k q m ↔ k ≠ i ∧ holds k q m) :
    Tallies (Function.update live p none) itemSize holds' where
  held q bytes := by
    by_cases hq : q = p
    · subst hq
      rw [Function.update_self]
      refine iff_of_false nofun ?_
      rintro ⟨k, m, hk, _⟩
      obtain ⟨hne, hk⟩ := (hholds k q m).mp hk
      exact hne (h.unique k i q m n hk hi).1
    · rw [Function.update_of_ne hq, h.held]
      constructor
      · rintro ⟨k, m, hk, rfl⟩
        refine ⟨k, m, (hholds k q m).mpr ⟨?_, hk⟩, rfl⟩
        rintro rfl
        exact hq (hsingle q m hk)
      · rintro ⟨k, m, hk, rfl⟩
        exact ⟨k, m, ((hholds k q m).mp hk).2, rfl⟩
  unique k l q m m' hk hl := h.unique k l q m m' ((hholds k q m).mp hk).2 ((hholds l q m').mp hl).2

/-- An array takes the block of another one. -/
theorem Tallies.transfer (h : Tallies live itemSize holds) (hsize : itemSize i = itemSize j)
    (hnone : ∀ q m, ¬holds i q m) (hholds : ∀ k q m, holds' k q m ↔ k = i ∧ holds j q m ∨ k ≠ i ∧ k ≠ j ∧
      holds k q m) :
    Tallies live itemSize holds' where
  held q bytes := by
    rw [h.held]
    constructor
    · rintro ⟨k, m, hk, rfl⟩
      by_cases hkj : k = j
      · subst hkj
        exact ⟨i, m, (hholds i q m).mpr (Or.inl ⟨rfl, hk⟩), by rw [hsize]⟩
      · refine ⟨k, m, (hholds k q m).mpr (Or.inr ⟨?_, hkj, hk⟩), rfl⟩
        rintro rfl
        exact hnone q m hk
    · rintro ⟨k, m, hk, rfl⟩
      rcases (hholds k q m).mp hk with ⟨rfl, hj⟩ | ⟨_, _, hk⟩
      · exact ⟨j, m, hj, by rw [hsize]⟩
      · exact ⟨k, m, hk, rfl⟩
  unique k l q m m' hk hl := by
    rcases (hholds k q m).mp hk with ⟨rfl, hj⟩ | ⟨hki, hkj, hk⟩
    · rcases (hholds l q m').mp hl with ⟨rfl, hj'⟩ | ⟨_, hlj, hl⟩
      · exact ⟨rfl, (h.unique j j q m m' hj hj').2⟩
      · exact (hlj (h.unique j l q m m' hj hl).1.symm).elim
    · rcases (hholds l q m').mp hl with ⟨rfl, hj'⟩ | ⟨_, _, hl⟩
      · exact (hkj (h.unique k j q m m' hk hj').1).elim
      · exact h.unique k l q m m' hk hl

/-- The tallies depend only on which variable holds which memory. -/
theorem Tallies.congr (h : Tallies live itemSize holds) (hholds : ∀ k q m, holds' k q m ↔ holds k q m) :
    Tallies live itemSize holds' := by
  have heq : holds' = holds := funext fun k => funext fun q => funext fun m => propext (hholds k q m)
  rwa [heq]

end Tallies

namespace Heap

variable {W ι : Type} [DecidableEq W] [DecidableEq ι] {itemSize : ι → ℕ} {h h' : Heap W ι} {w v : W} {i j k : ι}
  {p q n m : ℕ}
  {t : Task ι}

omit [DecidableEq W] in
/-- The variable that is set has the new array. -/
theorem array_setArray_self (a : Option Fields) : (h.setArray i a).array i = a := Function.update_self _ _ _

omit [DecidableEq W] in
/-- The other variables keep their arrays. -/
theorem array_setArray_of_ne (a : Option Fields) (hk : k ≠ i) : (h.setArray i a).array k = h.array k :=
  Function.update_of_ne hk _ _

omit [DecidableEq ι] in
/-- The worker that is set has the new task. -/
theorem task_setTask_self (t : Task ι) : (h.setTask w t).task w = t := Function.update_self _ _ _

omit [DecidableEq ι] in
/-- The other workers keep their tasks. -/
theorem task_setTask_of_ne (t : Task ι) (hv : v ≠ w) : (h.setTask w t).task v = h.task v :=
  Function.update_of_ne hv _ _

/-- What a member function relies on while its worker is in the allocator. -/
def Fulfils (itemSize : ι → ℕ) (h : Heap W ι) (w : W) : Task ι → Prop
  | .none => h.pool.control w = .idle
  | .building i => ∃ n, h.array i = some ⟨none, n⟩ ∧ (h.pool.control w).request = some (n * itemSize i)
  | .assigning i j => h.pool.control w ≠ .idle ∧ (h.pool.control w).request = none ∧ i ≠ j ∧
    itemSize i = itemSize j ∧
      (∃ a, h.array i = some a) ∧ ∃ b, h.array j = some b
  | .destroying i => h.pool.control w ≠ .idle ∧ (h.pool.control w).request = none ∧ ∃ a, h.array i = some a

/-- The invariant of the heap: the allocator is safe, every task has got what it needs, no two workers
use one variable, and what the variables hold is what the allocator has handed out. -/
structure Sound (itemSize : ι → ℕ) (h : Heap W ι) : Prop where
  /-- The arrays keep to the contract of the allocator. -/
  pool : Pool.Reachable h.pool
  tasks : ∀ w, Fulfils itemSize h w (h.task w)
  exclusive : ∀ v w i, (h.task v).Uses i → (h.task w).Uses i → v = w
  tallies : Tallies h.pool.live itemSize h.Holds

omit [DecidableEq W] [DecidableEq ι] in
/-- A member function does not notice what happens to arrays that it does not use. -/
theorem Fulfils.frame (ht : Fulfils itemSize h w t) (hcontrol : h'.pool.control w = h.pool.control w)
    (harray : ∀ i, t.Uses i → h'.array i = h.array i) : Fulfils itemSize h' w t := by
  cases t with
  | none => exact hcontrol.trans ht
  | building i =>
    obtain ⟨n, hi, hrequest⟩ := ht
    exact ⟨n, (harray i rfl).trans hi, by rwa [hcontrol]⟩
  | assigning i j =>
    obtain ⟨hidle, hrequest, hne, hsize, ⟨a, hi⟩, b, hj⟩ := ht
    exact ⟨by rwa [hcontrol], by rwa [hcontrol], hne, hsize, ⟨a, (harray i (Or.inl rfl)).trans hi⟩, b,
      (harray j (Or.inr rfl)).trans hj⟩
  | destroying i =>
    obtain ⟨hidle, hrequest, a, hi⟩ := ht
    exact ⟨by rwa [hcontrol], by rwa [hcontrol], a, (harray i rfl).trans hi⟩

omit [DecidableEq ι] in
/-- An array that does not exist is not used. -/
theorem Sound.unused (hs : Sound itemSize h) (hi : h.array i = none) : h.Unused i := by
  intro w huses
  have hfulfils := hs.tasks w
  cases ht : h.task w with
  | none =>
    rw [ht] at huses
    exact huses
  | building k =>
    rw [ht] at huses hfulfils
    obtain rfl : k = i := huses
    obtain ⟨n, hk, _⟩ := hfulfils
    rw [hi] at hk
    cases hk
  | assigning k l =>
    rw [ht] at huses hfulfils
    obtain ⟨_, _, _, _, ⟨a, hk⟩, b, hl⟩ := hfulfils
    rcases huses with rfl | rfl
    · rw [hi] at hk
      cases hk
    · rw [hi] at hl
      cases hl
  | destroying k =>
    rw [ht] at huses hfulfils
    obtain rfl : k = i := huses
    obtain ⟨_, _, a, hk⟩ := hfulfils
    rw [hi] at hk
    cases hk

omit [DecidableEq W] [DecidableEq ι] in
/-- No task frees the array of a variable that is not in use. -/
theorem Unused.frees (hi : h.Unused i) (w : W) : ¬(h.task w).Frees i := fun hfrees => hi w hfrees.uses

section Holding

omit [DecidableEq W] in
/-- Another variable holds what it held before. -/
theorem holds_setArray_of_ne (a : Option Fields) (hk : k ≠ i) : (h.setArray i a).Holds k q m ↔ h.Holds k q m := by
  unfold Holds
  rw [array_setArray_of_ne a hk]
  exact Iff.rfl

omit [DecidableEq W] in
/-- An array without a block comes or goes. -/
theorem holds_setArray_empty {a : Option Fields} (hold : ∀ q m, h.array i ≠ some ⟨some q, m⟩)
    (hnew : ∀ q m, a ≠ some ⟨some q, m⟩) :
    (h.setArray i a).Holds k q m ↔ h.Holds k q m := by
  by_cases hk : k = i
  · subst hk
    refine iff_of_false (fun hh => ?_) fun hh => hold q m hh.1
    have hself := hh.1
    rw [array_setArray_self] at hself
    exact hnew q m hself
  · exact holds_setArray_of_ne a hk

omit [DecidableEq ι] in
/-- A member function that starts to give a block back takes it from its array. -/
theorem holds_start (hw : h.task w = .none) (t : Task ι) : (h.setTask w t).Holds k q m ↔ ¬t.Frees k ∧
    h.Holds k q m := by
  constructor
  · rintro ⟨harray, hfrees⟩
    refine ⟨?_, harray, fun v => ?_⟩
    · have hself := hfrees w
      rwa [task_setTask_self] at hself
    · by_cases hv : v = w
      · rw [hv, hw]
        exact id
      · have hother := hfrees v
        rwa [task_setTask_of_ne t hv] at hother
  · rintro ⟨ht, harray, hfrees⟩
    refine ⟨harray, fun v => ?_⟩
    by_cases hv : v = w
    · rwa [hv, task_setTask_self]
    · rw [task_setTask_of_ne t hv]
      exact hfrees v

omit [DecidableEq ι] in
/-- When a task ends, the variables hold their arrays but for what other tasks free. -/
theorem holds_end :
    (h.setTask w .none).Holds k q m ↔ h.array k = some ⟨some q, m⟩ ∧ ∀ v ≠ w, ¬(h.task v).Frees k := by
  constructor
  · rintro ⟨harray, hfrees⟩
    refine ⟨harray, fun v hv => ?_⟩
    have hother := hfrees v
    rwa [task_setTask_of_ne _ hv] at hother
  · rintro ⟨harray, hfrees⟩
    refine ⟨harray, fun v => ?_⟩
    by_cases hv : v = w
    · rw [hv, task_setTask_self]
      exact id
    · rw [task_setTask_of_ne _ hv]
      exact hfrees v hv

omit [DecidableEq W] in
/-- The arrays after a move assignment has taken the fields. -/
theorem array_take :
    (h.take i j).array k = if k = j then some ⟨none, 0⟩ else if k = i then h.array j else h.array k := by
  unfold take
  by_cases hkj : k = j
  · rw [if_pos hkj, hkj, array_setArray_self]
  · rw [if_neg hkj, array_setArray_of_ne _ hkj]
    by_cases hki : k = i
    · rw [if_pos hki, hki, array_setArray_self]
    · rw [if_neg hki, array_setArray_of_ne _ hki]

end Holding

section Steps

/-- Setting the array of an unused variable keeps the invariant where neither the old nor the new one
has memory. -/
theorem Sound.setArray (hs : Sound itemSize h) {a : Option Fields} (hunused : h.Unused i)
    (hold : ∀ q m, h.array i ≠ some ⟨some q, m⟩) (hnew : ∀ q m, a ≠ some ⟨some q, m⟩) :
      Sound itemSize (h.setArray i a) where
  pool := hs.pool
  tasks v := (hs.tasks v).frame rfl fun k hk =>
    array_setArray_of_ne a fun heq : k = i => hunused v (heq ▸ hk)
  exclusive := hs.exclusive
  tallies := hs.tallies.congr fun _ _ _ => holds_setArray_empty hold hnew

/-- The fields of an array go to an array that has no block. -/
theorem Sound.take (hs : Sound itemSize h) (hne : i ≠ j) (hiu : h.Unused i) (hju : h.Unused j)
    (hsize : itemSize i = itemSize j) (hnone : ∀ q m, h.array i ≠ some ⟨some q, m⟩) :
    Sound itemSize (h.take i j) where
  pool := hs.pool
  tasks v := (hs.tasks v).frame rfl fun k hk => by
    have hki : k ≠ i := fun heq => hiu v (heq ▸ hk)
    have hkj : k ≠ j := fun heq => hju v (heq ▸ hk)
    rw [array_take, if_neg hkj, if_neg hki]
  exclusive := hs.exclusive
  tallies := by
    refine hs.tallies.transfer hsize (fun q m hh => hnone q m hh.1) fun k q m => ?_
    unfold Holds
    rw [array_take]
    by_cases hkj : k = j
    · subst hkj
      rw [if_pos rfl]
      refine iff_of_false (fun hh => ?_) ?_
      · cases hh.1
      · rintro (⟨heq, _⟩ | ⟨_, hkk, _⟩)
        · exact hne heq.symm
        · exact hkk rfl
    · by_cases hki : k = i
      · subst hki
        rw [if_neg hkj, if_pos rfl]
        constructor
        · exact fun hh => Or.inl ⟨rfl, hh.1, hju.frees⟩
        · rintro (⟨_, harray, _⟩ | ⟨hkk, _⟩)
          · exact ⟨harray, hiu.frees⟩
          · exact (hkk rfl).elim
      · rw [if_neg hkj, if_neg hki]
        exact ⟨fun hh => Or.inr ⟨hki, hkj, hh⟩, fun hh => (hh.resolve_left fun heq => hki heq.1).2.2⟩

omit [DecidableEq ι] in
/-- A worker starts to execute a member function of arrays that nobody uses. -/
theorem Sound.start (hs : Sound itemSize h) (hpool : Pool.Reachable h'.pool)
    (hcontrol : ∀ v ≠ w, h'.pool.control v = h.pool.control v) (htask : h'.task = h.task)
    (harray : ∀ k, ¬t.Uses k → h'.array k = h.array k)
    (hunused : ∀ k, t.Uses k → h.Unused k) (hfulfils : Fulfils itemSize h' w t)
    (htallies : Tallies h'.pool.live itemSize (h'.setTask w t).Holds) : Sound itemSize (h'.setTask w t) where
  pool := hpool
  tasks v := by
    have hframe (v : W) (t' : Task ι) (ht : Fulfils itemSize h' v t') : Fulfils itemSize (h'.setTask w t) v t' :=
      ht.frame rfl fun _ _ => rfl
    by_cases hv : v = w
    · rw [hv]
      rw [task_setTask_self]
      exact hframe w t hfulfils
    · rw [task_setTask_of_ne t hv, htask]
      exact hframe v _ ((hs.tasks v).frame (hcontrol v hv) fun k hk => harray k fun huses => hunused k huses v hk)
  exclusive v u k hv hu := by
    by_cases hvw : v = w
    · by_cases huw : u = w
      · rw [hvw, huw]
      · rw [hvw, task_setTask_self] at hv
        rw [task_setTask_of_ne t huw, htask] at hu
        exact (hunused k hv u hu).elim
    · rw [task_setTask_of_ne t hvw, htask] at hv
      by_cases huw : u = w
      · rw [huw, task_setTask_self] at hu
        exact (hunused k hu v hv).elim
      · rw [task_setTask_of_ne t huw, htask] at hu
        exact hs.exclusive v u k hv hu
  tallies := htallies

omit [DecidableEq ι] in
/-- A member function returns. -/
theorem Sound.stop (hs : Sound itemSize h) (hpool : Pool.Reachable h'.pool) (hidle : h'.pool.control w = .idle)
    (hcontrol : ∀ v ≠ w, h'.pool.control v = h.pool.control v) (htask : h'.task = h.task)
    (harray : ∀ k, ¬(h.task w).Uses k → h'.array k = h.array k)
    (htallies : Tallies h'.pool.live itemSize (h'.setTask w .none).Holds) :
    Sound itemSize (h'.setTask w .none) where
  pool := hpool
  tasks v := by
    have hframe (v : W) (t' : Task ι) (ht : Fulfils itemSize h' v t') :
      Fulfils itemSize (h'.setTask w .none) v t' :=
      ht.frame rfl fun _ _ => rfl
    by_cases hv : v = w
    · rw [hv]
      rw [task_setTask_self]
      exact hidle
    · rw [task_setTask_of_ne _ hv, htask]
      exact hframe v _ ((hs.tasks v).frame (hcontrol v hv) fun k hk => harray k fun huses =>
        hv (hs.exclusive v w k hk huses))
  exclusive v u k hv hu := by
    by_cases hvw : v = w
    · rw [hvw, task_setTask_self] at hv
      exact hv.elim
    · by_cases huw : u = w
      · rw [huw, task_setTask_self] at hu
        exact hu.elim
      · rw [task_setTask_of_ne _ hvw, htask] at hv
        rw [task_setTask_of_ne _ huw, htask] at hu
        exact hs.exclusive v u k hv hu
  tallies := htallies

/-- The start of a constructor keeps the invariant. -/
theorem Sound.build (hs : Sound itemSize h) (hw : h.task w = .none) (hi : h.array i = none)
    (hpos : 1 ≤ n * itemSize i) (hmax : n * itemSize i ≤ 2 ^ 63) :
    Sound itemSize (({ h with pool := h.pool.goto w (.readLocal (n * itemSize i)) }.setArray i
      (some ⟨none, n⟩)).setTask w
      (.building i)) := by
  have hidle : h.pool.control w = .idle := by
    have hfulfils := hs.tasks w
    rwa [hw] at hfulfils
  refine hs.start (hs.pool.step (.allocate hidle hpos hmax)) (fun v hv => Function.update_of_ne hv _ _) rfl
    (fun k hk => array_setArray_of_ne _ fun heq => hk heq.symm) (fun k hk => ?_) ⟨n, array_setArray_self _, ?_⟩ ?_
  · obtain rfl : i = k := hk
    exact hs.unused hi
  · change (Function.update h.pool.control w (.readLocal (n * itemSize i)) w).request = _
    rw [Function.update_self]
    rfl
  · refine hs.tallies.congr fun k q m => ?_
    have hold : ∀ q m, h.array i ≠ some ⟨some q, m⟩ := fun q m heq => by
      rw [hi] at heq
      cases heq
    have hw' :
      ({ h with pool := h.pool.goto w (.readLocal (n * itemSize i)) }.setArray i (some ⟨none, n⟩)).task w =
      .none := hw
    refine (holds_start hw' (.building i)).trans ((and_iff_right id).trans ?_)
    exact holds_setArray_empty hold fun q m heq => by cases heq

omit [DecidableEq ι] in
/-- A member function gives the block of its array back. -/
theorem Sound.giveBack (hs : Sound itemSize h) (hw : h.task w = .none) {a : Fields} (hi : h.array i = some a)
    (hdata : a.data = some p) (hfrees : ∀ k, t.Frees k ↔ k = i) (hunused : ∀ k, t.Uses k → h.Unused k)
    (hiu : h.Unused i)
    (hfulfils : (h.giveBack w p (a.size * itemSize i)).pool.control w = .checkLocal (a.size * itemSize i) p →
      Fulfils itemSize (h.giveBack w p (a.size * itemSize i)) w t) :
    Sound itemSize ((h.giveBack w p (a.size * itemSize i)).setTask w t) := by
  have hidle : h.pool.control w = .idle := by
    have hfulfils := hs.tasks w
    rwa [hw] at hfulfils
  have hholds : h.Holds i p a.size := by
    refine ⟨?_, hiu.frees⟩
    rw [hi, ← hdata]
  have hlive := (hs.tallies.held p (a.size * itemSize i)).mpr ⟨i, a.size, hholds, rfl⟩
  refine hs.start (hs.pool.step (.deallocate hidle hlive))
    (fun v hv => Function.update_of_ne hv _ _) rfl (fun _ _ => rfl) hunused
    (hfulfils (Function.update_self _ _ _)) ?_
  refine hs.tallies.remove hholds (fun q m hq => ?_) fun k q m => ?_
  · have heq := hholds.1.symm.trans hq.1
    simp only [Option.some.injEq, Fields.mk.injEq] at heq
    exact heq.1.symm
  · refine (holds_start hw t).trans ?_
    rw [hfrees]

omit [DecidableEq ι] in
/-- Only the worker itself could have been giving an array back that it has not in use for that. -/
theorem not_frees_iff (hw : ¬(h.task w).Frees k) : (∀ v ≠ w, ¬(h.task v).Frees k) ↔ ∀ v, ¬(h.task v).Frees k := by
  refine ⟨fun hfrees v => ?_, fun hfrees v _ => hfrees v⟩
  by_cases hv : v = w
  · rwa [hv]
  · exact hfrees v hv

section Finishing

variable {s : State W}

/-- An array that has been built holds its block. -/
theorem holds_built (ht : h.task w = .building i) (hi : h.array i = some ⟨none, n⟩)
    (hothers : ∀ v ≠ w, ¬(h.task v).Frees i) :
    (({ h with pool := s }.setArray i (some ⟨some p, n⟩)).setTask w .none).Holds k q m ↔
      k = i ∧ q = p ∧ m = n ∨ h.Holds k q m := by
  refine holds_end.trans ?_
  by_cases hk : k = i
  · subst hk
    rw [array_setArray_self]
    constructor
    · rintro ⟨heq, _⟩
      simp only [Option.some.injEq, Fields.mk.injEq] at heq
      exact Or.inl ⟨rfl, heq.1.symm, heq.2.symm⟩
    · rintro (⟨_, rfl, rfl⟩ | hholds)
      · exact ⟨rfl, hothers⟩
      · have heq := hi.symm.trans hholds.1
        cases heq
  · have hfreed : ¬(h.task w).Frees k := by
      rw [ht]
      exact id
    rw [array_setArray_of_ne _ hk, or_iff_right fun heq => hk heq.1]
    exact and_congr_right fun _ => not_frees_iff hfreed

/-- An array that has been assigned to holds the block of the other one. -/
theorem holds_assigned (ht : h.task w = .assigning i j) (hne : i ≠ j)
    (hothers : ∀ k, k = i ∨ k = j → ∀ v ≠ w, ¬(h.task v).Frees k) :
    (({ h with pool := s }.take i j).setTask w .none).Holds k q m ↔
      k = i ∧ h.Holds j q m ∨ k ≠ i ∧ k ≠ j ∧ h.Holds k q m := by
  have hfreed (k : ι) (hk : k ≠ i) : ¬(h.task w).Frees k := by
    rw [ht]
    exact fun heq => hk heq.symm
  refine holds_end.trans ?_
  rw [array_take]
  by_cases hkj : k = j
  · subst hkj
    rw [if_pos rfl]
    refine iff_of_false (fun hh => ?_) ?_
    · cases hh.1
    · rintro (⟨heq, _⟩ | ⟨_, hkk, _⟩)
      · exact hne heq.symm
      · exact hkk rfl
  · rw [if_neg hkj]
    by_cases hki : k = i
    · subst hki
      rw [if_pos rfl]
      constructor
      · rintro ⟨harray, _⟩
        exact Or.inl ⟨rfl, harray, (not_frees_iff (hfreed j hne.symm)).mp (hothers j (Or.inr rfl))⟩
      · rintro (⟨_, harray, _⟩ | ⟨hkk, _⟩)
        · exact ⟨harray, hothers k (Or.inl rfl)⟩
        · exact (hkk rfl).elim
    · rw [if_neg hki, or_iff_right fun heq => hki heq.1]
      refine (and_congr_right fun _ => not_frees_iff (hfreed k hki)).trans ?_
      exact ⟨fun hholds => ⟨hki, hkj, hholds⟩, fun hholds => hholds.2.2⟩

/-- An array that has been destroyed holds nothing, as before. -/
theorem holds_destroyed (ht : h.task w = .destroying i) :
    (({ h with pool := s }.setArray i none).setTask w .none).Holds k q m ↔ h.Holds k q m := by
  refine holds_end.trans ?_
  by_cases hk : k = i
  · subst hk
    have hfreed : (h.task w).Frees k := by
      rw [ht]
      rfl
    rw [array_setArray_self]
    exact iff_of_false (fun hh => by cases hh.1) fun hh => hh.2 w hfreed
  · have hfreed : ¬(h.task w).Frees k := by
      rw [ht]
      exact fun heq => hk heq.symm
    rw [array_setArray_of_ne _ hk]
    exact and_congr_right fun _ => not_frees_iff hfreed

end Finishing

/-- The call of the allocator returns. -/
theorem Sound.return (hs : Sound itemSize h) {fresh : ℕ} (hw : h.pool.control w ≠ .idle)
    (hfresh : ∀ bytes, h.pool.control w = .obtain bytes → h.pool.block fresh = none)
    (hidle : (h.pool.access w fresh (h.pool.control w)).control w = .idle) :
    Sound itemSize
      ({ h with pool := h.pool.access w fresh (h.pool.control w) }.finish w
        ((h.pool.control w).result fresh)) := by
  have hpool := hs.pool.step (.access w fresh hfresh)
  have hcontrol : ∀ v ≠ w, (h.pool.access w fresh (h.pool.control w)).control v = h.pool.control v := fun v hv =>
    control_access hv _
  have hfulfils := hs.tasks w
  have hothers : ∀ k, (h.task w).Uses k → ∀ v ≠ w, ¬(h.task v).Frees k := fun k hk v hv hfrees =>
    hv (hs.exclusive v w k hfrees.uses hk)
  unfold finish
  dsimp only
  split
  · next ht =>
    rw [ht] at hfulfils
    exact absurd hfulfils hw
  · next i ht =>
    rw [ht] at hfulfils hothers
    obtain ⟨n, hi, hrequest⟩ := hfulfils
    obtain ⟨p, hresult⟩ : ∃ p, (h.pool.control w).result fresh = some p := by
      rw [← Option.ne_none_iff_exists']
      intro hnone
      refine (access_no_result hw hnone).2.2 ?_ hidle
      rw [hrequest]
      exact Option.some_ne_none _
    obtain ⟨bytes, hbytes, hlive, _⟩ := access_result (s := h.pool) (w := w) hresult
    obtain rfl : bytes = n * itemSize i := Option.some.inj (hbytes.symm.trans hrequest)
    rw [hi, hresult]
    refine hs.stop hpool hidle hcontrol rfl (fun k hk => array_setArray_of_ne _ ?_) ?_
    · rintro rfl
      exact hk (by rw [ht]; rfl)
    · change Tallies (h.pool.access w fresh (h.pool.control w)).live _ _
      rw [hlive]
      exact hs.tallies.add (hs.pool.result_not_live hresult hfresh) fun k q m => holds_built ht hi (hothers i rfl)
  · next i j ht =>
    rw [ht] at hfulfils hothers
    obtain ⟨_, hrequest, hne, hsize, _, _⟩ := hfulfils
    refine hs.stop hpool hidle hcontrol rfl (fun k hk => ?_) ?_
    · rw [ht] at hk
      rw [array_take, if_neg fun heq => hk (Or.inr heq.symm), if_neg fun heq => hk (Or.inl heq.symm)]
    · change Tallies (h.pool.access w fresh (h.pool.control w)).live _ _
      have hfreed : (h.task w).Frees i := by
        rw [ht]
        rfl
      rw [(access_no_result hw (result_eq_none hrequest)).1]
      exact hs.tallies.transfer hsize (fun q m hh => hh.2 w hfreed) fun k q m => holds_assigned ht hne fun k hk =>
        hothers k (hk.imp Eq.symm Eq.symm)
  · next i ht =>
    rw [ht] at hfulfils
    obtain ⟨_, hrequest, _⟩ := hfulfils
    refine hs.stop hpool hidle hcontrol rfl (fun k hk => array_setArray_of_ne _ ?_) ?_
    · rintro rfl
      exact hk (by rw [ht]; rfl)
    · change Tallies (h.pool.access w fresh (h.pool.control w)).live _ _
      rw [(access_no_result hw (result_eq_none hrequest)).1]
      exact hs.tallies.congr fun k q m => holds_destroyed ht

/-- Every step keeps the arrays and the allocator in order. -/
theorem Sound.step (hs : Sound itemSize h) (hstep : Step itemSize h h') : Sound itemSize h' := by
  have hnodata {i : ι} {a : Fields} (hi : h.array i = some a) (hdata : a.data = none) (q m : ℕ) :
      h.array i ≠ some ⟨some q, m⟩ := by
    intro heq
    rw [hi] at heq
    obtain rfl := Option.some.inj heq
    cases hdata
  cases hstep with
  | buildEmpty hi =>
    exact hs.setArray (hs.unused hi) (fun q m heq => by rw [hi] at heq; cases heq) fun q m heq => by cases heq
  | build hw hi _ hpos hmax => exact hs.build hw hi hpos hmax
  | @move i j a hi hj hiu hju hsize =>
    have hne : i ≠ j := by
      rintro rfl
      rw [hi] at hj
      cases hj
    exact hs.take hne hiu hju hsize fun q m heq => by rw [hi] at heq; cases heq
  | assignEmpty hi hj hne hiu hju hsize hdata =>
    exact hs.take hne hiu hju hsize (hnodata hi hdata)
  | @assign w i j a b p hw hi hj hne hiu hju hsize hdata =>
    refine hs.giveBack hw hi hdata (fun k => eq_comm) (fun k hk => ?_) hiu fun hcontrol => ?_
    · rcases hk with rfl | rfl
      · exact hiu
      · exact hju
    · exact ⟨by rw [hcontrol]; nofun, by rw [hcontrol]; rfl, hne, hsize, ⟨a, hi⟩, b, hj⟩
  | destroyEmpty hi hunused hdata =>
    exact hs.setArray hunused (hnodata hi hdata) fun q m heq => by cases heq
  | @destroy w i a p hw hi hunused hdata =>
    refine hs.giveBack hw hi hdata (fun k => eq_comm) (fun k hk => ?_) hunused fun hcontrol => ?_
    · obtain rfl : i = k := hk
      exact hunused
    · exact ⟨by rw [hcontrol]; nofun, by rw [hcontrol]; rfl, a, hi⟩
  | @write i a p q hi hunused hdata =>
    have hlive :=
      (hs.tallies.held p (a.size * itemSize i)).mpr ⟨i, a.size, ⟨by rw [hi, ← hdata], hunused.frees⟩, rfl⟩
    exact ⟨hs.pool.step (.write q hlive), fun v => (hs.tasks v).frame rfl fun _ _ => rfl, hs.exclusive,
      hs.tallies.congr fun _ _ _ => Iff.rfl⟩
  | @access w fresh hw hfresh hmore =>
    have hresult : (h.pool.control w).result fresh = none := by
      by_contra hsome
      obtain ⟨p, hp⟩ := Option.ne_none_iff_exists'.mp hsome
      obtain ⟨_, _, _, hidle⟩ := access_result (s := h.pool) (w := w) hp
      exact hmore hidle
    obtain ⟨hlive, hrequest, _⟩ := access_no_result (s := h.pool) (w := w) hw hresult
    refine ⟨hs.pool.step (.access w fresh hfresh), fun v => ?_, hs.exclusive, ?_⟩
    · have hfulfils := hs.tasks v
      by_cases hv : v = w
      · subst hv
        change Fulfils itemSize _ v (h.task v)
        cases ht : h.task v with
        | none =>
          rw [ht] at hfulfils
          exact absurd hfulfils hw
        | building i =>
          rw [ht] at hfulfils
          obtain ⟨n, hi, hn⟩ := hfulfils
          exact ⟨n, hi, hrequest.trans hn⟩
        | assigning i j =>
          rw [ht] at hfulfils
          obtain ⟨_, hn, hrest⟩ := hfulfils
          exact ⟨hmore, hrequest.trans hn, hrest⟩
        | destroying i =>
          rw [ht] at hfulfils
          obtain ⟨_, hn, hrest⟩ := hfulfils
          exact ⟨hmore, hrequest.trans hn, hrest⟩
      · exact hfulfils.frame (control_access hv _) fun _ _ => rfl
    · change Tallies (h.pool.access w fresh (h.pool.control w)).live _ _
      rw [hlive]
      exact hs.tallies.congr fun _ _ _ => Iff.rfl
  | «return» fresh hw hfresh hidle => exact hs.return hw hfresh hidle

/-- The invariant holds in every reachable heap. -/
theorem Reachable.sound (h : Reachable itemSize h') : Sound itemSize h' := by
  induction h with
  | init =>
    refine ⟨.init, fun _ => rfl, fun _ _ _ huses => huses.elim, ?_, ?_⟩
    · refine fun p bytes => iff_of_false (fun hlive => by cases hlive) ?_
      rintro ⟨i, n, hholds, _⟩
      cases hholds.1
    · intro i j p n m hholds
      cases hholds.1
  | step _ hstep ih => exact ih.step hstep

end Steps

/-- What a program with arrays can rely on. -/
structure Guarantees {W : ℕ} (itemSize : ι → ℕ) (h : Heap (Fin W) ι) : Prop where
  /-- Every call keeps to the contract of the allocator, with whose guarantees the blocks come. -/
  pool : Pool.Reachable h.pool
  /-- An array that is not being given back has a block of its own that is large enough for its items. -/
  block : ∀ i p n, h.Holds i p n → ∃ b, h.pool.block p = some b ∧ n * itemSize i ≤ 2 ^ b
  own : ∀ i j p n m, h.Holds i p n → h.Holds j p m → i = j
  /-- When all arrays have been destroyed, the allocator gives every block back to the system. -/
  noLeak : (∀ i, h.array i = none) → (∀ w, h.task w = .none) →
    ∃ fuel block, h.pool.destroy fuel = .freed block ∧ ∀ p, block p = none

/-- The guarantees hold in every state of every program with arrays, on any number of workers. -/
theorem reachable_arrays {W : ℕ} {h : Heap (Fin W) ι} (hreach : Reachable itemSize h) :
    Guarantees itemSize h := by
  have hs := hreach.sound
  refine ⟨hs.pool, fun i p n hholds => ?_, fun i j p n m hi hj => (hs.tallies.unique i j p n m hi hj).1,
    fun harrays htasks => ?_⟩
  · have hlive := (hs.tallies.held p _).mpr ⟨i, n, hholds, rfl⟩
    obtain ⟨b, hb, hle, _⟩ := hs.pool.inv.guarantees.capacity p _ hlive
    exact ⟨b, hb, hle⟩
  · have hidle : ∀ w, h.pool.control w = .idle := by
      intro w
      have hfulfils := hs.tasks w
      rwa [htasks w] at hfulfils
    obtain ⟨fuel, block, heq, hblock⟩ := hs.pool.exists_destroy hidle
    refine ⟨fuel, block, heq, fun p => ?_⟩
    have hlive : h.pool.live p = none := by
      by_contra hne
      obtain ⟨bytes, hbytes⟩ := Option.ne_none_iff_exists'.mp hne
      obtain ⟨i, n, hholds, _⟩ := (hs.tallies.held p bytes).mp hbytes
      have hsome := hholds.1
      rw [harrays i] at hsome
      cases hsome
    rw [hblock, if_pos hlive]

/-- Two arrays of 25 items of four bytes are built, the first one is moved and the second one destroyed. -/
theorem reachable_arrays_moved : ∃ h : Heap (Fin 1) (Fin 3), h.array 0 = some ⟨none, 0⟩ ∧
    h.array 1 = some ⟨some 7, 25⟩ ∧ h.array 2 = none ∧ h.pool.localCache 0 7 = some 8 ∧
    Guarantees (fun _ => 4) h := by
  have hunused {h : Heap (Fin 1) (Fin 3)} (hnone : h.task 0 = .none) (i : Fin 3) : h.Unused i := by
    intro w
    rw [Subsingleton.elim w 0, hnone]
    exact id
  have hinit : Reachable (fun _ => 4) (init (Fin 1) (Fin 3)) := .init
  have hbuild :=
    hinit.step (Step.build (w := 0) (i := 0) (n := 25) rfl rfl (hunused rfl 0) (by decide) (by decide))
  have hread := hbuild.step (Step.access (w := 0) 7 nofun (fun _ _ => rfl) nofun)
  have hdone := hread.step (Step.return (w := 0) 7 nofun (fun _ _ => rfl) rfl)
  have hbuild' :=
    hdone.step (Step.build (w := 0) (i := 2) (n := 25) rfl rfl (hunused rfl 2) (by decide) (by decide))
  have hread' := hbuild'.step (Step.access (w := 0) 8 nofun (fun _ _ => rfl) nofun)
  have hdone' := hread'.step (Step.return (w := 0) 8 nofun (fun _ _ => rfl) rfl)
  have hmove := hdone'.step (Step.move (i := 1) (j := 0) rfl rfl (hunused rfl 1) (hunused rfl 0) rfl)
  have hdestroy := hmove.step (Step.destroy (w := 0) (i := 2) rfl rfl (hunused rfl 2) rfl)
  have hchecked := hdestroy.step (Step.access (w := 0) 9 nofun nofun nofun)
  have hlinked := hchecked.step (Step.access (w := 0) 9 nofun nofun nofun)
  have hpushed := hlinked.step (Step.return (w := 0) 9 nofun nofun rfl)
  exact ⟨_, rfl, rfl, rfl, rfl, reachable_arrays hpushed⟩

end Heap

end Pool

end ToggleTree
