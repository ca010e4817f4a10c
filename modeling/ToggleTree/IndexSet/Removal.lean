import ToggleTree.IndexSet.ForEach

/-!
# Traversals that remove what they visit

While a traversal runs, the indices it has passed to its function may be removed, by the function
or by the traversal itself, and each removal clears flags in the words above. The words above the
front stay intact until they are read, because every index below them is still to be called.
-/

namespace ToggleTree

open ForkJoin ForkJoin.Prog

namespace IndexSet

variable {σ ι α : Type} {env : ι → Prog σ ι Unit} {n : ℕ} {S T : Finset ℕ} {s : IndexSet}

/-- What a traversal that removes is judged by: the words, the indices it has called its function
on, and the indices whose removal has been decided. -/
structure Logs (σ : Type) where
  set : Loc σ IndexSet
  calls : σ → List ℕ
  gone : σ → List ℕ
  get_put : ∀ x st, set.get (set.put x st) = x
  calls_put : ∀ x st, calls (set.put x st) = calls st
  gone_put : ∀ x st, gone (set.put x st) = gone st

/-- What a branch holds: nodes of the front, removals that have been decided but have not reached
their leaf, and flags owed by removals in flight. -/
abbrev RangeTokens := Multiset (ℕ × ℕ) × Multiset ℕ × Multiset (ℕ × ℕ)

/-- The words and the logs while the elements of `T` are visited. -/
structure RemovalInv (n : ℕ) (s : IndexSet) (S T : Finset ℕ) (t : IndexSet) (calls gone : List ℕ)
    (tokens : RangeTokens) : Prop where
  settling : Settling false n t tokens.2.2
  cleared : ∀ K < numLayers n, ∀ k, t.bit K k = true → s.bit K k = true
  called : Called T tokens.1 calls
  goneCalled : gone ⊆ calls
  kept : ∀ i ∈ S, i ∉ gone → t.bit 0 i = true
  pending : ∀ i ∈ gone, t.bit 0 i = true → i ∈ tokens.2.1

/-- The branches keep `RemovalInv` together, and decisions are never taken back. -/
def removing (V : Logs σ) (n : ℕ) (s : IndexSet) (S T : Finset ℕ) : Protocol σ RangeTokens where
  inv st := RemovalInv n s S T (V.set.get st) (V.calls st) (V.gone st)
  rel st st' := V.calls st ⊆ V.calls st' ∧ V.gone st ⊆ V.gone st'
  refl _ := ⟨fun _ => id, fun _ => id⟩
  trans h h' := ⟨List.Subset.trans h.1 h'.1, List.Subset.trans h.2 h'.2⟩

/-- All flags above a set leaf are set while flags are being cleared. -/
theorem Settling.bit_above {t : IndexSet} {owed : Multiset (ℕ × ℕ)} (h : Settling false n t owed)
    {i : ℕ} (hi : t.bit 0 i = true) {L : ℕ} (hL : L < numLayers n) : t.bit L (i / 64 ^ L) = true := by
  induction L with
  | zero => simpa using hi
  | succ L ih =>
    rw [div_pow_succ]
    have hword : t.load L (i / 64 ^ L / 64) ≠ 0 :=
      (load_ne_zero_iff _ _ _).mpr ⟨_, rfl, ih (by omega)⟩
    rcases h.sided L (i / 64 ^ L / 64) hL with ha | hb
    · exact ha.mpr hword
    · exact hb

/-- Only elements have been called. -/
theorem Called.mem_of_mem {front : Multiset (ℕ × ℕ)} {calls : List ℕ} (h : Called T front calls) {i : ℕ}
    (hi : i ∈ calls) : i ∈ T := by
  have hcount := h i
  have hpos := List.count_pos_iff.mpr hi
  by_contra hnot
  rw [if_neg hnot, if_neg hnot] at hcount
  omega

/-- No node of the front covers an element that has been called. -/
theorem Called.covers_eq_zero {front : Multiset (ℕ × ℕ)} {calls : List ℕ} (h : Called T front calls)
    {i : ℕ} (hi : i ∈ calls) : covers front i = 0 := by
  have hcount := h i
  have hpos := List.count_pos_iff.mpr hi
  rw [if_pos (h.mem_of_mem hi), if_pos (h.mem_of_mem hi)] at hcount
  omega

namespace RemovalInv

variable {t : IndexSet} {calls gone : List ℕ} {front : Multiset (ℕ × ℕ)}
  {rest : Multiset ℕ × Multiset (ℕ × ℕ)}

/-- A word of the front is as it was when the traversal started. -/
theorem load_eq (h : Represents n s S) {L w : ℕ} (hL : L < numLayers n)
    (hinv : RemovalInv n s S T t calls gone ({(L + 1, w)} + front, rest)) : t.load L w = s.load L w := by
  refine BitVec.eq_of_getLsbD_eq fun k hk => ?_
  have hbit (u : IndexSet) : u.bit L (64 * w + k) = (u.load L w).getLsbD k := by
    rw [bit, show (64 * w + k) / 64 = w by omega, show (64 * w + k) % 64 = k by omega]
  rw [← hbit, ← hbit, Bool.eq_iff_iff]
  refine ⟨hinv.cleared L hL _, fun hset => ?_⟩
  obtain ⟨i, hi, hiw⟩ := (h.bit_iff hL _).mp hset
  have hcover : covers ({(L + 1, w)} + front) i ≠ 0 := by
    rw [covers_add, covers_singleton, if_pos (by rw [div_pow_succ, hiw]; omega)]
    omega
  have hstays : i ∉ gone := fun hgone => hcover (hinv.called.covers_eq_zero (hinv.goneCalled hgone))
  rw [← hiw]
  exact hinv.settling.bit_above (hinv.kept i hi hstays) hL

/-- Replace a word of the front by children that cover the same indices of `T`. -/
theorem visit {L w : ℕ} {y : Word}
    (hinv : RemovalInv n s S T t calls gone ({(L + 1, w)} + front, rest))
    (hy : ∀ i ∈ T, i / 64 ^ (L + 1) = w → i / 64 ^ L % 64 ∈ bits y) :
    RemovalInv n s S T t calls gone (children L w y + front, rest) :=
  { hinv with called := hinv.called.visit hy }

/-- Before a traversal nothing has been called. -/
theorem start {V : Logs σ} (h : Represents n s S) {st : σ} (hset : V.set.get st = s)
    (hcalls : V.calls st = []) (hgone : V.gone st = []) {K v : ℕ} (hT : ∀ i ∈ T, i / 64 ^ K = v) :
    (removing V n s S T).inv st ({(K, v)}, 0, 0) := by
  change RemovalInv n s S T (V.set.get st) (V.calls st) (V.gone st) _
  rw [hset, hcalls, hgone]
  exact ⟨h.settling false, fun _ _ _ hk => hk, Called.start hT, List.Subset.refl _,
    fun i hi _ => (h.leaf i).mpr hi, fun i hi => by simp at hi⟩

/-- Passing an index to the function. -/
theorem call {i : ℕ} (hinv : RemovalInv n s S T t calls gone ({(0, i)} + front, rest)) (hi : i ∈ T) :
    RemovalInv n s S T t (calls ++ [i]) gone (front, rest) :=
  { hinv with
    called := hinv.called.call hi
    goneCalled := fun _ hj => List.mem_append_left _ (hinv.goneCalled hj) }

/-- Deciding to remove an index that has been called. -/
theorem decide {i : ℕ} {pending : Multiset ℕ} {owed : Multiset (ℕ × ℕ)}
    (hinv : RemovalInv n s S T t calls gone (front, pending, owed)) (hi : i ∈ calls) :
    RemovalInv n s S T t calls (gone ++ [i]) (front, {i} + pending, owed) where
  settling := hinv.settling
  cleared := hinv.cleared
  called := hinv.called
  goneCalled := by simpa [hi] using hinv.goneCalled
  kept j hj hstays := hinv.kept j hj fun hgone => hstays (List.mem_append_left _ hgone)
  pending j hj hset := by
    rcases List.mem_append.mp hj with hj | hj
    · exact Multiset.mem_add.mpr (Or.inr (hinv.pending j hj hset))
    · exact Multiset.mem_add.mpr (Or.inl (by simpa using hj))

/-- Another removal of an index that is already decided. -/
theorem pend {i : ℕ} {pending : Multiset ℕ} {owed : Multiset (ℕ × ℕ)}
    (hinv : RemovalInv n s S T t calls gone (front, pending, owed)) :
    RemovalInv n s S T t calls gone (front, {i} + pending, owed) :=
  { hinv with pending := fun j hj hset => Multiset.mem_add.mpr (Or.inr (hinv.pending j hj hset)) }

/-- At the end nothing is pending: the set is what it was without the indices that are gone. -/
theorem represents (hinv : RemovalInv n s S T t calls gone 0) (h : Represents n s S) :
    Represents n t (S \ gone.toFinset) := by
  refine hinv.settling.represents fun i => ?_
  rw [Finset.mem_sdiff, List.mem_toFinset]
  constructor
  · intro hset
    exact ⟨(h.leaf i).mp (hinv.cleared 0 (numLayers_pos n) i hset), fun hgone =>
      Multiset.notMem_zero i (hinv.pending i hgone hset)⟩
  · rintro ⟨hi, hstays⟩
    exact hinv.kept i hi hstays

/-- Clearing a flag above the leaves. -/
theorem lower {L j : ℕ} {pending : Multiset ℕ} {owed : Multiset (ℕ × ℕ)}
    (hinv : RemovalInv n s S T t calls gone (front, pending, {(L + 1, j)} + owed)) :
    RemovalInv n s S T (t.clearBit (L + 1) j) calls gone (front, pending,
      owed + handOver n (L + 1) j (t.load (L + 1) (j / 64) = flag (j % 64))) := by
  have hsettling : Settling false n t ({(L + 1, j)} + owed) := hinv.settling
  obtain ⟨hL, _, hset⟩ := hsettling.of_owed (show (L + 1, j) ∈ _ by simp)
  rw [Bool.not_false] at hset
  have hin : j / 64 < t.width (L + 1) := hsettling.inBounds hL (hsettling.fits _ hL _ hset)
  have hleaf (k : ℕ) : (t.clearBit (L + 1) j).bit 0 k = t.bit 0 k := by
    rw [bit_clearBit hin]
    simp
  refine ⟨hsettling.lower, fun K hK k hk => hinv.cleared K hK k ?_, hinv.called, hinv.goneCalled,
    fun i hi hgone => ?_, fun i hgone hi => ?_⟩
  · rw [bit_clearBit hin, Bool.and_eq_true] at hk
    exact hk.1
  · exact (hleaf i).trans (hinv.kept i hi hgone)
  · exact hinv.pending i hgone ((hleaf i).symm.trans hi)

/-- Clearing the leaf of an index that is gone. -/
theorem clearLeaf {i : ℕ} {pending : Multiset ℕ} {owed : Multiset (ℕ × ℕ)}
    (hinv : RemovalInv n s S T t calls gone (front, {i} + pending, owed)) (hgone : i ∈ gone)
    (hset : t.bit 0 i = true) :
    RemovalInv n s S T (t.clearBit 0 i) calls gone (front, pending,
      owed + handOver n 0 i (t.load 0 (i / 64) = flag (i % 64))) := by
  have hpos := numLayers_pos n
  have hsettling : Settling false n t owed := hinv.settling
  have hin : i / 64 < t.width 0 := hsettling.inBounds hpos (hsettling.fits 0 hpos i hset)
  refine ⟨hsettling.clearLeaf hset, fun K hK k hk => hinv.cleared K hK k ?_, hinv.called, hinv.goneCalled,
    fun j hj hstays => ?_, fun j hj hset' => ?_⟩
  · rw [bit_clearBit hin, Bool.and_eq_true] at hk
    exact hk.1
  · have hne : j ≠ i := fun hji => hstays (hji ▸ hgone)
    rw [bit_clearBit hin, hinv.kept j hj hstays]
    simp [hne]
  · rw [bit_clearBit hin, Bool.and_eq_true] at hset'
    have hne : j ≠ i := by
      rintro rfl
      simp at hset'
    rcases Multiset.mem_add.mp (hinv.pending j hj hset'.1) with hj' | hj'
    · exact absurd (Multiset.mem_singleton.mp hj') hne
    · exact hj'

/-- Once its leaf is clear, an index is no longer pending. -/
theorem settled {i : ℕ} {pending : Multiset ℕ} {owed : Multiset (ℕ × ℕ)}
    (hinv : RemovalInv n s S T t calls gone (front, {i} + pending, owed)) (hclear : t.bit 0 i = false) :
    RemovalInv n s S T t calls gone (front, pending, owed) where
  settling := hinv.settling
  cleared := hinv.cleared
  called := hinv.called
  goneCalled := hinv.goneCalled
  kept := hinv.kept
  pending j hj hset := by
    rcases Multiset.mem_add.mp (hinv.pending j hj hset) with hj' | hj'
    · rw [Multiset.mem_singleton.mp hj', hclear] at hset
      exact absurd hset Bool.false_ne_true
    · exact hj'

end RemovalInv

/-- The tokens of the children are those of the flags. -/
theorem children_tokens (L w : ℕ) (x : Word) : ((children L w x, 0, 0) : RangeTokens) =
    ((bits x).map fun o => (({(L, 64 * w + o)}, 0, 0) : RangeTokens)).sum := by
  unfold children
  induction bits x with
  | nil => rfl
  | cons o os ih =>
    rw [List.map_cons, List.map_cons, List.sum_cons, List.sum_cons, ← ih]
    simp

/-- A permutation of the sorted elements has them all. -/
theorem toFinset_of_perm_sort {calls : List ℕ} (h : calls.Perm (T.sort (· ≤ ·))) : calls.toFinset = T := by
  rw [List.toFinset_eq_of_perm _ _ h, Finset.sort_toFinset]

section Steps

variable (V : Logs σ)

/-- Writing a word leaves the logs alone. -/
theorem removing_put (x : IndexSet) (st : σ) : (removing V n s S T).rel st (V.set.put x st) :=
  ⟨fun _ hj => by rwa [V.calls_put], fun _ hj => by rwa [V.gone_put]⟩

/-- Reading a word of the front gives the word from before the traversal. -/
theorem read_removing (h : Represents n s S) {L w : ℕ} (hL : L < numLayers n) {y : Word}
    (hy : ∀ i ∈ T, i / 64 ^ (L + 1) = w → i / 64 ^ L % 64 ∈ bits y) (st : σ) :
    Ensures (removing V n s S T) env (fun x _ a => x = s.load L w ∧ a = (children L w y, 0, 0))
      (atomicRead (word V.set L w)) st ({(L + 1, w)}, 0, 0) := by
  have hstep : Ensures (removing V n s S T) env
      (fun x _ a => x = s.load L w ∧ a = (children L w y, 0, 0))
      (atomicRead (word V.set L w) >>= ret) st ({(L + 1, w)}, 0, 0) := by
    refine Ensures.read fun st' o _ hinv => ?_
    have hword : (word V.set L w).get st' = s.load L w := RemovalInv.load_eq h hL hinv
    rw [hword]
    exact Ensures.ret fun st'' o' _ hinv' => ⟨(children L w y, 0, 0), RemovalInv.visit hinv' hy, rfl, rfl⟩
  rwa [bind_ret] at hstep

/-- The loop of `remove` pays its debts layer by layer. -/
theorem removeUp_removing {i L : ℕ} (st : σ) :
    Ensures (removing V n s S T) env (fun _ _ a => a = 0) (removeUp V.set i (numLayers n) (L + 1)) st
      (0, 0, debt n (L + 1) i) := by
  induction hn : numLayers n - L generalizing L st with
  | zero =>
    unfold removeUp
    rw [if_neg (by omega), debt, if_neg (by omega)]
    exact Ensures.ret fun _ _ _ hinv => ⟨0, hinv, rfl⟩
  | succ d ih =>
    unfold removeUp
    split
    · next hL =>
      rw [debt, if_pos hL]
      refine Ensures.act fun st' o _ hinv => ?_
      have hsettling : Settling false n (V.set.get st') ({(L + 1, i / 64 ^ (L + 1))} + o.2.2) :=
        hinv.settling
      obtain ⟨_, _, hset⟩ := hsettling.of_owed (show (L + 1, i / 64 ^ (L + 1)) ∈ _ by simp)
      rw [Bool.not_false] at hset
      have hnext := RemovalInv.lower hinv
      rw [handOver_eq_debt, add_comm o.2.2] at hnext
      refine ⟨(0, 0, if (V.set.get st').load (L + 1) (i / 64 ^ (L + 1) / 64) = flag (i / 64 ^ (L + 1) % 64)
        then debt n (L + 1 + 1) i else 0), ?_, ?_, ?_⟩
      · exact removing_put V _ _
      · simp only [word, wordId_eq, wordOffset_eq, store_sub_flag hset]
        simp only [removing, V.get_put, V.calls_put, V.gone_put]
        exact hnext
      · simp only [word, wordId_eq, wordOffset_eq]
        split
        · exact Ensures.ret fun _ _ _ hinv => ⟨0, hinv, rfl⟩
        · next hz =>
          rw [if_pos (not_not.mp hz)]
          exact ih _ (by omega)
    · next hL =>
      rw [debt, if_neg hL]
      exact Ensures.ret fun _ _ _ hinv => ⟨0, hinv, rfl⟩

/-- Removing an index whose removal has been decided, whether or not it has been removed since. -/
theorem remove_removing {i : ℕ} {st : σ} (hgone : i ∈ V.gone st) :
    Ensures (removing V n s S T) env (fun _ _ a => a = 0) (remove V.set i) st (0, {i}, 0) := by
  have hmod : i % 64 < 64 := Nat.mod_lt _ (by norm_num)
  unfold remove
  refine Ensures.act fun st' o hrel hinv => ?_
  simp only [word, wordId_eq, wordOffset_eq, pow_zero, Nat.div_one]
  change ∃ a', (removing V n s S T).rel st' (V.set.put ((V.set.get st').clearBit 0 i) st') ∧
    (removing V n s S T).inv (V.set.put ((V.set.get st').clearBit 0 i) st') (a' + o) ∧
    Ensures _ _ _ (if (V.set.get st').load 0 (i / 64) ≠ flag (i % 64) then _ else _) _ a'
  by_cases hset : (V.set.get st').bit 0 i = true
  · have hdebt := handOver_eq_debt n 0 i ((V.set.get st').load 0 (i / 64) = flag (i % 64))
    rw [pow_zero, Nat.div_one, zero_add] at hdebt
    have hnext := RemovalInv.clearLeaf hinv (hrel.2 hgone) hset
    rw [hdebt] at hnext
    refine ⟨(0, 0, if (V.set.get st').load 0 (i / 64) = flag (i % 64) then debt n 1 i else 0),
      removing_put V _ _, ?_, ?_⟩
    · simp only [removing, V.get_put, V.calls_put, V.gone_put]
      change RemovalInv n s S T _ _ _ (0 + o.1, 0 + o.2.1, _ + o.2.2)
      change RemovalInv n s S T _ _ _ (0 + o.1, o.2.1, 0 + o.2.2 + _) at hnext
      rw [zero_add o.2.1, add_comm _ o.2.2]
      rwa [zero_add o.2.2] at hnext
    · split
      · exact Ensures.ret fun _ _ _ hinv => ⟨0, hinv, rfl⟩
      · next hz =>
        rw [if_pos (not_not.mp hz)]
        refine Ensures.read fun st'' o' _ hinv'' => ?_
        have hup : Ensures (removing V n s S T) env (fun _ _ a => a = 0)
            (removeUp V.set i (numLayers n) (0 + 1)) st'' (0, 0, debt n (0 + 1) i) := removeUp_removing V st''
        rw [← show (V.set.get st'').toggle.size = numLayers n from hinv''.settling.size] at hup
        exact hup
  · rw [Bool.not_eq_true] at hset
    have hword : (V.set.get st').load 0 (i / 64) ≠ flag (i % 64) := by
      intro hw
      have hflag : (V.set.get st').bit 0 i = decide (i % 64 = i % 64) := by rw [bit, hw, getLsbD_flag hmod]
      rw [hset] at hflag
      simp at hflag
    rw [if_pos hword, clearBit_of_clear hset]
    refine ⟨0, removing_put V _ _, ?_, Ensures.ret fun _ _ _ hinv => ⟨0, hinv, rfl⟩⟩
    simp only [removing, V.get_put, V.calls_put, V.gone_put]
    have hnext := RemovalInv.settled hinv hset
    change RemovalInv n s S T _ _ _ (0 + o.1, 0 + o.2.1, 0 + o.2.2)
    rw [zero_add o.2.1]
    exact hnext

/-- The root word tells whether the set was empty when the traversal started. -/
theorem empty_removing (h : Represents n s S) (st : σ) :
    Ensures (removing V n s S T) env (fun b _ a => b = decide (S = ∅) ∧ a = ({(numLayers n, 0)}, 0, 0))
      (empty V.set) st ({(numLayers n, 0)}, 0, 0) := by
  have hpos := numLayers_pos n
  have hroot (st : σ) (o : RangeTokens) (hinv : (removing V n s S T).inv st (({(numLayers n, 0)}, 0, 0) + o)) :
      (V.set.get st).load ((V.set.get st).toggle.size - 1) 0 = s.load (numLayers n - 1) 0 := by
    have hfront : RemovalInv n s S T (V.set.get st) (V.calls st) (V.gone st)
        ({(numLayers n - 1 + 1, 0)} + o.1, 0 + o.2) := by
      rw [Nat.sub_add_cancel hpos]
      exact hinv
    rw [hinv.settling.size]
    exact hfront.load_eq h (by omega)
  unfold empty
  refine Ensures.read fun st' o _ hinv => Ensures.read fun st'' o' _ hinv' =>
    Ensures.ret fun _ _ _ hinv'' => ⟨_, hinv'', ?_, rfl⟩
  have hsize : (V.set.get st').toggle.size = (V.set.get st'').toggle.size :=
    hinv.settling.size.trans hinv'.settling.size.symm
  rw [decide_eq_decide, ← h.root_eq_zero, ← hroot st'' o' hinv', ← hsize]
  rfl

/-- Where nothing is to be visited, the front may be dropped. -/
theorem skip_removing {v : α} (hT : T = ∅) {st : σ} {front : Multiset (ℕ × ℕ)} :
    Ensures (removing V n s S T) env (fun _ _ a => a = 0) (ret v) st (front, 0, 0) := by
  subst hT
  refine Ensures.ret fun st' o _ hinv => ⟨0, ⟨hinv.settling, hinv.cleared, fun i => ?_, hinv.goneCalled,
    hinv.kept, hinv.pending⟩, rfl⟩
  simpa using hinv.called i

/-- A traversal that keeps the protocol visits its indices and removes what has been decided. -/
theorem total_removing (h : Represents n s S) {p : Prog σ ι α} {st : σ} (hT : ∀ i ∈ T, i ∈ S)
    (hp : Ensures (removing V n s S T) env (fun _ _ a => a = 0) p st ({(numLayers n, 0)}, 0, 0))
    (hset : V.set.get st = s) (hcalls : V.calls st = []) (hgone : V.gone st = []) :
    Total env (fun _ st' => Represents n (V.set.get st') (S \ (V.gone st').toFinset) ∧
      (V.calls st').Perm (T.sort (· ≤ ·))) p st := by
  have hstart := RemovalInv.start (V := V) h hset hcalls hgone fun i hi => div_numLayers (h.lt (hT i hi))
  refine (hp.total hstart).mono ?_
  rintro _ st' ⟨_, _, hinv, rfl⟩
  exact ⟨RemovalInv.represents hinv h, hinv.called.perm⟩

end Steps

end IndexSet

end ToggleTree
