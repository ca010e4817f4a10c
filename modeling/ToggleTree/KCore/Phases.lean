import ToggleTree.KCore.Share

/-!
# The calls of the parallel phases

Each call is followed on the share of its vertex: the settling of a sampled vertex of which a shard
has run out, the reduction over the sampled vertices when `k` goes up, the loop over them when `k`
goes down again, and the selection of the next frontier.
-/

namespace ToggleTree

open ForkJoin ForkJoin.Prog

namespace KCore

/-- What no call of a phase changes. -/
structure Moved (s₀ s : KCoreState) : Prop where
  place : s.place = s₀.place
  resample : s.resample = s₀.resample
  processed : s.processed = s₀.processed

/-- Moving vertices keeps the edges that are left. -/
theorem Moved.left_eq {s₀ s : KCoreState} (h : Moved s₀ s) (G : CSR) (v : ℕ) : left G s v = left G s₀ v := by
  rw [left, left, h.processed]

/-- A phase with calls for the vertices of `D`, from the state `s₀`: what holds of their shares while
they are worked on and afterwards. The shares of other vertices stay as they are. -/
def phase (S D : Finset ℕ) (s₀ : KCoreState) (Way Done : ℕ → Share → Prop) : Slicing KCoreState ℕ Share where
  slice := share S
  Fixed := Moved s₀
  Way v x := (v ∈ D → Way v x) ∧ (v ∉ D → x = share S s₀ v)
  Done v x := v ∈ D → Done v x

/-- What holds in a phase. -/
structure During (S D : Finset ℕ) (s₀ : KCoreState) (Way : ℕ → Share → Prop) (s : KCoreState) : Prop where
  moved : Moved s₀ s
  way : ∀ v ∈ D, Way v (share S s v)
  other : ∀ v ∉ D, share S s v = share S s₀ v

section Traversals

variable {S D : Finset ℕ} {s₀ s : KCoreState} {Way Done : ℕ → Share → Prop} {env : KCoreCall → KCoreProg Unit}
  {tokens : Multiset (ℕ × Share)} {α : Type}

/-- The invariant of the protocol says where the loop stands. -/
theorem During.of_inv (h : (phase S D s₀ Way Done).Inv s tokens) : During S D s₀ Way s where
  moved := h.fixed
  way v hv := (h.way v).1 hv
  other v hv := (h.way v).2 hv

/-- The tokens of a traversal. -/
theorem phase_start (hway : ∀ v ∈ D, Way v (share S s₀ v)) :
    (phase S D s₀ Way Done).Inv s₀ (∑ v ∈ D, {(v, share S s₀ v)}) :=
  Slicing.Inv.start ⟨rfl, rfl, rfl⟩ (fun v => ⟨hway v, fun _ => rfl⟩) fun _ hv hv' => absurd hv' hv

/-- A traversal, once all of its calls have returned. -/
theorem throughout_phase {p : KCoreProg α} {R : α → Prop} (hway : ∀ v ∈ D, Way v (share S s₀ v))
    (h : Ensures (phase S D s₀ Way Done).protocol env (fun v _ a => R v ∧ a = 0) p s₀
      (∑ v ∈ D, {(v, share S s₀ v)})) :
    Throughout env (During S D s₀ Way)
      (fun v s => R v ∧ During S D s₀ Way s ∧ ∀ v ∈ D, Done v (share S s v)) p s₀ := by
  refine (Throughout.of_ensures h (phase_start hway) fun _ _ hinv => During.of_inv hinv).mono (fun _ h => h) ?_
  rintro v s ⟨_, hinv, hR, rfl⟩
  exact ⟨hR, During.of_inv hinv, fun u hu => hinv.done u (Multiset.notMem_zero u) hu⟩

/-- The rule of a loop of a phase. -/
theorem throughout_parallelEach {f : ℕ → KCoreProg Unit} (hway : ∀ v ∈ D, Way v (share S s₀ v))
    (hf : ∀ v ∈ D, Ensures (phase S D s₀ Way Done).protocol env (fun _ _ a => True ∧ a = 0) (f v) s₀
      {(v, share S s₀ v)}) :
    Throughout env (During S D s₀ Way) (fun _ s => During S D s₀ Way s ∧ ∀ v ∈ D, Done v (share S s v))
      (parallelEach (D.sort (· ≤ ·)) f) s₀ := by
  have h := VertexSet.ensures_parallelEach (Q := fun _ _ => True) D (fun v => {(v, share S s₀ v)})
    (fun _ _ _ _ _ h => h) hf
  refine (throughout_phase (R := fun _ => True) hway (h.mono fun _ _ _ h => ⟨trivial, h.2⟩)).mono
    (fun _ h => h) ?_
  exact fun _ _ h => h.2

end Traversals

section Calls

variable {G : CSR} {workers k : ℕ} {S D : Finset ℕ} {s₀ s : KCoreState} {env : KCoreCall → KCoreProg Unit} {v : ℕ}
  {Way Done : ℕ → Share → Prop} {α : Type} {Q : α → KCoreState → Multiset (ℕ × Share) → Prop} {x : Share}

/-- The sum of the shards is read off the share. -/
theorem ensures_totalRemaining {next : ℤ → KCoreProg α} (hv : v ∈ S)
    (hnext : ∀ s, Ensures (phase S D s₀ Way Done).protocol env Q (next (∑ w ∈ Finset.range workers, x.column w)) s
      {(v, x)}) :
    Ensures (phase S D s₀ Way Done).protocol env Q (totalRemaining workers v >>= next) s {(v, x)} := by
  refine Slicing.look (fun s' _ hx => ?_) hnext
  rw [← hx]
  exact Finset.sum_congr rfl fun w _ => (if_pos hv).symm

/-- A step whose effect on the share is known. -/
theorem ensures_change {β : Type} {act : KCoreState → β × KCoreState} {next : β → KCoreProg α} {g : Share → Share}
    (hv : v ∈ D) (hact : ∀ s, Moved s₀ s → Moved s₀ (act s).2 ∧
      share S (act s).2 = Function.update (share S s) v (g (share S s v)))
    (hway : Way v (g x)) (hnext : ∀ b s, Ensures (phase S D s₀ Way Done).protocol env Q (next b) s {(v, g x)}) :
    Ensures (phase S D s₀ Way Done).protocol env Q (Prog.act act >>= next) s {(v, x)} := by
  refine Slicing.change (fun s' hmoved hx => ?_) ⟨fun _ => hway, fun hnot => absurd hv hnot⟩ hnext
  obtain ⟨hmoved', hshare⟩ := hact s' hmoved
  rw [show share S s' v = x from hx] at hshare
  exact ⟨hmoved', hshare⟩

/-- Where a sampled vertex is kept: its shards are positive and sum up to what is left above `k`. -/
def Counted (workers : ℕ) (remaining : ℤ) (column : ℕ → ℤ) : Prop :=
  (∀ w < workers, 0 < column w) ∧ ∑ w ∈ Finset.range workers, column w = remaining

/-- Something remains of a vertex that is counted. -/
theorem Counted.pos {remaining : ℤ} {column : ℕ → ℤ} (h : Counted workers remaining column) (hw : 0 < workers) :
    0 < remaining := by
  rw [← h.2]
  exact Finset.sum_pos (fun w hmem => h.1 w (Finset.mem_range.mp hmem)) ⟨0, Finset.mem_range.mpr hw⟩

/-- Shared out counters are counted. -/
theorem counted_parts {remaining : ℤ} {column : ℕ → ℤ} (hw : 0 < workers) (hmax : workers ≤ 8192)
    (h : (sampleThreshold workers : ℤ) < remaining) :
    Counted workers remaining (parts workers remaining column) := by
  have hle : (workers : ℤ) ≤ remaining :=
    le_trans (by exact_mod_cast workers_le_sampleThreshold hmax) h.le
  have hbound : workers ≤ 2 ^ 64 := hmax.trans (by norm_num)
  exact ⟨fun w hlt => parts_pos hw hbound hle hlt, sum_parts hw hbound ((Int.natCast_nonneg workers).trans hle)⟩

section Settle

/-- A vertex that leaves `sample_mode` gets its count. -/
def SettleWay (G : CSR) (k : ℕ) (s₀ : KCoreState) (v : ℕ) (x : Share) : Prop :=
  x.sampled = false → x.coreness = max k (left G s₀ v)

/-- The vertex is still counted in shards, or has left `sample_mode` with its count, or is to be peeled. -/
inductive SettleDone (G : CSR) (workers k : ℕ) (S : Finset ℕ) (s₀ : KCoreState) (v : ℕ) : Share → Prop
  | kept (column : ℕ → ℤ) (hcolumn : Counted workers ((left G s₀ v : ℤ) - k) column) :
      SettleDone G workers k S s₀ v { share S s₀ v with column := column }
  | counted (hleft : k < left G s₀ v) :
      SettleDone G workers k S s₀ v { share S s₀ v with coreness := left G s₀ v, sampled := false }
  | peeled (hleft : left G s₀ v ≤ k) :
      SettleDone G workers k S s₀ v
        { share S s₀ v with coreness := k, sampled := false, active := false, next := true }

/-- A vertex of the sample is settled. -/
theorem ensures_settleSample (hw : 0 < workers) (hmax : workers ≤ 8192) (hinj : Set.InjOn s₀.place S) (hv : v ∈ S)
    (hv' : v ∈ D) (hsampled : (share S s₀ v).sampled = true) (hlt : left G s₀ v < 2 ^ 32) (hk : k < 2 ^ 32)
    (hsum : ∑ w ∈ Finset.range workers, (share S s₀ v).column w = (left G s₀ v : ℤ) - k) :
    Ensures (phase S D s₀ (SettleWay G k s₀) (SettleDone G workers k S s₀)).protocol env
      (fun _ _ a => True ∧ a = 0) (settleSample workers k v) s {(v, share S s₀ v)} := by
  unfold settleSample
  refine ensures_totalRemaining hv fun s₁ => ?_
  rw [hsum]
  by_cases hlarge : (sampleThreshold workers : ℤ) < (left G s₀ v : ℤ) - k
  · rw [if_pos hlarge, ← bind_ret (Prog.modify _)]
    refine ensures_change (g := fun x => { x with column := parts workers ((left G s₀ v : ℤ) - k) x.column }) hv'
      (fun s' h => ⟨⟨h.place, h.resample, h.processed⟩, share_distribute (h.place ▸ hinj) hv⟩) (fun hfalse => ?_)
      fun _ s₂ => ?_
    · exact absurd (hsampled.symm.trans hfalse) Bool.noConfusion
    · exact Slicing.ret (fun _ => SettleDone.kept _ (counted_parts hw hmax hlarge)) trivial
  · rw [if_neg hlarge]
    have hcount : (max (k : ℤ) ((left G s₀ v : ℤ) - k + k) % 2 ^ 32).toNat = max k (left G s₀ v) := by
      rw [sub_add_cancel, ← Nat.cast_max, Int.emod_eq_of_lt (Int.natCast_nonneg _) (by omega), Int.toNat_natCast]
    rw [hcount]
    refine ensures_change (g := fun x => { x with coreness := max k (left G s₀ v) }) hv'
      (fun s' h => ⟨⟨h.place, h.resample, h.processed⟩, share_putCoreness⟩) (fun _ => rfl) fun _ s₂ => ?_
    refine ensures_change (g := fun x => { x with sampled := false }) hv'
      (fun s' h => ⟨⟨h.place, h.resample, h.processed⟩, share_eraseSampleMode⟩) (fun _ => rfl) fun _ s₃ => ?_
    by_cases hleft : left G s₀ v ≤ k
    · rw [if_pos (by omega), max_eq_left hleft]
      refine ensures_change (g := fun x => { x with active := false }) hv'
        (fun s' h => ⟨⟨h.place, h.resample, h.processed⟩, share_eraseActive⟩) (fun _ => (max_eq_left hleft).symm)
        fun _ s₄ => ?_
      refine ensures_change (g := fun x => { x with next := true }) hv'
        (fun s' h => ⟨⟨h.place, h.resample, h.processed⟩, share_insertNext⟩) (fun _ => (max_eq_left hleft).symm)
        fun _ s₅ => ?_
      exact Slicing.ret (fun _ => SettleDone.peeled hleft) trivial
    · rw [if_neg (by omega), max_eq_right (by omega)]
      exact Slicing.ret (fun _ => SettleDone.counted (not_le.mp hleft)) trivial

end Settle

section Lower

/-- A vertex that leaves `sample_mode` gets its count. -/
def LowerWay (G : CSR) (s₀ : KCoreState) (v : ℕ) (x : Share) : Prop :=
  x.sampled = false → x.coreness = left G s₀ v

/-- The vertex is still counted in shards, above the new `k`, or has left `sample_mode`. -/
inductive LowerDone (G : CSR) (workers k : ℕ) (S : Finset ℕ) (s₀ : KCoreState) (v : ℕ) : Share → Prop
  | kept (column : ℕ → ℤ) (hcolumn : Counted workers ((left G s₀ v : ℤ) - k) column) :
      LowerDone G workers k S s₀ v { share S s₀ v with column := column }
  | counted (column : ℕ → ℤ) :
      LowerDone G workers k S s₀ v
        { share S s₀ v with column := column, coreness := left G s₀ v, sampled := false }

/-- A worker changes its shard. -/
theorem ensures_setShard {next : Unit → KCoreProg α} {w : ℕ} (delta : ℤ)
    (hinj : Set.InjOn s₀.place S) (hv : v ∈ S)
    (hv' : v ∈ D) (hway : Way v { x with column := Function.update x.column w (x.column w + delta) })
    (hnext : ∀ s, Ensures (phase S D s₀ Way Done).protocol env Q (next ()) s
      {(v, { x with column := Function.update x.column w (x.column w + delta) })}) :
    Ensures (phase S D s₀ Way Done).protocol env Q
      ((modify fun s => setShard w (s.place v) (s.shards w (s.place v) + delta) s) >>= next) s {(v, x)} := by
  refine ensures_change (g := fun x => { x with column := Function.update x.column w (x.column w + delta) }) hv'
    (fun s' h => ⟨⟨h.place, h.resample, h.processed⟩, ?_⟩) hway fun _ s₁ => hnext s₁
  have hcolumn : (share S s' v).column w = s'.shards w (s'.place v) := if_pos hv
  rw [hcolumn]
  exact share_setShard (h.place ▸ hinj) hv

/-- The sum of the shards when one has changed. -/
theorem sum_update_column {column : ℕ → ℤ} {w : ℕ} {delta : ℤ} (hw : w < workers) :
    ∑ w' ∈ Finset.range workers, Function.update column w (column w + delta) w' =
      ∑ w' ∈ Finset.range workers, column w' + delta := by
  rw [Finset.sum_update_of_mem (Finset.mem_range.mpr hw),
    ← Finset.add_sum_erase _ column (Finset.mem_range.mpr hw), Finset.sdiff_singleton_eq_erase]
  ring

variable {k₀ delta : ℕ}

/-- The counters of a vertex of the sample are lowered. -/
theorem ensures_lowerSample (hw : 0 < workers) (hmax : workers ≤ 8192) (hinj : Set.InjOn s₀.place S) (hv : v ∈ S)
    (hsampled : (share S s₀ v).sampled = true) (hlt : left G s₀ v < 2 ^ 32) (hk : k = k₀ + delta)
    (hcounted : Counted workers ((left G s₀ v : ℤ) - k₀) (share S s₀ v).column) :
    Ensures (phase S S s₀ (LowerWay G s₀) (LowerDone G workers k S s₀)).protocol env
      (fun value _ a => value = max 0 ((k : ℤ) - left G s₀ v) ∧ a = 0)
      (lowerSample workers k delta v) s {(v, share S s₀ v)} := by
  have hfalse {P : Prop} (h : (share S s₀ v).sampled = false) : P :=
    absurd (hsampled.symm.trans h) Bool.noConfusion
  unfold lowerSample workerId
  refine Ensures.pick fun b => ?_
  have hb : b % workers < workers := Nat.mod_lt b hw
  have hsum : ∑ w ∈ Finset.range workers, Function.update (share S s₀ v).column (b % workers)
      ((share S s₀ v).column (b % workers) + -(delta : ℤ)) w = (left G s₀ v : ℤ) - k₀ + -(delta : ℤ) := by
    rw [sum_update_column hb, hcounted.2]
  refine ensures_setShard (-(delta : ℤ)) hinj hv hv (fun h => hfalse h) fun s₁ => ?_
  refine Slicing.look (c := (share S s₀ v).column (b % workers) - delta) (fun s' _ hx => ?_) fun s₂ => ?_
  · have hcolumn : (share S s' v).column (b % workers) = s'.shards (b % workers) (s'.place v) := if_pos hv
    rw [← hcolumn, show share S s' v = _ from hx]
    exact Function.update_self _ _ _
  · by_cases hleft : (share S s₀ v).column (b % workers) - delta ≤ 0
    · rw [if_pos hleft]
      refine ensures_totalRemaining hv fun s₃ => ?_
      dsimp only
      rw [hsum]
      by_cases hlarge : (sampleThreshold workers : ℤ) < (left G s₀ v : ℤ) - k₀ + -(delta : ℤ)
      · rw [if_pos hlarge]
        have hremaining : (left G s₀ v : ℤ) - k₀ + -(delta : ℤ) = (left G s₀ v : ℤ) - k := by
          rw [hk]
          push_cast
          ring
        rw [hremaining] at hlarge ⊢
        refine ensures_change
          (g := fun x => { x with column := parts workers ((left G s₀ v : ℤ) - k) x.column }) hv
          (fun s' h => ⟨⟨h.place, h.resample, h.processed⟩, share_distribute (h.place ▸ hinj) hv⟩)
          (fun h => hfalse h) fun _ s₄ => ?_
        refine Slicing.ret (fun _ => LowerDone.kept _ (counted_parts hw hmax hlarge)) ?_
        exact (max_eq_left (by omega)).symm
      · rw [if_neg hlarge]
        have hcount : (((left G s₀ v : ℤ) - k₀ + -(delta : ℤ) + k) % 2 ^ 32).toNat = left G s₀ v := by
          rw [hk]
          push_cast
          rw [show (left G s₀ v : ℤ) - k₀ + -(delta : ℤ) + (k₀ + delta) = left G s₀ v by ring,
            Int.emod_eq_of_lt (Int.natCast_nonneg _) (by omega), Int.toNat_natCast]
        rw [hcount]
        refine ensures_change (g := fun x => { x with coreness := left G s₀ v }) hv
          (fun s' h => ⟨⟨h.place, h.resample, h.processed⟩, share_putCoreness⟩) (fun _ => rfl) fun _ s₄ => ?_
        refine ensures_change (g := fun x => { x with sampled := false }) hv
          (fun s' h => ⟨⟨h.place, h.resample, h.processed⟩, share_eraseSampleMode⟩) (fun _ => rfl) fun _ s₅ => ?_
        refine Slicing.ret (fun _ => LowerDone.counted _) ?_
        split <;> omega
    · rw [if_neg hleft]
      have hcounted' : Counted workers ((left G s₀ v : ℤ) - k)
        (Function.update (share S s₀ v).column (b % workers)
          ((share S s₀ v).column (b % workers) + -(delta : ℤ))) := by
        refine ⟨fun w hlt => ?_, ?_⟩
        · by_cases heq : w = b % workers
          · rw [heq, Function.update_self]
            omega
          · rw [Function.update_of_ne heq]
            exact hcounted.1 w hlt
        · rw [hsum, hk]
          push_cast
          ring
      refine Slicing.ret (fun _ => LowerDone.kept _ hcounted') ?_
      have hpos := hcounted'.pos hw
      exact (max_eq_left (by omega)).symm

end Lower

section Raise

/-- Nothing but the shards changes. -/
def RaiseWay (S : Finset ℕ) (s₀ : KCoreState) (v : ℕ) (x : Share) : Prop :=
  ∃ column, x = { share S s₀ v with column := column }

/-- What raising leaves of a vertex of the sample. -/
def RaiseDone (workers : ℕ) (remaining : ℕ → ℤ) (S : Finset ℕ) (s₀ : KCoreState) (v : ℕ) (x : Share) : Prop :=
  ∃ column, x = { share S s₀ v with column := column } ∧ Counted workers (remaining v) column

/-- The counters of a vertex of the sample are raised. -/
theorem ensures_raiseSample {remaining : ℕ → ℤ} {down : ℤ} (hw : 0 < workers)
    (hinj : Set.InjOn s₀.place S) (hv : v ∈ S)
    (hdown : 0 ≤ down) (hcounted : Counted workers (remaining v - down) (share S s₀ v).column) :
    Ensures (phase S S s₀ (RaiseWay S s₀) (RaiseDone workers remaining S s₀)).protocol env
      (fun _ _ a => True ∧ a = 0) (raiseSample workers down v) s {(v, share S s₀ v)} := by
  unfold raiseSample workerId
  refine Ensures.pick fun b => ?_
  have hb : b % workers < workers := Nat.mod_lt b hw
  have hraised : Counted workers (remaining v)
      (Function.update (share S s₀ v).column (b % workers) ((share S s₀ v).column (b % workers) + down)) := by
    refine ⟨fun w hlt => ?_, ?_⟩
    · have hpos := hcounted.1 w hlt
      by_cases heq : w = b % workers
      · rw [heq, Function.update_self]
        rw [heq] at hpos
        omega
      · rw [Function.update_of_ne heq]
        exact hpos
    · rw [sum_update_column hb, hcounted.2, sub_add_cancel]
  change Ensures _ _ _
    ((modify fun s => setShard (b % workers) (s.place v) (s.shards (b % workers) (s.place v) + down) s)
    >>= Prog.ret) s _
  refine ensures_setShard down hinj hv hv ⟨_, rfl⟩ fun s₁ => ?_
  exact Slicing.ret (fun _ => ⟨_, rfl, hraised⟩) trivial

end Raise

section Select

/-- The share of a vertex that has been selected, or not. -/
def selected (k : ℕ) (x : Share) : Share :=
  if x.coreness = k then { x with frontier := true, active := false } else x

/-- The vertex stays in `sample_mode` if it was there. -/
def SelectWay (S : Finset ℕ) (s₀ : KCoreState) (v : ℕ) (x : Share) : Prop := x.sampled = (share S s₀ v).sampled

/-- A vertex is selected. -/
theorem ensures_selectVertex (hv : v ∈ D) :
    Ensures (phase S D s₀ (SelectWay S s₀) fun v x => x = selected k (share S s₀ v)).protocol env
      (fun _ _ a => True ∧ a = 0) (selectVertex k v) s {(v, share S s₀ v)} := by
  unfold selectVertex
  refine Slicing.look (c := (share S s₀ v).coreness) (fun s' _ hx => ?_) fun s₁ => ?_
  · rw [← hx]
    rfl
  · by_cases hk : (share S s₀ v).coreness = k
    · rw [if_pos hk]
      refine ensures_change (g := fun x => { x with frontier := true }) hv
        (fun s' h => ⟨⟨h.place, h.resample, h.processed⟩, share_insertFrontier⟩) rfl fun _ s₂ => ?_
      refine ensures_change (g := fun x => { x with active := false }) hv
        (fun s' h => ⟨⟨h.place, h.resample, h.processed⟩, share_eraseActive⟩) rfl fun _ s₃ => ?_
      exact Slicing.ret (fun _ => (if_pos hk).symm) trivial
    · rw [if_neg hk]
      exact Slicing.ret (fun _ => (if_neg hk).symm) trivial

end Select

section Start

/-- The share of a vertex of degree `d` when the counts have been initialised. -/
def counted (d : ℕ) (x : Share) : Share :=
  if d = 0 then { x with coreness := 0, active := false } else { x with coreness := d }

/-- A vertex is initialised. -/
theorem ensures_initVertex (hv : v ∈ D) (hdegree : G.degree v < 2 ^ 32) :
    Ensures (phase ∅ D s₀ (fun _ _ => True) fun v x => x = counted (G.degree v) (share ∅ s₀ v)).protocol env
      (fun _ _ a => True ∧ a = 0) (initVertex G v) s {(v, share ∅ s₀ v)} := by
  unfold initVertex
  rw [Nat.mod_eq_of_lt hdegree]
  refine ensures_change (g := fun x => { x with coreness := G.degree v }) hv
    (fun s' h => ⟨⟨h.place, h.resample, h.processed⟩, share_putCoreness⟩) trivial fun _ s₁ => ?_
  refine Slicing.look (c := G.degree v) (fun s' _ hx => ?_) fun s₂ => ?_
  · exact congrArg Share.coreness hx
  · by_cases hzero : G.degree v = 0
    · rw [if_pos hzero]
      refine ensures_change (g := fun x => { x with active := false }) hv
        (fun s' h => ⟨⟨h.place, h.resample, h.processed⟩, share_eraseActive⟩) trivial fun _ s₃ => ?_
      refine Slicing.ret (fun _ => ?_) trivial
      dsimp only
      rw [counted, if_pos hzero, hzero]
    · rw [if_neg hzero]
      exact Slicing.ret (fun _ => (if_neg hzero).symm) trivial

end Start

end Calls

end KCore

end ToggleTree
