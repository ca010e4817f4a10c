import ToggleTree.GraphFile.Offsets

/-!
# Filling gaps concurrently

The iterations of the loop that fills the gaps read offsets that other iterations are about to
write. Here every access to an offset is a step of its own, and the steps of the iterations come in
any order. The counters `u` and `v` have 32 bits and the bound has 64, so with `2 ^ 32 - 1`
vertices the counter never passes the bound.
-/

namespace ToggleTree

open Checked StableRank

namespace GraphFile

section Machine

/-- Where an iteration stands. -/
inductive Filling where
  | entered
  | scanning (v : ℕ)
  | storing (r : ℕ)
  | returned
  deriving DecidableEq

/-- The offsets, and where the iterations stand. -/
structure FillState where
  offsets : Array ℕ
  phase : ℕ → Filling

/-- The vertex of iteration `i`. -/
def vertexOf (n i : ℕ) : ℕ := (n - i) % 2 ^ 32

/-- The next step of iteration `i`. -/
def fillStep (n m : ℕ) (s : FillState) (i : ℕ) : Option FillState :=
  match s.phase i with
  | .entered => do
    let x ← s.offsets[vertexOf n i]?
    let next := if x ≠ m then Filling.returned else Filling.scanning ((vertexOf n i + 1) % 2 ^ 32)
    some { s with phase := Function.update s.phase i next }
  | .scanning v =>
    if v ≤ n then do
      let r ← s.offsets[v]?
      let next := if r ≠ m then Filling.storing r else Filling.scanning ((v + 1) % 2 ^ 32)
      some { s with phase := Function.update s.phase i next }
    else some { s with phase := Function.update s.phase i .returned }
  | .storing r => do
    let offsets ← write s.offsets (vertexOf n i) r
    some ⟨offsets, Function.update s.phase i .returned⟩
  | .returned => some s

/-- The steps of the iterations in some order. -/
def runFill (n m : ℕ) (order : List ℕ) (s : FillState) : Option FillState := order.foldlM (fillStep n m) s

/-- No iteration has started. -/
def startFill (offsets : Array ℕ) : FillState := ⟨offsets, fun _ => .entered⟩

end Machine

section Spec

variable {n m : ℕ} {o : ℕ → ℕ}

/-- The offsets before the loop: the first positions of the lists that are not empty, and `m`. -/
structure Recorded (n m : ℕ) (o : ℕ → ℕ) : Prop where
  le : ∀ u ≤ n, o u ≤ m
  last : o n = m
  lt : ∀ u v, u < v → v ≤ n → o u ≠ m → o v ≠ m → o u < o v

/-- The smallest offset that is recorded for a vertex from `u` on, or `m`. -/
def Expected (n m : ℕ) (o : ℕ → ℕ) (u x : ℕ) : Prop :=
  IsLeast ({y | ∃ v, u ≤ v ∧ v ≤ n ∧ o v ≠ m ∧ o v = y} ∪ {m}) x

/-- What has to hold after some steps of the iterations. -/
structure FillsSafely (n m : ℕ) (o : ℕ → ℕ) (order : List ℕ) (s : FillState) : Prop where
  size : s.offsets.size = n + 1
  /-- Only offsets behind that of the iteration are read. -/
  reads : ∀ i ≤ n, ∀ v, s.phase i = .scanning v → v ≤ n → n - i < v
  /-- An iteration returns after a bounded number of its steps. -/
  returns : ∀ i ≤ n, i + 4 ≤ order.count i → s.phase i = .returned
  /-- An iteration that has returned leaves the right offset. -/
  fills : ∀ i ≤ n, s.phase i = .returned → ∃ x, s.offsets[n - i]? = some x ∧ Expected n m o (n - i) x

/-- The loop fills the gaps in every order of the steps. -/
def BackFills (n m : ℕ) (offsets : Array ℕ) (o : ℕ → ℕ) : Prop :=
  ∀ order : List ℕ, (∀ i ∈ order, i ≤ n) → ∃ s, runFill n m order (startFill offsets) = some s ∧
    FillsSafely n m o order s

namespace Expected

variable {u v x y : ℕ}

/-- The expected value is unique. -/
theorem unique (hx : Expected n m o u x) (hy : Expected n m o u y) : x = y := IsLeast.unique hx hy

/-- A recorded offset is expected. -/
theorem of_recorded (h : Recorded n m o) (hu : u ≤ n) (hne : o u ≠ m) : Expected n m o u (o u) := by
  refine ⟨Or.inl ⟨u, le_rfl, hu, hne, rfl⟩, ?_⟩
  rintro y (⟨v, huv, hv, hne', rfl⟩ | rfl)
  · rcases Nat.eq_or_lt_of_le huv with rfl | hlt
    · exact le_rfl
    · exact (h.lt u v hlt hv hne hne').le
  · exact h.le u hu

/-- Empty lists in between do not matter. -/
theorem skip (hx : Expected n m o v x) (huv : u ≤ v) (hempty : ∀ w, u ≤ w → w < v → o w = m) :
    Expected n m o u x := by
  refine ⟨hx.1.imp_left fun ⟨w, hw, hwn, hne, heq⟩ => ⟨w, huv.trans hw, hwn, hne, heq⟩, ?_⟩
  rintro y (⟨w, huw, hw, hne, rfl⟩ | rfl)
  · refine hx.2 (Or.inl ⟨w, ?_, hw, hne, rfl⟩)
    by_contra hlt
    exact hne (hempty w huw (by omega))
  · exact hx.2 (Or.inr rfl)

/-- Without recorded offsets to the right the number of edges is expected. -/
theorem of_empty (hempty : ∀ w, u ≤ w → w ≤ n → o w = m) : Expected n m o u m := by
  refine ⟨Or.inr rfl, ?_⟩
  rintro y (⟨w, huw, hw, hne, -⟩ | rfl)
  · exact absurd (hempty w huw hw) hne
  · exact le_rfl

end Expected

end Spec

section Invariant

variable {n m : ℕ} {o : ℕ → ℕ} {s s' : FillState} {i : ℕ}

/-- What an iteration knows. -/
def PhaseOk (n m : ℕ) (o h : ℕ → ℕ) (i : ℕ) : Filling → Prop
  | .entered => True
  | .scanning v => n - i < v ∧ v ≤ n + 1 ∧ ∀ w, n - i ≤ w → w < v → o w = m
  | .storing r => Expected n m o (n - i) r
  | .returned => Expected n m o (n - i) (h (n - i))

/-- The steps that an iteration still takes at most. -/
def stepsLeft (n i : ℕ) : Filling → ℕ
  | .entered => i + 4
  | .scanning v => n + 1 - v + 2
  | .storing _ => 1
  | .returned => 0

/-- Every offset is the right one or still unset. -/
structure FillInv (n m : ℕ) (o : ℕ → ℕ) (order : List ℕ) (s : FillState) (h : ℕ → ℕ) : Prop where
  contents : Contents s.offsets (n + 1) h
  right : ∀ u ≤ n, Expected n m o u (h u) ∨ h u = m ∧ o u = m
  phase : ∀ i ≤ n, PhaseOk n m o h i (s.phase i)
  left : ∀ i ≤ n, s.phase i = .returned ∨ stepsLeft n i (s.phase i) + order.count i ≤ i + 4

/-- The invariant holds at the start. -/
theorem FillInv.start {offsets : Array ℕ} (hrecorded : Recorded n m o) (hoffsets : Contents offsets (n + 1) o) :
    FillInv n m o [] (startFill offsets) o := by
  refine ⟨hoffsets, fun u hu => ?_, fun i _ => trivial, fun i _ => Or.inr ?_⟩
  · by_cases hne : o u = m
    · exact Or.inr ⟨hne, hne⟩
    · exact Or.inl (Expected.of_recorded hrecorded hu hne)
  · rw [List.count_nil]
    exact le_rfl

/-- The vertex of an iteration does not wrap around below the limit. -/
theorem vertexOf_eq (hn : n < 2 ^ 32 - 1) (i : ℕ) : vertexOf n i = n - i := Nat.mod_eq_of_lt (by omega)

/-- An unset offset belongs to an empty list. -/
theorem FillInv.empty_of_unset {order : List ℕ} {h : ℕ → ℕ} (hinv : FillInv n m o order s h)
    (hrecorded : Recorded n m o) {u : ℕ} (hu : u ≤ n) (hunset : h u = m) : o u = m := by
  by_contra hne
  rcases hinv.right u hu with hexpected | ⟨-, hempty⟩
  · exact hne ((Expected.of_recorded hrecorded hu hne).unique hexpected |>.trans hunset)
  · exact hne hempty

/-- What has been written is expected. -/
theorem FillInv.expected_of_set {order : List ℕ} {h : ℕ → ℕ} (hinv : FillInv n m o order s h) {u : ℕ} (hu : u ≤ n)
    (hset : h u ≠ m) : Expected n m o u (h u) :=
  (hinv.right u hu).resolve_right fun hunset => hset hunset.1

/-- A step of one iteration leaves the others as many steps as they had. -/
theorem FillInv.left_of_ne {order : List ℕ} {h : ℕ → ℕ} (hinv : FillInv n m o order s h) {j : ℕ} (hj : j ≤ n)
    (hji : j ≠ i) : s.phase j = .returned ∨ stepsLeft n j (s.phase j) + (order ++ [i]).count j ≤ j + 4 := by
  rw [List.count_append, List.count_singleton, if_neg (by simpa using fun h => hji h.symm)]
  exact hinv.left j hj

/-- An iteration moves on and no offset changes. -/
theorem FillInv.goto {order : List ℕ} {h : ℕ → ℕ} (hinv : FillInv n m o order s h) {next : Filling}
    (hphase : PhaseOk n m o h i next)
    (hleft : next = .returned ∨ stepsLeft n i next + 1 ≤ stepsLeft n i (s.phase i))
    (hne : s.phase i ≠ .returned) :
    FillInv n m o (order ++ [i]) { s with phase := Function.update s.phase i next } h := by
  refine ⟨hinv.contents, hinv.right, fun j hj => ?_, fun j hj => ?_⟩ <;> dsimp only
  · by_cases hji : j = i
    · rw [hji, Function.update_self]
      exact hphase
    · rw [Function.update_of_ne hji]
      exact hinv.phase j hj
  · by_cases hji : j = i
    · subst hji
      rw [Function.update_self, List.count_append, List.count_singleton_self]
      refine hleft.imp_right fun hlt => ?_
      have := (hinv.left j hj).resolve_left hne
      omega
    · rw [Function.update_of_ne hji]
      exact hinv.left_of_ne hj hji

/-- The first step of an iteration reads its own offset. -/
theorem FillInv.enter {order : List ℕ} {h : ℕ → ℕ} (hinv : FillInv n m o order s h) (hrecorded : Recorded n m o)
    (hn : n < 2 ^ 32 - 1) (hi : i ≤ n) (hat : s.phase i = .entered) :
    ∃ s', fillStep n m s i = some s' ∧ ∃ h', FillInv n m o (order ++ [i]) s' h' := by
  unfold fillStep
  rw [vertexOf_eq hn, hat]
  dsimp only
  rw [hinv.contents.get (n - i) (by omega)]
  refine ⟨_, rfl, h, hinv.goto ?_ ?_ (by rw [hat]; exact Filling.noConfusion)⟩
  · split
    · rename_i hset
      exact hinv.expected_of_set (by omega) hset
    · rename_i hunset
      rw [Nat.mod_eq_of_lt (by omega)]
      refine ⟨Nat.lt_succ_self _, by omega, fun w hw hw' => ?_⟩
      obtain rfl : w = n - i := by omega
      exact hinv.empty_of_unset hrecorded (by omega) (not_not.mp hunset)
  · split
    · exact Or.inl rfl
    · rw [hat, Nat.mod_eq_of_lt (by omega)]
      refine Or.inr ?_
      change n + 1 - (n - i + 1) + 2 + 1 ≤ i + 4
      omega

/-- A step of the scan reads an offset behind that of the iteration, or ends the scan. -/
theorem FillInv.scan {order : List ℕ} {h : ℕ → ℕ} (hinv : FillInv n m o order s h) (hrecorded : Recorded n m o)
    (hn : n < 2 ^ 32 - 1) (hi : i ≤ n) {v : ℕ} (hat : s.phase i = .scanning v) :
    ∃ s', fillStep n m s i = some s' ∧ ∃ h', FillInv n m o (order ++ [i]) s' h' := by
  have hphase := hinv.phase i hi
  rw [hat] at hphase
  obtain ⟨hlt, hle, hempty⟩ := hphase
  have hmoves : s.phase i ≠ .returned := by rw [hat]; exact Filling.noConfusion
  unfold fillStep
  rw [hat]
  dsimp only
  by_cases hv : v ≤ n
  · rw [if_pos hv, hinv.contents.get v (by omega)]
    refine ⟨_, rfl, h, hinv.goto ?_ (Or.inr ?_) hmoves⟩
    · split
      · rename_i hset
        exact (hinv.expected_of_set hv hset).skip hlt.le hempty
      · rename_i hunset
        rw [Nat.mod_eq_of_lt (by omega)]
        refine ⟨by omega, by omega, fun w hw hw' => ?_⟩
        by_cases hwv : w < v
        · exact hempty w hw hwv
        · obtain rfl : w = v := by omega
          exact hinv.empty_of_unset hrecorded hv (not_not.mp hunset)
    · rw [hat]
      split
      · change 1 + 1 ≤ n + 1 - v + 2
        omega
      · rw [Nat.mod_eq_of_lt (by omega)]
        change n + 1 - (v + 1) + 2 + 1 ≤ n + 1 - v + 2
        omega
  · rw [if_neg hv]
    refine ⟨_, rfl, h, hinv.goto ?_ (Or.inl rfl) hmoves⟩
    have hend : Expected n m o (n - i) m := Expected.of_empty fun w hw hw' => hempty w hw (by omega)
    rcases hinv.right (n - i) (by omega) with hexpected | ⟨hunset, -⟩
    · exact hexpected
    · change Expected n m o (n - i) (h (n - i))
      rw [hunset]
      exact hend

/-- What an iteration knows does not depend on the offsets of other vertices. -/
theorem PhaseOk.update {h : ℕ → ℕ} {j : ℕ} {filling : Filling} (hok : PhaseOk n m o h j filling)
    (hne : n - j ≠ n - i) (r : ℕ) : PhaseOk n m o (Function.update h (n - i) r) j filling := by
  cases filling with
  | returned =>
    change Expected n m o (n - j) (Function.update h (n - i) r (n - j))
    rwa [Function.update_of_ne hne]
  | entered => trivial
  | scanning v => exact hok
  | storing r => exact hok

/-- The last step of an iteration stores what it has found. -/
theorem FillInv.store {order : List ℕ} {h : ℕ → ℕ} (hinv : FillInv n m o order s h)
    (hn : n < 2 ^ 32 - 1) (hi : i ≤ n) {r : ℕ} (hat : s.phase i = .storing r) :
    ∃ s', fillStep n m s i = some s' ∧ ∃ h', FillInv n m o (order ++ [i]) s' h' := by
  have hphase := hinv.phase i hi
  rw [hat] at hphase
  obtain ⟨offsets, hwrite, hh⟩ := hinv.contents.write (i := n - i) (by omega) r
  unfold fillStep
  rw [vertexOf_eq hn, hat]
  dsimp only
  rw [hwrite]
  refine ⟨_, rfl, Function.update h (n - i) r, hh, fun u hu => ?_, fun j hj => ?_, fun j hj => ?_⟩
  · by_cases hui : u = n - i
    · rw [hui, Function.update_self]
      exact Or.inl hphase
    · rw [Function.update_of_ne hui]
      exact hinv.right u hu
  · dsimp only
    by_cases hji : j = i
    · subst hji
      rw [Function.update_self]
      change Expected n m o (n - j) (Function.update h (n - j) r (n - j))
      rw [Function.update_self]
      exact hphase
    · rw [Function.update_of_ne hji]
      exact (hinv.phase j hj).update (by omega) r
  · dsimp only
    by_cases hji : j = i
    · exact Or.inl (by rw [hji]; exact Function.update_self ..)
    · rw [Function.update_of_ne hji]
      exact hinv.left_of_ne hj hji

/-- One step of an iteration. -/
theorem FillInv.step {order : List ℕ} {h : ℕ → ℕ} (hinv : FillInv n m o order s h) (hrecorded : Recorded n m o)
    (hn : n < 2 ^ 32 - 1) (hi : i ≤ n) :
    ∃ s', fillStep n m s i = some s' ∧ ∃ h', FillInv n m o (order ++ [i]) s' h' := by
  cases hat : s.phase i with
  | entered => exact hinv.enter hrecorded hn hi hat
  | scanning v => exact hinv.scan hrecorded hn hi hat
  | storing r => exact hinv.store hn hi hat
  | returned =>
    unfold fillStep
    rw [hat]
    refine ⟨s, rfl, h, hinv.contents, hinv.right, hinv.phase, fun j hj => ?_⟩
    by_cases hji : j = i
    · exact Or.inl (hji ▸ hat)
    · exact hinv.left_of_ne hj hji

/-- Every run of the iterations keeps the invariant. -/
theorem FillInv.run {offsets : Array ℕ} (hrecorded : Recorded n m o) (hoffsets : Contents offsets (n + 1) o)
    (hn : n < 2 ^ 32 - 1) (order : List ℕ) (horder : ∀ i ∈ order, i ≤ n) :
    ∃ s, runFill n m order (startFill offsets) = some s ∧ ∃ h, FillInv n m o order s h := by
  induction order using List.reverseRecOn with
  | nil => exact ⟨_, rfl, o, FillInv.start hrecorded hoffsets⟩
  | append_singleton order i ih =>
    obtain ⟨s, hrun, h, hinv⟩ := ih fun j hj => horder j (List.mem_append_left _ hj)
    obtain ⟨s', hstep, h', hinv'⟩ :=
      hinv.step hrecorded hn (horder i (List.mem_append_right _ List.mem_cons_self))
    refine ⟨s', ?_, h', hinv'⟩
    unfold runFill at hrun ⊢
    rw [List.foldlM_append, hrun]
    exact (bind_eq_of_eq hstep _)

/-- The invariant makes a run safe. -/
theorem FillInv.safe {order : List ℕ} {h : ℕ → ℕ} (hinv : FillInv n m o order s h) :
    FillsSafely n m o order s := by
  refine ⟨hinv.contents.size, fun i hi v hat hv => ?_, fun i hi hcount => ?_,
    fun i hi hat => ⟨h (n - i), hinv.contents.get _ (by omega), ?_⟩⟩
  · have hphase := hinv.phase i hi
    rw [hat] at hphase
    exact hphase.1
  · rcases hinv.left i hi with hat | hle
    · exact hat
    · have hzero : stepsLeft n i (s.phase i) = 0 := by omega
      cases hat : s.phase i with
      | returned => rfl
      | entered => rw [hat] at hzero; change i + 4 = 0 at hzero; omega
      | scanning v => rw [hat] at hzero; change n + 1 - v + 2 = 0 at hzero; omega
      | storing r => rw [hat] at hzero; exact absurd hzero Nat.one_ne_zero
  · have hphase := hinv.phase i hi
    rwa [hat] at hphase

end Invariant

section Limit

variable {n m : ℕ} {o : ℕ → ℕ} {offsets : Array ℕ}

/-- The loop that fills the gaps is safe in every order and ends with the expected offsets. -/
theorem backFills (hn : n < 2 ^ 32 - 1) (hrecorded : Recorded n m o) (hoffsets : Contents offsets (n + 1) o) :
    BackFills n m offsets o := by
  intro order horder
  obtain ⟨s, hrun, h, hinv⟩ := FillInv.run hrecorded hoffsets hn order horder
  exact ⟨s, hrun, hinv.safe⟩

/-- At the limit the counter of the last vertex starts again at zero. -/
theorem not_backFills (hrecorded : Recorded (2 ^ 32 - 1) m o) (hoffsets : Contents offsets (2 ^ 32 - 1 + 1) o) :
    ¬BackFills (2 ^ 32 - 1) m offsets o := by
  intro hfills
  obtain ⟨s, hrun, hsafe⟩ := hfills [0] fun i hi => by rw [List.mem_singleton.mp hi]; exact Nat.zero_le _
  have hread : offsets[2 ^ 32 - 1]? = some m := by
    rw [hoffsets.get (2 ^ 32 - 1) (by norm_num), hrecorded.last]
  have hstep : fillStep (2 ^ 32 - 1) m (startFill offsets) 0 =
      some ⟨offsets, Function.update (fun _ => .entered) 0 (.scanning 0)⟩ := by
    refine (bind_eq_of_eq hread _).trans ?_
    rw [if_neg (not_not.mpr rfl)]
    rfl
  obtain rfl : s = ⟨offsets, Function.update (fun _ => .entered) 0 (.scanning 0)⟩ := by
    have hone : runFill (2 ^ 32 - 1) m [0] (startFill offsets) =
      fillStep (2 ^ 32 - 1) m (startFill offsets) 0 := by
      rw [runFill, List.foldlM_cons, hstep]
      rfl
    rw [hone, hstep, Option.some.injEq] at hrun
    exact hrun.symm
  have hlt := hsafe.reads 0 (Nat.zero_le _) 0 rfl (Nat.zero_le _)
  omega

/-- The gaps are filled in every order of the steps exactly if there are less than `2 ^ 32 - 1` vertices. -/
theorem backFills_iff (hn : n ≤ 2 ^ 32 - 1) (hrecorded : Recorded n m o) (hoffsets : Contents offsets (n + 1) o) :
    BackFills n m offsets o ↔ n < 2 ^ 32 - 1 := by
  constructor
  · intro hfills
    rcases Nat.eq_or_lt_of_le hn with rfl | hlt
    · exact absurd hfills (not_backFills hrecorded hoffsets)
    · exact hlt
  · intro hlt
    exact backFills hlt hrecorded hoffsets

/-- Three offsets, of which the middle one belongs to a list that is not empty. -/
theorem backFills_iff_gaps : BackFills 2 3 #[3, 0, 3] fun u => if u = 1 then 0 else 3 := by
  have hrecorded : Recorded 2 3 fun u => if u = 1 then 0 else 3 := by
    refine ⟨fun u _ => ?_, rfl, fun u v huv _ hu hv => ?_⟩
    · split <;> omega
    · split at hu <;> split at hv <;> omega
  have hoffsets : Contents #[3, 0, 3] 3 fun u => if u = 1 then 0 else 3 := by
    refine ⟨rfl, fun u hu => ?_⟩
    interval_cases u <;> rfl
  exact (backFills_iff (by norm_num) hrecorded hoffsets).mpr (by norm_num)

/-- Without edges, the iteration of the last vertex never returns. -/
theorem backFill_diverges : ¬BackFills (2 ^ 32 - 1) 0 (Array.replicate (2 ^ 32) 0) (fun _ => 0) ∧
    ∀ k, ∃ s, runFill (2 ^ 32 - 1) 0 (List.replicate k 0) (startFill (Array.replicate (2 ^ 32) 0)) = some s ∧
      s.phase 0 ≠ .returned := by
  have hoffsets : Contents (Array.replicate (2 ^ 32) 0) (2 ^ 32 - 1 + 1) fun _ => 0 := Contents.replicate _ _
  refine ⟨not_backFills ⟨fun _ _ => le_rfl, rfl, fun _ _ _ _ hne => absurd rfl hne⟩ hoffsets, fun k => ?_⟩
  have hrun : ∃ s, runFill (2 ^ 32 - 1) 0 (List.replicate k 0) (startFill (Array.replicate (2 ^ 32) 0)) = some s ∧
      s.offsets = Array.replicate (2 ^ 32) 0 ∧ (s.phase 0 = .entered ∨
        ∃ v < 2 ^ 32, s.phase 0 = .scanning v) := by
    induction k with
    | zero => exact ⟨_, rfl, rfl, Or.inl rfl⟩
    | succ k ih =>
      obtain ⟨⟨offsets, phase⟩, hrun, rfl, hat⟩ := ih
      have hsplit (s' : FillState)
        (hstep : fillStep (2 ^ 32 - 1) 0 ⟨Array.replicate (2 ^ 32) 0, phase⟩ 0 = some s') :
          runFill (2 ^ 32 - 1) 0 (List.replicate (k + 1) 0)
            (startFill (Array.replicate (2 ^ 32) 0)) = some s' := by
        unfold runFill at hrun ⊢
        rw [List.replicate_succ', List.foldlM_append, hrun]
        exact bind_eq_of_eq hstep _
      have hnext (v : ℕ) : (v + 1) % 2 ^ 32 < 2 ^ 32 := Nat.mod_lt _ (by norm_num)
      rcases hat with hat | ⟨v, hv, hat⟩
      · have hread : (Array.replicate (2 ^ 32) 0)[vertexOf (2 ^ 32 - 1) 0]? = some 0 :=
          hoffsets.get _ (Nat.mod_lt _ (by norm_num))
        refine ⟨⟨Array.replicate (2 ^ 32) 0, Function.update phase 0
          (.scanning ((vertexOf (2 ^ 32 - 1) 0 + 1) % 2 ^ 32))⟩,
          hsplit _ ?_, rfl, Or.inr ⟨_, hnext (vertexOf (2 ^ 32 - 1) 0), rfl⟩⟩
        unfold fillStep
        dsimp only at hat ⊢
        rw [hat]
        exact bind_eq_of_eq hread _
      · have hread : (Array.replicate (2 ^ 32) 0)[v]? = some 0 := hoffsets.get _ (by omega)
        refine ⟨⟨Array.replicate (2 ^ 32) 0, Function.update phase 0 (.scanning ((v + 1) % 2 ^ 32))⟩,
          hsplit _ ?_, rfl, Or.inr ⟨_, hnext v, rfl⟩⟩
        unfold fillStep
        dsimp only at hat ⊢
        rw [hat]
        dsimp only
        rw [if_pos (by omega)]
        exact bind_eq_of_eq hread _
  obtain ⟨s, heq, -, hat⟩ := hrun
  refine ⟨s, heq, ?_⟩
  rcases hat with hat | ⟨v, -, hat⟩ <;> rw [hat] <;> exact Filling.noConfusion

end Limit

section Keys

variable {n m : ℕ} {key o : ℕ → ℕ} {offsets : Array ℕ}

/-- Marking the first positions records them. -/
theorem Marked.recorded (h : Marked key n m (Finset.range m) offsets o)
    (hmono : ∀ i j, i ≤ j → j < m → key i ≤ key j) (hkey : ∀ i < m, key i < n) : Recorded n m o := by
  refine ⟨fun u hu => ?_, ?_, fun u v huv hv hu hv' => ?_⟩
  · rcases h.right u hu with ⟨heq, -⟩ | heq
    · exact heq ▸ first_le u
    · exact heq.le
  · rcases h.right n le_rfl with ⟨heq, -⟩ | heq
    · exact heq.trans (first_eq_of_lt hkey)
    · exact heq
  · obtain ⟨hu, i, hi, hkeyu⟩ := (h.right u (by omega)).resolve_right hu
    obtain ⟨hv, -⟩ := (h.right v hv).resolve_right hv'
    obtain ⟨hle, hlt⟩ := (mem_first_iff hmono).mpr ⟨hi, hkeyu⟩
    have hnext : first key m (u + 1) ≤ first key m v := first_mono huv
    omega

/-- The right offset is the number of positions with smaller keys. -/
theorem Marked.expected (h : Marked key n m (Finset.range m) offsets o)
    (hmono : ∀ i j, i ≤ j → j < m → key i ≤ key j)
    (hkey : ∀ i < m, key i < n) {u : ℕ} (hu : u ≤ n) : Expected n m o u (first key m u) := by
  have hrecorded := h.recorded hmono hkey
  induction hd : n - u generalizing u with
  | zero =>
    obtain rfl : u = n := by omega
    rw [first_eq_of_lt hkey]
    refine Expected.of_empty fun w hw hw' => ?_
    obtain rfl : w = u := by omega
    exact hrecorded.last
  | succ d ih =>
    by_cases hne : o u ≠ m
    · obtain ⟨heq, -⟩ := (h.right u hu).resolve_right hne
      rw [← heq]
      exact Expected.of_recorded hrecorded hu hne
    · have hempty : o u = m := not_not.mp hne
      have hnone : Nat.count (fun k => key k = u) m = Nat.count (fun k => key k = u) 0 := by
        refine count_of_none (Nat.zero_le m) fun i _ hi hkeyi => ?_
        have hset := h.filled.occurs i hi
        have hlt := first_lt hmono hi
        rw [hkeyi] at hset hlt
        omega
      rw [Nat.count_zero] at hnone
      have hsame : first key m (u + 1) = first key m u := by rw [first_succ, hnone, Nat.add_zero]
      rw [← hsame]
      refine (ih (by omega) (by omega)).skip (Nat.le_succ u) fun w hw hw' => ?_
      obtain rfl : w = u := by omega
      exact hempty

/-- When all iterations have returned, the offsets are those of the keys. -/
theorem FillsSafely.isOffsets {order : List ℕ} {s : FillState} (h : FillsSafely n m o order s)
    (hmarked : Marked key n m (Finset.range m) offsets o) (hmono : ∀ i j, i ≤ j → j < m → key i ≤ key j)
    (hkey : ∀ i < m, key i < n) (hall : ∀ i ≤ n, s.phase i = .returned) :
    IsOffsets s.offsets n m (first key m) := by
  refine ⟨⟨h.size, fun u hu => ?_⟩, first_zero, fun u _ => first_mono (Nat.le_succ u), first_eq_of_lt hkey⟩
  obtain ⟨x, hx, hexpected⟩ := h.fills (n - u) (by omega) (hall (n - u) (by omega))
  rw [show n - (n - u) = u by omega] at hx hexpected
  rw [hx, hexpected.unique (hmarked.expected hmono hkey (by omega))]

end Keys

end GraphFile

end ToggleTree
