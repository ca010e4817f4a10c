import ToggleTree.BreadthFirstSearch.LocalSearch

/-!
# Gathering from the in-neighbours

The in-neighbours of a vertex are read at different times while their cells fall. The least
distance read is not above what any of them had at the start, and it was really read, so the
in-neighbour it came from is at most that far now. Both searches gather in both ways, and all
four loops keep this.
-/

namespace ToggleTree

open ForkJoin ForkJoin.Prog

namespace Search

variable {G : CSR} {L : Labels} {source unreached : ℕ} {goal : ℕ → ℕ} {r B : ℕ}
  {s₀ s s' : SearchState} {v x i j k m m' p p' : ℕ} {t : Debt}

/-- The least distance `m` read so far from the in-slots `[i, j)`, with the vertex it came from. -/
structure LeastAbove (G : CSR) (L : Labels) (goal : ℕ → ℕ) (s₀ : SearchState) (i j m p : ℕ)
    (s : SearchState) : Prop where
  attained : m = topLevel ∨
    ∃ k, i ≤ k ∧ k < j ∧ G.inEdge k = p ∧ levelOf L s p ≤ m ∧ L.level (goal p) ≤ m
  le : ∀ k, i ≤ k → k < j → m ≤ levelOf L s₀ (G.inEdge k)

namespace LeastAbove

/-- No slot has been looked at. -/
theorem empty : LeastAbove G L goal s₀ i i topLevel p s :=
  ⟨Or.inl rfl, fun k h₁ h₂ => by omega⟩

/-- Of two ranges the left one has the least parent. -/
theorem join_left (h : LeastAbove G L goal s₀ i j m p s) (h' : LeastAbove G L goal s₀ j k m' p' s)
    (hjk : j ≤ k) (hle : m ≤ m') : LeastAbove G L goal s₀ i k m p s := by
  refine ⟨h.attained.imp id ?_, fun l h₁ h₂ => ?_⟩
  · rintro ⟨l, h₁, h₂, hl⟩
    exact ⟨l, h₁, h₂.trans_le hjk, hl⟩
  · by_cases hlj : l < j
    · exact h.le l h₁ hlj
    · exact hle.trans (h'.le l (by omega) h₂)

/-- Of two ranges the right one has the least parent. -/
theorem join_right (h : LeastAbove G L goal s₀ i j m p s) (h' : LeastAbove G L goal s₀ j k m' p' s)
    (hij : i ≤ j) (hle : m' ≤ m) : LeastAbove G L goal s₀ i k m' p' s := by
  refine ⟨h'.attained.imp id ?_, fun l h₁ h₂ => ?_⟩
  · rintro ⟨l, h₁, h₂, hl⟩
    exact ⟨l, hij.trans h₁, h₂, hl⟩
  · by_cases hlj : l < j
    · exact hle.trans (h.le l h₁ hlj)
    · exact h'.le l (by omega) h₂

variable (hL : Labelling G L source unreached goal)
include hL

/-- One more in-slot, read now. -/
theorem single {o : Debt} (hrel : SearchRel s₀ s) (hinv : SearchInv G L source unreached goal r B s o) :
    LeastAbove G L goal s₀ i (i + 1) (levelOf L s (G.inEdge i)) (G.inEdge i) s := by
  refine ⟨Or.inr ⟨i, le_rfl, Nat.lt_succ_self i, rfl, le_rfl, hL.level_mono _ _ (hinv.lower _)⟩,
    fun k h₁ h₂ => ?_⟩
  obtain rfl : k = i := by omega
  exact hL.levelOf_le hrel _

/-- What a range has found stays when the search goes on. -/
theorem mono (h : LeastAbove G L goal s₀ i j m p s) (hrel : SearchRel s s') :
    LeastAbove G L goal s₀ i j m p s' := by
  refine ⟨h.attained.imp id ?_, h.le⟩
  rintro ⟨k, h₁, h₂, h₃, h₄, h₅⟩
  exact ⟨k, h₁, h₂, h₃, (hL.levelOf_le hrel p).trans h₄, h₅⟩

/-- The least distance over all in-slots is what has to be gathered. -/
theorem gathered {c : ℕ × ℕ} (h : LeastAbove G L goal s₀ (G.inOffset v) (G.inOffset (v + 1)) m p s)
    (hT : G.Transposed) (hinv : SearchInv G L source unreached goal r B s₀ t) (hq : Queued G L source B s₀ v x)
    (hc : m + 1 < 2 ^ 32 → m + 2 < 2 ^ 32 → c = (m + 2, L.make (m + 1) p)) : Gathered G L goal v x c s := by
  obtain ⟨u, hu, hlevel⟩ := hinv.parent v hq.ne (hL.reached_of_queued hq)
  obtain ⟨_, k, hk, rfl⟩ := (hT u v).mp hu
  have hm : m ≤ levelOf L s₀ (G.inEdge k) := h.le k hk.1 hk.2
  have hmx : m + 1 ≤ x := by
    have := hq.level_le
    omega
  have hx := hL.level_lt hq
  have htop : m ≠ topLevel := by
    unfold topLevel
    omega
  obtain ⟨l, h₁, h₂, rfl, hp, hgoal⟩ := h.attained.resolve_left htop
  have hedge : G.Edge (G.inEdge l) v := (hT _ v).mpr ⟨hq.lt, l, ⟨h₁, h₂⟩, rfl⟩
  obtain rfl := hc (by omega) (by omega)
  refine ⟨m + 1, hmx, rfl, hL.goal_le _ v m hedge hgoal (by omega), ?_, _, hedge, by omega⟩
  exact hL.level_make _ _ (by omega) ((CSR.inEdge_lt hq.lt ⟨h₁, h₂⟩).trans hL.size)

end LeastAbove

section Loops

/-- What a loop over in-slots carries along: the least distance read, and a vertex it came from. What
the value `b` says about that vertex is a parameter. -/
def CarriesLeast {β : Type} (G : CSR) (L : Labels) (goal : ℕ → ℕ) (level : β → ℕ) (origin : β → ℕ → Prop)
    (s₀ : SearchState) (i j : ℕ) (b : β) (s : SearchState) : Prop :=
  ∃ p, origin b p ∧ LeastAbove G L goal s₀ i j (level b) p s

/-- The value `d` stands for the lesser one of what `b` and `c` stand for. -/
def Lesser {β : Type} (level : β → ℕ) (origin : β → ℕ → Prop) (b c d : β) : Prop :=
  (level d = level b ∧ (∀ p, origin b p → origin d p) ∧ level b ≤ level c) ∨
    (level d = level c ∧ (∀ p, origin c p → origin d p) ∧ level c ≤ level b)

variable {β : Type} (level : β → ℕ) (origin : β → ℕ → Prop) {b c d : β}
  {env : SearchCall → SearchProg Unit} (hL : Labelling G L source unreached goal)

variable {level origin}

/-- The lesser of the values of two ranges is the least of both. -/
theorem CarriesLeast.join (h : CarriesLeast G L goal level origin s₀ i j b s)
    (h' : CarriesLeast G L goal level origin s₀ j k c s) (hij : i ≤ j) (hjk : j ≤ k)
    (hd : Lesser level origin b c d) : CarriesLeast G L goal level origin s₀ i k d s := by
  obtain ⟨p, hp, hleast⟩ := h
  obtain ⟨p', hp', hleast'⟩ := h'
  rcases hd with ⟨h₁, h₂, h₃⟩ | ⟨h₁, h₂, h₃⟩
  · exact ⟨p, h₂ p hp, h₁.symm ▸ hleast.join_left hleast' hjk h₃⟩
  · exact ⟨p', h₂ p' hp', h₁.symm ▸ hleast.join_right hleast' hij h₃⟩

include hL

/-- The value of a range stays the least when the search goes on. -/
theorem CarriesLeast.mono (h : CarriesLeast G L goal level origin s₀ i j b s) (hrel : SearchRel s s') :
    CarriesLeast G L goal level origin s₀ i j b s' := by
  obtain ⟨p, hp, hleast⟩ := h
  exact ⟨p, hp, hleast.mono hL hrel⟩

variable (level origin) (value : ℕ → ℕ → β) (hvalue : ∀ i y, level (value i y) = L.level y ∧
  origin (value i y) (G.inEdge i)) {start stop : ℕ} (hle : start ≤ stop)
include hvalue

variable {level origin value} in
/-- Reading one in-slot. -/
theorem CarriesLeast.single {o : Debt} (hrel : SearchRel s₀ s)
    (hinv : SearchInv G L source unreached goal r B s o) :
    CarriesLeast G L goal level origin s₀ i (i + 1) (value i (s.dist (G.inEdge i))) s := by
  obtain ⟨h₁, h₂⟩ := hvalue i (s.dist (G.inEdge i))
  exact ⟨_, h₂, h₁.symm ▸ LeastAbove.single hL hrel hinv⟩

include hle

/-- A sequential loop over the in-slots that keeps the least distance read. -/
theorem ensures_foldLeast {init : β} (hinit : level init = topLevel) (p' : ℕ) (hp' : origin init p')
    {step : ℕ → ℕ → β → β} (hstep : ∀ i y b, Lesser level origin b (value i y) (step i y b)) :
    Ensures (searchProtocol G L source unreached goal r B) env
      (fun b s' c => CarriesLeast G L goal level origin s start stop b s' ∧ c = 0)
      (foldFor start stop init fun i b => do
        let y ← atomicRead (cell (G.inEdge i))
        ret (step i y b)) s 0 := by
  have hzero : ∑ _i ∈ Finset.Ico start stop, (0 : Debt) = 0 := Finset.sum_const_zero
  rw [← hzero]
  refine (Ensures.foldFor_sum (I := fun i b s' => SearchRel s s' ∧
    CarriesLeast G L goal level origin s start i b s')
    (fun _ => 0) hle (fun i b s₁ s₂ _ hrel h => ⟨h.1.trans hrel, h.2.mono hL hrel⟩)
    ⟨⟨fun _ => le_rfl, rfl, rfl⟩, p', hp', hinit.symm ▸ LeastAbove.empty⟩ ?_).mono
    fun b s' c h => ⟨h.1.2, h.2.trans hzero.symm⟩
  rintro i b s₁ hi _ ⟨hrel₁, hleast⟩
  refine Ensures.read fun s₂ o hrel₂ hinv₂ => Ensures.ret fun s₃ _ hrel₃ hinv₃ => ⟨0, hinv₃, ⟨?_, ?_⟩, rfl⟩
  · exact (hrel₁.trans hrel₂).trans hrel₃
  · have hsingle := CarriesLeast.single hL hvalue (i := i) (hrel₁.trans hrel₂) hinv₂
    exact (CarriesLeast.join (hleast.mono hL hrel₂) hsingle hi (Nat.le_succ i) (hstep i _ b)).mono hL hrel₃

/-- A parallel reduction over the in-slots that keeps the least distance read. -/
theorem ensures_reduceLeast {identity : β} (hidentity : level identity = topLevel) (p' : ℕ)
    (hp' : origin identity p') {combine : β → β → β}
    (hcombine : ∀ b c, Lesser level origin b c (combine b c)) {granularity : ℕ} :
    Ensures (searchProtocol G L source unreached goal r B) env
      (fun b s' c => CarriesLeast G L goal level origin s start stop b s' ∧ c = 0)
      (reduce combine identity granularity start stop fun i => do
        let y ← atomicRead (cell (G.inEdge i))
        ret (value i y)) s 0 := by
  have hzero : ∑ _i ∈ Finset.Ico start stop, (0 : Debt) = 0 := Finset.sum_const_zero
  nth_rewrite 2 [← hzero]
  refine Ensures.reduce (I := fun i j b s' => CarriesLeast G L goal level origin s i j b s') (fun _ => 0) hle
    (fun i j b s₁ s₂ _ hrel h => CarriesLeast.mono hL h hrel)
    (fun i s' => ⟨p', hp', hidentity.symm ▸ LeastAbove.empty⟩)
    (fun i j k b c s' hij hjk hb hc => hb.join hc hij hjk (hcombine b c)) ?_
  intro i s₁ _ _ hrel₁
  refine Ensures.read fun s₂ o hrel₂ hinv₂ => Ensures.ret fun s₃ _ hrel₃ hinv₃ => ⟨0, hinv₃, ?_, rfl⟩
  exact (CarriesLeast.single hL hvalue (i := i) (SearchRel.trans hrel₁ hrel₂) hinv₂).mono hL hrel₃

omit hvalue hle

/-- A loop that finds the least distance over all in-slots, and what is computed from it, gathers. -/
theorem ensures_gathered {loop : SearchProg β} {result : β → ℕ × ℕ}
    (hT : G.Transposed) (hq : Queued G L source B s v x)
    (hloop : ∀ s, Ensures (searchProtocol G L source unreached goal r B) env
      (fun b s' c => CarriesLeast G L goal level origin s (G.inOffset v) (G.inOffset (v + 1)) b s' ∧
        c = 0) loop s 0)
    (hresult : ∀ b p, origin b p → level b + 2 < 2 ^ 32 → result b = (level b + 2, L.make (level b + 1) p)) :
    Ensures (searchProtocol G L source unreached goal r B) env
      (fun c s' b => Gathered G L goal v x c s' ∧ b = 0) (loop >>= fun b => ret (result b)) s 0 := by
  refine Ensures.use_inv fun s₀ o hrel hinv => ?_
  refine (hloop s₀).bind ?_
  rintro b s₁ _ ⟨hleast, rfl⟩
  refine Ensures.ret fun s₂ _ hrel₂ hinv₂ => ⟨0, hinv₂, ?_, rfl⟩
  obtain ⟨p, hp, hleast'⟩ := CarriesLeast.mono hL hleast hrel₂
  exact hleast'.gathered hL hT hinv (hL.queued hrel hq) fun _ h => hresult b p hp h

end Loops

/-- Gathering distances, with and without a reduction. -/
theorem gathersAll_distances {env : SearchCall → SearchProg Unit}
    (hL : Labelling G (distances G) source unreached goal) (hT : G.Transposed) :
    GathersAll G (distances G) source unreached goal env := by
  intro r B s v x hq pull hpull
  have hle : G.inOffset v ≤ G.inOffset (v + 1) := CSR.inOffset_le hq.lt
  -- A distance alone does not tell which vertex it came from.
  have hvalue : ∀ i y, id y = (distances G).level y ∧ (fun _ _ => True : ℕ → ℕ → Prop) y (G.inEdge i) :=
    fun _ _ => ⟨rfl, trivial⟩
  have hresult : ∀ (m p : ℕ), True → id m + 2 < 2 ^ 32 →
      distanceAbove m = (id m + 2, (distances G).make (id m + 1) p) := by
    intro m p _ hm
    rw [id] at hm
    rw [distanceAbove, Nat.mod_eq_of_lt (by omega)]
    rfl
  rcases List.mem_pair.mp hpull with rfl | rfl
  · refine ensures_gathered id (fun _ _ => True) hL hT hq (fun s => ?_) hresult
    refine ensures_foldLeast id (fun _ _ => True) hL (fun _ y => y) hvalue hle rfl 0 trivial fun i y b => ?_
    by_cases hlt : y < b
    · rw [if_pos hlt]
      exact Or.inr ⟨rfl, fun _ _ => trivial, hlt.le⟩
    · rw [if_neg hlt]
      exact Or.inl ⟨rfl, fun _ _ => trivial, not_lt.mp hlt⟩
  · refine ensures_gathered id (fun _ _ => True) hL hT hq (fun s => ?_) hresult
    have hread : (fun i => atomicRead (cell (G.inEdge i))) =
        fun i => (atomicRead (cell (G.inEdge i)) >>= fun y => ret y : SearchProg ℕ) :=
      funext fun i => (bind_ret _).symm
    rw [hread]
    refine ensures_reduceLeast id (fun _ _ => True) hL (fun _ y => y) hvalue hle rfl 0 trivial fun b c => ?_
    rcases le_total b c with h | h
    · rw [min_eq_left h]
      exact Or.inl ⟨rfl, fun _ _ => trivial, h⟩
    · rw [min_eq_right h]
      exact Or.inr ⟨rfl, fun _ _ => trivial, h⟩

/-- The two halves of a glued word. -/
theorem glue32_eq {hi lo : ℕ} (hhi : hi < 2 ^ 32) (hlo : lo < 2 ^ 32) : glue32 hi lo = hi * 2 ^ 32 + lo := by
  rw [glue32, ← Nat.shiftLeft_add_eq_or_of_lt hlo, Nat.shiftLeft_eq, Nat.mod_eq_of_lt (by omega)]

/-- The upper half of a word is its quotient. -/
theorem hi32_eq (word : ℕ) : hi32 word = word / 2 ^ 32 := Nat.shiftRight_eq_div_pow word 32

/-- Gathering distances with parents, with and without a reduction. -/
theorem gathersAll_distancesAndParents {env : SearchCall → SearchProg Unit}
    (hL : Labelling G (distancesAndParents G) source unreached goal) (hT : G.Transposed) :
    GathersAll G (distancesAndParents G) source unreached goal env := by
  intro r B s v x hq pull hpull
  have hle : G.inOffset v ≤ G.inOffset (v + 1) := CSR.inOffset_le hq.lt
  have hvalue : ∀ i y, Prod.fst (hi32 y, G.inEdge i) = (distancesAndParents G).level y ∧
      (fun b p => b.2 = p : ℕ × ℕ → ℕ → Prop) (hi32 y, G.inEdge i) (G.inEdge i) := fun _ _ => ⟨rfl, rfl⟩
  rcases List.mem_pair.mp hpull with rfl | rfl
  · refine ensures_gathered Prod.fst (fun b p => b.2 = p) hL hT hq (fun s => ?_) ?_
    · refine ensures_foldLeast Prod.fst (fun b p => b.2 = p) hL
        (fun i y => (hi32 y, G.inEdge i)) hvalue hle rfl _ rfl fun i y b => ?_
      by_cases hlt : hi32 y < b.1
      · rw [if_pos hlt]
        exact Or.inr ⟨rfl, fun _ h => h, hlt.le⟩
      · rw [if_neg hlt]
        split
        · next heq => exact Or.inr ⟨heq.1.symm, fun _ h => h, heq.1.le⟩
        · exact Or.inl ⟨rfl, fun _ h => h, not_lt.mp hlt⟩
    · rintro b p rfl hb
      rw [Nat.mod_eq_of_lt (by omega)]
      rfl
  · refine ensures_gathered Prod.fst (fun b p => b.2 = p) hL hT hq (fun s => ?_) ?_
    · refine ensures_reduceLeast Prod.fst (fun b p => b.2 = p) hL
        (fun i y => (hi32 y, G.inEdge i)) hvalue hle rfl _ rfl fun b c => ?_
      unfold pairMin
      split
      · next h => exact Or.inl ⟨rfl, fun _ h => h, by omega⟩
      · next h => exact Or.inr ⟨rfl, fun _ h => h, by omega⟩
    · rintro b p rfl hb
      rw [Nat.mod_eq_of_lt (by omega : b.1 + 1 < 2 ^ 32), Nat.mod_eq_of_lt (by omega)]
      rfl

end Search

end ToggleTree
