import Mathlib.Data.ENat.Lattice
import Mathlib.Tactic

/-!
# Walks and distances

Arcs with natural weights over an arbitrary type of vertices, the walks along them and the
least total weight of a walk. A vertex that no walk reaches has distance `⊤`.

Nothing here refers to a particular program. Breadth-first search uses it with the weight 1 on
every arc.
-/

namespace Arcs

variable {V : Type*} {A : V → V → ℕ → Prop}

/-- A walk from `s` with its total weight and its number of arcs. -/
inductive Walk (A : V → V → ℕ → Prop) (s : V) : V → ℕ → ℕ → Prop
  | nil : Walk A s s 0 0
  | snoc {u v : V} {c w k : ℕ} (walk : Walk A s u c k) (arc : A u v w) : Walk A s v (c + w) (k + 1)

/-- The least total weight of a walk from `s` to `v`. -/
noncomputable def distance (A : V → V → ℕ → Prop) (s v : V) : ℕ∞ :=
  ⨅ c : {c : ℕ // ∃ k, Walk A s v c k}, (c.1 : ℕ∞)

variable {s u v : V} {c d k w : ℕ}

/-- Walks compose. -/
theorem Walk.append (h : Walk A s u c k) {l : ℕ} (h' : Walk A u v d l) :
    Walk A s v (c + d) (k + l) := by
  induction h' with
  | nil => exact h
  | snoc _ arc ih =>
    rw [← Nat.add_assoc, ← Nat.add_assoc]
    exact ih.snoc arc

/-- The distance is at most the length of a walk. -/
theorem distance_le (h : Walk A s v c k) : distance A s v ≤ c :=
  iInf_le (fun c : {c : ℕ // ∃ k, Walk A s v c k} => (c.1 : ℕ∞)) ⟨c, k, h⟩

/-- A finite distance is the weight of some walk. -/
theorem exists_walk (h : distance A s v = d) : ∃ k, Walk A s v d k := by
  by_cases hne : Nonempty {c : ℕ // ∃ k, Walk A s v c k}
  · obtain ⟨⟨c, k, hwalk⟩, hc⟩ := ENat.exists_eq_iInf fun c : {c : ℕ // ∃ k, Walk A s v c k} => (c.1 : ℕ∞)
    have hcd : (c : ℕ∞) = d := hc.trans h
    obtain rfl : c = d := by exact_mod_cast hcd
    exact ⟨k, hwalk⟩
  · have htop : distance A s v = ⊤ := by
      rw [not_nonempty_iff] at hne
      exact iInf_of_empty _
    rw [htop] at h
    exact (ENat.natCast_ne_top d h.symm).elim

/-- The distance of a vertex with a walk is finite. -/
theorem exists_distance (h : Walk A s v c k) : ∃ d, distance A s v = (d : ℕ) ∧ d ≤ c := by
  have hle := distance_le h
  obtain ⟨d, hd⟩ := ENat.ne_top_iff_exists.mp (ne_top_of_le_ne_top (ENat.natCast_ne_top c) hle)
  rw [← hd] at hle
  exact ⟨d, hd.symm, by exact_mod_cast hle⟩

/-- No walk reaches a vertex of distance `⊤`. -/
theorem distance_eq_top_iff : distance A s v = ⊤ ↔ ∀ c k, ¬Walk A s v c k := by
  constructor
  · intro h c k hwalk
    obtain ⟨d, hd, _⟩ := exists_distance hwalk
    rw [h] at hd
    exact (ENat.natCast_ne_top d hd.symm).elim
  · intro h
    by_contra hne
    obtain ⟨d, hd⟩ := ENat.ne_top_iff_exists.mp hne
    obtain ⟨k, hwalk⟩ := exists_walk hd.symm
    exact h d k hwalk

/-- A vertex is at distance 0 from itself. -/
@[simp] theorem distance_self (A : V → V → ℕ → Prop) (s : V) : distance A s s = 0 :=
  le_antisymm (distance_le Walk.nil) bot_le

/-- No arc leads further than its weight. -/
theorem distance_le_add (h : A u v w) : distance A s v ≤ distance A s u + w := by
  by_cases htop : distance A s u = ⊤
  · rw [htop, top_add]
    exact le_top
  · obtain ⟨d, hd⟩ := ENat.ne_top_iff_exists.mp htop
    obtain ⟨k, hwalk⟩ := exists_walk hd.symm
    rw [← hd]
    exact_mod_cast distance_le (hwalk.snoc h)

/-- A least walk arrives through a predecessor that is reached by a least walk. -/
theorem exists_predecessor (h : distance A s v = d) (hv : v ≠ s) :
    ∃ u w c, A u v w ∧ distance A s u = (c : ℕ) ∧ d = c + w := by
  obtain ⟨k, hwalk⟩ := exists_walk h
  cases hwalk with
  | nil => exact (hv rfl).elim
  | @snoc u _ c w k hu harc =>
    obtain ⟨b, hb, hbc⟩ := exists_distance hu
    have hle : distance A s v ≤ distance A s u + w := distance_le_add harc
    rw [h, hb] at hle
    have hle' : c + w ≤ b + w := by exact_mod_cast hle
    exact ⟨u, w, c, harc, by rw [hb, show b = c by omega], rfl⟩

section Finite

/-- A walk as the sequence of its vertices with the weights of its prefixes. -/
theorem Walk.exists_path (h : Walk A s v c k) : ∃ (f : ℕ → V) (g : ℕ → ℕ), f 0 = s ∧ g 0 = 0 ∧
    f k = v ∧ g k = c ∧ ∀ j < k, ∃ w, A (f j) (f (j + 1)) w ∧ g (j + 1) = g j + w := by
  induction h with
  | nil => exact ⟨fun _ => s, fun _ => 0, rfl, rfl, rfl, rfl, fun j hj => by omega⟩
  | @snoc u v c w k _ arc ih =>
    obtain ⟨f, g, hf0, hg0, hfk, hgk, hstep⟩ := ih
    have hlast : ¬k + 1 ≤ k := by omega
    refine ⟨fun j => if j ≤ k then f j else v, fun j => if j ≤ k then g j else c + w,
      (if_pos (Nat.zero_le k)).trans hf0, (if_pos (Nat.zero_le k)).trans hg0, if_neg hlast,
      if_neg hlast, fun j hj => ?_⟩
    rcases Nat.lt_succ_iff_lt_or_eq.mp hj with hlt | rfl
    · simp only [if_pos hlt.le, if_pos (Nat.succ_le_of_lt hlt)]
      exact hstep j hlt
    · refine ⟨w, ?_, ?_⟩
      · simp only [if_pos le_rfl, if_neg hlast, hfk]
        exact arc
      · simp only [if_pos le_rfl, if_neg hlast, hgk]

/-- Every segment of a path is a walk. -/
theorem walk_of_path {f : ℕ → V} {g : ℕ → ℕ} {k : ℕ}
    (hstep : ∀ j < k, ∃ w, A (f j) (f (j + 1)) w ∧ g (j + 1) = g j + w) {i j : ℕ} (hij : i ≤ j)
    (hjk : j ≤ k) : ∃ c, Walk A (f i) (f j) c (j - i) ∧ g j = g i + c := by
  induction j, hij using Nat.le_induction with
  | base => exact ⟨0, by rw [Nat.sub_self]; exact Walk.nil, rfl⟩
  | succ j hij ih =>
    obtain ⟨c, hwalk, hg⟩ := ih (by omega)
    obtain ⟨w, harc, hw⟩ := hstep j (by omega)
    refine ⟨c + w, ?_, by omega⟩
    rw [show j + 1 - i = j - i + 1 by omega]
    exact hwalk.snoc harc

/-- Cutting out a closed segment: a walk that is not longer in weight and shorter in arcs. -/
theorem Walk.exists_shorter {S : Finset V} (hs : s ∈ S) (hA : ∀ u v w, A u v w → v ∈ S)
    (h : Walk A s v c k) (hk : S.card ≤ k) : ∃ c' ≤ c, ∃ k' < k, Walk A s v c' k' := by
  obtain ⟨f, g, rfl, hg0, rfl, rfl, hstep⟩ := h.exists_path
  have hmem : ∀ j ∈ Finset.range (k + 1), f j ∈ S := by
    intro j hj
    rw [Finset.mem_range] at hj
    rcases Nat.eq_zero_or_pos j with rfl | hpos
    · exact hs
    · obtain ⟨w, harc, _⟩ := hstep (j - 1) (by omega)
      rw [Nat.sub_add_cancel hpos] at harc
      exact hA _ _ _ harc
  obtain ⟨i, hi, j, hj, hne, heq⟩ : ∃ i ∈ Finset.range (k + 1), ∃ j ∈ Finset.range (k + 1), i ≠ j ∧ f i = f j :=
    Finset.exists_ne_map_eq_of_card_lt_of_maps_to (by rw [Finset.card_range]; omega) hmem
  wlog hij : i < j generalizing i j
  · exact this j hj i hi hne.symm heq.symm (by omega)
  rw [Finset.mem_range] at hi hj
  obtain ⟨c₁, hwalk₁, hg₁⟩ := walk_of_path hstep (Nat.zero_le i) (by omega)
  obtain ⟨c₂, _, hg₂⟩ := walk_of_path hstep hij.le (by omega)
  obtain ⟨c₃, hwalk₃, hg₃⟩ := walk_of_path hstep (show j ≤ k by omega) le_rfl
  rw [← heq] at hwalk₃
  exact ⟨c₁ + c₃, by omega, i - 0 + (k - j), by omega, hwalk₁.append hwalk₃⟩

/-- Among finitely many vertices, fewer arcs than vertices suffice. -/
theorem Walk.exists_short {S : Finset V} (hs : s ∈ S) (hA : ∀ u v w, A u v w → v ∈ S)
    (h : Walk A s v c k) : ∃ c' ≤ c, ∃ k' < S.card, Walk A s v c' k' := by
  induction k using Nat.strong_induction_on generalizing c with
  | _ k ih =>
    by_cases hk : S.card ≤ k
    · obtain ⟨c', hc', k', hk', hwalk⟩ := h.exists_shorter hs hA hk
      obtain ⟨c'', hc'', hwalk'⟩ := ih k' hk' hwalk
      exact ⟨c'', hc''.trans hc', hwalk'⟩
    · exact ⟨c, le_rfl, k, by omega, h⟩

/-- A finite distance is attained with fewer arcs than there are vertices. -/
theorem exists_short_walk {S : Finset V} (hs : s ∈ S) (hA : ∀ u v w, A u v w → v ∈ S)
    (h : distance A s v = d) : ∃ k < S.card, Walk A s v d k := by
  obtain ⟨k, hwalk⟩ := exists_walk h
  obtain ⟨c, hc, l, hl, hshort⟩ := hwalk.exists_short hs hA
  have hle := distance_le hshort
  rw [h] at hle
  have hdc : d ≤ c := by exact_mod_cast hle
  obtain rfl : c = d := by omega
  exact ⟨l, hl, hshort⟩

/-- Every vertex that a walk ends in lies among the given vertices. -/
theorem Walk.mem {S : Finset V} (hs : s ∈ S) (hA : ∀ u v w, A u v w → v ∈ S) (h : Walk A s v c k) :
    v ∈ S := by
  cases h with
  | nil => exact hs
  | snoc _ arc => exact hA _ _ _ arc

end Finite

/-- If every arc weighs 1, the weight of a walk is its number of arcs. -/
theorem Walk.weight_eq (hA : ∀ u v w, A u v w → w = 1) (h : Walk A s v c k) : c = k := by
  induction h with
  | nil => rfl
  | snoc _ arc ih => rw [ih, hA _ _ _ arc]

/-- A distance cut off at `top`. -/
noncomputable def saturate (top : ℕ) (d : ℕ∞) : ℕ := (min d top).toNat

/-- What is not reached has the greatest number. -/
@[simp] theorem saturate_top (top : ℕ) : saturate top ⊤ = top := by
  rw [saturate, top_inf_eq, ENat.toNat_natCast]

/-- A distance is cut off at the greatest number. -/
@[simp] theorem saturate_coe (top d : ℕ) : saturate top d = min d top := by
  rcases le_total d top with h | h
  · rw [saturate, min_eq_left (by exact_mod_cast h), min_eq_left h, ENat.toNat_natCast]
  · rw [saturate, min_eq_right (by exact_mod_cast h), min_eq_right h, ENat.toNat_natCast]

/-- The distance 0 is not cut off. -/
@[simp] theorem saturate_zero (top : ℕ) : saturate top 0 = 0 := by
  have h := saturate_coe top 0
  rwa [Nat.cast_zero, Nat.zero_min] at h

/-- Nothing is beyond the greatest number. -/
theorem saturate_le (top : ℕ) (d : ℕ∞) : saturate top d ≤ top := by
  induction d using ENat.recTopCoe with
  | top => rw [saturate_top]
  | coe d => rw [saturate_coe]; exact min_le_right d top

/-- Below the cut, the saturated distance is the distance. -/
theorem eq_of_saturate_lt {top : ℕ} {d : ℕ∞} (h : saturate top d < top) : d = saturate top d := by
  induction d using ENat.recTopCoe with
  | top => rw [saturate_top] at h; exact (lt_irrefl top h).elim
  | coe d =>
    rw [saturate_coe] at h ⊢
    rw [min_eq_left (by omega)]

/-- Cutting off does not increase a distance. -/
theorem saturate_le_of_le {top d : ℕ} {e : ℕ∞} (h : e ≤ d) : saturate top e ≤ d := by
  obtain ⟨e, rfl⟩ := ENat.ne_top_iff_exists.mp (ne_top_of_le_ne_top (ENat.natCast_ne_top d) h)
  rw [saturate_coe]
  exact (min_le_left e top).trans (by exact_mod_cast h)

/-- Saturated distances grow along an arc by at most its weight. -/
theorem saturate_distance_le_add {top : ℕ} (h : A u v w) :
    saturate top (distance A s v) ≤ saturate top (distance A s u) + w := by
  by_cases hu : saturate top (distance A s u) < top
  · have hle : distance A s v ≤ distance A s u + w := distance_le_add h
    rw [eq_of_saturate_lt hu] at hle
    exact saturate_le_of_le (by exact_mod_cast hle)
  · have := saturate_le top (distance A s v)
    omega

end Arcs
