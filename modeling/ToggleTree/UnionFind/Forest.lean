import Mathlib.Data.Fintype.Quotient
import Mathlib.Data.Set.Card
import Mathlib.Logic.Relation
import Mathlib.SetTheory.Cardinal.Finite
import Mathlib.Tactic

/-!
# Forests of decreasing links

A list of links from numbers to smaller numbers in which every number is linked at most once.
Following the links leads from every number to the least number that it is connected to, so the
numbers without a link stand for the components.

Nothing here refers to a particular program.
-/

namespace LinkForest

open Relation

/-- There is a link from `x` to `y`. -/
def Linked (links : List (ℕ × ℕ)) (x y : ℕ) : Prop := (x, y) ∈ links

/-- Numbers that are connected by pairs of the relation. -/
def Connected (r : ℕ → ℕ → Prop) (x y : ℕ) : Prop := EqvGen r x y

/-- The number of classes of connected numbers below `n`. -/
noncomputable def components (n : ℕ) (r : ℕ → ℕ → Prop) : ℕ :=
  Nat.card (Quotient ((EqvGen.setoid r).comap (Fin.val : Fin n → ℕ)))

/-- The numbers that have been linked. -/
def children (links : List (ℕ × ℕ)) : List ℕ := links.map Prod.fst

/-- Every number is linked at most once, and to a smaller one. -/
structure Forest (links : List (ℕ × ℕ)) : Prop where
  nodup : (children links).Nodup
  decreasing : ∀ x y, Linked links x y → y < x

variable {r r' : ℕ → ℕ → Prop} {links links' : List (ℕ × ℕ)} {n x y z : ℕ}

namespace Connected

/-- Every vertex is connected with itself. -/
theorem refl (x : ℕ) : Connected r x x := EqvGen.refl x

/-- Connected vertices are connected the other way round. -/
theorem symm (h : Connected r x y) : Connected r y x := EqvGen.symm _ _ h

/-- What is connected over a vertex is connected. -/
theorem trans (h : Connected r x y) (h' : Connected r y z) : Connected r x z := EqvGen.trans _ _ _ h h'

/-- Related vertices are connected. -/
theorem of_rel (h : r x y) : Connected r x y := EqvGen.rel _ _ h

/-- Connections of connections. -/
theorem lift (hr : ∀ x y, r x y → Connected r' x y) (h : Connected r x y) : Connected r' x y := by
  induction h with
  | rel x y h => exact hr x y h
  | refl x => exact refl x
  | symm x y _ ih => exact ih.symm
  | trans x y z _ _ ih₁ ih₂ => exact ih₁.trans ih₂

/-- More links connect more vertices. -/
theorem links_mono (hsub : ∀ l ∈ links, l ∈ links') (h : Connected (Linked links) x y) :
    Connected (Linked links') x y :=
  h.lift fun _ _ hl => of_rel (hsub _ hl)

end Connected

/-- The vertices that have been linked. -/
theorem mem_children : x ∈ children links ↔ ∃ y, Linked links x y := by
  simp [children, Linked]

namespace Forest

/-- A number has at most one link. -/
theorem linked_unique (h : Forest links) (hy : Linked links x y) (hz : Linked links x z) : y = z := by
  have hinj := List.inj_on_of_nodup_map h.nodup
  have := hinj hy hz rfl
  exact (Prod.mk.inj this).2

/-- Following the links as far as they go. -/
def Leads (links : List (ℕ × ℕ)) (x r : ℕ) : Prop := ReflTransGen (Linked links) x r ∧ r ∉ children links

/-- Links lead to lesser vertices. -/
theorem Leads.le (h : Forest links) (hl : ReflTransGen (Linked links) x y) : y ≤ x := by
  induction hl with
  | refl => exact le_rfl
  | tail _ hlink ih => exact (h.decreasing _ _ hlink).le.trans ih

/-- Every vertex leads to a root. -/
theorem exists_leads (h : Forest links) (x : ℕ) : ∃ r, Leads links x r := by
  induction x using Nat.strong_induction_on with
  | _ x ih =>
    by_cases hx : x ∈ children links
    · obtain ⟨y, hy⟩ := mem_children.mp hx
      obtain ⟨r, hr, hroot⟩ := ih y (h.decreasing x y hy)
      exact ⟨r, ReflTransGen.head hy hr, hroot⟩
    · exact ⟨x, ReflTransGen.refl, hx⟩

/-- A link leads to the same root. -/
theorem leads_linked (h : Forest links) (hxy : Linked links x y) {r : ℕ} : Leads links x r ↔ Leads links y r := by
  constructor
  · rintro ⟨hr, hroot⟩
    rcases ReflTransGen.cases_head hr with rfl | ⟨z, hxz, hzr⟩
    · exact absurd (mem_children.mpr ⟨y, hxy⟩) hroot
    · rw [h.linked_unique hxy hxz]
      exact ⟨hzr, hroot⟩
  · rintro ⟨hr, hroot⟩
    exact ⟨ReflTransGen.head hxy hr, hroot⟩

/-- Connected numbers lead to the same root. -/
theorem leads_connected (h : Forest links) (hxy : Connected (Linked links) x y) {r : ℕ} :
    Leads links x r ↔ Leads links y r := by
  induction hxy with
  | rel x y hxy => exact h.leads_linked hxy
  | refl x => exact Iff.rfl
  | symm x y _ ih => exact ih.symm
  | trans x y z _ _ ih₁ ih₂ => exact ih₁.trans ih₂

/-- A root leads to itself. -/
theorem leads_root (hx : x ∉ children links) : Leads links x x := ⟨ReflTransGen.refl, hx⟩

/-- What is reached over links is connected. -/
theorem connected_of_reach (h : ReflTransGen (Linked links) x y) : Connected (Linked links) x y := by
  induction h with
  | refl => exact Connected.refl x
  | tail _ hlink ih => exact ih.trans (Connected.of_rel hlink)

/-- A root is the least number of its component. -/
theorem root_le (h : Forest links) (hx : x ∉ children links) (hxy : Connected (Linked links) x y) : x ≤ y :=
  Leads.le h ((h.leads_connected hxy).mp (leads_root hx)).1

/-- Connected roots are equal. -/
theorem root_unique (h : Forest links) (hx : x ∉ children links) (hy : y ∉ children links)
    (hxy : Connected (Linked links) x y) : x = y :=
  le_antisymm (h.root_le hx hxy) (h.root_le hy hxy.symm)

/-- Every vertex is connected with a root that is not greater. -/
theorem exists_root (h : Forest links) (x : ℕ) : ∃ r ≤ x, r ∉ children links ∧ Connected (Linked links) x r := by
  obtain ⟨r, hr, hroot⟩ := h.exists_leads x
  exact ⟨r, Leads.le h hr, hroot, connected_of_reach hr⟩

/-- Numbers with a link are not least. -/
theorem mem_children_iff (h : Forest links) : x ∈ children links ↔ ∃ y < x, Connected (Linked links) x y := by
  constructor
  · intro hx
    obtain ⟨y, hy⟩ := mem_children.mp hx
    exact ⟨y, h.decreasing x y hy, Connected.of_rel hy⟩
  · rintro ⟨y, hyx, hxy⟩
    by_contra hx
    exact absurd (h.root_le hx hxy) (not_le.mpr hyx)

/-- The links and the components together are as many as the numbers. -/
theorem length_add_components (h : Forest links) (hn : ∀ x ∈ children links, x < n)
    (hr : ∀ x y, Connected r x y ↔ Connected (Linked links) x y) : links.length + components n r = n := by
  have hmem : ∀ x, x ∈ (Finset.range n).filter (· ∉ children links) ↔ x < n ∧ x ∉ children links := by simp
  have hroots : ((Finset.range n).filter (· ∉ children links)).card = components n r := by
    rw [← Fintype.card_coe, ← Nat.card_eq_fintype_card]
    refine Nat.card_eq_of_bijective (fun x => Quotient.mk _ ⟨x.1, ((hmem x.1).mp x.2).1⟩)
      ⟨fun x y hxy => ?_, fun q => ?_⟩
    · have hconn : Connected r x.1 y.1 := Quotient.exact hxy
      exact Subtype.ext (h.root_unique ((hmem _).mp x.2).2 ((hmem _).mp y.2).2 ((hr _ _).mp hconn))
    · obtain ⟨x, rfl⟩ := Quotient.exists_rep q
      obtain ⟨y, hle, hroot, hconn⟩ := h.exists_root x.val
      refine ⟨⟨y, (hmem y).mpr ⟨hle.trans_lt x.2, hroot⟩⟩, Quotient.sound ?_⟩
      exact ((hr _ _).mpr hconn).symm
  have hlinked : ((Finset.range n).filter (· ∈ children links)).card = links.length := by
    have hfilter : (Finset.range n).filter (· ∈ children links) = (children links).toFinset := by
      ext x
      simp only [Finset.mem_filter, Finset.mem_range, List.mem_toFinset, and_iff_right_iff_imp]
      exact hn x
    rw [hfilter, List.toFinset_card_of_nodup h.nodup]
    exact List.length_map _
  rw [← hlinked, ← hroots, Finset.card_filter_add_card_filter_not, Finset.card_range]

end Forest

end LinkForest
