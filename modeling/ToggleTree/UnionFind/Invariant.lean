import ToggleTree.UnionFind.Program

/-!
# The invariant of concurrent union–find

Plain writes only go to vertices that have been linked, and what they write is a smaller vertex of
the same component, however old it is. So a root only changes when it is linked, and the links
form a forest whose roots are the roots of the array.
-/

namespace ToggleTree

open LinkForest

namespace UnionFind

variable {C : Type} {maxValue n : ℕ} {calls : C → Call} {links links' : List (ℕ × ℕ)} {a b i j x y : ℕ}

/-- A call of `find_halve` for `a`. -/
def Halve.Good (links : List (ℕ × ℕ)) (n a : ℕ) : Halve → Prop
  | readParent x => x < n ∧ Connected (Linked links) a x
  | readGrandparent x px => x < n ∧ px ≤ x ∧ Connected (Linked links) a x ∧ Connected (Linked links) x px ∧
      (px ≠ x → x ∈ children links)
  | writeParent x ppx => ppx < x ∧ x < n ∧ Connected (Linked links) a x ∧ Connected (Linked links) x ppx ∧
    x ∈ children links

/-- The two vertices belong to the two that were passed, in some order. -/
def Joins (links : List (ℕ × ℕ)) (a b i j : ℕ) : Prop :=
  Connected (Linked links) a i ∧ Connected (Linked links) b j ∨ Connected (Linked links) b i ∧
    Connected (Linked links) a j

/-- What a call knows. -/
def Local.Good (links : List (ℕ × ℕ)) (maxValue n : ℕ) : Call → Local → Prop
  | .unite a b, halveI h j => j < n ∧ ∃ i, h.Good links n i ∧ Joins links a b i j
  | .unite a b, halveJ i h => i < n ∧ ∃ j, h.Good links n j ∧ Joins links a b i j
  | .unite a b, check i j => j < i ∧ i < n ∧ Joins links a b i j
  | .unite a b, exchange i j => j < i ∧ i < n ∧ Joins links a b i j
  | .unite a b, returned v => Connected (Linked links) a b ∧ (v = maxValue ∨ v ∈ children links)
  | .find a, findParent i => i = a ∧ i < n
  | .find a, findGrandparent i pi => i = a ∧ i < n ∧ pi ≤ i ∧ Connected (Linked links) i pi ∧
    (pi ≠ i → i ∈ children links)
  | .find a, findClimb i pi => i = a ∧ i < n ∧ pi < i ∧ Connected (Linked links) i pi ∧ i ∈ children links
  | .find a, findWrite i pi => i = a ∧ i < n ∧ pi < i ∧ Connected (Linked links) i pi ∧ i ∈ children links
  | .find a, returned v => Connected (Linked links) a v
  | _, _ => False

/-- The array belongs to the forest of the links. -/
structure Follows (links : List (ℕ × ℕ)) (n : ℕ) (parent : ℕ → ℕ) : Prop where
  le : ∀ x < n, parent x ≤ x
  connected : ∀ x < n, Connected (Linked links) x (parent x)
  root_iff : ∀ x < n, parent x = x ↔ x ∉ children links

/-- More links have more children. -/
theorem children_mono (h : ∀ l ∈ links, l ∈ links') (hx : x ∈ children links) : x ∈ children links' := by
  obtain ⟨y, hy⟩ := mem_children.mp hx
  exact mem_children.mpr ⟨y, h _ hy⟩

/-- What has been joined stays so. -/
theorem Joins.mono (h : ∀ l ∈ links, l ∈ links') (hj : Joins links a b i j) : Joins links' a b i j :=
  hj.imp (fun ⟨h₁, h₂⟩ => ⟨h₁.links_mono h, h₂.links_mono h⟩) fun ⟨h₁, h₂⟩ => ⟨h₁.links_mono h, h₂.links_mono h⟩

/-- A halving stays good when links are added. -/
theorem Halve.Good.mono (h : ∀ l ∈ links, l ∈ links') {q : Halve} (hq : q.Good links n a) :
    q.Good links' n a := by
  cases q with
  | readParent x => exact ⟨hq.1, hq.2.links_mono h⟩
  | readGrandparent x px =>
    obtain ⟨hx, hle, ha, hp, hne⟩ := hq
    exact ⟨hx, hle, ha.links_mono h, hp.links_mono h, fun hpx => children_mono h (hne hpx)⟩
  | writeParent x ppx =>
    obtain ⟨hlt, hx, ha, hp, hmem⟩ := hq
    exact ⟨hlt, hx, ha.links_mono h, hp.links_mono h, children_mono h hmem⟩

/-- What a call knows stays true when links are added. -/
theorem Local.Good.mono (h : ∀ l ∈ links, l ∈ links') {call : Call} {l : Local}
    (hl : l.Good links maxValue n call) :
    l.Good links' maxValue n call := by
  cases call with
  | unite a b =>
    cases l with
    | halveI q j =>
      obtain ⟨hj, i, hq, hjoin⟩ := hl
      exact ⟨hj, i, hq.mono h, hjoin.mono h⟩
    | halveJ i q =>
      obtain ⟨hi, j, hq, hjoin⟩ := hl
      exact ⟨hi, j, hq.mono h, hjoin.mono h⟩
    | check i j => exact ⟨hl.1, hl.2.1, hl.2.2.mono h⟩
    | exchange i j => exact ⟨hl.1, hl.2.1, hl.2.2.mono h⟩
    | returned v => exact ⟨hl.1.links_mono h, hl.2.imp id (children_mono h)⟩
    | _ => exact hl
  | find a =>
    cases l with
    | findGrandparent i pi =>
      obtain ⟨hia, hi, hle, hconn, hne⟩ := hl
      exact ⟨hia, hi, hle, hconn.links_mono h, fun hp => children_mono h (hne hp)⟩
    | findClimb i pi => exact ⟨hl.1, hl.2.1, hl.2.2.1, hl.2.2.2.1.links_mono h, children_mono h hl.2.2.2.2⟩
    | findWrite i pi => exact ⟨hl.1, hl.2.1, hl.2.2.1, hl.2.2.2.1.links_mono h, children_mono h hl.2.2.2.2⟩
    | returned v => exact Connected.links_mono h hl
    | _ => exact hl

namespace Follows

variable {parent : ℕ → ℕ}

/-- A vertex with another parent has been linked. -/
theorem mem_children (h : Follows links n parent) (hx : x < n) (hp : parent x ≠ x) : x ∈ children links := by
  by_contra hroot
  exact hp ((h.root_iff x hx).mpr hroot)

/-- The parent of a linked vertex is less. -/
theorem lt_of_ne (h : Follows links n parent) (hx : x < n) (hp : parent x ≠ x) : parent x < x :=
  lt_of_le_of_ne (h.le x hx) hp

/-- A plain write to a linked vertex. -/
theorem write (h : Follows links n parent) (hmem : x ∈ children links) (hlt : y < x)
    (hconn : Connected (Linked links) x y) :
    Follows links n (Function.update parent x y) := by
  refine ⟨fun z hz => ?_, fun z hz => ?_, fun z hz => ?_⟩
  all_goals
    by_cases hzx : z = x
    · subst hzx
      rw [Function.update_self]
      first
        | exact hlt.le
        | exact hconn
        | exact ⟨fun heq => absurd heq hlt.ne, fun hroot => absurd hmem hroot⟩
    · rw [Function.update_of_ne hzx]
      first
        | exact h.le z hz
        | exact h.connected z hz
        | exact h.root_iff z hz

/-- A root is linked to a smaller vertex. -/
theorem link (h : Follows links n parent) (hlt : y < x) :
    Follows ((x, y) :: links) n (Function.update parent x y) := by
  have hsub : ∀ l ∈ links, l ∈ (x, y) :: links := fun l hl => List.mem_cons_of_mem _ hl
  refine ⟨fun z hz => ?_, fun z hz => ?_, fun z hz => ?_⟩
  · by_cases hzx : z = x
    · rw [hzx, Function.update_self]
      exact hlt.le
    · rw [Function.update_of_ne hzx]
      exact h.le z hz
  · by_cases hzx : z = x
    · rw [hzx, Function.update_self]
      exact Connected.of_rel List.mem_cons_self
    · rw [Function.update_of_ne hzx]
      exact (h.connected z hz).links_mono hsub
  · simp only [children, List.map_cons, List.mem_cons, not_or]
    by_cases hzx : z = x
    · rw [hzx, Function.update_self]
      exact ⟨fun heq => absurd heq hlt.ne, fun hroot => absurd rfl hroot.1⟩
    · rw [Function.update_of_ne hzx, h.root_iff z hz]
      exact ⟨fun hroot => ⟨hzx, hroot⟩, fun hroot => hroot.2⟩

end Follows

/-- What one access does to the array and the links. -/
inductive Effect (links : List (ℕ × ℕ)) (n : ℕ) (parent : ℕ → ℕ) : (ℕ → ℕ) → Option (ℕ × ℕ) → Prop
  | none : Effect links n parent parent none
  | write {x y : ℕ} (hmem : x ∈ children links) (hlt : y < x) (hconn : Connected (Linked links) x y) :
      Effect links n parent (Function.update parent x y) none
  | link {i j : ℕ} (hi : i < n) (hlt : j < i) (hroot : parent i = i) :
    Effect links n parent (Function.update parent i j) (some (i, j))

/-- One access of `find_halve`. -/
theorem Halve.Good.step {parent : ℕ → ℕ} {q : Halve} (hq : q.Good links n a) (hf : Follows links n parent) :
    Effect links n parent (q.step parent).2 none ∧
      (∀ q', (q.step parent).1 = .inl q' → q'.Good links n a) ∧
      ∀ r, (q.step parent).1 = .inr r → r < n ∧ Connected (Linked links) a r := by
  cases q with
  | readParent x =>
    obtain ⟨hx, hconn⟩ := hq
    refine ⟨.none, fun q' heq => ?_, fun r heq => by cases heq⟩
    cases heq
    exact ⟨hx, hf.le x hx, hconn, hf.connected x hx, hf.mem_children hx⟩
  | readGrandparent x px =>
    obtain ⟨hx, hle, hconn, hp, hne⟩ := hq
    have hpx : px < n := hle.trans_lt hx
    by_cases heq : px = parent px
    · rw [Halve.step, if_pos heq]
      refine ⟨.none, fun q' h => (by cases h), fun r h => ?_⟩
      cases h
      exact ⟨hpx, hconn.trans hp⟩
    · rw [Halve.step, if_neg heq]
      refine ⟨.none, fun q' h => ?_, fun r h => by cases h⟩
      cases h
      have hlt := hf.lt_of_ne hpx (Ne.symm heq)
      refine ⟨hlt.trans_le hle, hx, hconn, hp.trans (hf.connected px hpx), ?_⟩
      -- either `x` had a smaller parent before, or it has lost its place as a root since
      by_cases hpx' : px = x
      · rw [← hpx']
        exact hf.mem_children hpx (Ne.symm heq)
      · exact hne hpx'
  | writeParent x ppx =>
    obtain ⟨hlt, hx, hconn, hp, hmem⟩ := hq
    refine ⟨.write hmem hlt hp, fun q' heq => ?_, fun r heq => by cases heq⟩
    cases heq
    exact ⟨hlt.trans hx, hconn.trans hp⟩

/-- The two roots decide what `unite` does next. -/
theorem good_compare (hi : i < n) (hj : j < n) (h : Joins links a b i j) :
    (compare maxValue i j).Good links maxValue n (.unite a b) := by
  unfold compare
  by_cases heq : i = j
  · rw [if_pos heq]
    subst heq
    refine ⟨?_, Or.inl rfl⟩
    rcases h with ⟨ha, hb⟩ | ⟨hb, ha⟩
    · exact ha.trans hb.symm
    · exact ha.trans hb.symm
  · rw [if_neg heq]
    by_cases hlt : i < j
    · rw [if_pos hlt]
      exact ⟨hlt, hj, h.symm.imp And.symm And.symm⟩
    · rw [if_neg hlt]
      exact ⟨by omega, hi, h⟩

/-- The links after an access. -/
def linksAfter (links : List (ℕ × ℕ)) (made : Option (ℕ × ℕ)) : List (ℕ × ℕ) := made.toList ++ links

/-- The links that were made stay. -/
theorem mem_linksAfter {made : Option (ℕ × ℕ)} : ∀ l ∈ links, l ∈ linksAfter links made :=
  fun _ hl => List.mem_append_right _ hl

/-- One access keeps what the call knows, and has one of the effects. -/
theorem Local.Good.step {parent : ℕ → ℕ} {call : Call} {l : Local} (hl : l.Good links maxValue n call)
    (hf : Follows links n parent) :
    Effect links n parent (l.step maxValue parent).2.1 (l.step maxValue parent).2.2 ∧
      (l.step maxValue parent).1.Good (linksAfter links (l.step maxValue parent).2.2) maxValue n call := by
  cases call with
  | unite a b =>
    cases l with
    | halveI q j =>
      obtain ⟨hj, i, hq, hjoin⟩ := hl
      obtain ⟨heffect, hnext, hroot⟩ := hq.step hf
      rw [Local.step]
      rcases hstep : q.step parent with ⟨q' | r, parent'⟩
      · rw [hstep] at heffect hnext
        exact ⟨heffect, hj, i, hnext q' rfl, hjoin⟩
      · rw [hstep] at heffect hroot
        obtain ⟨hr, hconn⟩ := hroot r rfl
        refine ⟨heffect, hr, j, ⟨hj, Connected.refl j⟩, hjoin.imp ?_ ?_⟩
        · exact fun h => ⟨h.1.trans hconn, h.2⟩
        · exact fun h => ⟨h.1.trans hconn, h.2⟩
    | halveJ i q =>
      obtain ⟨hi, j, hq, hjoin⟩ := hl
      obtain ⟨heffect, hnext, hroot⟩ := hq.step hf
      rw [Local.step]
      rcases hstep : q.step parent with ⟨q' | r, parent'⟩
      · rw [hstep] at heffect hnext
        exact ⟨heffect, hi, j, hnext q' rfl, hjoin⟩
      · rw [hstep] at heffect hroot
        obtain ⟨hr, hconn⟩ := hroot r rfl
        refine ⟨heffect, good_compare hi hr (hjoin.imp ?_ ?_)⟩
        · exact fun h => ⟨h.1, h.2.trans hconn⟩
        · exact fun h => ⟨h.1, h.2.trans hconn⟩
    | check i j =>
      obtain ⟨hlt, hi, hjoin⟩ := hl
      rw [Local.step]
      split
      · exact ⟨.none, hlt.trans hi, i, ⟨hi, Connected.refl i⟩, hjoin⟩
      · exact ⟨.none, hlt, hi, hjoin⟩
    | exchange i j =>
      obtain ⟨hlt, hi, hjoin⟩ := hl
      rw [Local.step]
      split
      case isTrue hroot =>
        have hlink : Connected (Linked ((i, j) :: links)) i j := Connected.of_rel List.mem_cons_self
        refine ⟨.link hi hlt hroot, ?_, Or.inr (mem_children.mpr ⟨j, List.mem_cons_self⟩)⟩
        have hsub : ∀ l ∈ links, l ∈ linksAfter links (some (i, j)) := mem_linksAfter
        rcases hjoin.mono hsub with ⟨ha, hb⟩ | ⟨hb, ha⟩
        · exact ha.trans (hlink.trans hb.symm)
        · exact ha.trans (hlink.symm.trans hb.symm)
      case isFalse => exact ⟨.none, hlt.trans hi, i, ⟨hi, Connected.refl i⟩, hjoin⟩
    | returned v => exact ⟨.none, hl⟩
    | _ => exact hl.elim
  | find a =>
    cases l with
    | findParent i =>
      obtain ⟨hia, hi⟩ := hl
      exact ⟨.none, hia, hi, hf.le i hi, hf.connected i hi, hf.mem_children hi⟩
    | findGrandparent i pi =>
      obtain ⟨hia, hi, hle, hconn, hne⟩ := hl
      have hpi : pi < n := hle.trans_lt hi
      rw [Local.step]
      split
      case isTrue heq => exact ⟨.none, hia ▸ hconn⟩
      case isFalse heq =>
        have hlt := hf.lt_of_ne hpi (Ne.symm heq)
        refine ⟨.none, hia, hi, hlt.trans_le hle, hconn.trans (hf.connected pi hpi), ?_⟩
        by_cases hpi' : pi = i
        · rw [← hpi']
          exact hf.mem_children hpi (Ne.symm heq)
        · exact hne hpi'
    | findClimb i pi =>
      obtain ⟨hia, hi, hlt, hconn, hmem⟩ := hl
      have hpi : pi < n := hlt.trans hi
      rw [Local.step]
      split
      case isTrue heq =>
        exact ⟨.none, hia, hi, (hf.le pi hpi).trans_lt hlt, hconn.trans (hf.connected pi hpi), hmem⟩
      case isFalse => exact ⟨.none, hia, hi, hlt, hconn, hmem⟩
    | findWrite i pi =>
      obtain ⟨hia, hi, hlt, hconn, hmem⟩ := hl
      exact ⟨.write hmem hlt hconn, hia ▸ hconn⟩
    | returned v => exact ⟨.none, hl⟩
    | _ => exact hl.elim

/-- The invariant of the calls, the array and the links. -/
structure Inv (maxValue n : ℕ) (calls : C → Call) (s : State C) : Prop where
  forest : Forest s.links
  bounded : ∀ x ∈ children s.links, x < n
  follows : Follows s.links n s.parent
  good : ∀ c, (s.calls c).Good s.links maxValue n (calls c)
  /-- Links join vertices that the pairs connect. -/
  justified : ∀ x y, Linked s.links x y → Connected (United calls) x y
  /-- A call of `unite` has returned the vertex of every link. -/
  claimed : ∀ x ∈ children s.links, ∃ c i j, calls c = .unite i j ∧ s.calls c = .returned x
  distinct : ∀ c d v, v ≠ maxValue → (∃ i j, calls c = .unite i j) → (∃ i j, calls d = .unite i j) →
    s.calls c = .returned v → s.calls d = .returned v → c = d

/-- A call is good at its start. -/
theorem good_start {call : Call} (h : call.Within n) : call.start.Good links maxValue n call := by
  cases call with
  | unite i j => exact ⟨h.2, i, ⟨h.1, Connected.refl i⟩, Or.inl ⟨Connected.refl i, Connected.refl j⟩⟩
  | find i => exact ⟨rfl, h⟩

/-- The invariant holds at the start. -/
theorem Inv.init (hcalls : ∀ c, (calls c).Within n) : Inv maxValue n calls (State.init calls) where
  forest := ⟨List.nodup_nil, fun x y h => absurd h List.not_mem_nil⟩
  bounded x hx := absurd hx List.not_mem_nil
  follows :=
    ⟨fun x _ => le_rfl, fun x _ => Connected.refl x, fun x _ => ⟨fun _ => List.not_mem_nil, fun _ => rfl⟩⟩
  good c := good_start (hcalls c)
  justified x y h := absurd h List.not_mem_nil
  claimed x hx := absurd hx List.not_mem_nil
  distinct c d v _ hc _ hcv _ := by
    obtain ⟨i, j, hc⟩ := hc
    simp only [State.init, hc, Call.start] at hcv
    cases hcv

/-- Only a compare-and-set that finds a root makes a link. -/
theorem eq_exchange_of_link {l : Local} {parent : ℕ → ℕ} {made : ℕ × ℕ}
    (h : (l.step maxValue parent).2.2 = some made) :
    l = .exchange made.1 made.2 ∧ parent made.1 = made.1 ∧
      l.step maxValue parent = (.returned made.1, Function.update parent made.1 made.2, some made) := by
  cases l with
  | exchange i j =>
    simp only [Local.step] at h ⊢
    split at h
    case isTrue hroot =>
      cases h
      exact ⟨rfl, hroot, if_pos hroot⟩
    case isFalse => cases h
  | halveI q j =>
    rw [Local.step] at h
    rcases hstep : q.step parent with ⟨q' | r, parent'⟩ <;> rw [hstep] at h <;> cases h
  | halveJ i q =>
    rw [Local.step] at h
    rcases hstep : q.step parent with ⟨q' | r, parent'⟩ <;> rw [hstep] at h <;> cases h
  | check i j =>
    rw [Local.step] at h
    split at h <;> cases h
  | findGrandparent i pi =>
    rw [Local.step] at h
    split at h <;> cases h
  | findClimb i pi =>
    rw [Local.step] at h
    split at h <;> cases h
  | _ => cases h

/-- Without a link `unite` only returns `maxValue`. -/
theorem returned_without_link {l : Local} {parent : ℕ → ℕ} {v : ℕ} (hl : l.Good links maxValue n (.unite a b))
    (hno : (l.step maxValue parent).2.2 = none) (h : (l.step maxValue parent).1 = .returned v) :
    v = maxValue ∨ l = .returned v := by
  cases l with
  | exchange i j =>
    simp only [Local.step] at h hno
    split at h
    case isTrue hroot =>
      rw [if_pos hroot] at hno
      cases hno
    case isFalse => cases h
  | halveI q j =>
    rw [Local.step] at h
    rcases hstep : q.step parent with ⟨q' | r, parent'⟩ <;> rw [hstep] at h <;> cases h
  | halveJ i q =>
    rw [Local.step] at h
    rcases hstep : q.step parent with ⟨q' | r, parent'⟩ <;> rw [hstep] at h
    · cases h
    · simp only [compare] at h
      split at h
      · cases h
        exact Or.inl rfl
      · split at h <;> cases h
  | check i j =>
    rw [Local.step] at h
    split at h <;> cases h
  | returned w => exact Or.inr h
  | _ => exact hl.elim

variable [DecidableEq C]

/-- A call that has returned takes no further step. -/
theorem advance_returned {s : State C} {c d : C} {v : ℕ} (h : s.calls d = .returned v) :
    (s.advance maxValue c).calls d = .returned v := by
  simp only [State.advance]
  by_cases hdc : d = c
  · subst hdc
    rw [Function.update_self, h, Local.step]
  · rw [Function.update_of_ne hdc, h]

/-- The array follows the links after every access. -/
theorem Effect.follows {parent parent' : ℕ → ℕ} {made : Option (ℕ × ℕ)} (h : Effect links n parent parent' made)
    (hf : Follows links n parent) : Follows (linksAfter links made) n parent' := by
  cases h with
  | none => exact hf
  | write hmem hlt hconn => exact hf.write hmem hlt hconn
  | link _ hlt _ => exact hf.link hlt

/-- Every access keeps the invariant. -/
theorem Inv.step {s : State C} (h : Inv maxValue n calls s) (c : C) :
    Inv maxValue n calls (s.advance maxValue c) := by
  obtain ⟨heffect, hgood⟩ := (h.good c).step h.follows
  have hfollows := heffect.follows h.follows
  have hgood' : ∀ d, ((s.advance maxValue c).calls d).Good (s.advance maxValue c).links maxValue n (calls d) := by
    intro d
    by_cases hdc : d = c
    · subst hdc
      simp only [State.advance, Function.update_self]
      exact hgood
    · simp only [State.advance, Function.update_of_ne hdc]
      exact (h.good d).mono mem_linksAfter
  cases hmade : ((s.calls c).step maxValue s.parent).2.2 with
  | none =>
    have hlinks : (s.advance maxValue c).links = s.links := by
      simp only [State.advance, hmade, Option.toList_none, List.nil_append]
    have hback : ∀ d v, v ≠ maxValue → (∃ i j, calls d = .unite i j) →
      (s.advance maxValue c).calls d = .returned v →
        s.calls d = .returned v := by
      intro d v hv hd hdv
      by_cases hdc : d = c
      · subst hdc
        obtain ⟨i, j, hd⟩ := hd
        have hg := h.good d
        rw [hd] at hg
        simp only [State.advance, Function.update_self] at hdv
        exact (returned_without_link hg hmade hdv).resolve_left hv
      · simpa only [State.advance, Function.update_of_ne hdc] using hdv
    refine ⟨by rw [hlinks]; exact h.forest, by rw [hlinks]; exact h.bounded, hfollows,
      hgood', by rw [hlinks]; exact h.justified,
      fun x hx => ?_, fun d e v hv hd he hdv hev => ?_⟩
    · rw [hlinks] at hx
      obtain ⟨d, i, j, hd, hdx⟩ := h.claimed x hx
      exact ⟨d, i, j, hd, advance_returned hdx⟩
    · exact h.distinct d e v hv hd he (hback d v hv hd hdv) (hback e v hv he hev)
  | some made =>
    obtain ⟨i, j⟩ := made
    obtain ⟨hl, hroot, hstep⟩ := eq_exchange_of_link hmade
    have hlinks : (s.advance maxValue c).links = (i, j) :: s.links := by
      simp only [State.advance, hmade, Option.toList_some, List.singleton_append]
    obtain ⟨a, b, hc⟩ : ∃ a b, calls c = .unite a b := by
      have hg := h.good c
      rw [hl] at hg
      cases hcall : calls c with
      | unite a b => exact ⟨a, b, rfl⟩
      | find a =>
        rw [hcall] at hg
        exact hg.elim
    have hgc := h.good c
    rw [hl, hc] at hgc
    obtain ⟨hlt, hi, hjoin⟩ := hgc
    have hnew : i ∉ children s.links := (h.follows.root_iff i hi).mp hroot
    have hci : (s.advance maxValue c).calls c = .returned i := by
      simp only [State.advance, Function.update_self, hstep]
    have hother : ∀ d, d ≠ c → (s.advance maxValue c).calls d = s.calls d := by
      intro d hdc
      simp only [State.advance, Function.update_of_ne hdc]
    refine ⟨?_, ?_, hfollows, hgood', ?_, ?_, ?_⟩
    · rw [hlinks]
      refine ⟨List.nodup_cons.mpr ⟨hnew, h.forest.nodup⟩, fun x y hxy => ?_⟩
      rcases List.mem_cons.mp hxy with heq | hxy
      · cases heq
        exact hlt
      · exact h.forest.decreasing x y hxy
    · rw [hlinks]
      intro x hx
      rcases List.mem_cons.mp hx with rfl | hx
      · exact hi
      · exact h.bounded x hx
    · rw [hlinks]
      intro x y hxy
      rcases List.mem_cons.mp hxy with heq | hxy
      · cases heq
        have hpair : Connected (United calls) a b := Connected.of_rel ⟨c, hc⟩
        rcases hjoin with ⟨ha, hb⟩ | ⟨hb, ha⟩
        · exact (ha.lift h.justified).symm.trans (hpair.trans (hb.lift h.justified))
        · exact (hb.lift h.justified).symm.trans (hpair.symm.trans (ha.lift h.justified))
      · exact h.justified x y hxy
    · rw [hlinks]
      intro x hx
      rcases List.mem_cons.mp hx with rfl | hx
      · exact ⟨c, a, b, hc, hci⟩
      · obtain ⟨d, i', j', hd, hdx⟩ := h.claimed x hx
        exact ⟨d, i', j', hd, advance_returned hdx⟩
    · -- the vertex that is returned now was a root until now, so nobody has returned it before
      have hfresh : ∀ d v, v ≠ maxValue → (∃ i j, calls d = .unite i j) → d ≠ c →
          (s.advance maxValue c).calls d = .returned v → v ≠ i := by
        rintro d v hv ⟨i', j', hd⟩ hdc hdv rfl
        have hg := h.good d
        rw [← hother d hdc, hdv, hd] at hg
        exact hnew (hg.2.resolve_left hv)
      intro d e v hv hd he hdv hev
      by_cases hdc : d = c
      · by_cases hec : e = c
        · rw [hdc, hec]
        · rw [hdc, hci] at hdv
          cases hdv
          exact absurd rfl (hfresh e i hv he hec hev)
      · by_cases hec : e = c
        · rw [hec, hci] at hev
          cases hev
          exact absurd rfl (hfresh d i hv hd hdc hdv)
        · rw [hother d hdc] at hdv
          rw [hother e hec] at hev
          exact h.distinct d e v hv hd he hdv hev

end UnionFind

end ToggleTree
