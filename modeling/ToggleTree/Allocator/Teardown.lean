import Mathlib.Data.List.FinRange
import ToggleTree.Allocator.Safety

/-!
# The end of the allocator

The destructor walks through the chains of all caches and gives their blocks back to the system: it
reads the first word of a block and frees the block. A block that was freed before, or that was never
obtained, would make the program's behaviour undefined.
-/

namespace ToggleTree

namespace Pool

open Checked

/-- How the destructor ends: with the blocks that the system has not got back, with an access to a
block that is not allocated, or not within the fuel. -/
inductive Teardown
  | freed (block : ℕ → Option ℕ)
  | invalid
  | unfinished

/-- `free_chain` -/
def freeChain (next : ℕ → Option ℕ) : ℕ → Option ℕ → (ℕ → Option ℕ) → Teardown
  | _, none, block => .freed block
  | 0, some _, _ => .unfinished
  | fuel + 1, some p, block =>
    if block p = none then .invalid else freeChain next fuel (next p) (Function.update block p none)

/-- Frees one chain after the other. -/
def freeChains (next : ℕ → Option ℕ) (fuel : ℕ) : List (Option ℕ) → (ℕ → Option ℕ) → Teardown
  | [], block => .freed block
  | head :: heads, block =>
    match freeChain next fuel head block with
    | .freed block' => freeChains next fuel heads block'
    | outcome => outcome

/-- The slots of all caches, in the order of the destructor. -/
def slots (W : ℕ) : List (Slot (Fin W)) :=
  (List.finRange W).flatMap (fun w => (List.range (64 - threshold1)).map fun i => .own w (i + threshold1)) ++
    (List.range (64 - threshold2)).map fun i => .shared (i + threshold2)

/-- `~Pool` -/
def State.destroy {W : ℕ} (fuel : ℕ) (s : State (Fin W)) : Teardown :=
  freeChains s.next fuel ((slots W).map s.head) s.block

section Chains

variable {next block : ℕ → Option ℕ} {head : Option ℕ} {l : List ℕ} {fuel : ℕ}

/-- A chain of allocated blocks is freed, and nothing else. -/
theorem freeChain_eq (hchain : Chain next head l) (hnodup : l.Nodup) (hblock : ∀ p ∈ l, block p ≠ none)
    (hfuel : l.length ≤ fuel) : freeChain next fuel head block = .freed fun p => if p ∈ l then none
    else block p := by
  induction l generalizing head block fuel with
  | nil =>
    obtain rfl : head = none := hchain
    cases fuel <;> rfl
  | cons p l ih =>
    obtain ⟨rfl, hrest⟩ := hchain
    obtain ⟨fuel, rfl⟩ := Nat.exists_eq_add_of_le' (Nat.le_trans (Nat.succ_le_succ (Nat.zero_le _)) hfuel)
    obtain ⟨hp, hl⟩ := List.nodup_cons.mp hnodup
    have hkeep : ∀ q ∈ l, Function.update block p none q ≠ none := by
      intro q hq
      have hne : q ≠ p := fun heq => hp (heq ▸ hq)
      rw [Function.update_of_ne hne]
      exact hblock q (List.mem_cons_of_mem p hq)
    rw [freeChain, if_neg (hblock p List.mem_cons_self), ih hrest hl hkeep (Nat.le_of_succ_le_succ hfuel)]
    congr 1
    funext q
    by_cases hq : q = p
    · rw [hq, if_neg hp, if_pos List.mem_cons_self, Function.update_self]
    · by_cases hmem : q ∈ l
      · rw [if_pos hmem, if_pos (List.mem_cons_of_mem p hmem)]
      · rw [if_neg hmem, if_neg fun h => (List.mem_cons.mp h).elim hq hmem, Function.update_of_ne hq]

/-- Chains that have no block in common are freed one after the other. -/
theorem freeChains_eq {ι : Type} {heads : ι → Option ℕ} {chains : ι → List ℕ} {order : List ι}
    (horder : order.Nodup) (hchain : ∀ x, Chain next (heads x) (chains x)) (hnodup : ∀ x, (chains x).Nodup)
    (hdisjoint : ∀ x y p, p ∈ chains x → p ∈ chains y → x = y)
    (hblock : ∀ x ∈ order, ∀ p ∈ chains x, block p ≠ none)
    (hfuel : ∀ x ∈ order, (chains x).length ≤ fuel) :
    ∃ block', freeChains next fuel (order.map heads) block = .freed block' ∧
      (∀ x ∈ order, ∀ p ∈ chains x, block' p = none) ∧ ∀ p, (∀ x ∈ order, p ∉ chains x) → block' p = block p := by
  induction order generalizing block with
  | nil => exact ⟨block, rfl, fun x hx => (List.not_mem_nil hx).elim, fun _ _ => rfl⟩
  | cons x order ih =>
    obtain ⟨hx, horder⟩ := List.nodup_cons.mp horder
    have hfirst := freeChain_eq (hchain x) (hnodup x) (hblock x List.mem_cons_self) (hfuel x List.mem_cons_self)
    have hkeep : ∀ y ∈ order, ∀ p ∈ chains y, (if p ∈ chains x then none else block p) ≠ none := by
      intro y hy p hp
      rw [if_neg fun hpx => hx (hdisjoint x y p hpx hp ▸ hy)]
      exact hblock y (List.mem_cons_of_mem x hy) p hp
    obtain ⟨block', heq, hfreed, hother⟩ := ih horder hkeep fun y hy => hfuel y (List.mem_cons_of_mem x hy)
    refine ⟨block', ?_, fun y hy p hp => ?_, fun p hp => ?_⟩
    · rw [List.map_cons, freeChains, hfirst]
      exact heq
    · rcases List.mem_cons.mp hy with rfl | hy
      · have hnone : ∀ z ∈ order, p ∉ chains z := fun z hz hpz => hx (hdisjoint y z p hp hpz ▸ hz)
        rw [hother p hnone, if_pos hp]
      · exact hfreed y hy p hp
    · rw [hother p fun y hy => hp y (List.mem_cons_of_mem x hy), if_neg (hp x List.mem_cons_self)]

end Chains

/-- The call uses the global cache only for a class that it has. -/
def Control.Shares : Control → Prop
  | .tryPop bytes | .readGlobal bytes | .followGlobal bytes _ | .popGlobal bytes _ _ | .tryPush bytes _
  | .linkGlobal bytes _ | .pushGlobal bytes _ => threshold2 ≤ bucketOf bytes
  | _ => True

/-- The size classes that occur are those for which the caches have slots. -/
structure Classed {W : Type} (s : State W) : Prop where
  block : ∀ p b, s.block p = some b → threshold1 ≤ b ∧ b < 64
  shared : ∀ b p, s.globalCache b = some p → threshold2 ≤ b
  calls : ∀ w, (s.control w).Shares

/-- Every size class is at least the first threshold. -/
theorem threshold1_le_bucketOf {bytes : ℕ} : threshold1 ≤ bucketOf bytes := by
  unfold bucketOf
  split
  · exact le_rfl
  · next h =>
    rw [threshold1, Nat.one_shiftLeft] at h
    exact (Nat.lt_size.mpr (by omega : 2 ^ 6 ≤ bytes - 1)).le

section Classes

variable {W : Type} [DecidableEq W] {s s' : State W} {w : W} {c : Control} {p bytes : ℕ}

/-- A worker goes to another point of its call. -/
theorem Classed.goto (h : Classed s) (hc : c.Shares) : Classed (s.goto w c) where
  block := h.block
  shared := h.shared
  calls v := by
    change (Function.update s.control w c v).Shares
    by_cases hv : v = w
    · rwa [hv, Function.update_self]
    · rw [Function.update_of_ne hv]
      exact h.calls v

omit [DecidableEq W] in
/-- Setting what a client holds keeps the size classes. -/
theorem Classed.setLive (h : Classed s) (x : Option ℕ) : Classed (s.setLive p x) := ⟨h.block, h.shared, h.calls⟩

omit [DecidableEq W] in
/-- Setting a link keeps the size classes. -/
theorem Classed.setNext (h : Classed s) (x : Option ℕ) : Classed (s.setNext p x) := ⟨h.block, h.shared, h.calls⟩

omit [DecidableEq W] in
/-- Setting the lock keeps the size classes. -/
theorem Classed.setLock (h : Classed s) (x : Bool) : Classed (s.setLock x) := ⟨h.block, h.shared, h.calls⟩

/-- Setting the head of a chain of a worker keeps the size classes. -/
theorem Classed.setLocal (h : Classed s) (b : ℕ) (x : Option ℕ) : Classed (s.setLocal w b x) :=
    ⟨h.block, h.shared, h.calls⟩

omit [DecidableEq W] in
/-- Setting the head of a shared chain of a shared class keeps the size classes. -/
theorem Classed.setGlobal (h : Classed s) {b : ℕ} (hb : threshold2 ≤ b) (x : Option ℕ) :
    Classed (s.setGlobal b x) where
  block := h.block
  shared a p hp := by
    change Function.update s.globalCache b x a = some p at hp
    by_cases ha : a = b
    · rwa [ha]
    · rw [Function.update_of_ne ha] at hp
      exact h.shared a p hp
  calls := h.calls

omit [DecidableEq W] in
/-- Giving a block a size class between the thresholds keeps the size classes. -/
theorem Classed.setBlock (h : Classed s) {x : Option ℕ} (hx : ∀ b, x = some b → threshold1 ≤ b ∧ b < 64) :
    Classed (s.setBlock p x) where
  block q b hq := by
    change Function.update s.block p x q = some b at hq
    by_cases heq : q = p
    · rw [heq, Function.update_self] at hq
      exact hx b hq
    · rw [Function.update_of_ne heq] at hq
      exact h.block q b hq
  shared := h.shared
  calls := h.calls

/-- Handing out a block keeps the size classes. -/
theorem Classed.hand (h : Classed s) : Classed (s.hand w bytes p) := (h.setLive _).goto trivial

/-- An access of a worker keeps the size classes. -/
theorem Classed.access (h : Classed s) (hinv : Inv s) (w : W) (fresh : ℕ) :
    Classed (s.access w fresh (s.control w)) := by
  have hshares := h.calls w
  have hfits := hinv.2.fits w
  generalize s.control w = c at hshares hfits
  cases c with
  | idle => exact h
  | readLocal bytes =>
    dsimp only [State.access]
    split
    · exact h.goto trivial
    · refine h.goto ?_
      split
      · next hlarge => exact hlarge
      · trivial
  | followLocal bytes p => exact h.goto trivial
  | popLocal bytes p next => exact (h.setLocal _ _).hand
  | tryPop bytes =>
    dsimp only [State.access]
    split
    · exact h.goto trivial
    · exact (h.setLock _).goto hshares
  | readGlobal bytes =>
    dsimp only [State.access]
    split
    · exact h.goto hshares
    · exact h.goto trivial
  | followGlobal bytes p => exact h.goto hshares
  | popGlobal bytes p next => exact (h.setGlobal hshares _).goto trivial
  | unlockPop bytes found =>
    cases found with
    | none => exact (h.setLock _).goto trivial
    | some p => exact (h.setLock _).hand
  | obtain bytes =>
    refine (h.setBlock fun b hb => ?_).hand
    obtain rfl := Option.some.inj hb
    exact ⟨threshold1_le_bucketOf, bucketOf_lt hfits⟩
  | checkLocal bytes p =>
    dsimp only [State.access]
    split
    · exact h.goto trivial
    · next hlarge =>
      rw [not_or, Nat.not_lt] at hlarge
      exact h.goto hlarge.1
  | linkLocal bytes p => exact (h.setNext _).goto trivial
  | pushLocal bytes p => exact (h.setLocal _ _).goto trivial
  | tryPush bytes p =>
    dsimp only [State.access]
    split
    · exact h.goto trivial
    · exact (h.setLock _).goto hshares
  | linkGlobal bytes p => exact (h.setNext _).goto hshares
  | pushGlobal bytes p => exact (h.setGlobal hshares _).goto trivial
  | unlockPush => exact (h.setLock _).goto trivial
  | discard p => exact (h.setBlock fun b hb => (Option.some_ne_none b hb.symm).elim).goto trivial

/-- The size classes are in order in every reachable state. -/
theorem Reachable.classed (h : Reachable s) : Classed s := by
  induction h with
  | init => exact ⟨fun _ _ hp => (Option.some_ne_none _ hp.symm).elim, fun _ _ hp =>
    (Option.some_ne_none _ hp.symm).elim,
      fun _ => trivial⟩
  | @step s s' hreach hstep ih =>
    cases hstep with
    | allocate _ _ _ => exact ih.goto trivial
    | deallocate _ _ => exact (ih.setLive _).goto trivial
    | write q _ => exact ih.setNext q
    | access w fresh _ => exact ih.access hreach.inv w fresh

end Classes

section Slots

variable {W : ℕ} {x : Slot (Fin W)}

/-- No chain is listed twice. -/
theorem nodup_slots : (slots W).Nodup := by
  have hown (w : Fin W) : ((List.range (64 - threshold1)).map fun i => Slot.own w (i + threshold1)).Nodup :=
    List.nodup_range.map fun i j h => Nat.add_right_cancel (Slot.own.inj h).2
  refine List.Nodup.append ?_ ?_ ?_
  · refine List.nodup_flatMap.mpr ⟨fun w _ => hown w, (List.nodup_finRange W).imp fun {v w} hne => ?_⟩
    intro x hv hw
    obtain ⟨i, _, rfl⟩ := List.mem_map.mp hv
    obtain ⟨j, _, heq⟩ := List.mem_map.mp hw
    exact hne (Slot.own.inj heq).1.symm
  · exact List.nodup_range.map fun i j h => Nat.add_right_cancel (Slot.shared.inj h)
  · intro x hown hshared
    obtain ⟨w, _, hx⟩ := List.mem_flatMap.mp hown
    obtain ⟨i, _, rfl⟩ := List.mem_map.mp hx
    obtain ⟨j, _, heq⟩ := List.mem_map.mp hshared
    cases heq

/-- Every slot that can hold a chain is visited. -/
theorem mem_slots (hsmall : threshold1 ≤ x.bucket) (hlarge : x.bucket < 64)
    (hshared : ∀ b, x = .shared b → threshold2 ≤ b) :
    x ∈ slots W := by
  cases x with
  | own w b =>
    have hb : threshold1 ≤ b := hsmall
    refine List.mem_append_left _ (List.mem_flatMap.mpr
      ⟨w, List.mem_finRange w, List.mem_map.mpr ⟨b - threshold1, ?_, ?_⟩⟩)
    · exact List.mem_range.mpr (Nat.sub_lt_sub_right hb hlarge)
    · rw [Nat.sub_add_cancel hb]
  | shared b =>
    have hb := hshared b rfl
    refine List.mem_append_right _ (List.mem_map.mpr ⟨b - threshold2, ?_, ?_⟩)
    · exact List.mem_range.mpr (Nat.sub_lt_sub_right hb hlarge)
    · rw [Nat.sub_add_cancel hb]

/-- With no call under way the destructor comes to an end and has freed what no client holds. -/
theorem Reachable.exists_destroy {s : State (Fin W)} (h : Reachable s) (hidle : ∀ w, s.control w = .idle) :
    ∃ fuel block, s.destroy fuel = .freed block ∧ ∀ p, block p = if s.live p = none then none else s.block p := by
  have hclassed := h.classed
  obtain ⟨⟨owner, chains, hbooks⟩, _⟩ := h.inv
  have hdisjoint : ∀ x y p, p ∈ chains x → p ∈ chains y → x = y := by
    intro x y p hx hy
    rw [hbooks.mem] at hx hy
    exact Owner.chain.inj (Option.some.inj (hx.symm.trans hy))
  have hblock : ∀ x ∈ slots W, ∀ p ∈ chains x, s.block p ≠ none := by
    intro x _ p hp hnone
    rw [hbooks.block, (hbooks.mem x p).mp hp] at hnone
    cases hnone
  have hfuel : ∀ x ∈ slots W, (chains x).length ≤ ((slots W).map fun x => (chains x).length).sum := fun x hx =>
    List.le_sum_of_mem (List.mem_map_of_mem hx)
  obtain ⟨block, heq, hfreed, hother⟩ :=
    freeChains_eq nodup_slots hbooks.chain hbooks.nodup hdisjoint hblock hfuel
  refine ⟨_, block, heq, fun p => ?_⟩
  cases howner : owner p with
  | none =>
    have hnowhere : ∀ x ∈ slots W, p ∉ chains x := by
      intro x _ hp
      rw [hbooks.mem, howner] at hp
      cases hp
    rw [hother p hnowhere, (hbooks.block p).mpr howner, ite_self]
  | some o =>
    cases o with
    | live =>
      have hnowhere : ∀ x ∈ slots W, p ∉ chains x := by
        intro x _ hp
        rw [hbooks.mem, howner] at hp
        cases hp
      rw [hother p hnowhere, if_neg ((hbooks.live p).mpr howner)]
    | call w =>
      have hheld := (hbooks.held w p).mpr howner
      rw [hidle w] at hheld
      cases hheld
    | chain x =>
      have hlive : s.live p = none := by
        by_contra hne
        have hheld := (hbooks.live p).mp hne
        rw [howner] at hheld
        cases hheld
      have hp := (hbooks.mem x p).mpr howner
      obtain ⟨hsmall, hlarge⟩ := hclassed.block p _ (hbooks.bucket x p howner)
      have hx : x ∈ slots W := by
        refine mem_slots hsmall hlarge ?_
        rintro b rfl
        have hchain := hbooks.chain (.shared b)
        cases hhead : s.globalCache b with
        | none =>
          cases hl : chains (.shared b) with
          | nil =>
            rw [hl] at hp
            cases hp
          | cons q l =>
            rw [hl] at hchain
            cases hhead.symm.trans hchain.1
        | some q => exact hclassed.shared b q hhead
      rw [hfreed x hx p hp, if_pos hlive]

/-- When no call is in flight the destructor frees exactly the blocks that no client holds, each of
them once, and it reads allocated blocks only. -/
theorem reachable_destroy {s : State (Fin W)} (h : Reachable s) (hidle : ∀ w, s.control w = .idle) :
    ∃ fuel block, s.destroy fuel = .freed block ∧ ∀ p, block p = if s.live p = none then none else s.block p :=
  h.exists_destroy hidle

/-- A block of 128 bytes that has been freed is in the cache of its worker, and the destructor finds it. -/
theorem reachable_destroy_one : ∃ s : State (Fin 1), s.block 7 = some 7 ∧
    ∃ fuel block, s.destroy fuel = .freed block ∧ ∀ p, block p = if s.live p = none then none else s.block p := by
  have hcall : Reachable ((State.init (Fin 1)).goto 0 (.readLocal 100)) :=
    Reachable.init.step (Step.allocate rfl (by decide) (by decide))
  have hread := hcall.step (Step.access 0 7 fun _ _ => rfl)
  have hobtained := hread.step (Step.access 0 7 fun _ _ => rfl)
  have hfree := hobtained.step (Step.deallocate (w := 0) (p := 7) rfl rfl)
  have hchecked := hfree.step (Step.access 0 7 nofun)
  have hlinked := hchecked.step (Step.access 0 7 nofun)
  have hpushed := hlinked.step (Step.access 0 7 nofun)
  exact ⟨_, rfl, reachable_destroy hpushed fun w => by
    rw [Subsingleton.elim w 0]
    rfl⟩

end Slots

end Pool

end ToggleTree
