import ToggleTree.Allocator.Pool

/-!
# The invariant of the allocator

Every block has an owner: a client, a chain, or the call that is moving it. The invariant says what
the chains are, and what a call knows from the accesses it has made: a worker's own caches change by
its own steps only, and the global caches by the steps of the worker that holds the lock.
-/

namespace ToggleTree

namespace Pool

open Checked

/-- The slots that hold the head of a chain. -/
inductive Slot (W : Type)
  | own (w : W) (b : ℕ)
  | shared (b : ℕ)
deriving DecidableEq

/-- Who a block belongs to. -/
inductive Owner (W : Type)
  | live
  | chain (x : Slot W)
  | call (w : W)

/-- The size class of the chain. -/
def Slot.bucket {W : Type} : Slot W → ℕ
  | own _ b | shared b => b

/-- The content of a slot. -/
def State.head {W : Type} (s : State W) : Slot W → Option ℕ
  | .own w b => s.localCache w b
  | .shared b => s.globalCache b

section Bucket

variable {bytes : ℕ}

/-- A block of the size class is large enough for the request. -/
theorem le_two_pow_bucketOf : bytes ≤ 2 ^ bucketOf bytes := by
  unfold bucketOf
  split
  · next h => exact h.trans_eq (Nat.one_shiftLeft _)
  · have := Nat.lt_size_self (bytes - 1)
    rw [log2]
    omega

/-- There are 64 size classes. -/
theorem bucketOf_lt (h : bytes ≤ 2 ^ 63) : bucketOf bytes < 64 := by
  unfold bucketOf
  split
  · decide
  · rw [log2]
    have hle : (bytes - 1).size ≤ 63 := Nat.size_le.mpr (by omega)
    omega

end Bucket

variable {W : Type}

/-- What a call knows about the state. -/
def Fits (s : State W) (w : W) : Control → Prop
  | .idle | .unlockPush | .discard _ => True
  | .readLocal bytes | .tryPop bytes | .readGlobal bytes | .obtain bytes => bytes ≤ 2 ^ 63
  | .followLocal bytes p => bytes ≤ 2 ^ 63 ∧ s.localCache w (bucketOf bytes) = some p
  | .popLocal bytes p next => bytes ≤ 2 ^ 63 ∧ s.localCache w (bucketOf bytes) = some p ∧ s.next p = next
  | .followGlobal bytes p => bytes ≤ 2 ^ 63 ∧ s.globalCache (bucketOf bytes) = some p
  | .popGlobal bytes p next => bytes ≤ 2 ^ 63 ∧ s.globalCache (bucketOf bytes) = some p ∧ s.next p = next
  | .unlockPop bytes p => bytes ≤ 2 ^ 63 ∧ ∀ q, p = some q → s.block q = some (bucketOf bytes)
  | .checkLocal bytes p | .linkLocal bytes p | .tryPush bytes p | .linkGlobal bytes p => s.block p =
    some (bucketOf bytes)
  | .pushLocal bytes p => s.block p = some (bucketOf bytes) ∧ s.next p = s.localCache w (bucketOf bytes)
  | .pushGlobal bytes p => s.block p = some (bucketOf bytes) ∧ s.next p = s.globalCache (bucketOf bytes)

/-- What a call knows survives changes elsewhere. -/
theorem Fits.frame {s s' : State W} {w : W} {c : Control} (h : Fits s w c)
    (hlocal : s'.localCache w = s.localCache w) (hglobal : c.locked = true → s'.globalCache = s.globalCache)
    (hblock : ∀ p, c.held = some p → s'.block p = s.block p)
    (hnext : ∀ p, (∃ b, s.localCache w b = some p) ∨ (c.locked = true ∧ ∃ b, s.globalCache b = some p) ∨
      c.held = some p →
      s'.next p = s.next p) : Fits s' w c := by
  cases c with
  | popLocal bytes p next =>
    obtain ⟨hbytes, hp, hq⟩ := h
    exact ⟨hbytes, by rw [hlocal]; exact hp, (hnext p (Or.inl ⟨_, hp⟩)).trans hq⟩
  | followLocal bytes p => exact ⟨h.1, by rw [hlocal]; exact h.2⟩
  | followGlobal bytes p => exact ⟨h.1, by rw [hglobal rfl]; exact h.2⟩
  | popGlobal bytes p next =>
    obtain ⟨hbytes, hp, hq⟩ := h
    exact ⟨hbytes, by rw [hglobal rfl]; exact hp, (hnext p (Or.inr (Or.inl ⟨rfl, _, hp⟩))).trans hq⟩
  | unlockPop bytes p => exact ⟨h.1, fun q hq => (hblock q hq).trans (h.2 q hq)⟩
  | pushLocal bytes p =>
    refine ⟨(hblock p rfl).trans h.1, ?_⟩
    rw [hnext p (Or.inr (Or.inr rfl)), hlocal]
    exact h.2
  | pushGlobal bytes p =>
    refine ⟨(hblock p rfl).trans h.1, ?_⟩
    rw [hnext p (Or.inr (Or.inr rfl)), hglobal rfl]
    exact h.2
  | checkLocal bytes p => exact (hblock p rfl).trans h
  | linkLocal bytes p => exact (hblock p rfl).trans h
  | tryPush bytes p => exact (hblock p rfl).trans h
  | linkGlobal bytes p => exact (hblock p rfl).trans h
  | _ => exact h

/-- The blocks and the chains. -/
structure Books (s : State W) (owner : ℕ → Option (Owner W)) (chains : Slot W → List ℕ) : Prop where
  chain : ∀ x, Chain s.next (s.head x) (chains x)
  nodup : ∀ x, (chains x).Nodup
  mem : ∀ x p, p ∈ chains x ↔ owner p = some (.chain x)
  live : ∀ p, s.live p ≠ none ↔ owner p = some .live
  held : ∀ w p, (s.control w).held = some p ↔ owner p = some (.call w)
  block : ∀ p, s.block p = none ↔ owner p = none
  bucket : ∀ x p, owner p = some (.chain x) → s.block p = some x.bucket
  liveBucket : ∀ p bytes, s.live p = some bytes → bytes ≤ 2 ^ 63 ∧ s.block p = some (bucketOf bytes)

/-- The calls in flight and the lock. -/
structure Calls (s : State W) : Prop where
  fits : ∀ w, Fits s w (s.control w)
  lock : ∀ w, (s.control w).locked = true → s.globalLock = true
  unique : ∀ w w', (s.control w).locked = true → (s.control w').locked = true → w = w'

variable [DecidableEq W] {s : State W} {owner : ℕ → Option (Owner W)} {chains : Slot W → List ℕ}
  {w : W} {p bytes : ℕ} {c : Control}

/-- A step of one worker, seen by the others. -/
theorem Calls.step {s' : State W} (h : Calls s) (hcontrol : ∀ v, v ≠ w → s'.control v = s.control v)
    (hfits : Fits s' w (s'.control w)) (hlock : ∀ v, (s'.control v).locked = true → s'.globalLock = true)
    (hunique : (s'.control w).locked = true → ∀ v, v ≠ w → (s.control v).locked = false)
    (hlocal : ∀ v, v ≠ w → s'.localCache v = s.localCache v)
    (hglobal : s'.globalCache = s.globalCache ∨ (s.control w).locked = true)
    (hblock : ∀ v p, v ≠ w → (s.control v).held = some p → s'.block p = s.block p)
    (hnext : ∀ v p, v ≠ w → (∃ b, s.localCache v b = some p) ∨
      ((s.control v).locked = true ∧ ∃ b, s.globalCache b = some p) ∨ (s.control v).held = some p →
        s'.next p = s.next p) :
    Calls s' where
  fits v := by
    by_cases hv : v = w
    · rw [hv]
      exact hfits
    · rw [hcontrol v hv]
      refine (h.fits v).frame (hlocal v hv) (fun hlocked => ?_) (fun p => hblock v p hv) fun p => hnext v p hv
      exact hglobal.resolve_right fun hw => hv (h.unique v w hlocked hw)
  lock := hlock
  unique v v' hv hv' := by
    by_cases hw : v = w
    · by_cases hw' : v' = w
      · exact hw.trans hw'.symm
      · rw [hcontrol v' hw', hunique (hw ▸ hv) v' hw'] at hv'
        cases hv'
    · by_cases hw' : v' = w
      · rw [hcontrol v hw, hunique (hw' ▸ hv') v hw] at hv
        cases hv
      · rw [hcontrol v hw] at hv
        rw [hcontrol v' hw'] at hv'
        exact h.unique v v' hv hv'

section Books

omit [DecidableEq W] in
/-- One block gets another owner. -/
theorem Books.move {s' : State W} {chains' : Slot W → List ℕ} {o : Option (Owner W)} (h : Books s owner chains)
    (hchain : ∀ x, Chain s'.next (s'.head x) (chains' x)) (hnodup : ∀ x, (chains' x).Nodup)
    (hmem : ∀ x, p ∈ chains' x ↔ o = some (.chain x)) (hmem' : ∀ x q, q ≠ p → (q ∈ chains' x ↔ q ∈ chains x))
    (hlive : s'.live p ≠ none ↔ o = some .live) (hlive' : ∀ q, q ≠ p → s'.live q = s.live q)
    (hheld : ∀ v, (s'.control v).held = some p ↔ o = some (.call v))
    (hheld' : ∀ v q, q ≠ p → ((s'.control v).held = some q ↔ (s.control v).held = some q))
    (hblock : s'.block p = none ↔ o = none) (hblock' : ∀ q, q ≠ p → s'.block q = s.block q)
    (hbucket : ∀ x, o = some (.chain x) → s'.block p = some x.bucket)
    (hliveBucket : ∀ bytes, s'.live p = some bytes → bytes ≤ 2 ^ 63 ∧ s'.block p = some (bucketOf bytes)) :
    Books s' (Function.update owner p o) chains' := by
  have hself : Function.update owner p o p = o := Function.update_self ..
  have hother {q : ℕ} (hq : q ≠ p) : Function.update owner p o q = owner q := Function.update_of_ne hq ..
  constructor
  · exact hchain
  · exact hnodup
  · intro x q
    by_cases hq : q = p
    · rw [hq, hself, hmem]
    · rw [hother hq, hmem' x q hq, h.mem]
  · intro q
    by_cases hq : q = p
    · rw [hq, hself, hlive]
    · rw [hother hq, hlive' q hq, h.live]
  · intro v q
    by_cases hq : q = p
    · rw [hq, hself, hheld]
    · rw [hother hq, hheld' v q hq, h.held]
  · intro q
    by_cases hq : q = p
    · rw [hq, hself, hblock]
    · rw [hother hq, hblock' q hq, h.block]
  · intro x q hx
    by_cases hq : q = p
    · rw [hq] at hx ⊢
      exact hbucket x (hself ▸ hx)
    · rw [hblock' q hq]
      exact h.bucket x q (hother hq ▸ hx)
  · intro q bytes hq'
    by_cases hq : q = p
    · rw [hq] at hq' ⊢
      exact hliveBucket bytes hq'
    · rw [hlive' q hq] at hq'
      rw [hblock' q hq]
      exact h.liveBucket q bytes hq'

/-- A call takes a block. -/
theorem held_take (h : Books s owner chains) (howner : ∀ v, owner p ≠ some (.call v))
    (hnone : (s.control w).held = none) (hheld : c.held = some p) :
    (∀ v, (Function.update s.control w c v).held = some p ↔ some (Owner.call w) = some (.call v)) ∧
      ∀ v q, q ≠ p → ((Function.update s.control w c v).held = some q ↔ (s.control v).held = some q) := by
  refine ⟨fun v => ?_, fun v q hq => ?_⟩
  · by_cases hv : v = w
    · rw [hv, Function.update_self, hheld]
      exact iff_of_true rfl rfl
    · rw [Function.update_of_ne hv, h.held, Option.some.injEq, Owner.call.injEq]
      exact iff_of_false (howner v) (Ne.symm hv)
  · by_cases hv : v = w
    · rw [hv, Function.update_self, hheld, hnone]
      exact iff_of_false (fun hpq => hq (Option.some.inj hpq).symm) nofun
    · rw [Function.update_of_ne hv]

/-- A call gives its block away. -/
theorem held_drop (h : Books s owner chains) (hp : (s.control w).held = some p) (hnone : c.held = none)
    {o : Option (Owner W)} (ho : ∀ v, o ≠ some (.call v)) :
    (∀ v, (Function.update s.control w c v).held = some p ↔ o = some (.call v)) ∧
      ∀ v q, q ≠ p → ((Function.update s.control w c v).held = some q ↔ (s.control v).held = some q) := by
  refine ⟨fun v => iff_of_false (fun hv' => ?_) (ho v), fun v q hq => ?_⟩
  · by_cases hv : v = w
    · rw [hv, Function.update_self, hnone] at hv'
      cases hv'
    · rw [Function.update_of_ne hv, h.held, (h.held w p).mp hp] at hv'
      exact hv (Owner.call.inj (Option.some.inj hv')).symm
  · by_cases hv : v = w
    · rw [hv, Function.update_self, hnone, hp]
      exact iff_of_false nofun fun hpq => hq (Option.some.inj hpq).symm
    · rw [Function.update_of_ne hv]

/-- Nothing changes but where a worker stands and who has the lock. -/
theorem Books.goto (h : Books s owner chains) (hheld : c.held = (s.control w).held) (x : Bool) :
    Books ((s.setLock x).goto w c) owner chains := by
  refine ⟨h.chain, h.nodup, h.mem, h.live, fun v q => ?_, h.block, h.bucket, h.liveBucket⟩
  rw [← h.held]
  change (Function.update s.control w c v).held = _ ↔ _
  by_cases hv : v = w
  · rw [hv, Function.update_self, hheld]
  · rw [Function.update_of_ne hv]

/-- The state with another content of a slot. -/
def State.setHead (s : State W) : Slot W → Option ℕ → State W
  | .own w b, q => s.setLocal w b q
  | .shared b, q => s.setGlobal b q

/-- The heads of the chains after one of them is set. -/
theorem head_setHead (s : State W) (x y : Slot W) (q : Option ℕ) :
    (s.setHead x q).head y = if y = x then q else s.head y := by
  cases x with
  | own w b =>
    cases y with
    | own v a =>
      change Function.update s.localCache w (Function.update (s.localCache w) b q) v a = _
      by_cases hv : v = w
      · subst hv
        rw [Function.update_self, Function.update_apply]
        by_cases ha : a = b
        · rw [if_pos ha, if_pos (by rw [ha])]
        · rw [if_neg ha, if_neg fun h => ha (Slot.own.inj h).2]
          rfl
      · rw [Function.update_of_ne hv, if_neg fun h => hv (Slot.own.inj h).1]
        rfl
    | shared a => rw [if_neg nofun]; rfl
  | shared b =>
    cases y with
    | own v a => rw [if_neg nofun]; rfl
    | shared a =>
      change Function.update s.globalCache b q a = _
      rw [Function.update_apply]
      by_cases ha : a = b
      · rw [if_pos ha, if_pos (by rw [ha])]
      · rw [if_neg ha, if_neg fun h => ha (Slot.shared.inj h)]
        rfl

section SetHead

variable {x : Slot W} {q : Option ℕ}

/-- Setting the head of a chain leaves the links. -/
@[simp] theorem next_setHead : (s.setHead x q).next = s.next := by cases x <;> rfl

/-- Setting the head of a chain leaves where the workers stand. -/
@[simp] theorem control_setHead : (s.setHead x q).control = s.control := by cases x <;> rfl

/-- Setting the head of a chain leaves what the clients hold. -/
@[simp] theorem live_setHead : (s.setHead x q).live = s.live := by cases x <;> rfl

/-- Setting the head of a chain leaves the blocks. -/
@[simp] theorem block_setHead : (s.setHead x q).block = s.block := by cases x <;> rfl

end SetHead

/-- A call takes the first block of a chain. -/
theorem Books.pop (h : Books s owner chains) {x : Slot W} (hp : s.head x = some p)
    (hnone : (s.control w).held = none)
    (hheld : c.held = some p) : ∃ owner' chains', Books ((s.setHead x (s.next p)).goto w c) owner' chains' := by
  have hchain := h.chain x
  rw [hp] at hchain
  obtain ⟨rest, hrest, htail⟩ := hchain.exists_cons
  have howner : owner p = some (.chain x) := (h.mem x p).mp (by rw [hrest]; exact List.mem_cons_self)
  have hnodup := h.nodup x
  rw [hrest, List.nodup_cons] at hnodup
  obtain ⟨htake, htake'⟩ := held_take h (fun v => by rw [howner]; nofun) hnone hheld
  refine ⟨_, Function.update chains x rest, h.move (p := p) (o := some (.call w)) (fun y => ?_)
    (fun y => ?_) (fun y => ?_)
    (fun y q hq => ?_) ?_ (fun q _ => by simp [State.goto]) (fun v => ?_) (fun v q hq => ?_) ?_
    (fun q _ => by simp [State.goto]) nofun fun bytes hb => ?_⟩
  · change Chain (s.setHead x _).next ((s.setHead x _).head y) _
    rw [head_setHead, next_setHead, Function.update_apply]
    split
    · exact htail
    · exact h.chain y
  · rw [Function.update_apply]
    split
    · exact hnodup.2
    · exact h.nodup y
  · refine iff_of_false ?_ nofun
    rw [Function.update_apply]
    split
    · exact hnodup.1
    · next hy =>
      rw [h.mem, howner]
      exact fun hxy => hy (Owner.chain.inj (Option.some.inj hxy)).symm
  · rw [Function.update_apply]
    split
    · next hy => rw [hy, hrest, List.mem_cons, or_iff_right hq]
    · rfl
  · have hlive := h.live p
    rw [howner] at hlive
    simpa [State.goto] using hlive
  · change (Function.update (s.setHead x _).control w c v).held = _ ↔ _
    rw [control_setHead]
    exact htake v
  · change (Function.update (s.setHead x _).control w c v).held = _ ↔ _
    rw [control_setHead]
    exact htake' v q hq
  · have hblock := h.block p
    rw [howner] at hblock
    simpa [State.goto] using hblock
  · have hlive := h.live p
    rw [howner] at hlive
    simp only [State.goto, live_setHead] at hb
    simp [hb] at hlive

/-- A call puts its block in front of a chain. -/
theorem Books.push (h : Books s owner chains) {x : Slot W} (hp : (s.control w).held = some p)
    (hnext : s.next p = s.head x) (hblock : s.block p = some x.bucket) (hnone : c.held = none) :
    ∃ owner' chains', Books ((s.setHead x (some p)).goto w c) owner' chains' := by
  have howner := (h.held w p).mp hp
  have hnot (y : Slot W) : p ∉ chains y := by
    rw [h.mem, howner]
    nofun
  obtain ⟨hdrop, hdrop'⟩ := held_drop h hp hnone (o := some (.chain x)) nofun
  refine ⟨_, Function.update chains x (p :: chains x),
    h.move (p := p) (o := some (.chain x)) (fun y => ?_) (fun y => ?_)
    (fun y => ?_) (fun y q hq => ?_) ?_ (fun q _ => by simp [State.goto]) (fun v => ?_) (fun v q hq => ?_) ?_
    (fun q _ => by simp [State.goto]) (fun y hy => ?_) fun bytes hb => ?_⟩
  · change Chain (s.setHead x _).next ((s.setHead x _).head y) _
    rw [head_setHead, next_setHead, Function.update_apply]
    split
    · refine ⟨rfl, ?_⟩
      rw [hnext]
      exact h.chain x
    · exact h.chain y
  · rw [Function.update_apply]
    split
    · exact List.nodup_cons.mpr ⟨hnot x, h.nodup x⟩
    · exact h.nodup y
  · rw [Function.update_apply]
    split
    · next hy =>
      rw [hy]
      exact iff_of_true List.mem_cons_self rfl
    · next hy => exact iff_of_false (hnot y) fun hxy => hy (Owner.chain.inj (Option.some.inj hxy)).symm
  · rw [Function.update_apply]
    split
    · next hy => rw [hy, List.mem_cons, or_iff_right hq]
    · rfl
  · have hlive := h.live p
    rw [howner] at hlive
    simpa [State.goto] using hlive
  · change (Function.update (s.setHead x _).control w c v).held = _ ↔ _
    rw [control_setHead]
    exact hdrop v
  · change (Function.update (s.setHead x _).control w c v).held = _ ↔ _
    rw [control_setHead]
    exact hdrop' v q hq
  · have := h.block p
    rw [howner] at this
    simpa [State.goto] using this
  · obtain rfl := Owner.chain.inj (Option.some.inj hy)
    simpa [State.goto] using hblock
  · have hlive := h.live p
    rw [howner] at hlive
    simp only [State.goto, live_setHead] at hb
    simp [hb] at hlive

omit [DecidableEq W] in
/-- A block that is in no chain before and after the step. -/
theorem Books.move_outside {s' : State W} {o : Option (Owner W)} (h : Books s owner chains)
    (hnot : ∀ x, owner p ≠ some (.chain x)) (ho : ∀ x, o ≠ some (.chain x)) (hnext : s'.next = s.next)
    (hhead : s'.head = s.head) (hlive : s'.live p ≠ none ↔ o = some .live)
    (hlive' : ∀ q, q ≠ p → s'.live q = s.live q)
    (hheld : ∀ v, (s'.control v).held = some p ↔ o = some (.call v))
    (hheld' : ∀ v q, q ≠ p → ((s'.control v).held = some q ↔ (s.control v).held = some q))
    (hblock : s'.block p = none ↔ o = none) (hblock' : ∀ q, q ≠ p → s'.block q = s.block q)
    (hliveBucket : ∀ bytes, s'.live p = some bytes → bytes ≤ 2 ^ 63 ∧ s'.block p = some (bucketOf bytes)) :
    Books s' (Function.update owner p o) chains := by
  refine h.move (fun x => ?_) h.nodup (fun x => ?_)
    (fun _ _ _ => Iff.rfl) hlive hlive' hheld hheld' hblock hblock'
    (fun x hx => absurd hx (ho x)) hliveBucket
  · rw [hnext, hhead]
    exact h.chain x
  · rw [h.mem]
    exact iff_of_false (hnot x) (ho x)

/-- A call delivers its block to a client. -/
theorem Books.hand (h : Books s owner chains) (hp : (s.control w).held = some p) (hbytes : bytes ≤ 2 ^ 63)
    (hblock : s.block p = some (bucketOf bytes)) : ∃ owner', Books (s.hand w bytes p) owner' chains := by
  have howner := (h.held w p).mp hp
  obtain ⟨hdrop, hdrop'⟩ := held_drop h hp (c := .idle) rfl (o := some .live) nofun
  have hself : (s.hand w bytes p).live p = some bytes := Function.update_self ..
  refine ⟨_, h.move_outside (p := p) (o := some .live) (fun x => by rw [howner]; nofun) nofun rfl
    (by funext x; cases x <;> rfl) ?_ (fun q hq => Function.update_of_ne hq ..) hdrop hdrop' ?_ (fun _ _ => rfl)
    fun b hb => ?_⟩
  · rw [hself]
    exact iff_of_true nofun rfl
  · change s.block p = none ↔ _
    rw [hblock]
    exact iff_of_false nofun nofun
  · rw [hself] at hb
    obtain rfl := Option.some.inj hb
    exact ⟨hbytes, hblock⟩

/-- A block comes from the system. -/
theorem Books.obtain (h : Books s owner chains) (hp : s.block p = none) (hnone : (s.control w).held = none)
    (hheld : c.held = some p) (b : ℕ) : ∃ owner', Books ((s.setBlock p (some b)).goto w c) owner' chains := by
  have howner := (h.block p).mp hp
  obtain ⟨htake, htake'⟩ := held_take h (fun v => by rw [howner]; nofun) hnone hheld
  have hself : ((s.setBlock p (some b)).goto w c).block p = some b := Function.update_self ..
  have hdead : s.live p = none := by
    by_contra hlive
    rw [← Ne, h.live, howner] at hlive
    cases hlive
  refine ⟨_, h.move_outside (p := p) (o := some (.call w))
    (fun x => by rw [howner]; nofun) nofun rfl (by funext x; cases x <;> rfl) ?_ (fun _ _ => rfl) htake htake' ?_
    (fun q hq => Function.update_of_ne hq ..) fun bytes hb => ?_⟩
  · change s.live p ≠ none ↔ _
    rw [hdead]
    exact iff_of_false (fun hne => hne rfl) nofun
  · rw [hself]
    exact iff_of_false nofun nofun
  · change s.live p = some bytes at hb
    rw [hdead] at hb
    cases hb

/-- A client gives a block back. -/
theorem Books.free (h : Books s owner chains) (hp : s.live p = some bytes) (hnone : (s.control w).held = none)
    (hheld : c.held = some p) : ∃ owner', Books ((s.setLive p none).goto w c) owner' chains := by
  have howner : owner p = some .live := (h.live p).mp (by rw [hp]; nofun)
  obtain ⟨htake, htake'⟩ := held_take h (fun v => by rw [howner]; nofun) hnone hheld
  have hself : ((s.setLive p none).goto w c).live p = none := Function.update_self ..
  refine ⟨_, h.move_outside (p := p) (o := some (.call w))
    (fun x => by rw [howner]; nofun) nofun rfl (by funext x; cases x <;> rfl) ?_
    (fun q hq => Function.update_of_ne hq ..) htake htake' ?_ (fun _ _ => rfl) fun bytes hb => ?_⟩
  · rw [hself]
    exact iff_of_false (fun hne => hne rfl) nofun
  · change s.block p = none ↔ _
    rw [h.block, howner]
    exact iff_of_false nofun nofun
  · rw [hself] at hb
    cases hb

/-- A block goes back to the system. -/
theorem Books.discard (h : Books s owner chains) (hp : (s.control w).held = some p) :
    ∃ owner', Books ((s.setBlock p none).goto w .idle) owner' chains := by
  have howner := (h.held w p).mp hp
  obtain ⟨hdrop, hdrop'⟩ := held_drop h hp (c := .idle) rfl (o := none) nofun
  have hself : ((s.setBlock p none).goto w .idle).block p = none := Function.update_self ..
  have hdead : s.live p = none := by
    by_contra hlive
    rw [← Ne, h.live, howner] at hlive
    cases hlive
  refine ⟨_, h.move_outside (p := p) (o := none) (fun x => by rw [howner]; nofun)
    nofun rfl (by funext x; cases x <;> rfl) ?_ (fun _ _ => rfl) hdrop hdrop' ?_
    (fun q hq => Function.update_of_ne hq ..) fun bytes hb => ?_⟩
  · change s.live p ≠ none ↔ _
    rw [hdead]
    exact iff_of_false (fun hne => hne rfl) nofun
  · rw [hself]
    exact iff_of_true rfl rfl
  · change s.live p = some bytes at hb
    rw [hdead] at hb
    cases hb

omit [DecidableEq W] in
/-- A write to the first word of a block that is in no chain. -/
theorem Books.setNext (h : Books s owner chains) (hnot : ∀ x, owner p ≠ some (.chain x)) (q : Option ℕ) :
    Books (s.setNext p q) owner chains := by
  refine ⟨fun x => ?_, h.nodup, h.mem, h.live, h.held, h.block, h.bucket, h.liveBucket⟩
  have hhead : (s.setNext p q).head x = s.head x := by cases x <;> rfl
  rw [hhead]
  refine (h.chain x).congr fun r hr => Function.update_of_ne ?_ ..
  rintro rfl
  exact hnot x ((h.mem x r).mp hr)

end Books

/-- The invariant of the allocator. -/
def Inv (s : State W) : Prop := (∃ owner chains, Books s owner chains) ∧ Calls s

end Pool

end ToggleTree
