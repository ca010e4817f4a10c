import ToggleTree.Allocator.Invariant

/-!
# Safety of the allocator

Every step keeps the invariant, whatever the other workers are doing, and the invariant implies the
guarantees: a block is at one place, the chains end, and a request gets a block that is large enough.
-/

namespace ToggleTree

namespace Pool

open Checked

variable {W : Type} [DecidableEq W] {s s' : State W} {owner : ℕ → Option (Owner W)} {chains : Slot W → List ℕ}
  {w : W} {p q bytes : ℕ} {c : Control}

section Calls

/-- A worker moves on, and may take the lock or release it. -/
theorem Calls.goto (h : Calls s) {x : Bool} (hfits : Fits s w c) (hlock : c.locked = true → x = true)
    (hothers : ∀ v, v ≠ w → (s.control v).locked = true → x = true)
    (hunique : c.locked = true → ∀ v, v ≠ w → (s.control v).locked = false) : Calls ((s.setLock x).goto w c) := by
  have hself : ((s.setLock x).goto w c).control w = c := Function.update_self ..
  have hother (v : W) (hv : v ≠ w) : ((s.setLock x).goto w c).control v = s.control v :=
    Function.update_of_ne hv ..
  refine h.step (w := w) hother ?_ (fun v hv => ?_) (by rw [hself]; exact hunique) (fun _ _ => rfl) (Or.inl rfl)
    (fun _ _ _ _ => rfl) fun _ _ _ _ => rfl
  · rw [hself]
    exact hfits.frame rfl (fun _ => rfl) (fun _ _ => rfl) fun _ _ => rfl
  · by_cases hvw : v = w
    · rw [hvw, hself] at hv
      exact hlock hv
    · rw [hother v hvw] at hv
      exact hothers v hvw hv

/-- A worker goes on and keeps or does not have the lock. -/
theorem Calls.stay (h : Calls s) (hfits : Fits s w c) (hlocked : c.locked = (s.control w).locked) :
    Calls (s.goto w c) := by
  refine h.goto (x := s.globalLock) hfits (fun hc => h.lock w (hlocked ▸ hc))
    (fun v _ => h.lock v) fun hc v hv => ?_
  by_contra hne
  exact hv (h.unique v w (by simpa using hne) (hlocked ▸ hc))

/-- A worker takes the lock. -/
theorem Calls.acquire (h : Calls s) (hfits : Fits s w c) (hfree : s.globalLock = false) :
    Calls ((s.setLock true).goto w c) := by
  refine h.goto hfits (fun _ => rfl) (fun _ _ _ => rfl) fun _ v _ => ?_
  by_contra hne
  rw [h.lock v (by simpa using hne)] at hfree
  cases hfree

/-- A worker gives the lock back. -/
theorem Calls.release (h : Calls s) (hfits : Fits s w c) (hlocked : (s.control w).locked = true)
    (hc : c.locked = false) :
    Calls ((s.setLock false).goto w c) := by
  refine h.goto hfits (fun hc' => ?_) (fun v hv hv' => absurd (h.unique v w hv' hlocked) hv) fun hc' => ?_
  · rw [hc] at hc'
    cases hc'
  · rw [hc] at hc'
    cases hc'

/-- A worker changes the memory that belongs to it. -/
theorem Calls.update (h : Calls s) (hcontrol : s'.control = Function.update s.control w c) (hfits : Fits s' w c)
    (hlocked : c.locked = (s.control w).locked) (hlock : s'.globalLock = s.globalLock)
    (hlocal : ∀ v, v ≠ w → s'.localCache v = s.localCache v)
    (hglobal : s'.globalCache = s.globalCache ∨ (s.control w).locked = true)
    (hblock : ∀ v p, v ≠ w → (s.control v).held = some p → s'.block p = s.block p)
    (hnext : ∀ v p, v ≠ w → (∃ b, s.localCache v b = some p) ∨
      ((s.control v).locked = true ∧ ∃ b, s.globalCache b = some p) ∨ (s.control v).held = some p →
        s'.next p = s.next p) :
    Calls s' := by
  have hself : s'.control w = c := by rw [hcontrol, Function.update_self]
  have hother (v : W) (hv : v ≠ w) : s'.control v = s.control v := by rw [hcontrol, Function.update_of_ne hv]
  refine h.step hother (by rw [hself]; exact hfits) (fun v hv => ?_)
    (fun hw v hv => ?_) hlocal hglobal hblock hnext
  · rw [hlock]
    by_cases hvw : v = w
    · rw [hvw, hself, hlocked] at hv
      exact h.lock w hv
    · rw [hother v hvw] at hv
      exact h.lock v hv
  · by_contra hne
    rw [hself, hlocked] at hw
    exact hv (h.unique v w (by simpa using hne) hw)

end Calls

section Owners

omit [DecidableEq W]

/-- The head of a chain belongs to it. -/
theorem Books.head_owner (h : Books s owner chains) {x : Slot W} (hp : s.head x = some p) :
    owner p = some (.chain x) := by
  have hchain := h.chain x
  rw [hp] at hchain
  obtain ⟨rest, hrest, _⟩ := hchain.exists_cons
  exact (h.mem x p).mp (by rw [hrest]; exact List.mem_cons_self)

/-- The blocks that a call knows something about are in a chain or belong to the call. -/
theorem Books.known (h : Books s owner chains) {v : W} (hq : (∃ b, s.localCache v b = some q) ∨
      ((s.control v).locked = true ∧ ∃ b, s.globalCache b = some q) ∨ (s.control v).held = some q) :
    (∃ x, owner q = some (.chain x)) ∨ owner q = some (.call v) := by
  rcases hq with ⟨b, hb⟩ | ⟨_, b, hb⟩ | hheld
  · exact Or.inl ⟨.own v b, h.head_owner hb⟩
  · exact Or.inl ⟨.shared b, h.head_owner hb⟩
  · exact Or.inr ((h.held v q).mp hheld)

/-- What a worker knows is not the block that another one holds. -/
theorem Books.known_ne (h : Books s owner chains) {v : W} (hv : v ≠ w) (hp : (s.control w).held = some p)
    (hq : (∃ b, s.localCache v b = some q) ∨
      ((s.control v).locked = true ∧ ∃ b, s.globalCache b = some q) ∨ (s.control v).held = some q) : q ≠ p := by
  rintro rfl
  have howner := (h.held w q).mp hp
  rcases h.known hq with ⟨x, hx⟩ | hcall
  · rw [howner] at hx
    cases hx
  · rw [howner] at hcall
    exact hv (Owner.call.inj (Option.some.inj hcall)).symm

/-- What a worker knows is not a block of a client. -/
theorem Books.known_ne_live (h : Books s owner chains) {v : W} (hp : s.live p = some bytes)
    (hq : (∃ b, s.localCache v b = some q) ∨
      ((s.control v).locked = true ∧ ∃ b, s.globalCache b = some q) ∨ (s.control v).held = some q) : q ≠ p := by
  rintro rfl
  have howner : owner q = some .live := (h.live q).mp (by rw [hp]; nofun)
  rcases h.known hq with ⟨x, hx⟩ | hcall
  · rw [howner] at hx
    cases hx
  · rw [howner] at hcall
    cases hcall

end Owners

section Access

/-- Handing out a block does not depend on where the worker stands. -/
theorem hand_goto (s : State W) (w : W) (c : Control) (bytes p : ℕ) :
    (s.goto w c).hand w bytes p = s.hand w bytes p := by
  simp only [State.hand, State.goto, State.setLive, Function.update_idem]

/-- A step that only goes on keeps the invariant. -/
theorem inv_stay (h : Inv s) (hheld : c.held = (s.control w).held) (hlocked : c.locked = (s.control w).locked)
    (hfits : Fits s w c) : Inv (s.goto w c) := by
  obtain ⟨⟨owner, chains, hbooks⟩, hcalls⟩ := h
  exact ⟨⟨owner, chains, hbooks.goto hheld s.globalLock⟩, hcalls.stay hfits hlocked⟩

/-- A step that takes the lock keeps the invariant. -/
theorem inv_acquire (h : Inv s) (hheld : c.held = (s.control w).held) (hfits : Fits s w c)
    (hfree : s.globalLock = false) :
    Inv ((s.setLock true).goto w c) := by
  obtain ⟨⟨owner, chains, hbooks⟩, hcalls⟩ := h
  exact ⟨⟨owner, chains, hbooks.goto hheld true⟩, hcalls.acquire hfits hfree⟩

/-- A step that gives the lock back keeps the invariant. -/
theorem inv_release (h : Inv s) (hheld : c.held = (s.control w).held) (hfits : Fits s w c)
    (hlocked : (s.control w).locked = true) (hc : c.locked = false) : Inv ((s.setLock false).goto w c) := by
  obtain ⟨⟨owner, chains, hbooks⟩, hcalls⟩ := h
  exact ⟨⟨owner, chains, hbooks.goto hheld false⟩, hcalls.release hfits hlocked hc⟩

/-- A call that holds a block and not the lock delivers it. -/
theorem inv_hand (h : Inv s) (hp : (s.control w).held = some p) (hlocked : (s.control w).locked = false)
    (hbytes : bytes ≤ 2 ^ 63) (hblock : s.block p = some (bucketOf bytes)) : Inv (s.hand w bytes p) := by
  obtain ⟨⟨owner, chains, hbooks⟩, hcalls⟩ := h
  obtain ⟨owner', hbooks'⟩ := hbooks.hand hp hbytes hblock
  exact ⟨⟨owner', chains, hbooks'⟩, hcalls.update (c := .idle) rfl trivial hlocked.symm rfl
    (fun _ _ => rfl) (Or.inl rfl) (fun _ _ _ _ => rfl) fun _ _ _ _ => rfl⟩

/-- A call takes the first block of a chain that it may change. -/
theorem inv_pop (h : Inv s) {x : Slot W} (hp : s.head x = some p) (hnone : (s.control w).held = none)
    (hheld : c.held = some p)
    (hlocked : c.locked = (s.control w).locked) (hfits : Fits (s.setHead x (s.next p)) w c)
    (hx : (∃ b, x = .own w b) ∨ ∃ b, x = .shared b ∧ (s.control w).locked = true) :
    Inv ((s.setHead x (s.next p)).goto w c) := by
  obtain ⟨⟨owner, chains, hbooks⟩, hcalls⟩ := h
  obtain ⟨owner', chains', hbooks'⟩ := hbooks.pop hp hnone hheld
  refine ⟨⟨owner', chains', hbooks'⟩, ?_⟩
  have hfits' : Fits ((s.setHead x (s.next p)).goto w c) w c :=
    hfits.frame rfl (fun _ => rfl) (fun _ _ => rfl) fun _ _ => rfl
  rcases hx with ⟨b, rfl⟩ | ⟨b, rfl, hw⟩
  · exact hcalls.update rfl hfits' hlocked rfl (fun v hv => Function.update_of_ne hv ..) (Or.inl rfl)
      (fun _ _ _ _ => rfl) fun _ _ _ _ => rfl
  · exact hcalls.update rfl hfits' hlocked rfl (fun _ _ => rfl) (Or.inr hw)
      (fun _ _ _ _ => rfl) fun _ _ _ _ => rfl

/-- A call puts its block in front of a chain that it may change. -/
theorem inv_push (h : Inv s) {x : Slot W} (hp : (s.control w).held = some p) (hnext : s.next p = s.head x)
    (hblock : s.block p = some x.bucket) (hnone : c.held = none) (hlocked : c.locked = (s.control w).locked)
    (hfits : Fits (s.setHead x (some p)) w c)
    (hx : (∃ b, x = .own w b) ∨ ∃ b, x = .shared b ∧ (s.control w).locked = true) :
    Inv ((s.setHead x (some p)).goto w c) := by
  obtain ⟨⟨owner, chains, hbooks⟩, hcalls⟩ := h
  obtain ⟨owner', chains', hbooks'⟩ := hbooks.push hp hnext hblock hnone
  refine ⟨⟨owner', chains', hbooks'⟩, ?_⟩
  have hfits' : Fits ((s.setHead x (some p)).goto w c) w c :=
    hfits.frame rfl (fun _ => rfl) (fun _ _ => rfl) fun _ _ => rfl
  rcases hx with ⟨b, rfl⟩ | ⟨b, rfl, hw⟩
  · exact hcalls.update rfl hfits' hlocked rfl (fun v hv => Function.update_of_ne hv ..) (Or.inl rfl)
      (fun _ _ _ _ => rfl) fun _ _ _ _ => rfl
  · exact hcalls.update rfl hfits' hlocked rfl (fun _ _ => rfl) (Or.inr hw)
      (fun _ _ _ _ => rfl) fun _ _ _ _ => rfl

/-- A call writes to the first word of its block. -/
theorem inv_link (h : Inv s) (hp : (s.control w).held = some p) (hheld : c.held = some p)
    (hlocked : c.locked = (s.control w).locked) (q : Option ℕ) (hfits : Fits (s.setNext p q) w c) :
    Inv ((s.setNext p q).goto w c) := by
  obtain ⟨⟨owner, chains, hbooks⟩, hcalls⟩ := h
  have howner := (hbooks.held w p).mp hp
  have hset := hbooks.setNext (p := p) (fun x => by rw [howner]; nofun) q
  refine ⟨⟨owner, chains, hset.goto (hheld.trans hp.symm) s.globalLock⟩, ?_⟩
  refine hcalls.update (c := c) rfl (hfits.frame rfl (fun _ => rfl) (fun _ _ => rfl) fun _ _ => rfl) hlocked rfl
    (fun _ _ => rfl) (Or.inl rfl) (fun _ _ _ _ => rfl) fun v r hv hr => ?_
  exact Function.update_of_ne (hbooks.known_ne hv hp hr) ..

omit [DecidableEq W] in
/-- A client writes to its block. -/
theorem inv_write (h : Inv s) (hp : s.live p = some bytes) (q : Option ℕ) : Inv (s.setNext p q) := by
  obtain ⟨⟨owner, chains, hbooks⟩, hcalls⟩ := h
  have howner : owner p = some .live := (hbooks.live p).mp (by rw [hp]; nofun)
  refine ⟨⟨owner, chains, hbooks.setNext (fun x => by rw [howner]; nofun) q⟩, fun v => ?_, hcalls.lock,
    hcalls.unique⟩
  exact (hcalls.fits v).frame rfl (fun _ => rfl) (fun _ _ => rfl) fun r hr =>
    Function.update_of_ne (hbooks.known_ne_live hp hr) ..

/-- A block that was not in use comes from the system. -/
theorem inv_obtain (h : Inv s) (hp : s.block p = none) (hw : s.control w = .obtain bytes) :
    Inv ((s.setBlock p (some (bucketOf bytes))).hand w bytes p) := by
  have hbytes : bytes ≤ 2 ^ 63 := by
    have hfits := h.2.fits w
    rwa [hw] at hfits
  have hstep : Inv ((s.setBlock p (some (bucketOf bytes))).goto w (.discard p)) := by
    obtain ⟨⟨owner, chains, hbooks⟩, hcalls⟩ := h
    obtain ⟨owner', hbooks'⟩ := hbooks.obtain (c := .discard p) hp (by rw [hw]; rfl) rfl (bucketOf bytes)
    refine ⟨⟨owner', chains, hbooks'⟩, hcalls.update (c := .discard p) rfl trivial (by rw [hw]; rfl) rfl
      (fun _ _ => rfl) (Or.inl rfl) (fun v r _ hr => Function.update_of_ne ?_ ..) fun _ _ _ _ => rfl⟩
    rintro rfl
    have howner := (hbooks.held v r).mp hr
    rw [(hbooks.block r).mp hp] at howner
    cases howner
  have hself : ((s.setBlock p (some (bucketOf bytes))).goto w (.discard p)).control w = .discard p :=
    Function.update_self ..
  rw [← hand_goto _ w (.discard p)]
  exact inv_hand hstep (by rw [hself]; rfl) (by rw [hself]; rfl) hbytes (Function.update_self ..)

/-- Giving a block back to the system keeps the invariant. -/
theorem inv_discard (h : Inv s) (hw : s.control w = .discard p) : Inv ((s.setBlock p none).goto w .idle) := by
  obtain ⟨⟨owner, chains, hbooks⟩, hcalls⟩ := h
  have hp : (s.control w).held = some p := by rw [hw]; rfl
  obtain ⟨owner', hbooks'⟩ := hbooks.discard hp
  refine ⟨⟨owner', chains, hbooks'⟩, hcalls.update (c := .idle) rfl trivial (by rw [hw]; rfl) rfl (fun _ _ => rfl)
    (Or.inl rfl) (fun v r hv hr => Function.update_of_ne ?_ ..) fun _ _ _ _ => rfl⟩
  exact hbooks.known_ne hv hp (Or.inr (Or.inr hr))

/-- The start of a deallocation keeps the invariant. -/
theorem inv_free (h : Inv s) (hw : s.control w = .idle) (hp : s.live p = some bytes) :
    Inv ((s.setLive p none).goto w (.checkLocal bytes p)) := by
  obtain ⟨⟨owner, chains, hbooks⟩, hcalls⟩ := h
  obtain ⟨owner', hbooks'⟩ := hbooks.free (c := .checkLocal bytes p) hp (by rw [hw]; rfl) rfl
  exact ⟨⟨owner', chains, hbooks'⟩, hcalls.update (c := .checkLocal bytes p) rfl (hbooks.liveBucket p bytes hp).2
    (by rw [hw]; rfl) rfl (fun _ _ => rfl) (Or.inl rfl) (fun _ _ _ _ => rfl) fun _ _ _ _ => rfl⟩

end Access

/-- Every access keeps the invariant. -/
theorem inv_access (h : Inv s) (w : W) (fresh : ℕ)
    (hfresh : ∀ bytes, s.control w = .obtain bytes → s.block fresh = none) :
    Inv (s.access w fresh (s.control w)) := by
  have hfits := h.2.fits w
  generalize hw : s.control w = c at hfits hfresh
  have hheld : (s.control w).held = c.held := by rw [hw]
  have hlocked : (s.control w).locked = c.locked := by rw [hw]
  cases c with
  | idle => exact h
  | readLocal bytes =>
    simp only [State.access]
    cases hslot : s.localCache w (bucketOf bytes) with
    | some p => exact inv_stay h hheld.symm hlocked.symm ⟨hfits, hslot⟩
    | none =>
      dsimp only
      split
      · exact inv_stay h hheld.symm hlocked.symm hfits
      · exact inv_stay h hheld.symm hlocked.symm hfits
  | followLocal bytes p => exact inv_stay h hheld.symm hlocked.symm ⟨hfits.1, hfits.2, rfl⟩
  | popLocal bytes p next =>
    obtain ⟨hbytes, hp, rfl⟩ := hfits
    have hblock : s.block p = some (bucketOf bytes) := by
      obtain ⟨⟨owner, chains, hbooks⟩, _⟩ := h
      exact hbooks.bucket (.own w (bucketOf bytes)) p (hbooks.head_owner (x := .own w (bucketOf bytes)) hp)
    have hpop :=
      inv_pop (c := .discard p) (x := .own w (bucketOf bytes)) h hp hheld rfl hlocked.symm trivial
        (Or.inl ⟨_, rfl⟩)
    have hself : ((s.setHead (.own w (bucketOf bytes)) (s.next p)).goto w (.discard p)).control w = .discard p :=
      Function.update_self ..
    have hhand := inv_hand hpop (by rw [hself]; rfl) (by rw [hself]; rfl) hbytes hblock
    rwa [hand_goto] at hhand
  | tryPop bytes =>
    simp only [State.access]
    split
    · exact inv_stay h hheld.symm hlocked.symm hfits
    · next hfree => exact inv_acquire h hheld.symm hfits (by simpa using hfree)
  | readGlobal bytes =>
    simp only [State.access]
    cases hslot : s.globalCache (bucketOf bytes) with
    | some p => exact inv_stay h hheld.symm hlocked.symm ⟨hfits, hslot⟩
    | none => exact inv_stay h hheld.symm hlocked.symm ⟨hfits, nofun⟩
  | followGlobal bytes p => exact inv_stay h hheld.symm hlocked.symm ⟨hfits.1, hfits.2, rfl⟩
  | popGlobal bytes p next =>
    obtain ⟨hbytes, hp, rfl⟩ := hfits
    have hblock : s.block p = some (bucketOf bytes) := by
      obtain ⟨⟨owner, chains, hbooks⟩, _⟩ := h
      exact hbooks.bucket (.shared (bucketOf bytes)) p (hbooks.head_owner (x := .shared (bucketOf bytes)) hp)
    refine inv_pop (c := .unlockPop bytes (some p)) (x := .shared (bucketOf bytes)) h hp hheld rfl hlocked.symm
      ⟨hbytes, fun q hq => ?_⟩ (Or.inr ⟨_, rfl, hlocked⟩)
    obtain rfl := Option.some.inj hq
    exact hblock
  | unlockPop bytes found =>
    cases found with
    | none => exact inv_release h hheld.symm hfits.1 hlocked rfl
    | some p =>
      have hrelease := inv_release (c := .discard p) h hheld.symm trivial hlocked rfl
      have hself : ((s.setLock false).goto w (.discard p)).control w = .discard p := Function.update_self ..
      have hhand := inv_hand hrelease (by rw [hself]; rfl) (by rw [hself]; rfl) hfits.1 (hfits.2 p rfl)
      rwa [hand_goto] at hhand
  | obtain bytes => exact inv_obtain h (hfresh bytes rfl) hw
  | checkLocal bytes p =>
    simp only [State.access]
    split
    · exact inv_stay h hheld.symm hlocked.symm hfits
    · exact inv_stay h hheld.symm hlocked.symm hfits
  | linkLocal bytes p =>
    exact inv_link (c := .pushLocal bytes p) h hheld rfl hlocked.symm _ ⟨hfits, Function.update_self ..⟩
  | pushLocal bytes p =>
    exact inv_push (c := .idle) (x := .own w (bucketOf bytes)) h hheld hfits.2 hfits.1 rfl hlocked.symm trivial
      (Or.inl ⟨_, rfl⟩)
  | tryPush bytes p =>
    simp only [State.access]
    split
    · exact inv_stay h hheld.symm hlocked.symm trivial
    · next hfree => exact inv_acquire h hheld.symm hfits (by simpa using hfree)
  | linkGlobal bytes p =>
    exact inv_link (c := .pushGlobal bytes p) h hheld rfl hlocked.symm _ ⟨hfits, Function.update_self ..⟩
  | pushGlobal bytes p =>
    exact inv_push (c := .unlockPush) (x := .shared (bucketOf bytes)) h hheld hfits.2 hfits.1 rfl
      hlocked.symm trivial (Or.inr ⟨_, rfl, hlocked⟩)
  | unlockPush => exact inv_release h hheld.symm trivial hlocked rfl
  | discard p => exact inv_discard h hw

omit [DecidableEq W] in
/-- The invariant holds at the start. -/
theorem Inv.init : Inv (State.init W) := by
  refine ⟨⟨fun _ => none, fun _ => [], ?_⟩, ?_⟩
  · refine ⟨fun x => by cases x <;> rfl, fun _ => List.nodup_nil, fun _ _ => ?_, fun _ => ?_,
      fun _ _ => ?_, fun _ => ?_,
      nofun, nofun⟩
    · exact iff_of_false List.not_mem_nil nofun
    · exact iff_of_false (fun hne => hne rfl) nofun
    · exact iff_of_false nofun nofun
    · exact iff_of_true rfl rfl
  · exact ⟨fun _ => trivial, nofun, nofun⟩

/-- Every step keeps the invariant. -/
theorem Inv.step (h : Inv s) (hstep : Step s s') : Inv s' := by
  cases hstep with
  | allocate hw _ hmax => exact inv_stay h (by rw [hw]; rfl) (by rw [hw]; rfl) hmax
  | deallocate hw hlive => exact inv_free h hw hlive
  | write q hlive => exact inv_write h hlive q
  | access w fresh hfresh => exact inv_access h w fresh hfresh

/-- The invariant holds in every reachable state. -/
theorem Reachable.inv (h : Reachable s) : Inv s := by
  induction h with
  | init => exact Inv.init
  | step _ hstep ih => exact ih.step hstep

/-- The place of a block, by its owner. -/
def Place.holder : Place W → Owner W
  | .live => .live
  | .localChain w b _ => .chain (.own w b)
  | .globalChain b _ => .chain (.shared b)
  | .call w => .call w

omit [DecidableEq W] in
/-- A block at a place belongs to whom the place belongs to. -/
theorem Books.at_owner (h : Books s owner chains) {x : Place W} (hx : s.At p x) : owner p = some x.holder := by
  cases x with
  | live =>
    obtain ⟨bytes, hlive⟩ := hx
    exact (h.live p).mp (by rw [hlive]; nofun)
  | localChain w b i =>
    have hget := (h.chain (.own w b)).follow_eq i
    rw [show follow s.next (s.head (.own w b)) i = some p from hx] at hget
    exact (h.mem _ p).mp (List.mem_of_getElem? hget.symm)
  | globalChain b i =>
    have hget := (h.chain (.shared b)).follow_eq i
    rw [show follow s.next (s.head (.shared b)) i = some p from hx] at hget
    exact (h.mem _ p).mp (List.mem_of_getElem? hget.symm)
  | call w => exact (h.held w p).mp hx

omit [DecidableEq W] in
/-- A block of a chain has one position in it. -/
theorem Books.position (h : Books s owner chains) {x : Slot W} {i j : ℕ}
    (hi : follow s.next (s.head x) i = some p) (hj : follow s.next (s.head x) j = some p) : i = j := by
  rw [(h.chain x).follow_eq] at hi hj
  obtain ⟨hi', hpi⟩ := List.getElem?_eq_some_iff.mp hi
  obtain ⟨hj', hpj⟩ := List.getElem?_eq_some_iff.mp hj
  exact (h.nodup x).getElem_inj_iff.mp (hpi.trans hpj.symm)

omit [DecidableEq W] in
/-- A block is at one place at most. -/
theorem Books.at_unique (h : Books s owner chains) {x y : Place W} (hx : s.At p x) (hy : s.At p y) : x = y := by
  have heq := Option.some.inj ((h.at_owner hx).symm.trans (h.at_owner hy))
  cases x with
  | live => cases y <;> first | rfl | cases heq
  | call w =>
    cases y with
    | call v =>
      obtain rfl := Owner.call.inj heq
      rfl
    | _ => cases heq
  | localChain w b i =>
    cases y with
    | localChain v a j =>
      obtain ⟨rfl, rfl⟩ := Slot.own.inj (Owner.chain.inj heq)
      rw [h.position (x := .own w b) hx hy]
    | globalChain a j => cases Owner.chain.inj heq
    | _ => cases heq
  | globalChain b i =>
    cases y with
    | globalChain a j =>
      obtain rfl := Slot.shared.inj (Owner.chain.inj heq)
      rw [h.position (x := .shared b) hx hy]
    | localChain v a j => cases Owner.chain.inj heq
    | _ => cases heq

omit [DecidableEq W] in
/-- Every block of the system is at some place. -/
theorem Books.exists_at (h : Books s owner chains) (hp : s.block p ≠ none) : ∃ x, s.At p x := by
  have hposition {x : Slot W} (hx : owner p = some (.chain x)) : ∃ i, follow s.next (s.head x) i = some p := by
    obtain ⟨i, hi, hpi⟩ := List.mem_iff_getElem.mp ((h.mem x p).mpr hx)
    exact ⟨i, by rw [(h.chain x).follow_eq, List.getElem?_eq_getElem hi, hpi]⟩
  cases ho : owner p with
  | none => exact absurd ((h.block p).mpr ho) hp
  | some o =>
    cases o with
    | live => exact ⟨.live, Option.ne_none_iff_exists'.mp ((h.live p).mpr ho)⟩
    | call w => exact ⟨.call w, (h.held w p).mpr ho⟩
    | chain x =>
      obtain ⟨i, hi⟩ := hposition ho
      cases x with
      | own w b => exact ⟨.localChain w b i, hi⟩
      | shared b => exact ⟨.globalChain b i, hi⟩

omit [DecidableEq W] in
/-- The invariant implies the guarantees. -/
theorem Inv.guarantees (h : Inv s) : Guarantees s := by
  obtain ⟨⟨owner, chains, hbooks⟩, _⟩ := h
  have hend (x : Slot W) : ∃ k, follow s.next (s.head x) k = none :=
    ⟨(chains x).length, by rw [(hbooks.chain x).follow_eq, List.getElem?_eq_none le_rfl]⟩
  refine ⟨fun p => ⟨fun hp => ?_, fun hp x hx => ?_⟩, fun w b => hend (.own w b), fun b => hend (.shared b),
    fun w b i p hp => hbooks.bucket _ p (hbooks.at_owner hp),
      fun b i p hp => hbooks.bucket _ p (hbooks.at_owner hp),
    fun p bytes hp => ?_⟩
  · obtain ⟨x, hx⟩ := hbooks.exists_at hp
    exact ⟨x, hx, fun y hy => hbooks.at_unique hy hx⟩
  · have howner := hbooks.at_owner hx
    rw [(hbooks.block p).mp hp] at howner
    cases howner
  · obtain ⟨hbytes, hblock⟩ := hbooks.liveBucket p bytes hp
    exact ⟨bucketOf bytes, hblock, le_two_pow_bucketOf, bucketOf_lt hbytes⟩

/-- The guarantees hold in every state that any number of workers can reach. -/
theorem reachable_blocks (h : Reachable s) : Guarantees s := h.inv.guarantees

/-- A worker that has requested and freed two blocks has both of them in the chain of their class. -/
theorem reachable_blocks_chain : ∃ s : State Bool, s.localCache true 7 = some 8 ∧ s.next 8 = some 7 ∧
    s.next 7 = none ∧ Guarantees s := by
  have hcall : Reachable ((State.init Bool).goto true (.readLocal 100)) :=
    Reachable.init.step (Step.allocate rfl (by decide) (by decide))
  have hread := hcall.step (Step.access true 7 fun _ _ => rfl)
  have hobtained := hread.step (Step.access true 7 fun _ _ => rfl)
  have hcall' := hobtained.step (Step.allocate (w := true) rfl (show 1 ≤ 100 by decide) (by decide))
  have hread' := hcall'.step (Step.access true 8 fun _ _ => rfl)
  have hobtained' := hread'.step (Step.access true 8 fun _ _ => rfl)
  have hfree := hobtained'.step (Step.deallocate (w := true) (p := 7) rfl rfl)
  have hchecked := hfree.step (Step.access true 9 nofun)
  have hlinked := hchecked.step (Step.access true 9 nofun)
  have hpushed := hlinked.step (Step.access true 9 nofun)
  have hfree' := hpushed.step (Step.deallocate (w := true) (p := 8) rfl rfl)
  have hchecked' := hfree'.step (Step.access true 9 nofun)
  have hlinked' := hchecked'.step (Step.access true 9 nofun)
  have hpushed' := hlinked'.step (Step.access true 9 nofun)
  exact ⟨_, rfl, rfl, rfl, reachable_blocks hpushed'⟩

end Pool

end ToggleTree
