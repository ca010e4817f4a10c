import ToggleTree.Scheduler.Control
import ToggleTree.Scheduler.Ledger

/-!
# Every job is taken exactly once

The invariant of a deque relates the packed counters to unbounded ones, the slots to the
jobs of the ledger, and each call in flight to what it has pushed or taken. Its core is that
everyone who is entitled to a slot (the items of the deque, a thief that has not cleared its
slot yet, the owner between its two writes) has a slot of its own that holds its job. This
is what keeps a wrapping owner from overwriting a slot that a slow thief still has to read.
-/

namespace ToggleTree

open ForkJoin ForkJoin.Prog

namespace Deque

variable {J K H : Type}

section Secured

/-- Each holder in `held` has a slot of its own, and the slot contains its job. -/
structure Secured (deq : ℕ → Option J) (held : H → Option (ℕ × J)) : Prop where
  filled : ∀ x i j, held x = some (i, j) → deq i = some j
  apart : ∀ x y i j j', held x = some (i, j) → held y = some (i, j') → x = y

variable {deq : ℕ → Option J} {held held' : H → Option (ℕ × J)}

/-- The claim of `a` passes to `b`. -/
theorem Secured.move (h : Secured deq held) {a b : H} (hb : held' b = held a) (ha : a ≠ b → held' a = none)
    (hother : ∀ x, x ≠ a → x ≠ b → held' x = held x) : Secured deq held' := by
  classical
  -- Every claim after the move was a claim before, of the holder that `origin` names.
  have horigin : ∀ x c, held' x = some c → held (if x = b then a else x) = some c ∧ (x = a → x = b) := by
    intro x c hx
    by_cases hxb : x = b
    · subst hxb
      exact ⟨by rw [if_pos rfl, ← hb, hx], fun _ => rfl⟩
    · by_cases hxa : x = a
      · subst hxa
        rw [ha hxb] at hx
        cases hx
      · rw [if_neg hxb, ← hother x hxa hxb]
        exact ⟨hx, fun hxa' => (hxa hxa').elim⟩
  constructor
  · intro x i j hx
    exact h.filled _ i j (horigin x _ hx).1
  · intro x y i j j' hx hy
    obtain ⟨hx', hxa⟩ := horigin x _ hx
    obtain ⟨hy', hya⟩ := horigin y _ hy
    have heq := h.apart _ _ i j j' hx' hy'
    by_cases hxb : x = b <;> by_cases hyb : y = b
    · rw [hxb, hyb]
    · rw [if_pos hxb, if_neg hyb] at heq
      exact hxb.trans (hya heq.symm).symm
    · rw [if_neg hxb, if_pos hyb] at heq
      exact (hxa heq).trans hyb.symm
    · rwa [if_neg hxb, if_neg hyb] at heq

/-- A holder clears its slot and gives it up. -/
theorem Secured.release (h : Secured deq held) {a : H} {i : ℕ} {j : J} (hold : held a = some (i, j))
    (ha : held' a = none) (hother : ∀ x, x ≠ a → held' x = held x) :
    Secured (Function.update deq i none) held' := by
  have hold' : ∀ x c, held' x = some c → x ≠ a ∧ held x = some c := by
    intro x c hx
    have hxa : x ≠ a := by
      rintro rfl
      rw [ha] at hx
      cases hx
    exact ⟨hxa, by rw [← hother x hxa, hx]⟩
  constructor
  · intro x i' j' hx
    obtain ⟨hxa, hx⟩ := hold' x _ hx
    have hne : i' ≠ i := by
      rintro rfl
      exact hxa (h.apart _ _ _ _ _ hx hold)
    rw [Function.update_of_ne hne]
    exact h.filled x i' j' hx
  · intro x y i' j' j'' hx hy
    exact h.apart x y i' j' j'' (hold' x _ hx).2 (hold' y _ hy).2

/-- A holder fills an empty slot. -/
theorem Secured.acquire (h : Secured deq held) {a : H} {i : ℕ} {j : J} (hempty : deq i = none)
    (hold : held a = none) (ha : held' a = some (i, j)) (hother : ∀ x, x ≠ a → held' x = held x) :
    Secured (Function.update deq i (some j)) held' := by
  have hfree : ∀ x j', x ≠ a → held' x ≠ some (i, j') := by
    intro x j' hxa hx
    rw [hother x hxa] at hx
    rw [h.filled x i j' hx] at hempty
    cases hempty
  constructor
  · intro x i' j' hx
    by_cases hxa : x = a
    · subst hxa
      rw [ha] at hx
      cases hx
      rw [Function.update_self]
    · have hne : i' ≠ i := by
        rintro rfl
        exact hfree x j' hxa hx
      rw [Function.update_of_ne hne]
      exact h.filled x i' j' (by rw [← hother x hxa, hx])
  · intro x y i' j' j'' hx hy
    by_cases hxa : x = a
    · by_cases hya : y = a
      · rw [hxa, hya]
      · subst hxa
        rw [ha] at hx
        cases hx
        exact (hfree y j'' hya hy).elim
    · by_cases hya : y = a
      · subst hya
        rw [ha] at hy
        cases hy
        exact (hfree x j' hxa hx).elim
      · rw [hother x hxa] at hx
        rw [hother y hya] at hy
        exact h.apart x y i' j' j'' hx hy

end Secured

section States

variable (T : DequeType)

/-- Where the owner stands, with the job of its call and what it has pushed or taken. -/
inductive OwnerState (J : Type)
  | none
  | push (job : J) (point : PushState) (number : Option ℕ) (quiet : Prop)
  | pop (point : PopState J) (number : Option ℕ)

/-- Where a thief stands, with what it has taken. -/
inductive ThiefState (J : Type)
  | none
  | top (point : TopState J) (number : Option ℕ)

/-- The call of the owner at a state. -/
def OwnerState.call : OwnerState J → OwnerCall J
  | none => .none
  | push job point number quiet => .push job (point.rest T job) number quiet
  | pop point number => .pop (point.rest T) number

/-- The call of a thief at a state. -/
def ThiefState.call : ThiefState J → ThiefCall J
  | none => .none
  | top point number => .top (point.rest T) number

/-- The slot that the owner is entitled to in the middle of a call. -/
def OwnerState.claim : OwnerState J → Option (ℕ × J)
  | push job (.stored p) _ _ => some (target T p, job)
  | pop (.clearing p job) _ => some (T.tail (T.sub p (2 * T.unit)), job)
  | _ => Option.none

/-- The slot that a thief is entitled to in the middle of a call. -/
def ThiefState.claim : ThiefState J → Option (ℕ × J)
  | top (.exchanged p job) _ => some (T.head p, job)
  | top (.clearing p job) _ => some (T.head p, job)
  | _ => Option.none

/-- The word `p` that a push has read is out of date in its head only. -/
def Read (h t p : ℕ) : Prop :=
  ∃ h' ≤ h, h' ≤ t ∧ t + 1 < h' + T.capacity ∧ (h' < t → h < t) ∧ p = T.pack h' t

/-- The call has pushed or taken the job with this number. -/
def Ledger.Dealt (l : Ledger J) (number : Option ℕ) (job : J) : Prop :=
  ∃ k, number = some k ∧ l.pushed[k]? = some job

/-- What is known of the owner at its points. -/
def OwnerState.Valid (h t : ℕ) (d : Deque J) (l : Ledger J) : OwnerState J → Prop
  | none => True
  | push _ .entered number quiet => number = Option.none ∧ quiet
  | push _ (.loaded p) number quiet => number = Option.none ∧ quiet ∧ Read T h t p
  | push _ (.checked p) number quiet =>
      number = Option.none ∧ quiet ∧ Read T h t p ∧ d.deq (target T p) = Option.none
  | push _ (.stored p) number _ => number = Option.none ∧ Read T h t p
  | push job (.returned r) number quiet =>
      if r.1 then l.Dealt number job else r.2 = false ∧ number = Option.none ∧ quiet
  | pop .entered number => number = Option.none
  | pop .decided number => number = Option.none ∧ h < t
  | pop (.clearing _ job) number => l.Dealt number job ∧ ∀ k ∈ number, k ∈ l.popped
  | pop (.returned r) number =>
      if r then ∃ k ∈ number, k ∈ l.popped else number = Option.none ∧ l.items = []

/-- What is known of a thief at its points. -/
def ThiefState.Valid (l : Ledger J) : ThiefState J → Prop
  | none => True
  | top .entered number => number = Option.none
  | top (.proposing p) number => number = Option.none ∧ 1 < T.length p
  | top (.exchanged _ job) number => l.Dealt number job ∧ ∀ k ∈ number, k ∈ l.stolen
  | top (.clearing _ job) number => l.Dealt number job ∧ ∀ k ∈ number, k ∈ l.stolen
  | top (.returned r) number =>
      match r.1 with
      | some job => l.Dealt number job ∧ ∀ k ∈ number, k ∈ l.stolen
      | Option.none => number = Option.none

/-- Everyone who is entitled to a slot: the items by their counter values, and the calls. -/
inductive Holder (K : Type)
  | item (i : ℕ)
  | owner
  | thief (k : K)

/-- The slots that the holders are entitled to, with their jobs. -/
def held (h : ℕ) (l : Ledger J) (os : OwnerState J) (ts : K → ThiefState J) : Holder K → Option (ℕ × J)
  | .item i => if h ≤ i then (l.jobAt (i - h)).map fun job => (T.place i, job) else Option.none
  | .owner => os.claim T
  | .thief k => (ts k).claim T

/-- The invariant of a deque whose counters are `h` and `t`. -/
structure Inv (c : Config J K) (h t : ℕ) (os : OwnerState J) (ts : K → ThiefState J) : Prop where
  owner_eq : c.owner = os.call T
  thief_eq : ∀ k, c.thief k = (ts k).call T
  pos_eq : c.deque.pos = T.pack h t
  le : h ≤ t
  span : t < h + T.capacity
  count : c.ledger.items.length = t - h - 1
  sound : c.ledger.Sound
  secured : Secured c.deque.deq (held T h c.ledger os ts)
  owner_valid : os.Valid T h t c.deque c.ledger
  thief_valid : ∀ k, (ts k).Valid T c.ledger

end States

section Stability

variable {T : DequeType} {h t : ℕ} {d d' : Deque J} {l l' : Ledger J}

/-- A job that has been dealt with stays so when more jobs are pushed. -/
theorem Ledger.Dealt.mono {number : Option ℕ} {job : J} (hd : l.Dealt number job)
    (hpushed : ∀ (k : ℕ) (j : J), l.pushed[k]? = some j → l'.pushed[k]? = some j) : l'.Dealt number job := by
  obtain ⟨k, hk, hjob⟩ := hd
  exact ⟨k, hk, hpushed k job hjob⟩

/-- The jobs that have been pushed stay so. -/
theorem Ledger.pushed_push (job : J) (k : ℕ) (j : J) (hk : l.pushed[k]? = some j) :
    (l.push job).pushed[k]? = some j := by
  obtain ⟨hlt, _⟩ := List.getElem?_eq_some_iff.mp hk
  rw [Ledger.push, List.getElem?_append_left hlt, hk]

/-- What a thief knows outlives what the owner and other thieves push and take. -/
theorem ThiefState.Valid.mono {s : ThiefState J} (hs : s.Valid T l)
    (hpushed : ∀ (k : ℕ) (j : J), l.pushed[k]? = some j → l'.pushed[k]? = some j)
    (hstolen : ∀ k ∈ l.stolen, k ∈ l'.stolen) : s.Valid T l' := by
  cases s with
  | none => trivial
  | top point number =>
    cases point with
    | entered => exact hs
    | proposing p => exact hs
    | exchanged p job => exact ⟨hs.1.mono hpushed, fun k hk => hstolen k (hs.2 k hk)⟩
    | clearing p job => exact ⟨hs.1.mono hpushed, fun k hk => hstolen k (hs.2 k hk)⟩
    | returned r =>
      obtain ⟨job, e⟩ := r
      cases job with
      | none => exact hs
      | some job => exact ⟨hs.1.mono hpushed, fun k hk => hstolen k (hs.2 k hk)⟩

/-- A word that has been read stays possible when a job is stolen. -/
theorem Read.steal {p : ℕ} (hp : Read T h t p) (hlt : h + 1 < t) : Read T (h + 1) t p := by
  obtain ⟨h', hle, hle', hspan, _, rfl⟩ := hp
  exact ⟨h', by omega, hle', hspan, fun _ => hlt, rfl⟩

/-- What the owner knows outlives a theft. -/
theorem OwnerState.Valid.steal {s : OwnerState J} (hs : s.Valid T h t d l) (hlt : h + 1 < t)
    (hdeq : d'.deq = d.deq) : s.Valid T (h + 1) t d' l.popTop := by
  cases s with
  | none => trivial
  | push job point number quiet =>
    cases point with
    | entered => exact hs
    | loaded p => exact ⟨hs.1, hs.2.1, hs.2.2.steal hlt⟩
    | checked p => exact ⟨hs.1, hs.2.1, hs.2.2.1.steal hlt, by rw [hdeq]; exact hs.2.2.2⟩
    | stored p => exact ⟨hs.1, hs.2.steal hlt⟩
    | returned r => exact hs
  | pop point number =>
    cases point with
    | entered => exact hs
    | decided => exact ⟨hs.1, hlt⟩
    | clearing p job => exact hs
    | returned r =>
      cases r with
      | false => exact ⟨hs.1, by rw [Ledger.popTop, hs.2, List.tail_nil]⟩
      | true => exact hs

/-- What the owner knows outlives the clearing of a slot by a thief. -/
theorem OwnerState.Valid.clear {s : OwnerState J} (hs : s.Valid T h t d l) {i : ℕ}
    (hdeq : d'.deq = Function.update d.deq i Option.none) : s.Valid T h t d' l := by
  cases s with
  | none => trivial
  | push job point number quiet =>
    cases point with
    | checked p =>
      refine ⟨hs.1, hs.2.1, hs.2.2.1, ?_⟩
      rw [hdeq, Function.update_apply]
      split
      · rfl
      · exact hs.2.2.2
    | _ => exact hs
  | pop point number => cases point <;> exact hs

end Stability

section Preservation

variable {T : DequeType} {c : Config J K} {h t : ℕ} {os : OwnerState J} {ts : K → ThiefState J}

/-- The owner moves on without touching the deque. -/
theorem Inv.setOwner (hinv : Inv T c h t os ts) (os' : OwnerState J)
    (hclaim : os'.claim T = os.claim T) (hvalid : os'.Valid T h t c.deque c.ledger) :
    Inv T { c with owner := os'.call T } h t os' ts where
  owner_eq := rfl
  thief_eq := hinv.thief_eq
  pos_eq := hinv.pos_eq
  le := hinv.le
  span := hinv.span
  count := hinv.count
  sound := hinv.sound
  secured := by
    have hsame : held T h c.ledger os' ts = held T h c.ledger os ts := by
      funext x
      cases x with
      | item i => rfl
      | owner => exact hclaim
      | thief k => rfl
    rw [hsame]
    exact hinv.secured
  owner_valid := hvalid
  thief_valid := hinv.thief_valid

variable [DecidableEq K]

/-- The calls of the thieves after one goes on. -/
theorem call_update (ts : K → ThiefState J) (k : K) (x : ThiefState J) (c : Config J K)
    (hts : ∀ k, c.thief k = (ts k).call T) (k' : K) :
    Function.update c.thief k (x.call T) k' = (Function.update ts k x k').call T := by
  by_cases hk : k' = k
  · subst hk
    rw [Function.update_self, Function.update_self]
  · rw [Function.update_of_ne hk, Function.update_of_ne hk, hts]

/-- The thieves stay valid. -/
theorem valid_update {l : Ledger J} (hts : ∀ k, (ts k).Valid T l) {k : K} {x : ThiefState J}
    (hx : x.Valid T l) (k' : K) : (Function.update ts k x k').Valid T l := by
  by_cases hk : k' = k
  · subst hk
    rwa [Function.update_self]
  · rw [Function.update_of_ne hk]
    exact hts k'

/-- A thief moves on without touching the deque. -/
theorem Inv.setThief (hinv : Inv T c h t os ts) {k : K} {x : ThiefState J}
    (hclaim : x.claim T = (ts k).claim T) (hvalid : x.Valid T c.ledger) :
    Inv T { c with thief := Function.update c.thief k (x.call T) } h t os (Function.update ts k x) where
  owner_eq := hinv.owner_eq
  thief_eq := call_update ts k x c hinv.thief_eq
  pos_eq := hinv.pos_eq
  le := hinv.le
  span := hinv.span
  count := hinv.count
  sound := hinv.sound
  secured := by
    have hsame : held T h c.ledger os (Function.update ts k x) = held T h c.ledger os ts := by
      funext y
      cases y with
      | item i => rfl
      | owner => rfl
      | thief k' =>
        by_cases hk : k' = k
        · subst hk
          simp only [held, Function.update_self, hclaim]
        · simp only [held, Function.update_of_ne hk]
    rw [hsame]
    exact hinv.secured
  owner_valid := hinv.owner_valid
  thief_valid := valid_update hinv.thief_valid hvalid

omit [DecidableEq K] in
/-- The owner stores its job in the empty slot that it has checked. -/
theorem Inv.storeJob {job : J} {p : ℕ} {number : Option ℕ} {quiet : Prop}
    (hinv : Inv T c h t (.push job (.checked p) number quiet) ts) (quiet' : Prop) :
    Inv T { c with
        deque := { c.deque with deq := Function.update c.deque.deq (target T p) (some job) }
        owner := .push job ((PushState.stored p).rest T job) number quiet' } h t
      (.push job (.stored p) number quiet') ts where
  owner_eq := rfl
  thief_eq := hinv.thief_eq
  pos_eq := hinv.pos_eq
  le := hinv.le
  span := hinv.span
  count := hinv.count
  sound := hinv.sound
  secured := by
    refine hinv.secured.acquire hinv.owner_valid.2.2.2 (a := Holder.owner) rfl rfl fun x hx => ?_
    cases x with
    | item i => rfl
    | owner => exact (hx rfl).elim
    | thief k => rfl
  owner_valid := ⟨hinv.owner_valid.1, hinv.owner_valid.2.2.1⟩
  thief_valid := hinv.thief_valid

/-- The words that a push computes from an out-of-date head. -/
theorem Read.target_eq {p : ℕ} (hp : Read T h t p) (hle : h ≤ t) :
    target T p = T.place (h + (t - h - 1)) ∧
      (∀ h'', advanced T p (T.pack h'' t) = T.pack h'' (if h < t then t + 1 else t + 2)) ∧
      (if h < t then t + 1 else t + 2) < h + T.capacity := by
  obtain ⟨h', hh', hle', hspan, hlt, rfl⟩ := hp
  have hcap := T.three_le
  have hunit := T.capacity_le
  have hlen : T.length (T.pack h' t) = t - h' := T.length_pack hle' (by omega)
  have hsub : T.sub (T.pack h' t) T.unit = T.sub (T.pack h' t) (1 * T.unit) := by rw [one_mul]
  unfold target advanced
  rw [hlen]
  by_cases ht : h' < t
  · have := hlt ht
    rw [if_neg (by omega), if_pos this, if_neg (by omega), if_neg (by omega), hsub,
      T.sub_pack (by omega) (by omega), T.tail_pack]
    refine ⟨by congr 1; omega, fun h'' => ?_, by omega⟩
    split
    · rw [← one_mul T.unit, T.pack_add]
    · exact T.pack_store h'' h' t 1
  · obtain rfl : h' = t := by omega
    obtain rfl : h = h' := by omega
    rw [if_pos (Nat.sub_self _), if_neg (lt_irrefl _), if_pos (Nat.sub_self _), if_pos (Nat.sub_self _),
      T.tail_pack]
    refine ⟨by congr 1; omega, fun h'' => ?_, by omega⟩
    split
    · rw [T.pack_add]
    · exact T.pack_store h'' h h 2

omit [DecidableEq K] in
/-- The tail moves past the stored job, which becomes an item of the deque. -/
theorem Inv.publish {job : J} {p : ℕ} {number : Option ℕ} {quiet : Prop}
    (hinv : Inv T c h t (.push job (.stored p) number quiet) ts) (f : Bool) (quiet' : Prop) :
    Inv T { c with
        deque := { c.deque with pos := advanced T p c.deque.pos }
        owner := .push job ((PushState.returned (true, f)).rest T job) (some c.ledger.pushed.length) quiet'
        ledger := c.ledger.push job } h (if h < t then t + 1 else t + 2)
      (.push job (.returned (true, f)) (some c.ledger.pushed.length) quiet') ts := by
  obtain ⟨htarget, hadvanced, hspan⟩ := hinv.owner_valid.2.target_eq hinv.le
  have hle := hinv.le
  have hcount := hinv.count
  have hlen : (c.ledger.push job).items.length = c.ledger.items.length + 1 := by simp [Ledger.push]
  refine ⟨rfl, hinv.thief_eq, ?_, by split <;> omega, hspan, ?_, Ledger.push_sound hinv.sound job, ?_,
    ?_, fun k => ThiefState.Valid.mono (hinv.thief_valid k) (Ledger.pushed_push job) fun _ hk => hk⟩
  · change advanced T p c.deque.pos = _
    rw [hinv.pos_eq, hadvanced]
  · change (c.ledger.push job).items.length = _
    rw [hlen]
    split <;> omega
  · refine hinv.secured.move (a := Holder.owner) (b := Holder.item (h + (t - h - 1))) ?_ (fun _ => rfl)
      fun x hxa hxb => ?_
    · simp only [held, OwnerState.claim, Ledger.jobAt_push _ _ hinv.sound]
      rw [if_pos (by omega), if_pos (by omega), htarget]
      rfl
    · cases x with
      | item i =>
        simp only [held, Ledger.jobAt_push _ _ hinv.sound]
        by_cases hi : h ≤ i
        · have hne : i - h ≠ c.ledger.items.length := by
            intro heq
            refine hxb (congrArg Holder.item ?_)
            omega
          rw [if_pos hi, if_pos hi, if_neg hne]
        · rw [if_neg hi, if_neg hi]
      | owner => exact (hxa rfl).elim
      | thief k => rfl
  · refine ⟨c.ledger.pushed.length, rfl, ?_⟩
    simp [Ledger.push]

/-- Popping from the bottom of an empty deque changes nothing. -/
theorem Ledger.popBottom_of_nil {l : Ledger J} (hl : l.items = []) : l.popBottom = l := by
  obtain ⟨pushed, items, popped, stolen⟩ := l
  change items = [] at hl
  subst hl
  simp [Ledger.popBottom]

omit [DecidableEq K] in
/-- The owner lowers the tail and finds that thieves have taken the last job. -/
theorem Inv.giveUp {number : Option ℕ} (hinv : Inv T c h t (.pop .decided number) ts) (hone : t = h + 1) :
    Inv T { c with
        deque := { c.deque with pos := T.sub c.deque.pos T.unit }
        owner := .pop ((PopState.returned false).rest T) c.ledger.items.getLast?
        ledger := c.ledger.popBottom } h (t - 1)
      (.pop (.returned false) c.ledger.items.getLast?) ts := by
  have hnil : c.ledger.items = [] := List.length_eq_zero_iff.mp (by rw [hinv.count]; omega)
  have hsub : T.sub c.deque.pos T.unit = T.pack h (t - 1) := by
    rw [hinv.pos_eq]
    have := T.sub_pack (h := h) (t := t) (k := 1) (by omega) T.unit_pos
    rwa [one_mul] at this
  rw [Ledger.popBottom_of_nil hnil]
  refine ⟨rfl, hinv.thief_eq, hsub, by omega, by have := T.three_le; omega, ?_, hinv.sound, ?_, ?_,
    hinv.thief_valid⟩
  · change c.ledger.items.length = _
    rw [hnil, List.length_nil]
    omega
  · have hsame : held T h c.ledger (.pop (.returned false) c.ledger.items.getLast?) ts =
        held T h c.ledger (.pop .decided number) ts := by
      funext x
      cases x <;> rfl
    change Secured c.deque.deq (held T h c.ledger _ ts)
    rw [hsame]
    exact hinv.secured
  · exact ⟨by rw [hnil]; rfl, hnil⟩

omit [DecidableEq K] in
/-- The owner lowers the tail and so takes the last job. -/
theorem Inv.takeBottom {number : Option ℕ} (hinv : Inv T c h t (.pop .decided number) ts)
    (hlt : h + 1 < t) :
    ∃ job, c.ledger.Dealt c.ledger.items.getLast? job ∧ Inv T { c with
        deque := { c.deque with pos := T.sub c.deque.pos T.unit }
        owner := .pop ((PopState.clearing c.deque.pos job).rest T) c.ledger.items.getLast?
        ledger := c.ledger.popBottom } h (t - 1)
      (.pop (.clearing c.deque.pos job) c.ledger.items.getLast?) ts := by
  have hcount := hinv.count
  have hspan := hinv.span
  have hcap := T.capacity_le
  have hthree := T.three_le
  have hlast : c.ledger.items.length - 1 < c.ledger.items.length := by omega
  obtain ⟨job, hjobAt, hjob⟩ := hinv.sound.jobAt_isSome hlast
  have hgetLast : c.ledger.items.getLast? = some c.ledger.items[c.ledger.items.length - 1] := by
    rw [List.getLast?_eq_getElem?, List.getElem?_eq_getElem hlast]
  have hsub : T.sub c.deque.pos T.unit = T.pack h (t - 1) := by
    rw [hinv.pos_eq]
    have := T.sub_pack (h := h) (t := t) (k := 1) (by omega) T.unit_pos
    rwa [one_mul] at this
  have hslot : T.tail (T.sub c.deque.pos (2 * T.unit)) = T.place (t - 2) := by
    rw [hinv.pos_eq, T.sub_pack (by omega) (by omega), T.tail_pack]
  have hdealt : c.ledger.Dealt c.ledger.items.getLast? job := ⟨_, hgetLast, hjob⟩
  refine ⟨job, hdealt, rfl, hinv.thief_eq, hsub, by omega, by omega, ?_,
    Ledger.popBottom_sound hinv.sound, ?_, ⟨hdealt, fun k hk => ?_⟩, fun k =>
      ThiefState.Valid.mono (hinv.thief_valid k) (fun _ _ hk => hk) fun _ hk => hk⟩
  · change c.ledger.items.dropLast.length = _
    rw [List.length_dropLast]
    omega
  · refine hinv.secured.move (a := Holder.item (t - 2)) (b := Holder.owner) ?_ (fun _ => ?_)
      fun x hxa hxb => ?_
    · simp only [held, OwnerState.claim, hslot]
      rw [if_pos (by omega), show t - 2 - h = c.ledger.items.length - 1 by omega, hjobAt]
      rfl
    · simp only [held, Ledger.jobAt_popBottom]
      rw [if_pos (by omega), if_neg (by omega)]
      rfl
    · cases x with
      | item i =>
        simp only [held, Ledger.jobAt_popBottom]
        by_cases hi : h ≤ i
        · rw [if_pos hi, if_pos hi]
          by_cases hin : i - h + 1 < c.ledger.items.length
          · rw [if_pos hin]
          · have hne : i ≠ t - 2 := fun heq => hxa (congrArg Holder.item heq)
            rw [if_neg hin, Ledger.jobAt, List.getElem?_eq_none (by omega)]
            rfl
        · rw [if_neg hi, if_neg hi]
      | owner => exact (hxb rfl).elim
      | thief k => rfl
  · rw [Option.mem_def] at hk
    simp [Ledger.popBottom, hk]

omit [DecidableEq K] in
/-- The owner clears the slot of the job that it has taken. -/
theorem Inv.clearBottom {p : ℕ} {job : J} {number : Option ℕ}
    (hinv : Inv T c h t (.pop (.clearing p job) number) ts) :
    Inv T { c with
        deque := { c.deque with
          deq := Function.update c.deque.deq (T.tail (T.sub p (2 * T.unit))) none }
        owner := .pop ((PopState.returned true : PopState J).rest T) number } h t
      (.pop (.returned true) number) ts where
  owner_eq := rfl
  thief_eq := hinv.thief_eq
  pos_eq := hinv.pos_eq
  le := hinv.le
  span := hinv.span
  count := hinv.count
  sound := hinv.sound
  secured := by
    refine hinv.secured.release (a := Holder.owner) rfl rfl fun x hx => ?_
    cases x with
    | item i => rfl
    | owner => exact (hx rfl).elim
    | thief k => rfl
  owner_valid := by
    obtain ⟨⟨k, hk, _⟩, hpopped⟩ := hinv.owner_valid
    exact ⟨k, hk, hpopped k hk⟩
  thief_valid := hinv.thief_valid

/-- A thief moves the head and so takes the job there. -/
theorem Inv.takeTop {k : K} {p : ℕ} {number : Option ℕ} (hinv : Inv T c h t os ts)
    (hk : ts k = .top (.proposing p) number) (hp : c.deque.pos = p) :
    ∃ job, c.ledger.Dealt c.ledger.items.head? job ∧ Inv T { c with
        deque := { c.deque with pos := (p >>> T.bits) <<< T.bits ||| T.toST (T.toST p + 1) }
        thief := Function.update c.thief k
          (.top ((TopState.exchanged p job).rest T) c.ledger.items.head?)
        ledger := c.ledger.popTop } (h + 1) t os
      (Function.update ts k (.top (.exchanged p job) c.ledger.items.head?)) := by
  have hcount := hinv.count
  have hspan := hinv.span
  have hpos := hinv.pos_eq
  have hvalid := hinv.thief_valid k
  rw [hk] at hvalid
  obtain ⟨_, hlen⟩ := hvalid
  rw [← hp, hpos, T.length_pack hinv.le hspan] at hlen
  have hfirst : 0 < c.ledger.items.length := by omega
  obtain ⟨job, hjobAt, hjob⟩ := hinv.sound.jobAt_isSome hfirst
  have hhead : c.ledger.items.head? = some c.ledger.items[0] := by
    rw [List.head?_eq_getElem?, List.getElem?_eq_getElem hfirst]
  have hdealt : c.ledger.Dealt c.ledger.items.head? job := ⟨_, hhead, hjob⟩
  have hmono := fun (s : ThiefState J) (hs : s.Valid T c.ledger) =>
    show s.Valid T c.ledger.popTop from
      hs.mono (fun _ _ hk => hk) fun _ hk => List.mem_append_left _ hk
  refine ⟨job, hdealt, hinv.owner_eq,
    call_update ts k (.top (.exchanged p job) c.ledger.items.head?) c hinv.thief_eq, ?_, by omega,
    by omega, ?_, Ledger.popTop_sound hinv.sound, ?_,
    OwnerState.Valid.steal hinv.owner_valid (by omega) rfl,
    valid_update (fun k => hmono _ (hinv.thief_valid k)) ⟨hdealt, fun k hk => ?_⟩⟩
  · change (p >>> T.bits) <<< T.bits ||| T.toST (T.toST p + 1) = _
    rw [← hp, hpos, T.pack_next]
  · change c.ledger.items.tail.length = _
    rw [List.length_tail]
    omega
  · refine hinv.secured.move (a := Holder.item h) (b := Holder.thief k) ?_ (fun _ => ?_)
      fun x hxa hxb => ?_
    · simp only [held, Function.update_self, ThiefState.claim]
      rw [if_pos le_rfl, Nat.sub_self, hjobAt, ← hp, hpos, T.head_pack]
      rfl
    · simp only [held]
      rw [if_neg (by omega)]
    · cases x with
      | item i =>
        simp only [held, Ledger.jobAt_popTop]
        by_cases hi : h + 1 ≤ i
        · rw [if_pos hi, if_pos (by omega), show i - (h + 1) + 1 = i - h by omega]
        · have hne : i ≠ h := fun heq => hxa (congrArg Holder.item heq)
          rw [if_neg hi, if_neg (by omega)]
      | owner => rfl
      | thief k' =>
        have hkk : k' ≠ k := fun heq => hxb (congrArg Holder.thief heq)
        simp only [held, Function.update_of_ne hkk]
  · rw [Option.mem_def] at hk
    simp [Ledger.popTop, hk]

/-- A thief clears the slot of the job that it has taken. -/
theorem Inv.clearTop {k : K} {p : ℕ} {job : J} {number : Option ℕ} (hinv : Inv T c h t os ts)
    (hk : ts k = .top (.clearing p job) number) (e : Bool) :
    Inv T { c with
        deque := { c.deque with deq := Function.update c.deque.deq (T.head p) none }
        thief := Function.update c.thief k (.top ((TopState.returned (some job, e)).rest T) number) }
      h t os (Function.update ts k (.top (.returned (some job, e)) number)) where
  owner_eq := hinv.owner_eq
  thief_eq := call_update ts k (.top (.returned (some job, e)) number) c hinv.thief_eq
  pos_eq := hinv.pos_eq
  le := hinv.le
  span := hinv.span
  count := hinv.count
  sound := hinv.sound
  secured := by
    have hclaim : held T h c.ledger os ts (Holder.thief k) = some (T.head p, job) := by
      simp only [held, hk, ThiefState.claim]
    refine hinv.secured.release hclaim ?_ fun x hx => ?_
    · simp only [held, Function.update_self, ThiefState.claim]
    · cases x with
      | item i => rfl
      | owner => rfl
      | thief k' =>
        have hkk : k' ≠ k := fun heq => hx (congrArg Holder.thief heq)
        simp only [held, Function.update_of_ne hkk]
  owner_valid := OwnerState.Valid.clear hinv.owner_valid rfl
  thief_valid := by
    have hvalid := hinv.thief_valid k
    rw [hk] at hvalid
    exact valid_update hinv.thief_valid hvalid

end Preservation

end Deque

end ToggleTree
