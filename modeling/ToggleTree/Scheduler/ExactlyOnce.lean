import ToggleTree.Scheduler.DequeInvariant

/-!
# Guarantees of the deque

Every reachable state of a deque with one owner and any number of thieves satisfies the
invariant, and therefore its guarantees: the ledger accounts for every job once, the slots
from the head on hold the items of the ledger, and each call returns what the ledger says it
has done.
-/

namespace ToggleTree

open ForkJoin ForkJoin.Prog

namespace Deque

variable {J K : Type} {T : DequeType}

/-- An owner without a call is at none. -/
theorem OwnerState.call_eq_none {os : OwnerState J} (h : os.call T = .none) : os = .none := by
  cases os with
  | none => rfl
  | push job point number quiet => cases h
  | pop point number => cases h

/-- An owner in a call of `push_bottom` is at a point of it. -/
theorem OwnerState.call_eq_push {os : OwnerState J} {job : J} {number : Option ℕ} {quiet : Prop}
    {rest : Prog (Deque J) Empty (Bool × Bool)} (h : os.call T = .push job rest number quiet) :
    ∃ point, os = .push job point number quiet ∧ rest = point.rest T job := by
  cases os with
  | none => cases h
  | push job point number quiet =>
    cases h
    exact ⟨point, rfl, rfl⟩
  | pop point number => cases h

/-- An owner in a call of `pop_bottom` is at a point of it. -/
theorem OwnerState.call_eq_pop {os : OwnerState J} {number : Option ℕ}
    {rest : Prog (Deque J) Empty Bool} (h : os.call T = .pop rest number) :
    ∃ point, os = .pop point number ∧ rest = point.rest T := by
  cases os with
  | none => cases h
  | push job point number quiet => cases h
  | pop point number =>
    cases h
    exact ⟨point, rfl, rfl⟩

/-- A thief without a call is at none. -/
theorem ThiefState.call_eq_none {s : ThiefState J} (h : s.call T = .none) : s = .none := by
  cases s with
  | none => rfl
  | top point number => cases h

/-- A thief in a call of `pop_top` is at a point of it. -/
theorem ThiefState.call_eq_top {s : ThiefState J} {number : Option ℕ}
    {rest : Prog (Deque J) Empty (Option J × Bool)} (h : s.call T = .top rest number) :
    ∃ point, s = .top point number ∧ rest = point.rest T := by
  cases s with
  | none => cases h
  | top point number =>
    cases h
    exact ⟨point, rfl, rfl⟩

/-- A call that has returned stands at its result. -/
theorem PushState.eq_returned {job : J} {s : PushState} {r : Bool × Bool}
    (h : ret r = s.rest T job) : s = .returned r := by
  cases s with
  | stored p =>
    rw [PushState.rest, advance] at h
    split at h <;> cases h
  | returned r' =>
    cases h
    rfl
  | _ => cases h

/-- A call of `pop_bottom` without rest has returned. -/
theorem PopState.eq_returned {s : PopState J} {r : Bool} (h : ret r = s.rest T) : s = .returned r := by
  cases s with
  | returned r' =>
    cases h
    rfl
  | _ => cases h

/-- A call of `pop_top` without rest has returned. -/
theorem TopState.eq_returned {s : TopState J} {r : Option J × Bool} (h : ret r = s.rest T) :
    s = .returned r := by
  cases s with
  | returned r' =>
    cases h
    rfl
  | _ => cases h

variable {c c' : Config J K} {h t : ℕ} {os : OwnerState J} {ts : K → ThiefState J}

/-- The invariant holds at the start. -/
theorem Inv.init : Inv T (Config.init : Config J K) 0 0 .none fun _ => .none where
  owner_eq := rfl
  thief_eq _ := rfl
  pos_eq := by
    rw [T.pack_eq, Nat.zero_mod, zero_mul]
    rfl
  le := le_rfl
  span := by
    have := T.three_le
    omega
  count := rfl
  sound := Ledger.init_sound
  secured := by
    have hnone : ∀ x y, held T 0 (Config.init : Config J K).ledger .none (fun _ : K => .none) x ≠ some y := by
      intro x y hx
      cases x <;> cases hx
    exact ⟨fun x i j hx => (hnone x _ hx).elim, fun x y i j j' hx => (hnone x _ hx).elim⟩
  owner_valid := trivial
  thief_valid _ := trivial

section Step

/-- A step of a push. -/
theorem Inv.stepPush (hinv : Inv T c h t os ts) {job : J} {number : Option ℕ} {quiet : Prop}
    {rest rest' : Prog (Deque J) Empty (Bool × Bool)} {d : Deque J}
    (hcall : c.owner = .push job rest number quiet)
    (hstep : ForkJoin.Step Empty.elim rest c.deque rest' d) :
    ∃ t' os', Inv T { c with
      deque := d
      owner := .push job rest' (if d.pos = c.deque.pos then number else some c.ledger.pushed.length)
        (quiet ∧ d = c.deque)
      ledger := if d.pos = c.deque.pos then c.ledger else c.ledger.push job } h t' os' ts := by
  obtain ⟨point, rfl, rfl⟩ := OwnerState.call_eq_push (hinv.owner_eq.symm.trans hcall)
  have hvalid := hinv.owner_valid
  have hspan := hinv.span
  have hle := hinv.le
  rcases PushState.step T hstep with ⟨rfl, rfl, rfl⟩ | ⟨p, rfl, rfl, rfl⟩ | ⟨p, rfl, rfl, rfl⟩ |
    ⟨p, rfl, rfl, rfl⟩
  · obtain ⟨hnumber, hquiet⟩ := hvalid
    rw [if_pos rfl, if_pos rfl]
    have hlen : T.length c.deque.pos = t - h := by rw [hinv.pos_eq, T.length_pack hle hspan]
    split
    · exact ⟨t, _, hinv.setOwner (.push job (.returned (false, false)) number _) rfl
        ⟨rfl, hnumber, hquiet, rfl⟩⟩
    · next hne =>
      exact ⟨t, _, hinv.setOwner (.push job (.loaded c.deque.pos) number _) rfl
        ⟨hnumber, ⟨hquiet, rfl⟩, h, le_rfl, hle, by omega, id, hinv.pos_eq⟩⟩
  · obtain ⟨hnumber, hquiet, hread⟩ := hvalid
    rw [if_pos rfl, if_pos rfl]
    split
    · exact ⟨t, _, hinv.setOwner (.push job (.returned (false, false)) number _) rfl
        ⟨rfl, hnumber, hquiet, rfl⟩⟩
    · next hempty =>
      exact ⟨t, _, hinv.setOwner (.push job (.checked p) number _) rfl
        ⟨hnumber, ⟨hquiet, rfl⟩, hread, by simpa using hempty⟩⟩
  · rw [if_pos rfl, if_pos rfl]
    exact ⟨t, _, hinv.storeJob _⟩
  · have hmoved : advanced T p c.deque.pos ≠ c.deque.pos := by
      have hthree := T.three_le
      have hunit := T.capacity_le
      rw [hinv.pos_eq, (hvalid.2.target_eq hle).2.1]
      split
      · exact T.pack_ne_tail one_pos (by omega)
      · exact T.pack_ne_tail two_pos (by omega)
    rw [if_neg hmoved, if_neg hmoved]
    exact ⟨_, _, hinv.publish _ _⟩

/-- A step of a pop at the bottom. -/
theorem Inv.stepPop (hinv : Inv T c h t os ts) {number : Option ℕ}
    {rest rest' : Prog (Deque J) Empty Bool} {d : Deque J} (hcall : c.owner = .pop rest number)
    (hstep : ForkJoin.Step Empty.elim rest c.deque rest' d) :
    ∃ t' os', Inv T { c with
      deque := d
      owner := .pop rest' (if d.pos = c.deque.pos then number else c.ledger.items.getLast?)
      ledger := if d.pos = c.deque.pos then c.ledger else c.ledger.popBottom } h t' os' ts := by
  obtain ⟨point, rfl, rfl⟩ := OwnerState.call_eq_pop (hinv.owner_eq.symm.trans hcall)
  have hvalid := hinv.owner_valid
  have hspan := hinv.span
  have hle := hinv.le
  have hlen : T.length c.deque.pos = t - h := by rw [hinv.pos_eq, T.length_pack hle hspan]
  rcases PopState.step T hstep with ⟨rfl, rfl, rfl⟩ | ⟨rfl, rfl, hempty, htake⟩ |
    ⟨p, job, rfl, rfl, rfl⟩
  · rw [if_pos rfl, if_pos rfl]
    split
    · refine ⟨t, _, hinv.setOwner (.pop (.returned false) number) rfl ⟨hvalid, ?_⟩⟩
      exact List.length_eq_zero_iff.mp (by rw [hinv.count]; omega)
    · exact ⟨t, _, hinv.setOwner (.pop .decided number) rfl ⟨hvalid, by omega⟩⟩
  · obtain ⟨_, hlt⟩ := hvalid
    have hmoved : T.sub c.deque.pos T.unit ≠ c.deque.pos := by
      have hthree := T.three_le
      have hunit := T.capacity_le
      have hsub := T.sub_pack (h := h) (t := t) (k := 1) (by omega) (by omega)
      rw [one_mul] at hsub
      rw [hinv.pos_eq, hsub]
      have hne := T.pack_ne_tail (h := h) (t := t - 1) (k := 1) one_pos (by omega)
      rw [Nat.sub_add_cancel (by omega)] at hne
      exact hne.symm
    rw [if_neg hmoved, if_neg hmoved]
    by_cases hone : t = h + 1
    · rw [hempty (by omega)]
      exact ⟨_, _, hinv.giveUp hone⟩
    · obtain ⟨job, _, hnext⟩ := hinv.takeBottom (by omega)
      rw [htake (by omega) job]
      exact ⟨_, _, hnext⟩
  · rw [if_pos rfl, if_pos rfl]
    exact ⟨t, _, hinv.clearBottom⟩

variable [DecidableEq K]

/-- A step of a take at the top. -/
theorem Inv.stepTop (hinv : Inv T c h t os ts) {k : K} {number : Option ℕ}
    {rest rest' : Prog (Deque J) Empty (Option J × Bool)} {d : Deque J}
    (hcall : c.thief k = .top rest number) (hstep : ForkJoin.Step Empty.elim rest c.deque rest' d) :
    ∃ h' ts', Inv T { c with
      deque := d
      thief := Function.update c.thief k
        (.top rest' (if d.pos = c.deque.pos then number else c.ledger.items.head?))
      ledger := if d.pos = c.deque.pos then c.ledger else c.ledger.popTop } h' t os ts' := by
  obtain ⟨point, hk, rfl⟩ := ThiefState.call_eq_top ((hinv.thief_eq k).symm.trans hcall)
  have hvalid := hinv.thief_valid k
  rw [hk] at hvalid
  have hclaim (point : TopState J) (x : ThiefState J) (hx : x.claim T = none)
      (hts : (ts k).claim T = none) : x.claim T = (ts k).claim T := hx.trans hts.symm
  rcases TopState.step T hstep with ⟨rfl, rfl, rfl⟩ | ⟨p, rfl, hne, rfl, rfl⟩ | ⟨p, rfl, hp, rfl, hrest⟩ |
    ⟨p, job, rfl, rfl, hrest⟩ | ⟨p, job, rfl, rfl, rfl⟩
  · rw [if_pos rfl, if_pos rfl]
    split
    · exact ⟨h, _, hinv.setThief (x := .top (.returned (none, true)) number) (by rw [hk]; rfl) hvalid⟩
    · next hlen =>
      exact ⟨h, _, hinv.setThief (x := .top (.proposing c.deque.pos) number) (by rw [hk]; rfl)
        ⟨hvalid, by omega⟩⟩
  · rw [if_pos rfl, if_pos rfl]
    exact ⟨h, _, hinv.setThief (x := .top (.returned (none, decide (T.length c.deque.pos ≤ 1))) number)
      (by rw [hk]; rfl) hvalid.1⟩
  · have hmoved : ((p >>> T.bits) <<< T.bits ||| T.toST (T.toST p + 1)) ≠ c.deque.pos := by
      rw [← hp, hinv.pos_eq, T.pack_next]
      exact T.pack_ne_head h t
    rw [if_neg hmoved, if_neg hmoved]
    obtain ⟨job, _, hnext⟩ := hinv.takeTop hk hp
    rw [hrest job]
    exact ⟨_, _, hnext⟩
  · rw [if_pos rfl, if_pos rfl]
    have hfilled : c.deque.deq (T.head p) = some job := by
      refine hinv.secured.filled (.thief k) _ _ ?_
      simp only [held, hk, ThiefState.claim]
    rw [hrest job hfilled]
    exact ⟨h, _, hinv.setThief (x := .top (.clearing p job) number) (by rw [hk]; rfl) hvalid⟩
  · rw [if_pos rfl, if_pos rfl]
    exact ⟨h, _, hinv.clearTop hk _⟩

/-- Every step of the system keeps the invariant. -/
theorem Inv.step (hinv : Inv T c h t os ts) {label : Label J K} (hstep : Config.Step T label c c') :
    ∃ h' t' os' ts', Inv T c' h' t' os' ts' := by
  cases hstep with
  | callPush hnone =>
    obtain rfl := OwnerState.call_eq_none (hinv.owner_eq.symm.trans hnone)
    exact ⟨h, t, _, ts, hinv.setOwner (.push _ .entered none True) rfl ⟨rfl, trivial⟩⟩
  | callPop hnone =>
    obtain rfl := OwnerState.call_eq_none (hinv.owner_eq.symm.trans hnone)
    exact ⟨h, t, _, ts, hinv.setOwner (.pop .entered none) rfl rfl⟩
  | callTop hnone =>
    have hk := ThiefState.call_eq_none ((hinv.thief_eq _).symm.trans hnone)
    exact ⟨h, t, os, _, hinv.setThief (x := .top .entered none) (by rw [hk]; rfl) rfl⟩
  | stepPush hcall hprog =>
    obtain ⟨t', os', hnext⟩ := hinv.stepPush hcall hprog
    exact ⟨h, t', os', ts, hnext⟩
  | stepPop hcall hprog =>
    obtain ⟨t', os', hnext⟩ := hinv.stepPop hcall hprog
    exact ⟨h, t', os', ts, hnext⟩
  | stepTop hcall hprog =>
    obtain ⟨h', ts', hnext⟩ := hinv.stepTop hcall hprog
    exact ⟨h', t, os, ts', hnext⟩
  | returnPush hcall =>
    obtain ⟨point, rfl, hrest⟩ := OwnerState.call_eq_push (hinv.owner_eq.symm.trans hcall)
    obtain rfl := PushState.eq_returned hrest
    exact ⟨h, t, _, ts, hinv.setOwner .none rfl trivial⟩
  | returnPop hcall =>
    obtain ⟨point, rfl, hrest⟩ := OwnerState.call_eq_pop (hinv.owner_eq.symm.trans hcall)
    obtain rfl := PopState.eq_returned hrest
    exact ⟨h, t, _, ts, hinv.setOwner .none rfl trivial⟩
  | returnTop hcall =>
    obtain ⟨point, hk, hrest⟩ := ThiefState.call_eq_top ((hinv.thief_eq _).symm.trans hcall)
    obtain rfl := TopState.eq_returned hrest
    exact ⟨h, t, os, _, hinv.setThief (x := .none) (by rw [hk]; rfl) trivial⟩

/-- Every reachable state satisfies the invariant. -/
theorem Config.Reachable.inv (hreach : Config.Reachable T c) : ∃ h t os ts, Inv T c h t os ts := by
  induction hreach with
  | init => exact ⟨0, 0, _, _, Inv.init⟩
  | step _ hstep ih =>
    obtain ⟨h, t, os, ts, hinv⟩ := ih
    exact hinv.step hstep

end Step

/-- The guarantees of a deque in a state. -/
structure Guarantees (T : DequeType) (c : Config J K) : Prop where
  /-- Each pushed job is still there or has been taken once. -/
  once : (c.ledger.items ++ c.ledger.popped ++ c.ledger.stolen).Perm
    (List.range c.ledger.pushed.length)
  /-- The last item is the one pushed last. -/
  ordered : c.ledger.items.Pairwise (· < ·)
  /-- The length tells the number of items, and the slots from the head on hold their jobs. -/
  length : c.ledger.items.length = T.length c.deque.pos - 1
  content : ∀ i < c.ledger.items.length, ∃ job, c.ledger.jobAt i = some job ∧
    c.deque.deq (T.physic (T.toST (T.toST c.deque.pos + i))) = some job
  pushed : ∀ job f number quiet, c.owner = .push job (ret (true, f)) number quiet →
    c.ledger.Dealt number job
  /-- A refused push has changed nothing. -/
  refused : ∀ job f number quiet, c.owner = .push job (ret (false, f)) number quiet →
    f = false ∧ number = none ∧ quiet
  popped : ∀ number, c.owner = .pop (ret true) number → ∃ k ∈ number, k ∈ c.ledger.popped
  emptied : ∀ number, c.owner = .pop (ret false) number → number = none ∧ c.ledger.items = []
  stolen : ∀ k job e number, c.thief k = .top (ret (some job, e)) number →
    c.ledger.Dealt number job ∧ ∀ m ∈ number, m ∈ c.ledger.stolen
  missed : ∀ k e number, c.thief k = .top (ret (none, e)) number → number = none

/-- The invariant gives the guarantees. -/
theorem Inv.guarantees (hinv : Inv T c h t os ts) : Guarantees T c where
  once := hinv.sound.once
  ordered := hinv.sound.ordered
  length := by rw [hinv.count, hinv.pos_eq, T.length_pack hinv.le hinv.span]
  content i hi := by
    obtain ⟨job, hjob, _⟩ := hinv.sound.jobAt_isSome hi
    refine ⟨job, hjob, ?_⟩
    have hplace : T.physic (T.toST (T.toST c.deque.pos + i)) = T.place (h + i) := by
      rw [hinv.pos_eq, T.toST_pack, T.toST_eq, Nat.mod_add_mod, DequeType.place]
    rw [hplace]
    refine hinv.secured.filled (.item (h + i)) _ _ ?_
    simp only [held]
    rw [if_pos (Nat.le_add_right h i), Nat.add_sub_cancel_left, hjob]
    rfl
  pushed job f number quiet hcall := by
    obtain ⟨point, rfl, hrest⟩ := OwnerState.call_eq_push (hinv.owner_eq.symm.trans hcall)
    obtain rfl := PushState.eq_returned hrest
    exact hinv.owner_valid
  refused job f number quiet hcall := by
    obtain ⟨point, rfl, hrest⟩ := OwnerState.call_eq_push (hinv.owner_eq.symm.trans hcall)
    obtain rfl := PushState.eq_returned hrest
    exact hinv.owner_valid
  popped number hcall := by
    obtain ⟨point, rfl, hrest⟩ := OwnerState.call_eq_pop (hinv.owner_eq.symm.trans hcall)
    obtain rfl := PopState.eq_returned hrest
    exact hinv.owner_valid
  emptied number hcall := by
    obtain ⟨point, rfl, hrest⟩ := OwnerState.call_eq_pop (hinv.owner_eq.symm.trans hcall)
    obtain rfl := PopState.eq_returned hrest
    exact hinv.owner_valid
  stolen k job e number hcall := by
    obtain ⟨point, hk, hrest⟩ := ThiefState.call_eq_top ((hinv.thief_eq k).symm.trans hcall)
    obtain rfl := TopState.eq_returned hrest
    have hvalid := hinv.thief_valid k
    rw [hk] at hvalid
    exact hvalid
  missed k e number hcall := by
    obtain ⟨point, hk, hrest⟩ := ThiefState.call_eq_top ((hinv.thief_eq k).symm.trans hcall)
    obtain rfl := TopState.eq_returned hrest
    have hvalid := hinv.thief_valid k
    rw [hk] at hvalid
    exact hvalid

/-- A deque keeps its guarantees in every state that its owner and any number of thieves can
reach, for every width of the counters and every capacity. -/
theorem reachable_guarantees [DecidableEq K] (hreach : Config.Reachable T c) : Guarantees T c := by
  obtain ⟨h, t, os, ts, hinv⟩ := hreach.inv
  exact hinv.guarantees

/-- Two pushes, and a thief that takes the first job while the owner takes back the second one. -/
def sharing : List (Label ℕ Bool) :=
  [.callPush 7, .stepOwner, .stepOwner, .stepOwner, .stepOwner, .returnPush 7 (true, true),
    .callPush 8, .stepOwner, .stepOwner, .stepOwner, .stepOwner, .returnPush 8 (true, false),
    .callTop true, .stepThief true, .callPop, .stepOwner, .stepThief true, .stepOwner,
      .stepThief true, .stepOwner,
    .returnPop true, .stepThief true, .returnTop true (some 7, false)]

/-- A deque of four slots with counters of two bits, after that run: one job has been popped and the
other one stolen. -/
theorem reachable_guarantees_sharing :
    ∃ T : DequeType, ∃ c : Config ℕ Bool, T.capacity = 4 ∧ c.ledger.pushed = [7, 8] ∧ c.ledger.popped = [1] ∧
      c.ledger.stolen = [0] ∧ Guarantees T c := by
  have hsome : (Config.performAll ⟨2, 4, false, by decide, by decide⟩ sharing Config.init).isSome = true := by
    decide +kernel
  obtain ⟨c, hc⟩ := Option.isSome_iff_exists.mp hsome
  have hledger : (Config.performAll ⟨2, 4, false, by decide, by decide⟩ sharing Config.init).map (fun c =>
      (c.ledger.pushed, c.ledger.popped, c.ledger.stolen)) = some ([7, 8], [1], [0]) := by decide +kernel
  rw [hc] at hledger
  simp only [Option.map_some, Option.some.injEq, Prod.mk.injEq] at hledger
  obtain ⟨hpushed, hpopped, hstolen⟩ := hledger
  exact ⟨_, c, rfl, hpushed, hpopped, hstolen, reachable_guarantees (Config.Reachable.init.performAll _ hc)⟩

end Deque

end ToggleTree
