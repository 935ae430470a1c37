/-
  A lock made of a chain of promises.

  A call takes the last promise of the chain as its `previous` and puts its own at the end;
  its promise settles when the one before it has and the call has released it. It enters
  when `previous` has settled, and if its promise is still the last when it releases, the
  chain is forgotten.

  `Valid.done_before`: who enters finds every earlier call released, so that at most one call is
  between entering and releasing (`unique_holder`).
-/
import Mathlib.Tactic

namespace Foundation

open List

/-- A call's promise. -/
structure LockTicket where
  previous : Option ℕ
  released : Bool
  settled : Bool
  deriving DecidableEq

/-- A lock as a chain of promises. -/
structure PromiseLock where
  tickets : List LockTicket
  /-- the call whose promise is the end of the chain; `none` when the chain is forgotten -/
  last : Option ℕ
  deriving DecidableEq

namespace PromiseLock

def empty : PromiseLock := ⟨[], none⟩

/-- A new call, with the next number. -/
def acquire (l : PromiseLock) : PromiseLock where
  tickets := l.tickets ++ [{ previous := l.last, released := false, settled := false }]
  last := some l.tickets.length

/-- Whether a call has nothing to wait for. -/
def settledBefore (l : PromiseLock) (previous : Option ℕ) : Bool :=
  match previous with
  | none => true
  | some k => (l.tickets[k]?).elim false (·.settled)

def mayEnter (l : PromiseLock) (i : ℕ) : Bool :=
  (l.tickets[i]?).elim false fun t => l.settledBefore t.previous

def settle (l : PromiseLock) (i : ℕ) : Option PromiseLock :=
  match l.tickets[i]? with
  | some t =>
    if t.released && l.settledBefore t.previous then
      some { l with tickets := l.tickets.modify i fun t => { t with settled := true } }
    else none
  | none => none

def release (l : PromiseLock) (i : ℕ) : PromiseLock where
  tickets := l.tickets.modify i fun t => { t with released := true }
  last := if l.last = some i then none else l.last

def Released (l : PromiseLock) (i : ℕ) : Prop := ∃ t, l.tickets[i]? = some t ∧ t.released = true

/-- What the chain says about its calls. -/
structure Valid (l : PromiseLock) : Prop where
  last_none : l.last = none → ∀ i < l.tickets.length, l.Released i
  last_some : ∀ k, l.last = some k → k + 1 = l.tickets.length
  first : ∀ {i t}, l.tickets[i]? = some t → t.previous = none → ∀ j < i, l.Released j
  next : ∀ {i t k}, l.tickets[i]? = some t → t.previous = some k → k + 1 = i
  settled : ∀ {i t}, l.tickets[i]? = some t → t.settled = true → ∀ j ≤ i, l.Released j

theorem valid_empty : Valid empty where
  last_none _ _ h := absurd h (Nat.not_lt_zero _)
  last_some _ h := by cases h
  first h := by cases h
  next h := by cases h
  settled h := by cases h

section
variable {l l' : PromiseLock} {i j k : ℕ}

theorem getElem?_modify_some {f : LockTicket → LockTicket} {t' : LockTicket}
    (h : (l.tickets.modify i f)[j]? = some t') :
    ∃ t, l.tickets[j]? = some t ∧ t' = if i = j then f t else t := by
  rw [getElem?_modify] at h
  obtain ⟨t, ht, rfl⟩ := Option.map_eq_some_iff.mp h
  exact ⟨t, ht, rfl⟩

theorem Released.modify {f : LockTicket → LockTicket}
    (hf : ∀ t, t.released = true → (f t).released = true) (h : l.Released j) (last : Option ℕ) :
    Released ⟨l.tickets.modify i f, last⟩ j := by
  obtain ⟨t, ht, hreleased⟩ := h
  refine ⟨if i = j then f t else t, ?_, ?_⟩
  · rw [getElem?_modify, ht]
    rfl
  · split
    · exact hf t hreleased
    · exact hreleased

theorem Released.acquire (h : l.Released j) : l.acquire.Released j := by
  obtain ⟨t, ht, hreleased⟩ := h
  exact ⟨t, (List.getElem?_append_left (List.getElem?_eq_some_iff.mp ht).1).trans ht, hreleased⟩

theorem Released.release (h : l.Released j) : (l.release i).Released j :=
  h.modify (fun _ _ => rfl) _

theorem Released.settle (hs : l.settle i = some l') (h : l.Released j) : l'.Released j := by
  unfold PromiseLock.settle at hs
  split at hs
  · split at hs
    · cases hs
      exact h.modify (f := fun t => { t with settled := true }) (fun _ ht => ht) _
    · cases hs
  · cases hs

theorem released_release (h : i < l.tickets.length) : (l.release i).Released i := by
  refine ⟨{ l.tickets[i] with released := true }, ?_, rfl⟩
  rw [PromiseLock.release, getElem?_modify, getElem?_eq_getElem h]
  simp

theorem released_release_iff (h : i < l.tickets.length) :
    (l.release i).Released j ↔ j = i ∨ l.Released j := by
  constructor
  · rintro ⟨t, ht, hreleased⟩
    obtain ⟨u, hu, rfl⟩ := getElem?_modify_some ht
    rcases eq_or_ne i j with rfl | hij
    · exact .inl rfl
    · rw [if_neg hij] at hreleased
      exact .inr ⟨u, hu, hreleased⟩
  · rintro (rfl | h')
    · exact released_release h
    · exact h'.release

theorem length_release : (l.release i).tickets.length = l.tickets.length :=
  length_modify ..

theorem Released.lt (h : l.Released i) : i < l.tickets.length := by
  obtain ⟨t, ht, -⟩ := h
  exact (List.getElem?_eq_some_iff.mp ht).1

theorem released_settle_iff (hs : l.settle i = some l') :
    (l'.Released j ↔ l.Released j) ∧ l'.tickets.length = l.tickets.length := by
  have hback := hs
  unfold PromiseLock.settle at hs
  split at hs
  · split at hs
    · cases hs
      refine ⟨⟨?_, fun h => h.settle hback⟩, length_modify ..⟩
      rintro ⟨t, ht, hreleased⟩
      obtain ⟨u, hu, rfl⟩ := getElem?_modify_some ht
      refine ⟨u, hu, ?_⟩
      split at hreleased
      · exact hreleased
      · exact hreleased
    · cases hs
  · cases hs

/-- **Who may enter finds every earlier call released.** -/
theorem Valid.done_before (hl : l.Valid) (h : l.mayEnter i = true) : ∀ j < i, l.Released j := by
  unfold mayEnter at h
  cases ht : l.tickets[i]? with
  | none =>
    rw [ht] at h
    cases h
  | some t =>
    rw [ht] at h
    unfold settledBefore at h
    cases hprevious : t.previous with
    | none => exact hl.first ht hprevious
    | some k =>
      simp only [Option.elim_some, hprevious] at h
      cases htk : l.tickets[k]? with
      | none =>
        rw [htk] at h
        cases h
      | some tk =>
        rw [htk] at h
        have hnext := hl.next ht hprevious
        intro j hj
        exact hl.settled htk h j (by omega)

theorem ticket_acquire {t : LockTicket} (h : l.acquire.tickets[i]? = some t) :
    l.tickets[i]? = some t ∨ i = l.tickets.length ∧ t = ⟨l.last, false, false⟩ := by
  rw [PromiseLock.acquire] at h
  rcases lt_trichotomy i l.tickets.length with hi | rfl | hi
  · rw [getElem?_append_left hi] at h
    exact .inl h
  · rw [getElem?_concat_length] at h
    exact .inr ⟨rfl, (Option.some.inj h).symm⟩
  · have hlt := (List.getElem?_eq_some_iff.mp h).1
    simp only [length_append, length_cons, length_nil] at hlt
    omega

theorem released_acquire_iff : l.acquire.Released j ↔ l.Released j := by
  constructor
  · rintro ⟨t, ht, hreleased⟩
    rcases ticket_acquire ht with ht | ⟨rfl, rfl⟩
    · exact ⟨t, ht, hreleased⟩
    · cases hreleased
  · exact Released.acquire

theorem length_acquire : l.acquire.tickets.length = l.tickets.length + 1 := by
  simp [PromiseLock.acquire]

theorem Valid.acquire (hl : l.Valid) : l.acquire.Valid where
  last_none h := by cases h
  last_some k h := by
    cases h
    simp [PromiseLock.acquire]
  first ht hprevious j hj := by
    rcases ticket_acquire ht with ht | ⟨rfl, rfl⟩
    · exact (hl.first ht hprevious j hj).acquire
    · -- the new call waits for nothing, so the chain was forgotten
      exact (hl.last_none hprevious j hj).acquire
  next ht hprevious := by
    rcases ticket_acquire ht with ht | ⟨rfl, rfl⟩
    · exact hl.next ht hprevious
    · exact hl.last_some _ hprevious
  settled ht hsettled j hj := by
    rcases ticket_acquire ht with ht | ⟨rfl, rfl⟩
    · exact (hl.settled ht hsettled j hj).acquire
    · cases hsettled

theorem Valid.settle (hl : l.Valid) (hs : l.settle i = some l') : l'.Valid := by
  have hreleased : ∀ j, l.Released j → l'.Released j := fun j h => h.settle hs
  unfold PromiseLock.settle at hs
  split at hs
  · rename_i t ht
    split at hs
    · rename_i hcan
      rw [Bool.and_eq_true] at hcan
      have hbefore : ∀ j ≤ i, l.Released j := by
        intro j hj
        rcases Nat.lt_or_eq_of_le hj with hlt | rfl
        · refine hl.done_before ?_ j hlt
          rw [mayEnter, ht]
          exact hcan.2
        · exact ⟨t, ht, hcan.1⟩
      cases hs
      refine ⟨fun hlast j hj => ?_, fun k hk => ?_, fun {j u} hu hprevious => ?_,
        fun {j u k} hu hprevious => ?_, fun {j u} hu hsettled => ?_⟩
      · rw [length_modify] at hj
        exact hreleased j (hl.last_none hlast j hj)
      · rw [length_modify]
        exact hl.last_some k hk
      · obtain ⟨v, hv, rfl⟩ := getElem?_modify_some hu
        have hvprevious : v.previous = none := by
          split at hprevious
          · exact hprevious
          · exact hprevious
        exact fun m hm => hreleased m (hl.first hv hvprevious m hm)
      · obtain ⟨v, hv, rfl⟩ := getElem?_modify_some hu
        have hvprevious : v.previous = some k := by
          split at hprevious
          · exact hprevious
          · exact hprevious
        exact hl.next hv hvprevious
      · obtain ⟨v, hv, rfl⟩ := getElem?_modify_some hu
        intro m hm
        split at hsettled
        · rename_i hij
          subst hij
          exact hreleased m (hbefore m hm)
        · exact hreleased m (hl.settled hv hsettled m hm)
    · cases hs
  · cases hs

theorem Valid.release (hl : l.Valid) (hbefore : ∀ j < i, l.Released j)
    (hi : i < l.tickets.length) : (l.release i).Valid := by
  refine ⟨fun hlast j hj => ?_, fun k hk => ?_, fun {j u} hu hprevious => ?_,
    fun {j u k} hu hprevious => ?_, fun {j u} hu hsettled => ?_⟩
  · rw [PromiseLock.release, length_modify] at hj
    rw [PromiseLock.release] at hlast
    split at hlast
    · -- the last call releases the lock, and the earlier ones have
      rename_i hlast'
      have hlen := hl.last_some i hlast'
      rcases Nat.lt_or_eq_of_le (Nat.le_of_lt_succ (hlen ▸ hj)) with hlt | rfl
      · exact (hbefore j hlt).release
      · exact released_release hi
    · exact (hl.last_none hlast j hj).release
  · rw [PromiseLock.release] at hk ⊢
    rw [length_modify]
    split at hk
    · cases hk
    · exact hl.last_some k hk
  · obtain ⟨v, hv, rfl⟩ := getElem?_modify_some hu
    have hvprevious : v.previous = none := by
      split at hprevious
      · exact hprevious
      · exact hprevious
    exact fun m hm => (hl.first hv hvprevious m hm).release
  · obtain ⟨v, hv, rfl⟩ := getElem?_modify_some hu
    have hvprevious : v.previous = some k := by
      split at hprevious
      · exact hprevious
      · exact hprevious
    exact hl.next hv hvprevious
  · obtain ⟨v, hv, rfl⟩ := getElem?_modify_some hu
    have hvsettled : v.settled = true := by
      split at hsettled
      · exact hsettled
      · exact hsettled
    exact fun m hm => (hl.settled hv hvsettled m hm).release

/-- **At most one call is between entering and releasing.** -/
theorem unique_holder (hi : ∀ k < i, l.Released k) (hi' : ¬ l.Released i)
    (hj : ∀ k < j, l.Released k) (hj' : ¬ l.Released j) : i = j := by
  rcases lt_trichotomy i j with hlt | heq | hlt
  · exact absurd (hj i hlt) hi'
  · exact heq
  · exact absurd (hi j hlt) hj'

end

end PromiseLock

end Foundation
