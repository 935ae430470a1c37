/-
  The advisory locks of the SQLite drivers: owners and waiters by name, shared by all drivers of a
  process.

  A `World` has the two maps, the clock and every `_acquireAdvisoryLock` and
  `_tryAcquireAdvisoryLock` call with where it is. A call runs until it returns or awaits its
  waiter; a resolved waiter runs on in a later step, and timers fire when they are due.

  `Inv` is kept by every step: at most one acquisition of a name is outstanding, the waiters of a
  name are the calls that wait for it, and a free name with waiters has a waiter resolved.
-/
import Velocious.Foundation.Entries
import Velocious.Foundation.EntryMap
import Velocious.Foundation.Javascript
import Velocious.Foundation.Machine

namespace Velocious.AdvisoryLocks

open Foundation List

/-! ## Timers -/

/-- `timeoutMs >= 0` -/
def isNonneg : JsNumber → Bool
  | .int n | .real n _ _ => 0 ≤ n
  | .nan => false
  | .infinity negative => !negative

/-- `remainingMs <= 0` -/
def isNonpos : JsNumber → Bool
  | .int n => n ≤ 0
  | .real n integral _ => n < 0 || (n = 0 && integral)
  | .nan => false
  | .infinity negative => negative

/-- The longest delay of `setTimeout`. -/
def timeoutMax : ℤ := 2147483647

/-- The delay of `setTimeout`: whole milliseconds, 1 when out of range. -/
def timerDelay : JsNumber → ℕ
  | .int n => if 1 ≤ n ∧ n ≤ timeoutMax then n.toNat else 1
  | .real n integral _ =>
    if 1 ≤ n ∧ (n < timeoutMax ∨ n = timeoutMax ∧ integral) then n.toNat else 1
  | .nan | .infinity _ => 1

/-- A timeout has elapsed after `ms` milliseconds. -/
def Elapsed (timeoutMs : JsNumber) (ms : ℕ) : Prop :=
  match timeoutMs with
  | .int n => n ≤ ms
  | .real n integral _ => (if integral then n else n + 1) ≤ ms
  | .nan => False
  | .infinity negative => negative

instance (timeoutMs : JsNumber) (ms : ℕ) : Decidable (Elapsed timeoutMs ms) := by
  cases timeoutMs <;> unfold Elapsed <;> infer_instance

theorem Elapsed.mono {timeoutMs : JsNumber} {m n : ℕ} (h : Elapsed timeoutMs m) (hmn : m ≤ n) :
    Elapsed timeoutMs n := by
  cases timeoutMs with
  | int k =>
    simp only [Elapsed] at *
    omega
  | real k integral text =>
    simp only [Elapsed] at *
    omega
  | nan => exact h
  | infinity negative => exact h

theorem elapsed_of_isNonpos {timeoutMs : JsNumber} (h : isNonpos timeoutMs = true) (ms : ℕ) :
    Elapsed timeoutMs ms := by
  cases timeoutMs with
  | int k =>
    simp only [isNonpos, decide_eq_true_eq] at h
    simp only [Elapsed]
    omega
  | real k integral text =>
    simp only [isNonpos, Bool.or_eq_true, Bool.and_eq_true, decide_eq_true_eq] at h
    simp only [Elapsed]
    rcases h with hlt | ⟨hzero, hintegral⟩
    · split <;> omega
    · rw [if_pos hintegral]
      omega
  | nan => cases h
  | infinity negative => exact h

/-! ## The model -/

/-- The two ways to ask for a lock. -/
inductive Request where
  | acquire (timeoutMs : Option JsNumber)
  | tryAcquire
  deriving DecidableEq, Repr

/-- `typeof timeoutMs === "number" && timeoutMs >= 0` -/
def Request.timeout : Request → Option JsNumber
  | .acquire timeoutMs => timeoutMs.filter isNonneg
  | .tryAcquire => none

/-- Where a call is. -/
inductive CallState where
  /-- it awaits its waiter; the time its timer is due -/
  | waiting (due : Option ℕ)
  /-- its waiter was resolved, and it has yet to run on -/
  | resolved
  /-- it returned `true` -/
  | acquired
  /-- it returned `true`, and the lock was released since -/
  | released
  /-- it returned `false`, and when -/
  | refused (time : ℕ)
  deriving DecidableEq, Repr

/-- A call of `_acquireAdvisoryLock` or `_tryAcquireAdvisoryLock`. -/
structure Call where
  driver : ℕ
  name : String
  request : Request
  startedAt : ℕ
  state : CallState
  deriving DecidableEq, Repr

/-- `_advisoryLockState`, the clock and the calls made so far; a waiter is the number of its
    call. -/
structure World where
  ownersByName : EntryMap String ℕ := .empty
  waitersByName : EntryMap String (List ℕ) := .empty
  now : ℕ := 0
  calls : List Call := []

namespace World

def init : World := {}

def setState (w : World) (i : ℕ) (state : CallState) : World :=
  { w with calls := w.calls.modify i fun call => { call with state } }

def isAdvisoryLockHeld (w : World) (name : String) : Bool := (w.ownersByName.get? name).isSome

/-- `waitersByName.get(name) || []` -/
def waiters (w : World) (name : String) : List ℕ := (w.waitersByName.get? name).getD []

/-- Stores the waiters of a name, or drops the entry when there are none. -/
def setWaiters (w : World) (name : String) (waiters : List ℕ) : World :=
  { w with
    waitersByName :=
      if waiters.isEmpty then w.waitersByName.delete name else w.waitersByName.set name waiters }

/-- `removeAndResolve` of the waiter of call `i` -/
def removeAndResolve (w : World) (i : ℕ) (name : String) : World :=
  (w.setWaiters name ((w.waiters name).erase i)).setState i .resolved

/-- `await new Promise(...)` -/
def await (w : World) (i : ℕ) (name : String) (due : Option ℕ) : World :=
  { w with waitersByName := w.waitersByName.set name (w.waiters name ++ [i]) }.setState i
    (.waiting due)

/-- `ownersByName.set(name, this)` -/
def own (w : World) (i : ℕ) (driver : ℕ) (name : String) : World :=
  { w with ownersByName := w.ownersByName.set name driver }.setState i .acquired

/-- The head of the loop of `_acquireAdvisoryLock`, until the call returns or awaits. -/
def loop (w : World) (i : ℕ) (call : Call) : World :=
  if w.isAdvisoryLockHeld call.name then
    match call.request.timeout with
    | some timeoutMs =>
      if isNonpos timeoutMs then w.setState i (.refused w.now)
      else w.await i call.name (some (w.now + timerDelay timeoutMs))
    | none => w.await i call.name none
  else w.own i call.driver call.name

def call (w : World) (driver : ℕ) (name : String) (request : Request) : Call :=
  { driver, name, request, startedAt := w.now, state := .resolved }

def enter (w : World) (call : Call) : World := { w with calls := w.calls ++ [call] }

def acquireAdvisoryLock (w : World) (driver : ℕ) (name : String)
    (timeoutMs : Option JsNumber) : World :=
  let call := w.call driver name (.acquire timeoutMs)
  (w.enter call).loop w.calls.length call

def tryAcquireAdvisoryLock (w : World) (driver : ℕ) (name : String) : World :=
  let entered := w.enter (w.call driver name .tryAcquire)
  if w.isAdvisoryLockHeld name then entered.setState w.calls.length (.refused w.now)
  else entered.own w.calls.length driver name

/-- What follows the `await` in the loop of `_acquireAdvisoryLock`. -/
def resume (w : World) (i : ℕ) (call : Call) : World :=
  if call.request.timeout.isSome && w.isAdvisoryLockHeld call.name then
    w.setState i (.refused w.now)
  else w.loop i call

/-- The acquisition of `name` by `driver`, if it is outstanding, is over. -/
def settle (driver : ℕ) (name : String) (call : Call) : Call :=
  if call.driver = driver ∧ call.name = name ∧ call.state = .acquired then
    { call with state := .released }
  else call

def releaseAdvisoryLock (w : World) (driver : ℕ) (name : String) : World × Bool :=
  if w.ownersByName.get? name = some driver then
    let freed := { w with
      ownersByName := w.ownersByName.delete name
      calls := w.calls.map (settle driver name) }
    match w.waitersByName.get? name with
    | some (nextWaiter :: others) =>
      ((freed.setWaiters name others).removeAndResolve nextWaiter name, true)
    | _ => (freed, true)
  else (w, false)

end World

/-- What can happen. -/
inductive LockAction where
  | acquire (driver : ℕ) (name : String) (timeoutMs : Option JsNumber)
  | tryAcquire (driver : ℕ) (name : String)
  | release (driver : ℕ) (name : String)
  | timer (i : ℕ)
  | resume (i : ℕ)
  | tick (ms : ℕ)
  deriving DecidableEq, Repr

def World.step (w : World) : LockAction → Option World
  | .acquire driver name timeoutMs => some (w.acquireAdvisoryLock driver name timeoutMs)
  | .tryAcquire driver name => some (w.tryAcquireAdvisoryLock driver name)
  | .release driver name => some (w.releaseAdvisoryLock driver name).1
  | .timer i =>
    match w.calls[i]? with
    | some ⟨_, name, _, _, .waiting (some due)⟩ =>
      if due ≤ w.now then some (w.removeAndResolve i name) else none
    | _ => none
  | .resume i =>
    match w.calls[i]? with
    | some call => if call.state = .resolved then some (w.resume i call) else none
    | none => none
  | .tick ms => some { w with now := w.now + ms }

namespace World

variable {w w' : World} {i j : ℕ} {call c d : Call} {name : String} {driver : ℕ}

/-- Whoever takes `name` now, other than call `i`, overtakes no call with a timeout that has not
    elapsed. -/
def Uncontended (w : World) (i : ℕ) (name : String) : Prop :=
  w.isAdvisoryLockHeld name = false → ∀ j (call : Call) timeoutMs, j ≠ i → w.calls[j]? = some call →
    call.name = name → call.state = .resolved → call.request.timeout = some timeoutMs →
      Elapsed timeoutMs (w.now - call.startedAt)

/-- Nobody overtakes a call with a timeout between the release that resolved its waiter and its
    next step, and no timer is set that fires before its timeout has elapsed. -/
def Orderly (w : World) : LockAction → Prop
  | .acquire _ name timeoutMs =>
    w.Uncontended w.calls.length name ∧ ∀ ms, (Request.acquire timeoutMs).timeout = some ms →
      w.isAdvisoryLockHeld name → isNonpos ms = false → Elapsed ms (timerDelay ms)
  | .tryAcquire _ name => w.Uncontended w.calls.length name
  | .resume i => ∀ call, w.calls[i]? = some call → w.Uncontended i call.name
  | _ => True

/-- What holds after every run: at most one acquisition of a name is outstanding, a release by a
    driver without one changes nothing, and when no resolved call has yet to run on, whoever waits
    for a name waits for its holder. -/
structure Sound (w : World) : Prop where
  oneHolder : ∀ (i j : ℕ) (c d : Call), w.calls[i]? = some c → w.calls[j]? = some d → c.state = .acquired →
    d.state = .acquired → c.name = d.name → i = j
  foreign : ∀ driver name, (∀ call ∈ w.calls, call.driver = driver → call.name = name →
    call.state ≠ .acquired) → w.releaseAdvisoryLock driver name = (w, false)
  quiescent : (∀ call ∈ w.calls, call.state ≠ .resolved) → ∀ call ∈ w.calls, ∀ due,
    call.state = .waiting due → ∃ holder ∈ w.calls, holder.name = call.name ∧
      holder.state = .acquired

/-- An acquire returned `false` only after its timeout had elapsed. -/
def Patience (w : World) : Prop :=
  ∀ call ∈ w.calls, ∀ timeoutMs time, call.request = .acquire timeoutMs →
    call.state = .refused time →
      ∃ ms, timeoutMs = some ms ∧ Elapsed ms (time - call.startedAt)

/-- The owners are the drivers with an outstanding acquisition, the waiters the calls that
    wait. -/
structure Core (w : World) : Prop where
  owner : ∀ {name : String} {driver : ℕ}, w.ownersByName.get? name = some driver →
    ∃ (i : ℕ) (call : Call), w.calls[i]? = some call ∧ call.name = name ∧ call.driver = driver ∧
      call.state = .acquired
  owned : ∀ {i : ℕ} {call : Call}, w.calls[i]? = some call → call.state = .acquired →
    w.ownersByName.get? call.name = some call.driver
  unique : ∀ {i j : ℕ} {c d : Call}, w.calls[i]? = some c → w.calls[j]? = some d → c.state = .acquired →
    d.state = .acquired → c.name = d.name → i = j
  waiting : ∀ {name : String} {i : ℕ}, i ∈ w.waiters name →
    ∃ (call : Call) (due : Option ℕ), w.calls[i]? = some call ∧ call.name = name ∧ call.state = .waiting due
  listed : ∀ {i : ℕ} {call : Call} {due : Option ℕ}, w.calls[i]? = some call → call.state = .waiting due →
    i ∈ w.waiters call.name
  nodup : ∀ name, (w.waiters name).Nodup

/-- A free name with waiters has a call resolved. -/
def Awake (w : World) : Prop :=
  ∀ name, w.ownersByName.get? name = none → w.waiters name ≠ [] →
    ∃ (i : ℕ) (call : Call), w.calls[i]? = some call ∧ call.name = name ∧ call.state = .resolved

/-- The invariant of the runs. -/
structure Inv (w : World) : Prop extends Core w where
  awake : w.Awake

theorem held_iff : w.isAdvisoryLockHeld name = true ↔ ∃ driver, w.ownersByName.get? name = some driver :=
  Option.isSome_iff_exists

theorem not_held_iff : w.isAdvisoryLockHeld name = false ↔ w.ownersByName.get? name = none := by
  simp [isAdvisoryLockHeld]

@[simp] theorem waiters_setWaiters (w : World) (name : String) (waiters : List ℕ)
    (name' : String) :
    (w.setWaiters name waiters).waiters name' =
      if name' = name then waiters else w.waiters name' := by
  unfold setWaiters World.waiters
  by_cases hempty : waiters = []
  · subst hempty
    simp only [List.isEmpty_nil, if_true, EntryMap.get?_delete]
    split <;> rfl
  · simp only [List.isEmpty_iff, hempty, if_false, EntryMap.get?_set]
    split <;> rfl

/-! ### A call changes its state -/

section
variable (h : w.Inv) (hi : w.calls[i]? = some call) (hstate : call.state = .resolved)
include h hi hstate

theorem Inv.refuse (hheld : w.isAdvisoryLockHeld call.name = true) (time : ℕ) :
    (w.setState i (.refused time)).Inv := by
  obtain ⟨owner, howner⟩ := held_iff.mp hheld
  refine ⟨⟨fun {name driver} hget => ?_, fun hj hacquired => ?_, fun hj hk hc hd hname => ?_,
    fun {name j} hmem => ?_, fun hj hwaits => ?_, h.nodup⟩, fun name hfree hwaiters => ?_⟩
  · obtain ⟨j, c, hj, hname, hdriver, hacquired⟩ := h.owner hget
    refine ⟨j, c, modify_of_ne ?_ hj, hname, hdriver, hacquired⟩
    rintro rfl
    cases hi.symm.trans hj
    cases hstate.symm.trans hacquired
  · rcases modify_cases hj hi with ⟨-, rfl⟩ | ⟨-, hj⟩
    · cases hacquired
    · exact h.owned hj hacquired
  · rcases modify_cases hj hi with ⟨-, rfl⟩ | ⟨-, hj⟩
    · cases hc
    · rcases modify_cases hk hi with ⟨-, rfl⟩ | ⟨-, hk⟩
      · cases hd
      · exact h.unique hj hk hc hd hname
  · obtain ⟨c, due, hj, hname, hwaits⟩ := h.waiting hmem
    refine ⟨c, due, modify_of_ne ?_ hj, hname, hwaits⟩
    rintro rfl
    cases hi.symm.trans hj
    cases hstate.symm.trans hwaits
  · rcases modify_cases hj hi with ⟨-, rfl⟩ | ⟨-, hj⟩
    · cases hwaits
    · exact h.listed hj hwaits
  · obtain ⟨j, c, hj, hname, hresolved⟩ := h.awake name hfree hwaiters
    refine ⟨j, c, modify_of_ne ?_ hj, hname, hresolved⟩
    rintro rfl
    cases hi.symm.trans hj
    rw [hname] at howner
    cases howner.symm.trans hfree

theorem Inv.await (hheld : w.isAdvisoryLockHeld call.name = true) (due : Option ℕ) :
    (w.await i call.name due).Inv := by
  obtain ⟨owner, howner⟩ := held_iff.mp hheld
  have hother : ∀ {j : ℕ} {c : Call}, w.calls[j]? = some c → c.state ≠ .resolved → j ≠ i := by
    rintro j c hj hne rfl
    cases hi.symm.trans hj
    exact hne hstate
  have hwaiters : ∀ name, (w.await i call.name due).waiters name =
      if name = call.name then w.waiters name ++ [i] else w.waiters name := by
    intro name
    show ((w.waitersByName.set call.name (w.waiters call.name ++ [i])).get? name).getD [] = _
    rw [EntryMap.get?_set]
    split
    · next heq => rw [heq]; rfl
    · rfl
  have hfresh : ∀ name, i ∉ w.waiters name := by
    intro name hmem
    obtain ⟨c, due', hj, -, hwaits⟩ := h.waiting hmem
    exact hother hj (by rw [hwaits]; simp) rfl
  refine ⟨⟨fun {name driver} hget => ?_, fun hj hacquired => ?_, fun hj hk hc hd hname => ?_,
    fun {name j} hmem => ?_, fun {j c due'} hj hwaits => ?_, fun name => ?_⟩,
    fun name hfree hne => ?_⟩
  · obtain ⟨j, c, hj, hname, hdriver, hacquired⟩ := h.owner hget
    exact ⟨j, c, modify_of_ne (hother hj (by rw [hacquired]; simp)) hj, hname, hdriver,
      hacquired⟩
  · rcases modify_cases hj hi with ⟨-, rfl⟩ | ⟨-, hj⟩
    · cases hacquired
    · exact h.owned hj hacquired
  · rcases modify_cases hj hi with ⟨-, rfl⟩ | ⟨-, hj⟩
    · cases hc
    · rcases modify_cases hk hi with ⟨-, rfl⟩ | ⟨-, hk⟩
      · cases hd
      · exact h.unique hj hk hc hd hname
  · have hold : j ∈ w.waiters name →
        ∃ c due', (w.await i call.name due).calls[j]? = some c ∧ c.name = name ∧
          c.state = .waiting due' := by
      intro hmem
      obtain ⟨c, due', hj, hname, hwaits⟩ := h.waiting hmem
      exact ⟨c, due', modify_of_ne (hother hj (by rw [hwaits]; simp)) hj, hname, hwaits⟩
    rw [hwaiters] at hmem
    split at hmem
    · next heq =>
      rcases mem_append.mp hmem with hmem | hmem
      · exact hold hmem
      · obtain rfl := mem_singleton.mp hmem
        exact ⟨_, due, modify_self hi, heq.symm, rfl⟩
    · exact hold hmem
  · rw [hwaiters]
    rcases modify_cases hj hi with ⟨rfl, rfl⟩ | ⟨-, hj⟩
    · simp
    · have hmem := h.listed hj hwaits
      split
      · exact mem_append_left _ hmem
      · exact hmem
  · rw [hwaiters]
    split
    · refine nodup_append.mpr ⟨h.nodup name, nodup_singleton i, ?_⟩
      rintro j hj _ hmem rfl
      obtain rfl := mem_singleton.mp hmem
      exact hfresh name hj
    · exact h.nodup name
  · have hname : name ≠ call.name := by
      rintro rfl
      cases howner.symm.trans hfree
    rw [hwaiters, if_neg hname] at hne
    obtain ⟨j, c, hj, hcname, hresolved⟩ := h.awake name hfree hne
    refine ⟨j, c, modify_of_ne ?_ hj, hcname, hresolved⟩
    rintro rfl
    cases hi.symm.trans hj
    exact hname hcname.symm

theorem Inv.own (hfree : w.isAdvisoryLockHeld call.name = false) : (w.own i call.driver call.name).Inv := by
  replace hfree := not_held_iff.mp hfree
  have hother : ∀ {j : ℕ} {c : Call}, w.calls[j]? = some c → c.state ≠ .resolved → j ≠ i := by
    rintro j c hj hne rfl
    cases hi.symm.trans hj
    exact hne hstate
  have hnew : ∀ {j : ℕ} {c : Call}, w.calls[j]? = some c → c.state = .acquired → c.name ≠ call.name := by
    intro j c hj hacquired heq
    have howned := h.owned hj hacquired
    rw [heq, hfree] at howned
    cases howned
  refine ⟨⟨fun {name driver} hget => ?_, fun hj hacquired => ?_, fun hj hk hc hd hname => ?_,
    fun {name j} hmem => ?_, fun {j c due'} hj hwaits => ?_, h.nodup⟩, fun name hget hne => ?_⟩
  · replace hget : (w.ownersByName.set call.name call.driver).get? name = some driver := hget
    rw [EntryMap.get?_set] at hget
    split at hget
    · next heq => exact ⟨i, _, modify_self hi, heq.symm, Option.some.inj hget, rfl⟩
    · obtain ⟨j, c, hj, hname, hdriver, hacquired⟩ := h.owner hget
      exact ⟨j, c, modify_of_ne (hother hj (by rw [hacquired]; simp)) hj, hname, hdriver,
        hacquired⟩
  · show (w.ownersByName.set call.name call.driver).get? _ = _
    rw [EntryMap.get?_set]
    rcases modify_cases hj hi with ⟨-, rfl⟩ | ⟨-, hj⟩
    · exact if_pos rfl
    · rw [if_neg (hnew hj hacquired)]
      exact h.owned hj hacquired
  · rcases modify_cases hj hi with ⟨rfl, rfl⟩ | ⟨-, hj⟩
    · rcases modify_cases hk hi with ⟨rfl, -⟩ | ⟨-, hk⟩
      · rfl
      · exact absurd hname.symm (hnew hk hd)
    · rcases modify_cases hk hi with ⟨-, rfl⟩ | ⟨-, hk⟩
      · exact absurd hname (hnew hj hc)
      · exact h.unique hj hk hc hd hname
  · obtain ⟨c, due, hj, hname, hwaits⟩ := h.waiting hmem
    exact ⟨c, due, modify_of_ne (hother hj (by rw [hwaits]; simp)) hj, hname, hwaits⟩
  · rcases modify_cases hj hi with ⟨-, rfl⟩ | ⟨-, hj⟩
    · cases hwaits
    · exact h.listed hj hwaits
  · replace hget : (w.ownersByName.set call.name call.driver).get? name = none := hget
    rw [EntryMap.get?_set] at hget
    split at hget
    · cases hget
    · next hname =>
      obtain ⟨j, c, hj, hcname, hresolved⟩ := h.awake name hget hne
      refine ⟨j, c, modify_of_ne ?_ hj, hcname, hresolved⟩
      rintro rfl
      cases hi.symm.trans hj
      exact hname hcname.symm

theorem Inv.loop :
    (w.loop i call).Inv := by
  unfold World.loop
  split
  · next hheld =>
    split
    · split
      · exact h.refuse hi hstate hheld w.now
      · exact h.await hi hstate hheld _
    · exact h.await hi hstate hheld none
  · next hfree => exact h.own hi hstate (Bool.eq_false_iff.mpr hfree)

end

theorem Inv.enter (h : w.Inv) {new : Call} (hnew : new.state = .resolved) : (w.enter new).Inv := by
  have hold : ∀ {j : ℕ} {c : Call}, (w.enter new).calls[j]? = some c → c.state ≠ .resolved →
      w.calls[j]? = some c := by
    intro j c hj hne
    rcases append_cases hj with ⟨-, rfl⟩ | hj
    · exact absurd hnew hne
    · exact hj
  refine ⟨⟨fun {name driver} hget => ?_, fun hj hacquired => ?_, fun hj hk hc hd hname => ?_,
    fun {name j} hmem => ?_, fun {j c due'} hj hwaits => ?_, h.nodup⟩, fun name hget hne => ?_⟩
  · obtain ⟨j, c, hj, hrest⟩ := h.owner hget
    exact ⟨j, c, append_of_getElem? hj, hrest⟩
  · exact h.owned (hold hj (by rw [hacquired]; nofun)) hacquired
  · exact h.unique (hold hj (by rw [hc]; nofun)) (hold hk (by rw [hd]; nofun)) hc hd hname
  · obtain ⟨c, due, hj, hrest⟩ := h.waiting hmem
    exact ⟨c, due, append_of_getElem? hj, hrest⟩
  · exact h.listed (hold hj (by rw [hwaits]; nofun)) hwaits
  · obtain ⟨j, c, hj, hrest⟩ := h.awake name hget hne
    exact ⟨j, c, append_of_getElem? hj, hrest⟩

theorem Core.resolve (h : w.Core) (hi : w.calls[i]? = some call) {due : Option ℕ}
    (hstate : call.state = .waiting due) : (w.removeAndResolve i call.name).Core := by
  have hother : ∀ {j : ℕ} {c : Call}, w.calls[j]? = some c → c.state = .acquired → j ≠ i := by
    rintro j c hj hacquired rfl
    cases hi.symm.trans hj
    cases hstate.symm.trans hacquired
  have hwaiters : ∀ name, (w.removeAndResolve i call.name).waiters name =
      if name = call.name then (w.waiters call.name).erase i else w.waiters name :=
    waiters_setWaiters _ _ _
  refine ⟨fun {name driver} hget => ?_, fun hj hacquired => ?_, fun hj hk hc hd hname => ?_,
    fun {name j} hmem => ?_, fun {j c due'} hj hwaits => ?_, fun name => ?_⟩
  · obtain ⟨j, c, hj, hname, hdriver, hacquired⟩ := h.owner hget
    exact ⟨j, c, modify_of_ne (hother hj hacquired) hj, hname, hdriver, hacquired⟩
  · rcases modify_cases hj hi with ⟨-, rfl⟩ | ⟨-, hj⟩
    · cases hacquired
    · exact h.owned hj hacquired
  · rcases modify_cases hj hi with ⟨-, rfl⟩ | ⟨-, hj⟩
    · cases hc
    · rcases modify_cases hk hi with ⟨-, rfl⟩ | ⟨-, hk⟩
      · cases hd
      · exact h.unique hj hk hc hd hname
  · rw [hwaiters] at hmem
    split at hmem
    · next heq =>
      obtain ⟨hji, hmem⟩ := (h.nodup call.name).mem_erase_iff.mp hmem
      obtain ⟨c, due', hj, hname, hwaits⟩ := h.waiting hmem
      exact ⟨c, due', modify_of_ne hji hj, hname.trans heq.symm, hwaits⟩
    · next hname =>
      obtain ⟨c, due', hj, hcname, hwaits⟩ := h.waiting hmem
      refine ⟨c, due', modify_of_ne ?_ hj, hcname, hwaits⟩
      rintro rfl
      cases hi.symm.trans hj
      exact hname hcname.symm
  · rw [hwaiters]
    rcases modify_cases hj hi with ⟨-, rfl⟩ | ⟨hji, hj⟩
    · cases hwaits
    · have hmem := h.listed hj hwaits
      split
      · next heq =>
        rw [heq] at hmem
        exact (h.nodup call.name).mem_erase_iff.mpr ⟨hji, hmem⟩
      · exact hmem
  · rw [hwaiters]
    split
    · exact (h.nodup call.name).erase i
    · exact h.nodup name

theorem Inv.timer (h : w.Inv) (hi : w.calls[i]? = some call) {due : Option ℕ}
    (hstate : call.state = .waiting due) : (w.removeAndResolve i call.name).Inv := by
  refine ⟨h.toCore.resolve hi hstate, fun name hfree hne => ?_⟩
  by_cases hname : name = call.name
  · exact ⟨i, _, modify_self hi, hname.symm, rfl⟩
  · have hwaiters : (w.removeAndResolve i call.name).waiters name = w.waiters name := by
      exact (waiters_setWaiters _ _ _ _).trans (if_neg hname)
    rw [hwaiters] at hne
    obtain ⟨j, c, hj, hcname, hresolved⟩ := h.awake name hfree hne
    refine ⟨j, c, modify_of_ne ?_ hj, hcname, hresolved⟩
    rintro rfl
    cases hi.symm.trans hj
    exact hname hcname.symm

/-- The lock of a name is given up, and no waiter is resolved yet. -/
def freed (w : World) (driver : ℕ) (name : String) : World :=
  { w with
    ownersByName := w.ownersByName.delete name
    calls := w.calls.map (settle driver name) }

theorem settle_of_ne (h : call.state ≠ .acquired) : settle driver name call = call :=
  if_neg fun ⟨_, _, hacquired⟩ => h hacquired

theorem settle_acquired (h : (settle driver name call).state = .acquired) :
    settle driver name call = call ∧ call.state = .acquired ∧
      ¬(call.driver = driver ∧ call.name = name) := by
  by_cases hmine : call.driver = driver ∧ call.name = name ∧ call.state = .acquired
  · rw [settle, if_pos hmine] at h
    cases h
  · have heq : settle driver name call = call := if_neg hmine
    rw [heq] at h
    exact ⟨heq, h, fun ⟨hdriver, hname⟩ => hmine ⟨hdriver, hname, h⟩⟩

theorem settle_eq (h : (settle driver name call).state ≠ .released) :
    settle driver name call = call := by
  by_cases hmine : call.driver = driver ∧ call.name = name ∧ call.state = .acquired
  · rw [settle, if_pos hmine] at h
    exact absurd rfl h
  · exact if_neg hmine

theorem freed_get (hj : (w.freed driver name).calls[j]? = some c) (hc : c.state ≠ .released) :
    w.calls[j]? = some c := by
  obtain ⟨call, hcall, rfl⟩ := Option.map_eq_some_iff.mp (getElem?_map.symm.trans hj)
  rw [settle_eq hc]
  exact hcall

theorem get_freed (hj : w.calls[j]? = some c) (hc : c.state ≠ .acquired) :
    (w.freed driver name).calls[j]? = some c := by
  refine getElem?_map.trans ?_
  rw [hj, Option.map_some, settle_of_ne hc]

theorem Core.freed (h : w.Core) (howner : w.ownersByName.get? name = some driver) :
    (w.freed driver name).Core := by
  have hacq : ∀ {j : ℕ} {c : Call}, (w.freed driver name).calls[j]? = some c →
      c.state = .acquired → w.calls[j]? = some c ∧ c.name ≠ name := by
    intro j c hj hacquired
    obtain ⟨call, hcall, rfl⟩ := Option.map_eq_some_iff.mp (getElem?_map.symm.trans hj)
    obtain ⟨heq, hacquired, hother⟩ := settle_acquired hacquired
    rw [heq]
    refine ⟨hcall, fun hname => hother ⟨?_, hname⟩⟩
    have howned := h.owned hcall hacquired
    rw [hname, howner] at howned
    exact (Option.some.inj howned).symm
  refine ⟨fun {name' driver'} hget => ?_, fun hj hacquired => ?_, fun hj hk hc hd hname => ?_,
    fun {name' j} hmem => ?_, fun {j c due} hj hwaits => ?_, h.nodup⟩
  · replace hget : (w.ownersByName.delete name).get? name' = some driver' := hget
    rw [EntryMap.get?_delete] at hget
    split at hget
    · cases hget
    · next hne =>
      obtain ⟨j, c, hj, hname, hdriver, hacquired⟩ := h.owner hget
      refine ⟨j, c, getElem?_map.trans ?_, hname, hdriver, hacquired⟩
      rw [hj, Option.map_some, settle, if_neg]
      exact fun h => hne (hname.symm.trans h.2.1)
  · obtain ⟨hj, hne⟩ := hacq hj hacquired
    show (w.ownersByName.delete name).get? _ = _
    rw [EntryMap.get?_delete, if_neg hne]
    exact h.owned hj hacquired
  · exact h.unique (hacq hj hc).1 (hacq hk hd).1 hc hd hname
  · obtain ⟨c, due, hj, hname, hwaits⟩ := h.waiting hmem
    exact ⟨c, due, get_freed hj (by rw [hwaits]; simp), hname, hwaits⟩
  · exact h.listed (freed_get hj (by rw [hwaits]; simp)) hwaits

theorem release_cases (w : World) (driver : ℕ) (name : String) :
    (w.ownersByName.get? name ≠ some driver ∧ w.releaseAdvisoryLock driver name = (w, false)) ∨
    w.ownersByName.get? name = some driver ∧
      (w.waiters name = [] ∧ w.releaseAdvisoryLock driver name = (w.freed driver name, true) ∨
      ∃ next others, w.waiters name = next :: others ∧ w.releaseAdvisoryLock driver name =
        (((w.freed driver name).setWaiters name others).removeAndResolve next name, true)) := by
  unfold releaseAdvisoryLock World.waiters
  split
  · next howner =>
    refine .inr ⟨howner, ?_⟩
    cases hwaiters : w.waitersByName.get? name with
    | none => exact .inl ⟨rfl, rfl⟩
    | some waiters =>
      cases waiters with
      | nil => exact .inl ⟨rfl, rfl⟩
      | cons next others => exact .inr ⟨next, others, rfl, rfl⟩
  · next hne => exact .inl ⟨hne, rfl⟩

theorem shift_resolve {next : ℕ} {others : List ℕ} (hwaiters : w.waiters name = next :: others)
    (hnodup : (w.waiters name).Nodup) (name' : String) :
    ((w.setWaiters name others).removeAndResolve next name).waiters name' =
      (w.removeAndResolve next name).waiters name' := by
  rw [hwaiters] at hnodup
  have hfresh : next ∉ others := (nodup_cons.mp hnodup).1
  have hleft := waiters_setWaiters (w.setWaiters name others) name
    (((w.setWaiters name others).waiters name).erase next) name'
  have hright := waiters_setWaiters w name ((w.waiters name).erase next) name'
  refine hleft.trans (Eq.trans ?_ hright.symm)
  rw [waiters_setWaiters, if_pos rfl, hwaiters, erase_cons_head,
    erase_of_not_mem hfresh]
  split
  · rfl
  · next hne => rw [waiters_setWaiters, if_neg hne]

theorem Inv.congr (h : w.Inv) (howners : w'.ownersByName = w.ownersByName)
    (hcalls : w'.calls = w.calls) (hwaiters : ∀ name, w'.waiters name = w.waiters name) :
    w'.Inv := by
  refine ⟨⟨fun hget => ?_, fun hj hacquired => ?_, fun hj hk => ?_, fun hmem => ?_,
    fun hj hwaits => ?_, fun name => ?_⟩, fun name hget hne => ?_⟩
  · rw [howners] at hget
    rw [hcalls]
    exact h.owner hget
  · rw [hcalls] at hj
    rw [howners]
    exact h.owned hj hacquired
  · rw [hcalls] at hj hk
    exact h.unique hj hk
  · rw [hwaiters] at hmem
    rw [hcalls]
    exact h.waiting hmem
  · rw [hcalls] at hj
    rw [hwaiters]
    exact h.listed hj hwaits
  · rw [hwaiters]
    exact h.nodup name
  · rw [howners] at hget
    rw [hwaiters] at hne
    rw [hcalls]
    exact h.awake name hget hne

theorem Inv.release (h : w.Inv) (driver : ℕ) (name : String) :
    (w.releaseAdvisoryLock driver name).1.Inv := by
  rcases release_cases w driver name with ⟨-, heq⟩ | ⟨howner, ⟨hnil, heq⟩ | ⟨next, others, hcons, heq⟩⟩
  · rw [heq]
    exact h
  · rw [heq]
    refine ⟨h.toCore.freed howner, fun name' hfree hne => ?_⟩
    by_cases hname : name' = name
    · rw [hname] at hne
      exact absurd hnil hne
    · replace hfree : (w.ownersByName.delete name).get? name' = none := hfree
      rw [EntryMap.get?_delete, if_neg hname] at hfree
      obtain ⟨j, c, hj, hcname, hresolved⟩ := h.awake name' hfree hne
      exact ⟨j, c, get_freed hj (by rw [hresolved]; nofun), hcname, hresolved⟩
  · rw [heq]
    have hcore := h.toCore.freed howner
    obtain ⟨call, due, hi, rfl, hstate⟩ := hcore.waiting
      (show next ∈ (w.freed driver name).waiters name from hcons ▸ mem_cons_self)
    refine Inv.congr (w := (w.freed driver call.name).removeAndResolve next call.name)
      ⟨hcore.resolve hi hstate, fun name' hfree hne => ?_⟩ rfl rfl
      (shift_resolve hcons (hcore.nodup call.name))
    by_cases hname : name' = call.name
    · exact ⟨next, _, modify_self hi, hname.symm, rfl⟩
    · have hwaiters : ((w.freed driver call.name).removeAndResolve next call.name).waiters name' =
          w.waiters name' := (waiters_setWaiters _ _ _ _).trans (if_neg hname)
      rw [hwaiters] at hne
      replace hfree : (w.ownersByName.delete call.name).get? name' = none := hfree
      rw [EntryMap.get?_delete, if_neg hname] at hfree
      obtain ⟨j, c, hj, hcname, hresolved⟩ := h.awake name' hfree hne
      refine ⟨j, c, modify_of_ne ?_ (get_freed hj (by rw [hresolved]; nofun)), hcname,
        hresolved⟩
      rintro rfl
      rw [get_freed hj (by rw [hresolved]; nofun)] at hi
      cases hi
      exact hname hcname.symm

theorem inv_init : init.Inv := by
  refine ⟨⟨nofun, nofun, nofun, nofun, nofun, fun _ => nodup_nil⟩, fun _ _ hne => ?_⟩
  exact absurd rfl hne

theorem Inv.acquire (h : w.Inv) (driver : ℕ) (name : String) (timeoutMs : Option JsNumber) :
    (w.acquireAdvisoryLock driver name timeoutMs).Inv :=
  (h.enter rfl).loop getElem?_concat_length rfl

theorem Inv.tryAcquire (h : w.Inv) (driver : ℕ) (name : String) :
    (w.tryAcquireAdvisoryLock driver name).Inv := by
  have hentered : (w.enter (w.call driver name .tryAcquire)).Inv := h.enter rfl
  unfold tryAcquireAdvisoryLock
  split
  · next hheld => exact hentered.refuse getElem?_concat_length rfl hheld w.now
  · next hfree =>
    have hnew : (w.enter (w.call driver name .tryAcquire)).calls[w.calls.length]? =
        some (w.call driver name .tryAcquire) := getElem?_concat_length
    exact hentered.own hnew rfl (Bool.eq_false_iff.mpr hfree)

theorem Inv.resume (h : w.Inv) (hi : w.calls[i]? = some call) (hstate : call.state = .resolved) :
    (w.resume i call).Inv := by
  unfold World.resume
  split
  · next hcond => exact h.refuse hi hstate (Bool.and_eq_true_iff.mp hcond).2 w.now
  · exact h.loop hi hstate

theorem step_cases {a : LockAction} (hstep : w.step a = some w') :
    (∃ driver name timeoutMs, a = .acquire driver name timeoutMs ∧
      w' = w.acquireAdvisoryLock driver name timeoutMs) ∨
    (∃ driver name, a = .tryAcquire driver name ∧ w' = w.tryAcquireAdvisoryLock driver name) ∨
    (∃ driver name, a = .release driver name ∧ w' = (w.releaseAdvisoryLock driver name).1) ∨
    (∃ i call due, a = .timer i ∧ w.calls[i]? = some call ∧ call.state = .waiting (some due) ∧
      due ≤ w.now ∧ w' = w.removeAndResolve i call.name) ∨
    (∃ i call, a = .resume i ∧ w.calls[i]? = some call ∧ call.state = .resolved ∧
      w' = w.resume i call) ∨
    ∃ ms, a = .tick ms ∧ w' = { w with now := w.now + ms } := by
  cases a with
  | acquire driver name timeoutMs => exact .inl ⟨_, _, _, rfl, (Option.some.inj hstep).symm⟩
  | tryAcquire driver name => exact .inr (.inl ⟨_, _, rfl, (Option.some.inj hstep).symm⟩)
  | release driver name => exact .inr (.inr (.inl ⟨_, _, rfl, (Option.some.inj hstep).symm⟩))
  | timer i =>
    simp only [World.step] at hstep
    split at hstep
    · next driver name request startedAt due hi =>
      split at hstep
      · next hdue =>
        exact .inr (.inr (.inr (.inl ⟨i, _, due, rfl, hi, rfl, hdue,
          (Option.some.inj hstep).symm⟩)))
      · cases hstep
    · cases hstep
  | resume i =>
    simp only [World.step] at hstep
    split at hstep
    · next call hi =>
      split at hstep
      · next hstate =>
        exact .inr (.inr (.inr (.inr (.inl ⟨i, call, rfl, hi, hstate,
          (Option.some.inj hstep).symm⟩))))
      · cases hstep
    · cases hstep
  | tick ms => exact .inr (.inr (.inr (.inr (.inr ⟨ms, rfl, (Option.some.inj hstep).symm⟩))))

theorem Inv.step {a : LockAction} (h : w.Inv) (hstep : w.step a = some w') : w'.Inv := by
  rcases step_cases hstep with ⟨driver, name, timeoutMs, -, rfl⟩ | ⟨driver, name, -, rfl⟩ |
    ⟨driver, name, -, rfl⟩ | ⟨i, call, due, -, hi, hstate, -, rfl⟩ | ⟨i, call, -, hi, hstate, rfl⟩ |
    ⟨ms, -, rfl⟩
  · exact h.acquire driver name timeoutMs
  · exact h.tryAcquire driver name
  · exact h.release driver name
  · exact h.timer hi hstate
  · exact h.resume hi hstate
  · exact h.congr rfl rfl fun _ => rfl

theorem Inv.sound (h : w.Inv) : w.Sound where
  oneHolder _ _ _ _ hi hj hc hd hname := h.unique hi hj hc hd hname
  foreign driver name hnone := by
    refine if_neg fun howner => ?_
    obtain ⟨i, call, hi, hname, hdriver, hacquired⟩ := h.owner howner
    exact hnone call (mem_of_getElem? hi) hdriver hname hacquired
  quiescent hquiet call hmem due hwaits := by
    obtain ⟨i, hi⟩ := mem_iff_getElem?.mp hmem
    cases howner : w.ownersByName.get? call.name with
    | none =>
      obtain ⟨j, c, hj, -, hresolved⟩ := h.awake call.name howner
        (ne_nil_of_mem (h.listed hi hwaits))
      exact absurd hresolved (hquiet c (mem_of_getElem? hj))
    | some driver =>
      obtain ⟨j, c, hj, hname, -, hacquired⟩ := h.owner howner
      exact ⟨c, mem_of_getElem? hj, hname, hacquired⟩

end World

end Velocious.AdvisoryLocks
