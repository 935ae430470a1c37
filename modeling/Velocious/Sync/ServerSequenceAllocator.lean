/-
  The server sequence allocator (src/sync/server-sequence-allocator.js): `next` calls of all
  allocator instances of a process that share a database identifier and a table.

  * Calls are numbered in the order in which they are made. A call is queued behind the one before
    it; then it awaits `ensureReady`, the insert and, on a connection that returns no id from an
    insert, `lastInsertID`. Each of these is a step of the machine, and may fail.
  * Without a database an allocator counts in its own `_memorySequence`.
  * The database gives an inserted row an id above all ids it gave before, and below `2 ^ 53`; other
    processes and failed inserts may use up ids (`Action.burn`).
-/
import Velocious.Foundation.Entries
import Velocious.Foundation.Machine

namespace Velocious.ServerSequenceAllocator

open Foundation List

/-- Where a call of `next` is. -/
inductive Phase where
  | queued
  | ensuring
  | ready
  /-- the insert returned no id, and `lastInsertID` is asked for on its connection -/
  | reading (connection : ℕ)
  | returned (sequence : ℕ)
  | failed
  deriving DecidableEq

def Phase.settled : Phase → Bool
  | returned _ | failed => true
  | queued | ensuring | ready | reading _ => false

/-- A call of `next`. -/
structure Call where
  allocator : ℕ
  connection : Option ℕ
  phase : Phase
  /-- the number that the insert of this call was given, or its count; the code does not keep it -/
  allocated : Option ℕ
  deriving DecidableEq

/-- The allocators and their table. -/
structure State where
  calls : List Call
  memorySequence : ℕ → ℕ
  autoIncrement : ℕ
  lastInsertID : ℕ → Option ℕ

def initial : State := ⟨[], fun _ => 0, 0, fun _ => none⟩

/-- What can happen. -/
inductive Action where
  | next (allocator : ℕ) (connection : Option ℕ)
  | start (i : ℕ)
  | ensured (i : ℕ) (ok : Bool)
  | count (i : ℕ)
  /-- the insert of a call, on its connection or one of the pool -/
  | insert (i : ℕ) (connection : ℕ) (id : ℕ)
  | reject (i : ℕ)
  | read (i : ℕ) (ok : Bool)
  /-- an id is used up by another process, or by an insert that fails -/
  | burn (id : ℕ)
  deriving DecidableEq

section
variable (usesMemory : Bool) (returnsIds : ℕ → Bool)

/-- `previousAllocation` has settled; it never rejects. -/
def previousSettled (s : State) (i : ℕ) : Bool :=
  i = 0 || (s.calls[i - 1]?).any fun call => call.phase.settled

def setCall (s : State) (i : ℕ) (call : Call) : State := { s with calls := s.calls.set i call }

/-- `_allocateNext` on the in-memory counter. -/
def countNext (s : State) (i : ℕ) (call : Call) : State :=
  let sequence := s.memorySequence call.allocator + 1
  { s with
    calls := s.calls.set i { call with phase := .returned sequence, allocated := some sequence }
    memorySequence := Function.update s.memorySequence call.allocator sequence }

def insertNext (s : State) (i : ℕ) (call : Call) (connection id : ℕ) : State :=
  { s with
    calls := s.calls.set i
      { call with
        phase := if returnsIds connection then .returned id else .reading connection
        allocated := some id }
    autoIncrement := id
    lastInsertID := Function.update s.lastInsertID connection (some id) }

def step (s : State) : Action → Option State
  | .next allocator connection =>
    some { s with calls := s.calls ++ [⟨allocator, connection, .queued, none⟩] }
  | .start i => s.calls[i]?.bind fun call =>
    if call.phase = .queued ∧ previousSettled s i then
      some (setCall s i { call with phase := .ensuring })
    else none
  | .ensured i ok => s.calls[i]?.bind fun call =>
    if call.phase = .ensuring then
      some (setCall s i { call with phase := if ok then .ready else .failed })
    else none
  | .count i => s.calls[i]?.bind fun call =>
    if usesMemory = true ∧ call.phase = .ready then some (countNext s i call) else none
  | .insert i connection id => s.calls[i]?.bind fun call =>
    if usesMemory = false ∧ call.phase = .ready ∧ call.connection.getD connection = connection ∧
        s.autoIncrement < id ∧ id < 2 ^ 53 then
      some (insertNext returnsIds s i call connection id)
    else none
  | .reject i => s.calls[i]?.bind fun call =>
    if usesMemory = false ∧ call.phase = .ready then
      some (setCall s i { call with phase := .failed })
    else none
  | .read i ok => s.calls[i]?.bind fun call =>
    match call.phase with
    | .reading connection =>
      -- `Number(null)` is 0
      let sequence := (s.lastInsertID connection).getD 0
      some (setCall s i { call with phase := if ok then .returned sequence else .failed })
    | .queued | .ensuring | .ready | .returned _ | .failed => none
  | .burn id =>
    if s.autoIncrement < id ∧ id < 2 ^ 53 then some { s with autoIncrement := id } else none

def SoleCounter (s : State) : Action → Prop
  | .next allocator _ => usesMemory = true → ∀ call ∈ s.calls, call.allocator = allocator
  | .start _ | .ensured _ _ | .count _ | .insert _ _ _ | .reject _ | .read _ _ | .burn _ => True

variable {usesMemory returnsIds} {s s' : State} {a : Action}

/-- What a step does to the calls. -/
inductive Moves (usesMemory : Bool) (s : State) : Action → State → Prop where
  | called {allocator connection} : Moves usesMemory s (.next allocator connection)
      { s with calls := s.calls ++ [⟨allocator, connection, .queued, none⟩] }
  | started {a i call} : s.calls[i]? = some call → call.phase = .queued →
      previousSettled s i = true →
      Moves usesMemory s a (setCall s i { call with phase := .ensuring })
  /-- a call goes on, or fails, and nothing is allocated -/
  | went {a i call phase} : s.calls[i]? = some call → call.phase ≠ .queued →
      call.phase.settled = false →
      (phase = .failed ∨ phase = .ready ∧ call.phase = .ensuring) →
      Moves usesMemory s a (setCall s i { call with phase })
  | allocated {a i call} {phase : Phase} {n : ℕ} {memorySequence autoIncrement lastInsertID} :
      s.calls[i]? = some call → call.phase = .ready →
      (phase = .returned n ∨
        ∃ connection, phase = .reading connection ∧ lastInsertID connection = some n) →
      (usesMemory = true → memorySequence = Function.update s.memorySequence call.allocator n ∧
        s.memorySequence call.allocator < n) →
      (usesMemory = false → s.autoIncrement < n ∧ autoIncrement = n) →
      Moves usesMemory s a
        { calls := s.calls.set i { call with phase, allocated := some n }
          memorySequence, autoIncrement, lastInsertID }
  | read {a i call connection} : s.calls[i]? = some call → call.phase = .reading connection →
      Moves usesMemory s a
        (setCall s i { call with phase := .returned ((s.lastInsertID connection).getD 0) })
  | burned {a id} : s.autoIncrement < id → Moves usesMemory s a { s with autoIncrement := id }

theorem moves_of_step (h : step usesMemory returnsIds s a = some s') : Moves usesMemory s a s' := by
  cases a with
  | next allocator connection =>
    cases h
    exact .called
  | start i =>
    simp only [step, Option.bind_eq_some_iff, Option.ite_none_right_eq_some] at h
    obtain ⟨call, hcall, ⟨hphase, hsettled⟩, h⟩ := h
    cases h
    exact .started hcall hphase hsettled
  | ensured i ok =>
    simp only [step, Option.bind_eq_some_iff, Option.ite_none_right_eq_some] at h
    obtain ⟨call, hcall, hphase, h⟩ := h
    cases h
    refine .went hcall (by simp [hphase]) (by simp [hphase, Phase.settled]) ?_
    cases ok <;> simp [hphase]
  | count i =>
    simp only [step, Option.bind_eq_some_iff, Option.ite_none_right_eq_some] at h
    obtain ⟨call, hcall, ⟨hmemory, hphase⟩, h⟩ := h
    cases h
    refine .allocated hcall hphase (.inl rfl) (fun _ => ⟨rfl, Nat.lt_succ_self _⟩) fun hno => ?_
    rw [hmemory] at hno
    cases hno
  | insert i connection id =>
    simp only [step, Option.bind_eq_some_iff, Option.ite_none_right_eq_some] at h
    obtain ⟨call, hcall, ⟨hmemory, hphase, -, hid, -⟩, h⟩ := h
    cases h
    refine .allocated hcall hphase ?_ (fun hno => ?_) fun _ => ⟨hid, rfl⟩
    · split
      · exact .inl rfl
      · exact .inr ⟨connection, rfl, Function.update_self ..⟩
    · rw [hmemory] at hno
      cases hno
  | reject i =>
    simp only [step, Option.bind_eq_some_iff, Option.ite_none_right_eq_some] at h
    obtain ⟨call, hcall, ⟨-, hphase⟩, h⟩ := h
    cases h
    exact .went hcall (by simp [hphase]) (by simp [hphase, Phase.settled]) (.inl rfl)
  | read i ok =>
    simp only [step, Option.bind_eq_some_iff] at h
    obtain ⟨call, hcall, h⟩ := h
    split at h
    · rename_i connection hphase
      cases h
      cases ok with
      | true => exact .read hcall hphase
      | false => exact .went hcall (by simp [hphase]) (by simp [hphase, Phase.settled]) (.inl rfl)
    all_goals cases h
  | burn id =>
    simp only [step, Option.ite_none_right_eq_some] at h
    obtain ⟨⟨hid, -⟩, h⟩ := h
    cases h
    exact .burned hid

/-! ## The invariant -/

/-- The number that the next allocation of an allocator is above. -/
def counterOf (usesMemory : Bool) (s : State) (allocator : ℕ) : ℕ :=
  if usesMemory then s.memorySequence allocator else s.autoIncrement

/-- The invariant of the runs. -/
structure Inv (usesMemory : Bool) (s : State) : Prop where
  /-- a call leaves the queue after the calls before it have settled -/
  fifo : ∀ {i j : ℕ} {call later : Call}, i < j → s.calls[i]? = some call →
    s.calls[j]? = some later → later.phase ≠ .queued → call.phase.settled = true
  unallocated : ∀ {i : ℕ} {call : Call}, s.calls[i]? = some call →
    (call.phase = .queued ∨ call.phase = .ensuring ∨ call.phase = .ready) → call.allocated = none
  /-- a connection that is asked for its last id has inserted that of the call -/
  reading : ∀ {i connection : ℕ} {call : Call}, s.calls[i]? = some call →
    call.phase = .reading connection →
      ∃ n, call.allocated = some n ∧ s.lastInsertID connection = some n
  own : ∀ {i n : ℕ} {call : Call}, s.calls[i]? = some call → call.phase = .returned n →
    call.allocated = some n
  highest : ∀ {i n : ℕ} {call : Call}, s.calls[i]? = some call → call.allocated = some n →
    n ≤ counterOf usesMemory s call.allocator
  increasing : ∀ {i j m n : ℕ} {call later : Call}, i < j → s.calls[i]? = some call →
    s.calls[j]? = some later → call.allocated = some m → later.allocated = some n → m < n
  sole : usesMemory = true → ∀ call ∈ s.calls, ∀ other ∈ s.calls,
    call.allocator = other.allocator

theorem inv_initial : Inv usesMemory initial := by
  constructor <;> simp [initial]

section
variable (h : Inv usesMemory s)
include h

theorem Inv.queued {i j : ℕ} {call later : Call} (hij : i < j)
    (hcall : s.calls[i]? = some call) (hlater : s.calls[j]? = some later)
    (hopen : call.phase.settled = false) : later.phase = .queued := by
  by_contra hne
  rw [h.fifo hij hcall hlater hne] at hopen
  cases hopen

theorem Inv.setPhase {i : ℕ} {call : Call} {phase : Phase}
    (hcall : s.calls[i]? = some call) (hopen : call.phase.settled = false)
    (hleft : ∀ j < i, ∀ earlier, s.calls[j]? = some earlier → earlier.phase.settled = true)
    (hnone : phase = .queued ∨ phase = .ensuring ∨ phase = .ready → call.allocated = none)
    (hreading : ∀ connection, phase ≠ .reading connection)
    (hown : ∀ n, phase = .returned n → call.allocated = some n) :
    Inv usesMemory (setCall s i { call with phase }) where
  fifo {j k} a b hjk ha hb hqueued := by
    rcases set_cases hb with ⟨rfl, rfl⟩ | ⟨hk, hb₁⟩
    · rcases set_cases ha with ⟨rfl, rfl⟩ | ⟨hj, ha₁⟩
      · omega
      · exact hleft j hjk a ha₁
    · rcases set_cases ha with ⟨rfl, rfl⟩ | ⟨hj, ha₁⟩
      · exact absurd (h.queued hjk hcall hb₁ hopen) hqueued
      · exact h.fifo hjk ha₁ hb₁ hqueued
  unallocated {j} a ha hphase := by
    rcases set_cases ha with ⟨rfl, rfl⟩ | ⟨hj, ha₁⟩
    · exact hnone hphase
    · exact h.unallocated ha₁ hphase
  reading {j connection} a ha hphase := by
    rcases set_cases ha with ⟨rfl, rfl⟩ | ⟨hj, ha₁⟩
    · exact absurd hphase (hreading connection)
    · exact h.reading ha₁ hphase
  own {j n} a ha hphase := by
    rcases set_cases ha with ⟨rfl, rfl⟩ | ⟨hj, ha₁⟩
    · exact hown n hphase
    · exact h.own ha₁ hphase
  highest {j n} a ha hn := by
    rcases set_cases ha with ⟨rfl, rfl⟩ | ⟨hj, ha₁⟩
    · exact @Inv.highest _ _ h _ _ call hcall hn
    · exact h.highest ha₁ hn
  increasing {j k m n} a b hjk ha hb hm hn := by
    rcases set_cases ha with ⟨rfl, rfl⟩ | ⟨hj, ha₁⟩
    · rcases set_cases hb with ⟨rfl, rfl⟩ | ⟨hk, hb₁⟩
      · omega
      · exact @Inv.increasing _ _ h _ _ _ _ call b hjk hcall hb₁ hm hn
    · rcases set_cases hb with ⟨rfl, rfl⟩ | ⟨hk, hb₁⟩
      · exact @Inv.increasing _ _ h _ _ _ _ a call hjk ha₁ hcall hm hn
      · exact h.increasing hjk ha₁ hb₁ hm hn
  sole hmemory a ha b hb := by
    have hallocator : ∀ c ∈ (setCall s i { call with phase }).calls,
        ∃ d ∈ s.calls, d.allocator = c.allocator := by
      intro c hc
      rcases mem_or_eq_of_mem_set hc with hc | rfl
      · exact ⟨c, hc, rfl⟩
      · exact ⟨call, mem_of_getElem? hcall, rfl⟩
    obtain ⟨a', ha', heq⟩ := hallocator a ha
    obtain ⟨b', hb', heq'⟩ := hallocator b hb
    rw [← heq, ← heq', h.sole hmemory a' ha' b' hb']

theorem Inv.settled_before {i : ℕ} {call : Call}
    (hcall : s.calls[i]? = some call) (hphase : call.phase ≠ .queued) :
    ∀ j < i, ∀ earlier, s.calls[j]? = some earlier → earlier.phase.settled = true :=
  fun _ hj _ hearlier => h.fifo hj hearlier hcall hphase

theorem Inv.settled_of_previous {i : ℕ}
    (hprevious : previousSettled s i = true) :
    ∀ j < i, ∀ earlier, s.calls[j]? = some earlier → earlier.phase.settled = true := by
  intro j hj earlier hearlier
  unfold previousSettled at hprevious
  rw [Bool.or_eq_true, decide_eq_true_iff] at hprevious
  rcases hprevious with rfl | hprevious
  · omega
  obtain ⟨last, hlast, hsettled⟩ : ∃ last, s.calls[i - 1]? = some last ∧
      last.phase.settled = true := by
    cases hlast : s.calls[i - 1]? with
    | none => simp [hlast] at hprevious
    | some last => exact ⟨last, rfl, by simpa [hlast] using hprevious⟩
  rcases eq_or_lt_of_le (show j ≤ i - 1 by omega) with rfl | hlt
  · rw [hearlier] at hlast
    cases hlast
    exact hsettled
  · refine h.fifo hlt hearlier hlast fun hqueued => ?_
    rw [hqueued] at hsettled
    cases hsettled

theorem Inv.called {allocator : ℕ} {connection : Option ℕ}
    (hsole : usesMemory = true → ∀ call ∈ s.calls, call.allocator = allocator) :
    Inv usesMemory { s with calls := s.calls ++ [⟨allocator, connection, .queued, none⟩] } where
  fifo {j k} a b hjk ha hb hqueued := by
    rcases append_cases hb with ⟨rfl, rfl⟩ | hb₁
    · exact absurd rfl hqueued
    · rcases append_cases ha with ⟨rfl, rfl⟩ | ha₁
      · have := (List.getElem?_eq_some_iff.mp hb₁).1
        omega
      · exact h.fifo hjk ha₁ hb₁ hqueued
  unallocated {j} a ha hphase := by
    rcases append_cases ha with ⟨rfl, rfl⟩ | ha₁
    · rfl
    · exact h.unallocated ha₁ hphase
  reading {j c} a ha hphase := by
    rcases append_cases ha with ⟨rfl, rfl⟩ | ha₁
    · cases hphase
    · exact h.reading ha₁ hphase
  own {j n} a ha hphase := by
    rcases append_cases ha with ⟨rfl, rfl⟩ | ha₁
    · cases hphase
    · exact h.own ha₁ hphase
  highest {j n} a ha hn := by
    rcases append_cases ha with ⟨rfl, rfl⟩ | ha₁
    · cases hn
    · exact h.highest ha₁ hn
  increasing {j k m n} a b hjk ha hb hm hn := by
    rcases append_cases ha with ⟨rfl, rfl⟩ | ha₁
    · cases hm
    · rcases append_cases hb with ⟨rfl, rfl⟩ | hb₁
      · cases hn
      · exact h.increasing hjk ha₁ hb₁ hm hn
  sole hmemory a ha b hb := by
    have hall : ∀ c ∈ s.calls ++ [⟨allocator, connection, .queued, none⟩],
        c.allocator = allocator := by
      intro c hc
      rcases mem_append.mp hc with hc | hc
      · exact hsole hmemory c hc
      · rw [mem_singleton.mp hc]
    rw [hall a ha, hall b hb]

theorem Inv.allocated {i n : ℕ} {call : Call} {phase : Phase}
    {memorySequence : ℕ → ℕ} {autoIncrement : ℕ} {lastInsertID : ℕ → Option ℕ}
    (hcall : s.calls[i]? = some call) (hphase : call.phase = .ready)
    (hnext : phase = .returned n ∨
      ∃ connection, phase = .reading connection ∧ lastInsertID connection = some n)
    (hmemory : usesMemory = true →
      memorySequence = Function.update s.memorySequence call.allocator n ∧
        s.memorySequence call.allocator < n)
    (hdb : usesMemory = false → s.autoIncrement < n ∧ autoIncrement = n) :
    Inv usesMemory
      { calls := s.calls.set i { call with phase, allocated := some n }
        memorySequence, autoIncrement, lastInsertID } := by
  have hopen : call.phase.settled = false := by simp [hphase, Phase.settled]
  have hbefore := h.settled_before hcall (by simp [hphase])
  have hlater : ∀ {j : ℕ} {later : Call}, i < j → s.calls[j]? = some later →
      later.phase = .queued := fun hij hlater => h.queued hij hcall hlater hopen
  have hnotSettled : phase ≠ .queued := by
    rcases hnext with rfl | ⟨c, rfl, -⟩ <;> simp
  -- what was allocated before is below
  have hbelow : ∀ {j m : ℕ} {a : Call}, s.calls[j]? = some a → a.allocated = some m → m < n := by
    intro j m a ha hm
    have hle := h.highest ha hm
    cases husesMemory : usesMemory with
    | true =>
      have hsame := h.sole husesMemory a (mem_of_getElem? ha) call (mem_of_getElem? hcall)
      simp only [counterOf, husesMemory, if_true, hsame] at hle
      have := (hmemory husesMemory).2
      omega
    | false =>
      simp only [counterOf, husesMemory, Bool.false_eq_true, if_false] at hle
      have := (hdb husesMemory).1
      omega
  have hhighest : ∀ a ∈ s.calls, n = counterOf usesMemory
      { calls := s.calls.set i { call with phase, allocated := some n }
        memorySequence, autoIncrement, lastInsertID } a.allocator := by
    intro a ha
    cases husesMemory : usesMemory with
    | true =>
      have hsame := h.sole husesMemory a ha call (mem_of_getElem? hcall)
      simp [counterOf, (hmemory husesMemory).1, hsame]
    | false => simp [counterOf, (hdb husesMemory).2]
  constructor
  · intro j k a b hjk ha hb hqueued
    rcases set_cases hb with ⟨rfl, rfl⟩ | ⟨hk, hb₁⟩
    · rcases set_cases ha with ⟨rfl, rfl⟩ | ⟨hj, ha₁⟩
      · omega
      · exact hbefore j hjk a ha₁
    · rcases set_cases ha with ⟨rfl, rfl⟩ | ⟨hj, ha₁⟩
      · exact absurd (hlater hjk hb₁) hqueued
      · exact h.fifo hjk ha₁ hb₁ hqueued
  · intro j a ha hphase'
    rcases set_cases ha with ⟨rfl, rfl⟩ | ⟨hj, ha₁⟩
    · rcases hnext with rfl | ⟨c, rfl, -⟩ <;> simp at hphase'
    · exact h.unallocated ha₁ hphase'
  · intro j connection a ha hphase'
    rcases set_cases ha with ⟨rfl, rfl⟩ | ⟨hj, ha₁⟩
    · rcases hnext with rfl | ⟨c, rfl, hlast⟩
      · cases hphase'
      · cases hphase'
        exact ⟨n, rfl, hlast⟩
    · -- no other call is being answered
      rcases lt_or_gt_of_ne hj with hlt | hgt
      · have := hbefore j hlt a ha₁
        simp [hphase', Phase.settled] at this
      · have := hlater hgt ha₁
        simp [hphase'] at this
  · intro j m a ha hphase'
    rcases set_cases ha with ⟨rfl, rfl⟩ | ⟨hj, ha₁⟩
    · rcases hnext with rfl | ⟨c, rfl, -⟩
      · cases hphase'
        rfl
      · cases hphase'
    · exact h.own ha₁ hphase'
  · intro j m a ha hm
    rcases set_cases ha with ⟨rfl, rfl⟩ | ⟨hj, ha₁⟩
    · cases hm
      exact (hhighest call (mem_of_getElem? hcall)).le
    · exact (hbelow ha₁ hm).le.trans (hhighest a (mem_of_getElem? ha₁)).le
  · intro j k m m' a b hjk ha hb hm hm'
    rcases set_cases hb with ⟨rfl, rfl⟩ | ⟨hk, hb₁⟩
    · cases hm'
      rcases set_cases ha with ⟨rfl, rfl⟩ | ⟨hj, ha₁⟩
      · omega
      · exact hbelow ha₁ hm
    · rcases set_cases ha with ⟨rfl, rfl⟩ | ⟨hj, ha₁⟩
      · rw [h.unallocated hb₁ (.inl (hlater hjk hb₁))] at hm'
        cases hm'
      · exact h.increasing hjk ha₁ hb₁ hm hm'
  · intro husesMemory a ha b hb
    have hallocator : ∀ c ∈ s.calls.set i { call with phase, allocated := some n },
        c.allocator = call.allocator := by
      intro c hc
      rcases mem_or_eq_of_mem_set hc with hc | rfl
      · exact h.sole husesMemory c hc call (mem_of_getElem? hcall)
      · rfl
    rw [hallocator a ha, hallocator b hb]

/-- **A step keeps the invariant**, if calls that count in memory are of one allocator. -/
theorem Inv.step (hsole : SoleCounter usesMemory s a)
    (hstep : step usesMemory returnsIds s a = some s') : Inv usesMemory s' := by
  cases moves_of_step hstep with
  | called => exact h.called hsole
  | started hcall hphase hprevious =>
    exact h.setPhase hcall (by simp [hphase, Phase.settled]) (h.settled_of_previous hprevious)
      (fun _ => h.unallocated hcall (.inl hphase)) (by simp) (by simp)
  | went hcall hqueued hopen hphase =>
    refine h.setPhase hcall hopen (h.settled_before hcall hqueued) (fun hnone => ?_) ?_ ?_
    · rcases hphase with rfl | ⟨rfl, hensuring⟩
      · simp at hnone
      · exact h.unallocated hcall (.inr (.inl hensuring))
    · rcases hphase with rfl | ⟨rfl, -⟩ <;> simp
    · rcases hphase with rfl | ⟨rfl, -⟩ <;> simp
  | allocated hcall hphase hnext hmemory hdb => exact h.allocated hcall hphase hnext hmemory hdb
  | read hcall hphase =>
    obtain ⟨n, hn, hlast⟩ := h.reading hcall hphase
    refine h.setPhase hcall (by simp [hphase, Phase.settled])
      (h.settled_before hcall (by simp [hphase])) (by simp) (by simp) ?_
    simp [hlast, hn]
  | burned hid =>
    refine { h with highest := fun {j n call} hcall hn => (h.highest hcall hn).trans ?_ }
    unfold counterOf
    split
    · exact le_rfl
    · exact hid.le

end

/-! ## A call is not blocked -/

/-- A call can be made to return, with the others as they are and at most `ids` more ids. -/
def CanReturn (usesMemory : Bool) (returnsIds : ℕ → Bool) (ids : ℕ) (s : State) (i : ℕ) : Prop :=
  ∃ actions s' call n, runActions (step usesMemory returnsIds) s actions = some s' ∧
    s'.calls[i]? = some call ∧ call.phase = .returned n ∧
    (∀ j ≠ i, s'.calls[j]? = s.calls[j]?) ∧ s'.autoIncrement ≤ s.autoIncrement + ids

section
variable {i ids : ℕ} {call : Call}

theorem lt_of_get (hcall : s.calls[i]? = some call) : i < s.calls.length :=
  (List.getElem?_eq_some_iff.mp hcall).1

theorem canReturn_of_returned {n : ℕ} (hcall : s.calls[i]? = some call)
    (hphase : call.phase = .returned n) : CanReturn usesMemory returnsIds 0 s i :=
  ⟨[], s, call, n, rfl, hcall, hphase, fun _ _ => rfl, le_rfl⟩

theorem CanReturn.cons {new : Call} {k : ℕ}
    (hstep : step usesMemory returnsIds s a = some s') (hcalls : s'.calls = s.calls.set i new)
    (hids : s'.autoIncrement + k ≤ s.autoIncrement + ids)
    (h : CanReturn usesMemory returnsIds k s' i) :
    CanReturn usesMemory returnsIds ids s i := by
  obtain ⟨actions, s₂, call, n, hrun, hcall, hphase, hothers, hle⟩ := h
  refine ⟨a :: actions, s₂, call, n, runActions_cons.mpr ⟨s', hstep, hrun⟩, hcall, hphase,
    fun j hj => ?_, hle.trans hids⟩
  rw [hothers j hj, hcalls, getElem?_set_ne hj.symm]

theorem canReturn_of_reading {connection : ℕ} (hcall : s.calls[i]? = some call)
    (hphase : call.phase = .reading connection) : CanReturn usesMemory returnsIds 0 s i := by
  have hstep : step usesMemory returnsIds s (.read i true) = some (setCall s i
      { call with phase := .returned ((s.lastInsertID connection).getD 0) }) := by
    simp [step, hcall, hphase]
  exact .cons hstep rfl le_rfl
    (canReturn_of_returned (getElem?_set_self (lt_of_get hcall)) rfl)

section
variable (hcall : s.calls[i]? = some call)
include hcall

theorem canReturn_of_ready (hphase : call.phase = .ready)
    (hid : s.autoIncrement + 1 < 2 ^ 53) : CanReturn usesMemory returnsIds 1 s i := by
  cases hmemory : usesMemory with
  | true =>
    have hstep : step true returnsIds s (.count i) = some (countNext s i call) := by
      simp [step, hcall, hphase]
    exact .cons hstep rfl (Nat.le_succ _)
      (canReturn_of_returned (getElem?_set_self (lt_of_get hcall)) rfl)
  | false =>
    have hstep : step false returnsIds s
        (.insert i (call.connection.getD 0) (s.autoIncrement + 1)) =
          some (insertNext returnsIds s i call (call.connection.getD 0) (s.autoIncrement + 1)) := by
      cases hconnection : call.connection <;> simp [step, hcall, hphase, hconnection] <;> omega
    refine .cons (k := 0) hstep rfl le_rfl ?_
    have hget : (insertNext returnsIds s i call (call.connection.getD 0)
        (s.autoIncrement + 1)).calls[i]? = _ := getElem?_set_self (lt_of_get hcall)
    cases hreturns : returnsIds (call.connection.getD 0) with
    | true => exact canReturn_of_returned hget (if_pos hreturns)
    | false => exact canReturn_of_reading hget (if_neg (by simp [hreturns]))

theorem canReturn_of_ensuring (hphase : call.phase = .ensuring)
    (hid : s.autoIncrement + 1 < 2 ^ 53) : CanReturn usesMemory returnsIds 1 s i := by
  have hstep : step usesMemory returnsIds s (.ensured i true) =
      some (setCall s i { call with phase := .ready }) := by
    simp [step, hcall, hphase]
  exact .cons hstep rfl le_rfl
    (canReturn_of_ready (getElem?_set_self (lt_of_get hcall)) rfl hid)

/-- **A call returns once those before it have settled**, returned or failed. -/
theorem canReturn (hopen : call.phase.settled = false)
    (hbefore : ∀ j < i, ∀ earlier, s.calls[j]? = some earlier → earlier.phase.settled = true)
    (hid : s.autoIncrement + 1 < 2 ^ 53) : CanReturn usesMemory returnsIds 1 s i := by
  cases hphase : call.phase with
  | queued =>
    have hprevious : previousSettled s i = true := by
      unfold previousSettled
      rcases Nat.eq_zero_or_pos i with rfl | hpos
      · rfl
      · have hlt := lt_of_get hcall
        obtain ⟨earlier, hget⟩ : ∃ earlier, s.calls[i - 1]? = some earlier :=
          ⟨_, getElem?_eq_getElem (by omega)⟩
        rw [hget, Option.any_some, hbefore (i - 1) (by omega) _ hget, Bool.or_true]
    have hstep : step usesMemory returnsIds s (.start i) =
        some (setCall s i { call with phase := .ensuring }) := by
      simp [step, hcall, hphase, hprevious]
    exact .cons hstep rfl le_rfl
      (canReturn_of_ensuring (getElem?_set_self (lt_of_get hcall)) rfl hid)
  | ensuring => exact canReturn_of_ensuring hcall hphase hid
  | ready => exact canReturn_of_ready hcall hphase hid
  | reading connection =>
    obtain ⟨actions, s₂, call', n, hrun, hcall', hphase', hothers, hle⟩ :=
      @canReturn_of_reading usesMemory returnsIds s i call connection hcall hphase
    exact ⟨actions, s₂, call', n, hrun, hcall', hphase', hothers, hle.trans (Nat.le_succ _)⟩
  | returned n => simp [hphase, Phase.settled] at hopen
  | failed => simp [hphase, Phase.settled] at hopen

end

theorem settle_before (m : ℕ) (hm : m ≤ s.calls.length) (hids : s.autoIncrement + m < 2 ^ 53) :
    ∃ actions s', runActions (step usesMemory returnsIds) s actions = some s' ∧
      (∀ j < m, ∀ earlier, s'.calls[j]? = some earlier → earlier.phase.settled = true) ∧
      (∀ j, m ≤ j → s'.calls[j]? = s.calls[j]?) ∧ s'.autoIncrement ≤ s.autoIncrement + m := by
  induction m with
  | zero => exact ⟨[], s, rfl, by simp, fun _ _ => rfl, le_rfl⟩
  | succ m ih =>
    obtain ⟨actions, s₁, hrun, hsettled, hrest, hle⟩ := ih (by omega) (by omega)
    obtain ⟨waiting, hwaiting⟩ : ∃ waiting, s.calls[m]? = some waiting :=
      ⟨_, getElem?_eq_getElem hm⟩
    have hget : s₁.calls[m]? = some waiting := (hrest m le_rfl).trans hwaiting
    cases hopen : waiting.phase.settled with
    | true =>
      refine ⟨actions, s₁, hrun, fun j hj earlier hearlier => ?_, fun j hj => hrest j (by omega),
        by omega⟩
      rcases Nat.lt_succ_iff_lt_or_eq.mp hj with hlt | rfl
      · exact hsettled j hlt earlier hearlier
      · rw [hget] at hearlier
        cases hearlier
        exact hopen
    | false =>
      obtain ⟨actions', s₂, call, n, hrun', hcall, hphase, hothers, hle'⟩ :=
        @canReturn usesMemory returnsIds s₁ m _ hget hopen hsettled (by omega)
      refine ⟨actions ++ actions', s₂, ?_, fun j hj earlier hearlier => ?_, fun j hj => ?_, by omega⟩
      · rw [runActions_append, hrun]
        exact hrun'
      · rcases Nat.lt_succ_iff_lt_or_eq.mp hj with hlt | rfl
        · rw [hothers j (by omega)] at hearlier
          exact hsettled j hlt earlier hearlier
        · rw [hcall] at hearlier
          cases hearlier
          simp [hphase, Phase.settled]
      · rw [hothers j (by omega), hrest j (by omega)]

end

/-- What `next` promises of the calls so far. -/
structure Guarantees (usesMemory : Bool) (returnsIds : ℕ → Bool) (s : State) : Prop where
  /-- a later call gets a larger sequence, so that no two get the same -/
  increasing : ∀ {i j m n : ℕ} {call later : Call}, i < j → s.calls[i]? = some call →
    s.calls[j]? = some later → call.phase = .returned m → later.phase = .returned n → m < n
  own : ∀ {i n : ℕ} {call : Call}, s.calls[i]? = some call → call.phase = .returned n →
    call.allocated = some n
  /-- whatever failed, a call that has not settled can return, as long as ids are left -/
  proceeds : ∀ {i : ℕ} {call : Call}, s.calls[i]? = some call → call.phase.settled = false →
    s.autoIncrement + i + 1 < 2 ^ 53 → ∃ actions s' call' n,
      runActions (step usesMemory returnsIds) s actions = some s' ∧
        s'.calls[i]? = some call' ∧ call'.phase = .returned n

theorem Inv.guarantees (h : Inv usesMemory s) : Guarantees usesMemory returnsIds s where
  increasing hij hcall hlater hm hn :=
    h.increasing hij hcall hlater (h.own hcall hm) (h.own hlater hn)
  own := h.own
  proceeds {i call} hcall hopen hids := by
    obtain ⟨actions, s₁, hrun, hsettled, hrest, hle⟩ :=
      @settle_before usesMemory returnsIds s i (lt_of_get hcall).le (by omega)
    have hget : s₁.calls[i]? = some call := (hrest i le_rfl).trans hcall
    obtain ⟨actions', s₂, call', n, hrun', hcall', hphase, -, -⟩ :=
      @canReturn usesMemory returnsIds s₁ i call hget hopen hsettled (by omega)
    refine ⟨actions ++ actions', s₂, call', n, ?_, hcall', hphase⟩
    rw [runActions_append, hrun]
    exact hrun'

/-- **The sequences of a run.**  With a database every run keeps the guarantees; in memory every run
    does in which one allocator makes the calls. -/
theorem sequences_guaranteed {actions : List Action}
    (hsole : Along (step usesMemory returnsIds) (SoleCounter usesMemory) initial actions)
    (hrun : runActions (step usesMemory returnsIds) initial actions = some s) :
    Guarantees usesMemory returnsIds s :=
  (runActions_invariant (fun _ _ _ h hok hstep => h.step hok hstep) actions inv_initial hsole
    hrun).guarantees

/-- Two allocators on one connection that answers `lastInsertID`, the first of which fails. -/
theorem sequences_guaranteed_interleaved : ∃ s,
    runActions (step false fun _ => false) initial
      [.next 0 none, .next 1 none, .next 0 (some 7), .start 0, .ensured 0 true, .reject 0, .start 1,
        .ensured 1 true, .insert 1 7 4, .burn 5, .read 1 true, .start 2, .ensured 2 true,
        .insert 2 7 6, .read 2 true] = some s ∧
      Guarantees false (fun _ => false) s := by
  refine ⟨_, rfl, @sequences_guaranteed false (fun _ => false) _
    [.next 0 none, .next 1 none, .next 0 (some 7), .start 0, .ensured 0 true, .reject 0, .start 1,
      .ensured 1 true, .insert 1 7 4, .burn 5, .read 1 true, .start 2, .ensured 2 true,
      .insert 2 7 6, .read 2 true] (along_of_forall ?_ _ _) rfl⟩
  intro s a
  cases a <;> simp [SoleCounter]

/-- Without a database two allocators of one table both begin with 1. -/
theorem counters_collide : ∃ s,
    runActions (step true fun _ => false) initial
      [.next 0 none, .start 0, .ensured 0 true, .count 0,
        .next 1 none, .start 1, .ensured 1 true, .count 1] = some s ∧
      ¬Guarantees true (fun _ => false) s := by
  refine ⟨_, rfl, fun h => ?_⟩
  have := h.increasing (i := 0) (j := 1) (m := 1) (n := 1) (by decide) rfl rfl rfl rfl
  omega

end

end Velocious.ServerSequenceAllocator
