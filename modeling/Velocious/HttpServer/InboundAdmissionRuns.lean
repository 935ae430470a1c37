/-
  What holds of every session that admits inbound messages.
-/
import Velocious.HttpServer.InboundAdmission
import Mathlib.Tactic

namespace Velocious.InboundAdmission

open Foundation List

/-! ## The chain -/

/-- The task whose turn it is, between those that have settled and those that have not begun. -/
structure Turn (tasks done : List ChainTask) (task : ChainTask) (later : List ChainTask) :
    Prop where
  eq : tasks = done ++ task :: later
  done : ∀ t ∈ done, t.state = .settled
  later : ∀ t ∈ later, t.state = .queued

def InOrder (tasks : List ChainTask) : Prop :=
  (∀ t ∈ tasks, t.state = .settled) ∨
    ∃ done task later, Turn tasks done task later ∧ task.state ≠ .settled

def before : ℕ → Option ℕ
  | 0 => none
  | i + 1 => some i

def Linked (tasks : List ChainTask) (messageChain : Option ℕ) : Prop :=
  (∀ i task, tasks[i]? = some task → task.previous = before i) ∧
    messageChain = before tasks.length

section
variable {tasks done later : List ChainTask} {task : ChainTask} {i : ℕ}

theorem inOrder_append (hdone : ∀ t ∈ done, t.state = .settled)
    (hlater : ∀ t ∈ later, t.state = .queued) : InOrder (done ++ later) := by
  cases later with
  | nil =>
    left
    rw [append_nil]
    exact hdone
  | cons task later =>
    have htask := hlater task mem_cons_self
    refine .inr ⟨done, task, later, ⟨rfl, hdone, fun t ht => hlater t (mem_cons_of_mem _ ht)⟩, ?_⟩
    rw [htask]
    nofun

theorem InOrder.chain (h : InOrder tasks) {kind : TaskKind} {previous : Option ℕ} :
    InOrder (tasks ++ [⟨kind, previous, .queued⟩]) := by
  have hnew : ∀ t ∈ ([⟨kind, previous, .queued⟩] : List ChainTask), t.state = .queued := by
    intro t ht
    rw [mem_singleton.mp ht]
  rcases h with hdone | ⟨done, task, later, hturn, hne⟩
  · exact inOrder_append hdone hnew
  · refine .inr ⟨done, task, later ++ [⟨kind, previous, .queued⟩], ⟨?_, hturn.done, ?_⟩, hne⟩
    · rw [hturn.eq, append_assoc, cons_append]
    · intro t ht
      rcases mem_append.mp ht with hold | hlast
      · exact hturn.later t hold
      · exact hnew t hlast

namespace Turn

section
variable (h : Turn tasks done task later)
include h

theorem getElem? : tasks[done.length]? = some task := by
  rw [h.eq]
  simp

theorem modify (f : ChainTask → ChainTask) :
    Turn (tasks.modify done.length f) done (f task) later := by
  refine ⟨?_, h.done, h.later⟩
  have hmodify : ∀ done : List ChainTask,
      (done ++ task :: later).modify done.length f = done ++ f task :: later := by
    intro done
    induction done with
    | nil => rfl
    | cons t done ih => exact congrArg (t :: ·) ih
  rw [h.eq, hmodify]

theorem inOrder : InOrder tasks := by
  by_cases hsettled : task.state = .settled
  · rw [h.eq, append_cons]
    refine inOrder_append (fun t ht => ?_) h.later
    rcases mem_append.mp ht with hold | hlast
    · exact h.done t hold
    · rw [mem_singleton.mp hlast]
      exact hsettled
  · exact .inr ⟨done, task, later, h, hsettled⟩

theorem current :
    tasks.filterMap ChainTask.current = task.current.toList := by
  have hdone : done.filterMap ChainTask.current = [] := by
    refine filterMap_eq_nil_iff.mpr fun t ht => ?_
    rw [ChainTask.current, h.done t ht]
  have hlater : later.filterMap ChainTask.current = [] := by
    refine filterMap_eq_nil_iff.mpr fun t ht => ?_
    rw [ChainTask.current, h.later t ht]
  rw [h.eq, filterMap_append, hdone, filterMap_cons, hlater]
  cases task.current <;> rfl

theorem rest : tasks.flatMap ChainTask.rest = task.rest := by
  have hdone : done.flatMap ChainTask.rest = [] := by
    refine flatMap_eq_nil_iff.mpr fun t ht => ?_
    rw [ChainTask.rest, h.done t ht]
  have hlater : later.flatMap ChainTask.rest = [] := by
    refine flatMap_eq_nil_iff.mpr fun t ht => ?_
    rw [ChainTask.rest, h.later t ht]
  rw [h.eq, flatMap_append, hdone, nil_append, flatMap_cons, hlater, append_nil]

theorem queuedWork : tasks.filterMap ChainTask.queuedWork =
    task.queuedWork.toList ++ later.filterMap ChainTask.queuedWork := by
  have hdone : done.filterMap ChainTask.queuedWork = [] := by
    refine filterMap_eq_nil_iff.mpr fun t ht => ?_
    rw [ChainTask.queuedWork, h.done t ht]
    split <;> simp_all
  rw [h.eq, filterMap_append, hdone, filterMap_cons]
  cases task.queuedWork <;> rfl

end

end Turn

theorem InOrder.dispatching (h : InOrder tasks) {n : ℕ} {rest : List ℕ}
    (hi : tasks[i]? = some task) (hstate : task.state = .dispatching n rest) :
    ∃ done later, i = done.length ∧ Turn tasks done task later := by
  rcases h with hdone | ⟨done, task', later, hturn, -⟩
  · have hsettled := hdone task (mem_of_getElem? hi)
    rw [hstate] at hsettled
    cases hsettled
  refine ⟨done, later, ?_⟩
  rcases lt_trichotomy i done.length with hlt | heq | hgt
  · rw [hturn.eq, getElem?_append_left hlt] at hi
    have hsettled := hturn.done task (mem_of_getElem? hi)
    rw [hstate] at hsettled
    cases hsettled
  · subst heq
    cases hturn.getElem?.symm.trans hi
    exact ⟨rfl, hturn⟩
  · rw [hturn.eq, append_cons, getElem?_append_right (by simp; omega)] at hi
    have hqueued := hturn.later task (mem_of_getElem? hi)
    rw [hstate] at hqueued
    cases hqueued

variable {messageChain : Option ℕ}

theorem InOrder.queued (h : InOrder tasks)
    (hlinked : Linked tasks messageChain) (hi : tasks[i]? = some task)
    (hstate : task.state = .queued)
    (hprevious : ∀ k, task.previous = some k → ∃ t, tasks[k]? = some t ∧ t.state = .settled) :
    ∃ done later, i = done.length ∧ Turn tasks done task later := by
  rcases h with hdone | ⟨done, task', later, hturn, hne⟩
  · have hsettled := hdone task (mem_of_getElem? hi)
    rw [hstate] at hsettled
    cases hsettled
  refine ⟨done, later, ?_⟩
  rcases lt_trichotomy i done.length with hlt | heq | hgt
  · rw [hturn.eq, getElem?_append_left hlt] at hi
    have hsettled := hturn.done task (mem_of_getElem? hi)
    rw [hstate] at hsettled
    cases hsettled
  · subst heq
    cases hturn.getElem?.symm.trans hi
    exact ⟨rfl, hturn⟩
  · obtain ⟨k, rfl⟩ : ∃ k, i = k + 1 := ⟨i - 1, by omega⟩
    obtain ⟨t, ht, hsettled⟩ := hprevious k (hlinked.1 (k + 1) task hi)
    rcases (Nat.lt_succ_iff.mp hgt).eq_or_lt with heq | hlt
    · rw [← heq, hturn.getElem?] at ht
      cases ht
      exact absurd hsettled hne
    · rw [hturn.eq, append_cons, getElem?_append_right (by simp; omega)] at ht
      have hqueued := hturn.later t (mem_of_getElem? ht)
      rw [hsettled] at hqueued
      cases hqueued

theorem Linked.chain (h : Linked tasks messageChain) (kind : TaskKind) :
    Linked (tasks ++ [⟨kind, messageChain, .queued⟩]) (some tasks.length) := by
  constructor
  · intro i task hi
    rcases lt_or_ge i tasks.length with hlt | hge
    · rw [getElem?_append_left hlt] at hi
      exact h.1 i task hi
    · rw [getElem?_append_right hge] at hi
      obtain rfl : i = tasks.length := by
        by_contra hne
        rw [getElem?_eq_none (by simp; omega)] at hi
        cases hi
      simp only [Nat.sub_self, getElem?_cons_zero, Option.some.injEq] at hi
      rw [← hi]
      exact h.2
  · rw [length_append]
    rfl

theorem Linked.modify (h : Linked tasks messageChain)
    (state : TaskState) : Linked (tasks.modify i fun task => { task with state }) messageChain := by
  constructor
  · intro k task hk
    rw [getElem?_modify] at hk
    obtain ⟨t, ht, rfl⟩ := Option.map_eq_some_iff.mp hk
    have hprevious := h.1 k t ht
    by_cases hik : i = k
    · rw [if_pos hik]
      exact hprevious
    · rw [if_neg hik]
      exact hprevious
  · rw [length_modify]
    exact h.2

end

/-! ## The counts -/

namespace InboundSession

variable {μ : Type} {limits : InboundQueueLimits} {s s' : InboundSession μ} {i n : ℕ}
variable {done later : List ChainTask} {task : ChainTask}

def pending (s : InboundSession μ) : List ℕ := s.dispatching ++ s.waiting

/-- What an open session keeps. -/
structure Counted (limits : InboundQueueLimits) (s : InboundSession μ) : Prop where
  generation : ∀ a ∈ s.admissions, a.generation = s.accountingGeneration
  unreleased : ∀ n ∈ s.pending, ∃ a, s.admissions[n]? = some a ∧ a.released = false
  messages : s.pendingMessages = s.pending.length
  bytes : s.pendingBytes = (s.pending.map s.bytesOf).sum
  messagesBounded : s.pendingMessages ≤ limits.maxMessages
  bytesBounded : s.pendingBytes ≤ limits.maxBytes
  complete : s.dispatched ++ s.waiting = s.arrived
  begun : ∀ n ∈ s.dispatching, n ∈ s.dispatched
  queue : s.pendingMessageHandler = false → s.messageQueue = []
  resolved : s.dispatching ≠ [] → s.pendingMessageHandler = false
  resolving : s.pendingMessageHandler = true → s.resolver ≠ .over ∨
    ∃ task ∈ s.tasks, task.kind = .drain ∧ task.state = .queued

/-- What a closed session keeps. -/
structure Abandoned (s : InboundSession μ) : Prop where
  generation : ∀ a ∈ s.admissions, a.generation < s.accountingGeneration
  messages : s.pendingMessages = 0
  bytes : s.pendingBytes = 0
  inOrder : s.dispatched <+: s.arrived

/-- What every session keeps. -/
structure Kept (limits : InboundQueueLimits) (s : InboundSession μ) : Prop where
  inOrder : InOrder s.tasks
  linked : Linked s.tasks s.messageChain
  counted : s.inboundClosed = false → s.Counted limits
  abandoned : s.inboundClosed = true → s.Abandoned

theorem arrived_nodup : s.arrived.Nodup := nodup_range.filter _

theorem Counted.not_waiting (hc : s.Counted limits) (hn : n ∈ s.dispatched) : n ∉ s.waiting := by
  have hnodup := arrived_nodup (s := s)
  rw [← hc.complete] at hnodup
  exact fun hwaiting => (nodup_append.mp hnodup).2.2 n hn n hwaiting rfl

theorem arrived_congr (h : s'.admissions.map (·.message.isSome) =
    s.admissions.map (·.message.isSome)) : s'.arrived = s.arrived := by
  have hlength : s'.admissions.length = s.admissions.length := by
    simpa using congrArg List.length h
  have hat : ∀ n : ℕ, (s'.admissions[n]?).any (fun a => a.message.isSome) =
      (s.admissions[n]?).any (fun a => a.message.isSome) := by
    intro n
    have hn := congrArg (·[n]?) h
    simp only [getElem?_map] at hn
    cases h' : s'.admissions[n]? <;> cases h : s.admissions[n]? <;> simp_all
  rw [arrived, hlength]
  exact filter_congr fun n _ => hat n

theorem Counted.move (hc : s.Counted limits) (hadmissions : s'.admissions = s.admissions)
    (hgeneration : s'.accountingGeneration = s.accountingGeneration)
    (hmessages : s'.pendingMessages = s.pendingMessages)
    (hbytes : s'.pendingBytes = s.pendingBytes) (hpending : s'.pending = s.pending)
    (horder : s'.dispatched ++ s'.waiting = s.dispatched ++ s.waiting)
    (hbegun : ∀ n ∈ s'.dispatching, n ∈ s'.dispatched)
    (hqueue : s'.pendingMessageHandler = false → s'.messageQueue = [])
    (hresolved : s'.dispatching ≠ [] → s'.pendingMessageHandler = false)
    (hresolving : s'.pendingMessageHandler = true → s'.resolver ≠ .over ∨
      ∃ task ∈ s'.tasks, task.kind = .drain ∧ task.state = .queued) : s'.Counted limits where
  generation := by rw [hadmissions, hgeneration]; exact hc.generation
  unreleased := by rw [hadmissions, hpending]; exact hc.unreleased
  messages := by rw [hmessages, hpending]; exact hc.messages
  bytes := by
    have hbytesOf : s'.bytesOf = s.bytesOf := funext fun n => by rw [bytesOf, bytesOf, hadmissions]
    rw [hbytes, hpending, hbytesOf]
    exact hc.bytes
  messagesBounded := by rw [hmessages]; exact hc.messagesBounded
  bytesBounded := by rw [hbytes]; exact hc.bytesBounded
  complete := by
    rw [horder, hc.complete]
    exact (arrived_congr (by rw [hadmissions])).symm
  begun := hbegun
  queue := hqueue
  resolved := hresolved
  resolving := hresolving

theorem Counted.release (hc : s.Counted limits) (hn : s.dispatching = [n])
    (hadmissions : s'.admissions = (s.releaseInboundAdmission n).admissions)
    (hgeneration : s'.accountingGeneration = s.accountingGeneration)
    (hmessages : s'.pendingMessages = (s.releaseInboundAdmission n).pendingMessages)
    (hbytes : s'.pendingBytes = (s.releaseInboundAdmission n).pendingBytes)
    (hpending : s'.pending = s.waiting)
    (horder : s'.dispatched ++ s'.waiting = s.dispatched ++ s.waiting)
    (hbegun : ∀ n ∈ s'.dispatching, n ∈ s'.dispatched)
    (hqueue : s'.pendingMessageHandler = false → s'.messageQueue = [])
    (hresolved : s'.dispatching ≠ [] → s'.pendingMessageHandler = false)
    (hresolving : s'.pendingMessageHandler = true → s'.resolver ≠ .over ∨
      ∃ task ∈ s'.tasks, task.kind = .drain ∧ task.state = .queued) : s'.Counted limits := by
  have hmem : n ∈ s.dispatching := hn ▸ mem_singleton_self n
  obtain ⟨a, ha, hreleased⟩ := hc.unreleased n (mem_append_left _ hmem)
  have hgen := hc.generation a (mem_of_getElem? ha)
  have hrelease : s.releaseInboundAdmission n = { s with
      admissions := s.admissions.set n { a with released := true }
      pendingMessages := s.pendingMessages - 1
      pendingBytes := s.pendingBytes - a.byteLength } := by
    simp [releaseInboundAdmission, ha, hreleased, hgen]
  rw [hrelease] at hadmissions hmessages hbytes
  have hnot := hc.not_waiting (hc.begun n hmem)
  have hpend : s.pending = n :: s.waiting := by rw [pending, hn]; rfl
  have hbytesOf : s'.bytesOf = s.bytesOf := by
    funext k
    rw [bytesOf, bytesOf, hadmissions]
    by_cases hk : n = k
    · subst hk
      rw [List.getElem?_set_self (List.getElem?_eq_some_iff.mp ha).1, ha]
      rfl
    · rw [getElem?_set_ne hk]
  have hm : s'.pendingMessages = s.pendingMessages - 1 := hmessages
  have hb : s'.pendingBytes = s.pendingBytes - a.byteLength := hbytes
  refine ⟨?_, ?_, ?_, ?_, ?_, ?_, ?_, hbegun, hqueue, hresolved, hresolving⟩
  · rw [hadmissions, hgeneration]
    intro b hb
    rcases mem_or_eq_of_mem_set hb with hold | rfl
    · exact hc.generation b hold
    · exact hgen
  · rw [hadmissions, hpending]
    intro k hk
    have hne : n ≠ k := fun heq => hnot (heq ▸ hk)
    rw [getElem?_set_ne hne]
    exact hc.unreleased k (mem_append_right _ hk)
  · rw [hm, hc.messages, hpending, hpend]
    push_cast [length_cons]
    omega
  · rw [hb, hc.bytes, hpending, hpend, hbytesOf, map_cons, sum_cons]
    have hlength : s.bytesOf n = a.byteLength := by rw [bytesOf, ha]; rfl
    omega
  · have := hc.messagesBounded
    omega
  · have := hc.bytesBounded
    omega
  · rw [horder, hc.complete]
    refine (arrived_congr ?_).symm
    rw [hadmissions, map_set]
    refine ext_getElem? fun k => ?_
    by_cases hk : n = k
    · subst hk
      rw [List.getElem?_set_self (by simpa using (List.getElem?_eq_some_iff.mp ha).1),
        getElem?_map, ha]
      rfl
    · rw [getElem?_set_ne hk]

/-! ### Where the messages are -/

section
variable (h : Turn s.tasks done task later)
include h

theorem dispatching_eq :
    s.dispatching = task.current.toList := h.current

theorem waiting_eq :
    s.waiting = task.rest ++ (s.messageQueue ++
      (task.queuedWork.toList ++ later.filterMap ChainTask.queuedWork)) := by
  rw [waiting, h.rest, h.queuedWork]

theorem turn_setTask (state : TaskState) :
    Turn (s.setTask done.length state).tasks done { task with state } later := h.modify _

end

section
variable (kind : TaskKind) (previous : Option ℕ)
include kind previous

@[simp] theorem current_queued :
    (ChainTask.mk kind previous .queued).current = none := rfl

@[simp] theorem current_settled :
    (ChainTask.mk kind previous .settled).current = none := rfl

@[simp] theorem current_dispatching (rest : List ℕ) :
    (ChainTask.mk kind previous (.dispatching n rest)).current = some n := rfl

@[simp] theorem rest_queued :
    (ChainTask.mk kind previous .queued).rest = [] := rfl

@[simp] theorem rest_settled :
    (ChainTask.mk kind previous .settled).rest = [] := rfl

@[simp] theorem rest_dispatching (rest : List ℕ) :
    (ChainTask.mk kind previous (.dispatching n rest)).rest = rest := rfl

end

@[simp] theorem queuedWork_work (previous : Option ℕ) :
    (ChainTask.mk (.work n) previous .queued).queuedWork = some n := rfl

@[simp] theorem queuedWork_drain (previous : Option ℕ) (state : TaskState) :
    (ChainTask.mk .drain previous state).queuedWork = none := rfl

@[simp] theorem queuedWork_settled (kind : TaskKind) (previous : Option ℕ) :
    (ChainTask.mk kind previous .settled).queuedWork = none := by cases kind <;> rfl

@[simp] theorem queuedWork_dispatching (kind : TaskKind) (previous : Option ℕ) (rest : List ℕ) :
    (ChainTask.mk kind previous (.dispatching n rest)).queuedWork = none := by cases kind <;> rfl

theorem release_frame (s : InboundSession μ) (n : ℕ) : ∃ admissions pendingMessages pendingBytes,
    s.releaseInboundAdmission n = { s with admissions, pendingMessages, pendingBytes } := by
  unfold releaseInboundAdmission
  split
  · exact ⟨_, _, _, rfl⟩
  · split
    · exact ⟨_, _, _, rfl⟩
    · dsimp only
      split
      · exact ⟨_, _, _, rfl⟩
      · exact ⟨_, _, _, rfl⟩

theorem Abandoned.release (ha : s.Abandoned) (n : ℕ) :
    (s.releaseInboundAdmission n).Abandoned := by
  unfold releaseInboundAdmission
  split
  · exact ha
  next a hat =>
    split
    · exact ha
    · have hlt := ha.generation a (mem_of_getElem? hat)
      rw [if_pos hlt.ne]
      refine ⟨?_, ha.messages, ha.bytes, ?_⟩
      · intro b hb
        rcases mem_or_eq_of_mem_set hb with hold | rfl
        · exact ha.generation b hold
        · exact hlt
      · have harrived : ({ s with admissions := s.admissions.set n { a with released := true } } :
            InboundSession μ).arrived = s.arrived := by
          refine arrived_congr ?_
          rw [map_set]
          refine ext_getElem? fun k => ?_
          by_cases hk : n = k
          · subst hk
            rw [List.getElem?_set_self (by simpa using (List.getElem?_eq_some_iff.mp hat).1),
              getElem?_map, hat]
            rfl
          · rw [getElem?_set_ne hk]
        rw [harrived]
        exact ha.inOrder

theorem flush_closed (rest : List ℕ) : ∀ {s : InboundSession μ}, s.inboundClosed = true →
    s.Abandoned → (s.flushQueuedMessages i rest).Abandoned ∧
      (s.flushQueuedMessages i rest).inboundClosed = true ∧
      (s.flushQueuedMessages i rest).tasks = (s.setTask i .settled).tasks ∧
      (s.flushQueuedMessages i rest).messageChain = s.messageChain := by
  induction rest with
  | nil => exact fun hclosed ha => ⟨⟨ha.generation, ha.messages, ha.bytes, ha.inOrder⟩, hclosed, rfl, rfl⟩
  | cons n rest ih =>
    intro s hclosed ha
    obtain ⟨admissions, pendingMessages, pendingBytes, hrelease⟩ := release_frame s n
    have hrest := ih (s := s.releaseInboundAdmission n) (by rw [hrelease]; exact hclosed)
      (ha.release n)
    rw [flushQueuedMessages, if_pos hclosed]
    refine ⟨hrest.1, hrest.2.1, ?_, ?_⟩
    · rw [hrest.2.2.1, hrelease]
      rfl
    · rw [hrest.2.2.2, hrelease]

/-- What a flush leaves as it is. -/
structure SameBooks (s s' : InboundSession μ) : Prop where
  admissions : s'.admissions = s.admissions
  generation : s'.accountingGeneration = s.accountingGeneration
  messages : s'.pendingMessages = s.pendingMessages
  bytes : s'.pendingBytes = s.pendingBytes
  closed : s'.inboundClosed = s.inboundClosed
  pendingMessageHandler : s'.pendingMessageHandler = s.pendingMessageHandler
  queue : s'.messageQueue = s.messageQueue
  chain : s'.messageChain = s.messageChain

theorem flush_open (hopen : s.inboundClosed = false) (h : Turn s.tasks done task later)
    (rest : List ℕ) : ∃ s', s.flushQueuedMessages done.length rest = s' ∧ SameBooks s s' ∧
      InOrder s'.tasks ∧ (Linked s.tasks s.messageChain → Linked s'.tasks s'.messageChain) ∧
      s'.pending = rest ++ (s.messageQueue ++ later.filterMap ChainTask.queuedWork) ∧
      s'.dispatched ++ s'.waiting =
        s.dispatched ++ (rest ++ (s.messageQueue ++ later.filterMap ChainTask.queuedWork)) ∧
      ∀ n ∈ s'.dispatching, n ∈ s'.dispatched := by
  cases rest with
  | nil =>
    have hturn := turn_setTask h .settled
    have hdispatching : (s.setTask done.length .settled).dispatching = [] := dispatching_eq hturn
    have hwaiting := waiting_eq hturn
    rw [queuedWork_settled] at hwaiting
    refine ⟨_, rfl, ⟨rfl, rfl, rfl, rfl, rfl, rfl, rfl, rfl⟩, hturn.inOrder,
      fun hlinked => hlinked.modify _, ?_, ?_, ?_⟩
    · show _ ++ _ = _
      rw [flushQueuedMessages, hdispatching, hwaiting]
      rfl
    · rw [flushQueuedMessages, hwaiting]
      rfl
    · rw [flushQueuedMessages, hdispatching]
      nofun
  | cons n rest =>
    have hturn := turn_setTask (s := { s with dispatched := s.dispatched ++ [n] }) h
      (.dispatching n rest)
    have hflush : s.flushQueuedMessages done.length (n :: rest) =
        { s with dispatched := s.dispatched ++ [n] }.setTask done.length (.dispatching n rest) := by
      rw [flushQueuedMessages, hopen]
      rfl
    have hdispatching : ({ s with dispatched := s.dispatched ++ [n] }.setTask done.length
        (.dispatching n rest)).dispatching = [n] := dispatching_eq hturn
    have hwaiting := waiting_eq hturn
    rw [queuedWork_dispatching] at hwaiting
    refine ⟨_, hflush, ⟨rfl, rfl, rfl, rfl, rfl, rfl, rfl, rfl⟩, hturn.inOrder,
      fun hlinked => hlinked.modify _, ?_, ?_, ?_⟩
    · show _ ++ _ = _
      rw [hdispatching, hwaiting]
      rfl
    · rw [hwaiting]
      exact append_assoc _ [n] _
    · rw [hdispatching]
      exact fun m hm => mem_append_right _ hm

/-! ## Steps -/

theorem kept_init (messageHandlerPromise : Bool) :
    (init messageHandlerPromise : InboundSession μ).Kept limits where
  inOrder := .inl nofun
  linked := ⟨nofun, rfl⟩
  counted := by
    rintro -
    refine ⟨nofun, nofun, rfl, rfl, Int.natCast_nonneg _, Int.natCast_nonneg _, rfl, nofun,
      fun _ => rfl, fun hne => absurd rfl hne, ?_⟩
    rintro hpending
    left
    obtain rfl : messageHandlerPromise = true := hpending
    nofun
  abandoned := nofun

theorem Kept.abandon (hk : s.Kept limits) : s.abandonInboundMessages.Kept limits where
  __ := hk
  counted := nofun
  abandoned := by
    rintro -
    cases hclosed : s.inboundClosed with
    | false =>
      have hc := hk.counted hclosed
      refine ⟨fun a ha => ?_, rfl, rfl, ⟨s.waiting, hc.complete⟩⟩
      rw [hc.generation a ha]
      exact Nat.lt_succ_self _
    | true =>
      have ha := hk.abandoned hclosed
      exact ⟨fun a h => (ha.generation a h).trans (Nat.lt_succ_self _), rfl, rfl, ha.inOrder⟩

theorem waiting_chain (kind : TaskKind) : (s.chain kind).waiting =
    s.waiting ++ (ChainTask.mk kind s.messageChain .queued).queuedWork.toList := by
  simp only [waiting, chain, filterMap_append, filterMap_cons]
  cases (ChainTask.mk kind s.messageChain .queued).queuedWork <;> simp

theorem dispatching_chain (kind : TaskKind) : (s.chain kind).dispatching = s.dispatching := by
  simp [dispatching, chain]

theorem Kept.resolved (hk : s.Kept limits) :
    ({ s with resolver := .over }.chain .drain).Kept limits where
  inOrder := hk.inOrder.chain
  linked := hk.linked.chain _
  counted := by
    intro hopen
    have hc := hk.counted hopen
    have hwaiting : ({ s with resolver := .over }.chain .drain).waiting = s.waiting :=
      (waiting_chain .drain).trans (append_nil _)
    have hdispatching : ({ s with resolver := .over }.chain .drain).dispatching = s.dispatching :=
      dispatching_chain .drain
    refine hc.move rfl rfl rfl rfl ?_ ?_ ?_ hc.queue ?_ ?_
    · rw [pending, hwaiting, hdispatching, pending]
    · rw [hwaiting]
      rfl
    · rw [hdispatching]
      exact hc.begun
    · rw [hdispatching]
      exact hc.resolved
    · rintro -
      exact .inr ⟨_, mem_append_right _ (mem_singleton_self _), rfl, rfl⟩
  abandoned := by
    intro hclosed
    have ha := hk.abandoned hclosed
    exact ⟨ha.generation, ha.messages, ha.bytes, ha.inOrder⟩

theorem arrived_append (a : InboundMessageAdmission μ) :
    ({ s with admissions := s.admissions ++ [a] } : InboundSession μ).arrived =
      s.arrived ++ if a.message.isSome then [s.admissions.length] else [] := by
  rw [arrived, length_append, length_singleton, range_succ, filter_append,
    filter_singleton]
  congr 1
  · refine filter_congr fun n hn => ?_
    rw [getElem?_append_left (mem_range.mp hn)]
  · simp

theorem Counted.refuse (hc : s.Counted limits) (byteLength : ℕ) :
    ∃ admissions, ({ s with
        pendingMessages := s.pendingMessages + 1
        pendingBytes := s.pendingBytes + byteLength
        admissions := s.admissions ++ [⟨byteLength, s.accountingGeneration, false, none⟩] } :
        InboundSession μ).releaseInboundAdmission s.admissions.length = { s with admissions } ∧
      ({ s with admissions } : InboundSession μ).Counted limits := by
  refine ⟨s.admissions ++ [⟨byteLength, s.accountingGeneration, true, none⟩], ?_, ?_⟩
  · simp only [releaseInboundAdmission]
    simp
  · have hlt : ∀ n ∈ s.pending, n < s.admissions.length := by
      intro n hn
      obtain ⟨a, ha, -⟩ := hc.unreleased n hn
      exact (List.getElem?_eq_some_iff.mp ha).1
    refine ⟨?_, ?_, hc.messages, ?_, hc.messagesBounded, hc.bytesBounded, ?_, hc.begun, hc.queue,
      hc.resolved, hc.resolving⟩
    · intro a ha
      rcases mem_append.mp ha with hold | hnew
      · exact hc.generation a hold
      · rw [mem_singleton.mp hnew]
    · intro n hn
      obtain ⟨a, ha, hreleased⟩ := hc.unreleased n hn
      refine ⟨a, ?_, hreleased⟩
      rw [getElem?_append_left (hlt n hn)]
      exact ha
    · show s.pendingBytes = ((s.pending.map _).sum : ℕ)
      rw [hc.bytes]
      refine congrArg (fun l : List ℕ => ((l.sum : ℕ) : ℤ)) (map_congr_left fun n hn => ?_)
      show s.bytesOf n = ((s.admissions ++ [_])[n]?.map _).getD 0
      rw [getElem?_append_left (hlt n hn)]
      rfl
    · rw [arrived_append]
      exact hc.complete.trans (append_nil _).symm

theorem Counted.accept (hc : s.Counted limits) {byteLength : ℕ} {message : μ}
    (hmessages : s.pendingMessages + 1 ≤ limits.maxMessages)
    (hbytes : s.pendingBytes + byteLength ≤ limits.maxBytes) :
    (({ s with
      pendingMessages := s.pendingMessages + 1
      pendingBytes := s.pendingBytes + byteLength
      admissions := s.admissions ++ [⟨byteLength, s.accountingGeneration, false, some message⟩] } :
      InboundSession μ).chain (.work s.admissions.length)).Counted limits := by
  set s₁ : InboundSession μ := { s with
    pendingMessages := s.pendingMessages + 1
    pendingBytes := s.pendingBytes + byteLength
    admissions := s.admissions ++ [⟨byteLength, s.accountingGeneration, false, some message⟩] }
    with hs₁
  have hwaiting : (s₁.chain (.work s.admissions.length)).waiting =
      s.waiting ++ [s.admissions.length] := waiting_chain _
  have hdispatching : (s₁.chain (.work s.admissions.length)).dispatching = s.dispatching :=
    dispatching_chain _
  have hpending : (s₁.chain (.work s.admissions.length)).pending =
      s.pending ++ [s.admissions.length] := by
    rw [pending, hwaiting, hdispatching, pending, append_assoc]
  have hlt : ∀ n ∈ s.pending, n < s.admissions.length := by
    intro n hn
    obtain ⟨a, ha, -⟩ := hc.unreleased n hn
    exact (List.getElem?_eq_some_iff.mp ha).1
  have hnew : (s₁.chain (.work s.admissions.length)).bytesOf s.admissions.length = byteLength := by
    show ((s₁.admissions[s.admissions.length]?).map _).getD 0 = _
    simp [hs₁]
  refine ⟨?_, ?_, ?_, ?_, hmessages, hbytes, ?_, ?_, hc.queue, ?_, ?_⟩
  · intro a ha
    rcases mem_append.mp ha with hold | hlast
    · exact hc.generation a hold
    · rw [mem_singleton.mp hlast]
      rfl
  · rw [hpending]
    intro n hn
    rcases mem_append.mp hn with hold | hlast
    · obtain ⟨a, ha, hreleased⟩ := hc.unreleased n hold
      refine ⟨a, ?_, hreleased⟩
      show (s.admissions ++ [_])[n]? = _
      rw [getElem?_append_left (hlt n hold)]
      exact ha
    · rw [mem_singleton.mp hlast]
      refine ⟨⟨byteLength, s.accountingGeneration, false, some message⟩, ?_, rfl⟩
      show (s.admissions ++ [_])[s.admissions.length]? = _
      simp
  · rw [hpending, length_append]
    show s.pendingMessages + 1 = _
    rw [hc.messages]
    rfl
  · rw [hpending, map_append, sum_append, map_singleton, hnew, sum_singleton]
    have hsame : s.pending.map (s₁.chain (.work s.admissions.length)).bytesOf =
        s.pending.map s.bytesOf := map_congr_left fun n hn => by
      show ((s.admissions ++ [_])[n]?.map _).getD 0 = _
      rw [getElem?_append_left (hlt n hn)]
      rfl
    show s.pendingBytes + byteLength = _
    rw [hsame, hc.bytes, Nat.cast_add]
  · rw [hwaiting, ← append_assoc]
    show s.dispatched ++ s.waiting ++ _ = s₁.arrived
    rw [hc.complete]
    exact (arrived_append (s := s) ⟨byteLength, s.accountingGeneration, false, some message⟩).symm
  · rw [hdispatching]
    exact hc.begun
  · rw [hdispatching]
    exact hc.resolved
  · intro hpendingHandler
    refine (hc.resolving hpendingHandler).imp_right ?_
    rintro ⟨task, htask, hdrain⟩
    exact ⟨task, mem_append_left _ htask, hdrain⟩

theorem Kept.receive (hk : s.Kept limits) (byteLength : ℕ) (message : Option μ) :
    (s.receive limits byteLength message).Kept limits := by
  rw [InboundSession.receive, admitInboundMessage]
  split
  next s' heq =>
    split at heq
    · obtain ⟨rfl, -⟩ := Prod.mk.inj heq
      exact hk
    split at heq
    · obtain ⟨rfl, -⟩ := Prod.mk.inj heq
      rw [closeForInboundBacklog]
      split
      · exact hk
      · have hmarked : ({ s with inboundBacklogOverloaded := true } : InboundSession μ).Kept
            limits := by
          refine ⟨hk.inOrder, hk.linked, fun hopen => ?_, fun hclosed => ?_⟩
          · exact (hk.counted hopen).move rfl rfl rfl rfl rfl rfl (hk.counted hopen).begun
              (hk.counted hopen).queue (hk.counted hopen).resolved (hk.counted hopen).resolving
          · have ha := hk.abandoned hclosed
            exact ⟨ha.generation, ha.messages, ha.bytes, ha.inOrder⟩
        exact hmarked.abandon
    · cases (Prod.mk.inj heq).2
  next s' n heq =>
    split at heq
    · cases (Prod.mk.inj heq).2
    next hopen =>
      rw [Bool.not_eq_true] at hopen
      have hc := hk.counted hopen
      split at heq
      · cases (Prod.mk.inj heq).2
      next hroom =>
        obtain ⟨rfl, hn⟩ := Prod.mk.inj heq
        cases hn
        obtain ⟨hmessages, hbytes⟩ := not_or.mp hroom
        cases message with
        | none =>
          obtain ⟨admissions, hrefused, hcounted⟩ := hc.refuse byteLength
          rw [hrefused]
          refine ⟨hk.inOrder, hk.linked, fun _ => hcounted, fun hclosed => ?_⟩
          rw [hopen] at hclosed
          cases hclosed
        | some message =>
          refine ⟨hk.inOrder.chain, hk.linked.chain _,
            fun _ => hc.accept (not_lt.mp hmessages) (not_lt.mp hbytes), fun hclosed => ?_⟩
          rw [show s.inboundClosed = true from hclosed] at hopen
          cases hopen

theorem Kept.settle (hk : s.Kept limits) (hturn : Turn s.tasks done task later)
    (hclosed : s'.inboundClosed = true) (ha : s'.Abandoned)
    (htasks : s'.tasks = (s.setTask done.length .settled).tasks)
    (hchain : s'.messageChain = s.messageChain) : s'.Kept limits where
  inOrder := by
    rw [htasks]
    exact (turn_setTask hturn .settled).inOrder
  linked := by
    rw [htasks, hchain]
    exact hk.linked.modify _
  counted := by
    intro hopen
    rw [hclosed] at hopen
    cases hopen
  abandoned := fun _ => ha

variable {previous : Option ℕ}

section
variable (hk : s.Kept limits)
include hk

theorem Kept.runMessageWork (hturn : Turn s.tasks done ⟨.work n, previous, .queued⟩ later) :
    (s.runMessageWork done.length n).Kept limits := by
  have hdispatching : s.dispatching = [] := dispatching_eq hturn
  have hwaiting : s.waiting =
      s.messageQueue ++ (n :: later.filterMap ChainTask.queuedWork) := waiting_eq hturn
  rw [InboundSession.runMessageWork]
  split
  next hclosed =>
    have hrelease := (hk.abandoned hclosed).release n
    obtain ⟨admissions, pendingMessages, pendingBytes, hframe⟩ := release_frame s n
    refine hk.settle hturn ?_ ⟨hrelease.generation, hrelease.messages, hrelease.bytes,
      hrelease.inOrder⟩ ?_ ?_
    · rw [hframe]
      exact hclosed
    · rw [hframe]
      rfl
    · rw [hframe]
      rfl
  next hopen =>
    rw [Bool.not_eq_true] at hopen
    have hc := hk.counted hopen
    have hclosed : ∀ {s' : InboundSession μ}, s'.inboundClosed = s.inboundClosed →
        s'.inboundClosed = true → s'.Abandoned := by
      intro s' hsame hclosed
      rw [hsame, hopen] at hclosed
      cases hclosed
    split
    next hpending =>
      have hturn' := turn_setTask (s := { s with messageQueue := s.messageQueue ++ [n] }) hturn
        .settled
      have hdispatching' : ({ s with messageQueue := s.messageQueue ++ [n] }.setTask done.length
          .settled).dispatching = [] := dispatching_eq hturn'
      have hwaiting' : ({ s with messageQueue := s.messageQueue ++ [n] }.setTask done.length
          .settled).waiting = s.waiting := by
        rw [waiting_eq hturn', hwaiting]
        simp [setTask]
      refine ⟨hturn'.inOrder, hk.linked.modify _, fun _ => ?_, hclosed rfl⟩
      refine hc.move rfl rfl rfl rfl ?_ ?_ ?_ ?_ ?_ ?_
      · rw [pending, hdispatching', hwaiting', pending, hdispatching]
      · rw [hwaiting']
        rfl
      · rw [hdispatching']
        nofun
      · intro hdone
        rw [show s.pendingMessageHandler = false from hdone] at hpending
        cases hpending
      · rw [hdispatching']
        exact fun hne => absurd rfl hne
      · intro _
        refine (hc.resolving hpending).imp_right ?_
        rintro ⟨task, htask, hdrain, hqueued⟩
        refine ⟨task, ?_, hdrain, hqueued⟩
        rw [hturn'.eq]
        rw [hturn.eq] at htask
        rcases mem_append.mp htask with hdone | htask
        · exact mem_append_left _ hdone
        rcases mem_cons.mp htask with rfl | hlater
        · cases hdrain
        · exact mem_append_right _ (mem_cons_of_mem _ hlater)
    next hpending =>
      rw [Bool.not_eq_true] at hpending
      have hqueue := hc.queue hpending
      have hturn' := turn_setTask (s := { s with dispatched := s.dispatched ++ [n] }) hturn
        (.dispatching n [])
      have hdispatching' : ({ s with dispatched := s.dispatched ++ [n] }.setTask done.length
          (.dispatching n [])).dispatching = [n] := dispatching_eq hturn'
      have hwaiting' : ({ s with dispatched := s.dispatched ++ [n] }.setTask done.length
          (.dispatching n [])).waiting = later.filterMap ChainTask.queuedWork := by
        rw [waiting_eq hturn']
        show [] ++ (s.messageQueue ++ ([] ++ _)) = _
        rw [hqueue]
        rfl
      rw [hqueue] at hwaiting
      refine ⟨hturn'.inOrder, hk.linked.modify _, fun _ => ?_, hclosed rfl⟩
      refine hc.move rfl rfl rfl rfl ?_ ?_ ?_ hc.queue (fun _ => hpending) ?_
      · rw [pending, hdispatching', hwaiting', pending, hdispatching, hwaiting]
        rfl
      · rw [hwaiting', hwaiting]
        exact append_assoc _ [n] _
      · rw [hdispatching']
        exact fun m hm => mem_append_right _ hm
      · intro hresolving
        rw [show s.pendingMessageHandler = true from hresolving] at hpending
        cases hpending

theorem Kept.drain (hturn : Turn s.tasks done ⟨.drain, previous, .queued⟩ later) :
    (s.drain done.length).Kept limits := by
  have hdispatching : s.dispatching = [] := dispatching_eq hturn
  have hwaiting : s.waiting =
      s.messageQueue ++ later.filterMap ChainTask.queuedWork := waiting_eq hturn
  cases hclosed : s.inboundClosed with
  | true =>
    have ha := hk.abandoned hclosed
    have hdrain : s.drain done.length = { s with
        pendingMessageHandler := false, messageQueue := [] }.setTask done.length .settled := by
      exact if_pos hclosed
    rw [hdrain]
    exact hk.settle hturn hclosed ⟨ha.generation, ha.messages, ha.bytes, ha.inOrder⟩ rfl rfl
  | false =>
    have hc := hk.counted hclosed
    have hdrain : s.drain done.length = ({ s with
        pendingMessageHandler := false, messageQueue := [] } : InboundSession μ).flushQueuedMessages
          done.length s.messageQueue := by
      exact if_neg (by rw [hclosed]; exact Bool.false_ne_true)
    obtain ⟨s', hs', hbooks, horder, hlinked, hpending, hdispatched, hbegun⟩ :=
      flush_open (s := { s with pendingMessageHandler := false, messageQueue := [] }) hclosed hturn
        s.messageQueue
    rw [hdrain, hs']
    refine ⟨horder, hlinked hk.linked, fun _ => ?_, fun hclosed' => ?_⟩
    · refine hc.move hbooks.admissions hbooks.generation hbooks.messages hbooks.bytes ?_ ?_ hbegun
        (fun _ => hbooks.queue) (fun _ => hbooks.pendingMessageHandler) ?_
      · rw [hpending, pending, hdispatching, hwaiting]
        rfl
      · rw [hdispatched, hwaiting]
        rfl
      · intro htrue
        rw [hbooks.pendingMessageHandler] at htrue
        cases htrue
    · rw [hbooks.closed] at hclosed'
      rw [show s.inboundClosed = true from hclosed'] at hclosed
      cases hclosed

theorem Kept.finish {kind : TaskKind} {rest : List ℕ}
    (hturn : Turn s.tasks done ⟨kind, previous, .dispatching n rest⟩ later) :
    ((s.releaseInboundAdmission n).flushQueuedMessages done.length rest).Kept limits := by
  obtain ⟨admissions, pendingMessages, pendingBytes, hframe⟩ := release_frame s n
  cases hclosed : s.inboundClosed with
  | true =>
    have hrelease := (hk.abandoned hclosed).release n
    obtain ⟨ha, hclosed', htasks, hchain⟩ := flush_closed (i := done.length) rest
      (by rw [hframe]; exact hclosed) hrelease
    refine hk.settle hturn hclosed' ha ?_ ?_
    · rw [htasks, hframe]
      rfl
    · rw [hchain, hframe]
  | false =>
    have hc := hk.counted hclosed
    have hdispatching : s.dispatching = [n] := dispatching_eq hturn
    have hpendingHandler := hc.resolved (by rw [hdispatching]; exact cons_ne_nil _ _)
    have hwaiting : s.waiting =
        rest ++ (s.messageQueue ++ later.filterMap ChainTask.queuedWork) := by
      rw [waiting_eq hturn, queuedWork_dispatching]
      rfl
    obtain ⟨s', hs', hbooks, horder, hlinked, hpending, hdispatched, hbegun⟩ :=
      flush_open (s := s.releaseInboundAdmission n) (by rw [hframe]; exact hclosed)
        (by rw [hframe]; exact hturn) rest
    have hqueue : (s.releaseInboundAdmission n).messageQueue = s.messageQueue := by rw [hframe]
    have hhandler : (s.releaseInboundAdmission n).pendingMessageHandler = false := by
      rw [hframe]
      exact hpendingHandler
    rw [hs']
    refine ⟨horder, hlinked ?_, fun _ => ?_, fun hclosed' => ?_⟩
    · rw [hframe]
      exact hk.linked
    · refine hc.release hdispatching hbooks.admissions ?_ hbooks.messages hbooks.bytes ?_ ?_ hbegun
        (fun _ => ?_) (fun _ => hbooks.pendingMessageHandler.trans hhandler) ?_
      · rw [hbooks.generation, hframe]
      · rw [hpending, hqueue, hwaiting]
      · rw [hdispatched, hwaiting, hframe]
      · rw [hbooks.queue, hqueue]
        exact hc.queue hpendingHandler
      · intro htrue
        rw [hbooks.pendingMessageHandler, hhandler] at htrue
        cases htrue
    · rw [hbooks.closed, hframe] at hclosed'
      rw [show s.inboundClosed = true from hclosed'] at hclosed
      cases hclosed

/-- **Each step** keeps the chain in order and the counts. -/
theorem Kept.step {a : InboundAct μ} (h : s.step limits a = some s') :
    s'.Kept limits := by
  cases a with
  | receive byteLength message =>
    cases h
    exact hk.receive byteLength message
  | start i =>
    simp only [InboundSession.step] at h
    split at h
    next kind previous hi =>
      split at h
      next hprevious =>
        obtain ⟨done, later, rfl, hturn⟩ := hk.inOrder.queued hk.linked hi rfl (by
          rintro k rfl
          cases ht : s.tasks[k]? with
          | none =>
            rw [settledAt, ht] at hprevious
            cases hprevious
          | some t =>
            rw [settledAt, ht] at hprevious
            exact ⟨t, rfl, of_decide_eq_true hprevious⟩)
        cases kind with
        | work n =>
          cases h
          exact hk.runMessageWork hturn
        | drain =>
          cases h
          exact hk.drain hturn
      · cases h
    · cases h
  | finish i failed =>
    simp only [InboundSession.step] at h
    split at h
    next kind previous n rest hi =>
      cases h
      obtain ⟨done, later, rfl, hturn⟩ := hk.inOrder.dispatching hi rfl
      exact hk.finish hturn
    · cases h
  | resolve resolution =>
    simp only [InboundSession.step] at h
    split at h
    · split at h
      · cases h
        exact hk.resolved
      · cases h
        exact hk.resolved
      · split at h
        next hclosed =>
          cases h
          have ha := hk.abandoned hclosed
          refine ⟨hk.inOrder, hk.linked, fun hopen => ?_,
            fun _ => ⟨ha.generation, ha.messages, ha.bytes, ha.inOrder⟩⟩
          rw [show s.inboundClosed = false from hopen] at hclosed
          cases hclosed
        next hopen =>
          cases h
          refine ⟨hk.inOrder, hk.linked, fun hopen => ?_, fun hclosed => absurd hclosed hopen⟩
          have hc := hk.counted hopen
          exact hc.move rfl rfl rfl rfl rfl rfl hc.begun hc.queue hc.resolved
            fun _ => .inl (by nofun)
    · cases h
  | opened failed =>
    simp only [InboundSession.step] at h
    split at h
    · cases h
      exact hk.resolved
    · cases h
  | close =>
    cases h
    exact hk.abandon

theorem Kept.oneAtATime : s.dispatching.length ≤ 1 := by
  rcases hk.inOrder with hdone | ⟨done, task, later, hturn, -⟩
  · have hnone : s.dispatching = [] := by
      refine filterMap_eq_nil_iff.mpr fun t ht => ?_
      rw [ChainTask.current, hdone t ht]
    rw [hnone]
    exact Nat.zero_le _
  · rw [dispatching_eq hturn]
    cases task.current <;> simp

theorem Kept.progress (hlive : ∃ task ∈ s.tasks, task.state ≠ .settled) :
    ∃ i, (s.step limits (.start i)).isSome ∨ (s.step limits (.finish i false)).isSome := by
  rcases hk.inOrder with hdone | ⟨done, task, later, hturn, hne⟩
  · obtain ⟨task, htask, hne⟩ := hlive
    exact absurd (hdone task htask) hne
  refine ⟨done.length, ?_⟩
  have hat := hturn.getElem?
  have hprevious := hk.linked.1 _ _ hat
  obtain ⟨kind, previous, state⟩ := task
  cases state with
  | queued =>
    left
    have hsettled : s.settledAt previous = true := by
      rw [show previous = before done.length from hprevious]
      cases hlength : done.length with
      | zero => rfl
      | succ k =>
        have hlt : k < done.length := by omega
        show (s.tasks[k]?).any _ = true
        rw [hturn.eq, getElem?_append_left hlt, getElem?_eq_getElem hlt]
        exact decide_eq_true (hturn.done _ (getElem_mem hlt))
    simp only [InboundSession.step, hat, hsettled]
    cases kind <;> rfl
  | dispatching n rest =>
    right
    simp only [InboundSession.step, hat]
    rfl
  | settled => exact absurd rfl hne

theorem Kept.sound : s.Sound limits := by
  cases hclosed : s.inboundClosed with
  | false =>
    have hc := hk.counted hclosed
    have hunfinished : s.unfinished = s.pending := by
      refine filter_eq_self.mpr fun n hn => ?_
      obtain ⟨a, ha, -⟩ := hc.unreleased n hn
      rw [ha]
      exact decide_eq_true (hc.generation a (mem_of_getElem? ha))
    refine ⟨?_, ?_, ⟨?_, hc.messagesBounded⟩, ⟨?_, hc.bytesBounded⟩, hk.oneAtATime,
      ⟨s.waiting, hc.complete⟩, fun _ => hc.complete, hk.progress, fun _ hover hsettled => ?_⟩
    · rw [hunfinished]
      exact hc.messages
    · rw [hunfinished]
      exact hc.bytes
    · rw [hc.messages]
      exact Int.natCast_nonneg _
    · rw [hc.bytes]
      exact Int.natCast_nonneg _
    · have hhandler : s.pendingMessageHandler = false := by
        by_contra hpending
        rcases hc.resolving (Bool.not_eq_false _ ▸ hpending) with hne | ⟨task, htask, -, hqueued⟩
        · exact hne hover
        · rw [hsettled task htask] at hqueued
          cases hqueued
      have hrest : s.tasks.flatMap ChainTask.rest = [] := by
        refine flatMap_eq_nil_iff.mpr fun t ht => ?_
        rw [ChainTask.rest, hsettled t ht]
      have hwork : s.tasks.filterMap ChainTask.queuedWork = [] := by
        refine filterMap_eq_nil_iff.mpr fun t ht => ?_
        rw [ChainTask.queuedWork]
        split <;> simp_all
      rw [waiting, hrest, hwork, hc.queue hhandler]
      rfl
  | true =>
    have ha := hk.abandoned hclosed
    have hunfinished : s.unfinished = [] := by
      refine filter_eq_nil_iff.mpr fun n _ => ?_
      cases hn : s.admissions[n]? with
      | none => exact Bool.false_ne_true
      | some a =>
        have hlt := ha.generation a (mem_of_getElem? hn)
        simpa using hlt.ne
    have hmessages := ha.messages
    have hbytes := ha.bytes
    refine ⟨?_, ?_, ?_, ?_, hk.oneAtATime, ha.inOrder, fun hopen => ?_, hk.progress,
      fun hopen => ?_⟩
    · rw [hmessages, hunfinished]
      rfl
    · rw [hbytes, hunfinished]
      rfl
    · omega
    · omega
    · rw [hclosed] at hopen
      cases hopen
    · rw [hclosed] at hopen
      cases hopen

end

/-- **Inbound admission** is sound in every state that a session reaches. -/
theorem inbound_admission (limits : InboundQueueLimits) (messageHandlerPromise : Bool)
    {actions : List (InboundAct μ)} {s : InboundSession μ}
    (h : runActions (InboundSession.step limits) (init messageHandlerPromise) actions = some s) :
    s.Sound limits :=
  (runActions_keeps (fun _ _ _ hk h => Kept.step hk h) (kept_init messageHandlerPromise) h).sound

/-- Two messages that arrive while the handler is being resolved, and one that arrives while the
    first one of them is dispatched. -/
def queuedMessages : List (InboundAct String) :=
  [.receive 10 (some "a"), .receive 20 (some "b"), .start 0, .resolve .handler, .opened false,
    .start 1, .start 2, .receive 30 (some "c"), .finish 2 true]

theorem inbound_admission_queued :
    ∃ s, runActions (InboundSession.step ⟨3, 100⟩) (init true) queuedMessages = some s ∧
      s.dispatched = [0, 1] ∧ s.waiting = [2] ∧ s.pendingBytes = 50 ∧ s.Sound ⟨3, 100⟩ := by
  obtain ⟨s, hs⟩ : ∃ s, runActions (InboundSession.step ⟨3, 100⟩) (init true) queuedMessages =
      some s := ⟨_, rfl⟩
  have hsound := inbound_admission ⟨3, 100⟩ true hs
  cases hs
  exact ⟨_, rfl, rfl, rfl, rfl, hsound⟩

end InboundSession

end Velocious.InboundAdmission
