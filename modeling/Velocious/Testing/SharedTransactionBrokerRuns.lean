/-
  Runs of the shared transaction broker: who may use the connection.

  * `Sound` is what is asked of a state: one callback at a time, the holder's alone while a lease is
    held; every other lease was released, with its savepoint released or rolled back; and what was
    received is answered after finitely many steps, or waits for the holder, whose session is open.
  * `Orderly` is the condition on a step. Nothing is serialized with a lease behind its end; a
    session is not lost while its root savepoint is being made; and the call that ends a root
    savepoint does not fail.
  * `Inv.step`: an orderly step keeps the broker in order.
-/
import Velocious.Foundation.Entries
import Velocious.Testing.SharedTransactionBroker

namespace Velocious.SharedTransactionBroker

open Foundation List

/-! ## What is asked of a state -/

/-- Whether the end of a lease is under way. -/
def Lease.ending (lease : Lease) : Bool := lease.operations.any (·.kind.finishes)

/-- What is left to do for an entry of the queue, if its turn comes. -/
def Entry.work (entry : Entry) : ℕ :=
  match entry.stage, entry.kind with
  | .waiting, .operation => 2
  | .running, .operation => 1
  | .waiting, .root _ => 6
  | .running, .root _ => 5
  | .held _, _ => 1

def Operation.work (operation : Operation) : ℕ := if operation.running then 1 else 2

def Lease.work (lease : Lease) : ℕ := (lease.operations.map Operation.work).sum

namespace World

def callbacks (w : World) : List Session :=
  (w.queue.filter fun entry => entry.stage matches .running).map (·.session) ++
    w.leases.flatMap fun lease => (lease.operations.filter (·.running)).map fun _ => lease.session

def work (w : World) : ℕ := (w.queue.map Entry.work).sum + (w.leases.map Lease.work).sum

/-- Nothing that was received can go on. -/
def Quiescent (w : World) : Prop := ∀ a : BrokerAction, a.internal = true → w.step a = none

/-- What is asked of the broker in every state. -/
structure Sound (w : World) : Prop where
  oneAtATime : w.callbacks.length ≤ 1
  holderOnly : ∀ i, w.lease = some i → ∃ lease, w.leases[i]? = some lease ∧
    ∀ session ∈ w.callbacks, session = lease.session
  released : ∀ (i : ℕ) lease, w.leases[i]? = some lease →
    w.lease = some i ∨ lease.released = true ∧ lease.ended = true
  finite : ∀ as w', (∀ a ∈ as, a.internal = true) → runActions step w as = some w' →
    as.length ≤ w.work
  quiescent : w.Quiescent →
    (w.lease = none ∧ ∀ request < w.requests, request ∈ w.settled) ∨
    ∃ lease, w.current = some lease ∧ lease.session ∉ w.closed ∧ lease.operations = [] ∧
      ∀ request < w.requests, request ∈ w.settled ∨ ∃ entry ∈ w.queue.tail, entry.request = request

/-- The condition on a step. -/
def Orderly (w : World) : BrokerAction → Prop
  | .request session r => ∀ i kind lease, w.leaseOperation session r = some (i, kind) →
    w.leases[i]? = some lease → lease.ending = false
  | .disconnect session =>
    (∀ request savePointName rest,
      w.queue = ⟨request, session, .root savePointName, .running⟩ :: rest → w.accepting = false) ∧
    (session ∉ w.sessionCleanup → ∀ lease, w.current = some lease → lease.session = session →
      lease.ending = false)
  | .closeTransport => ∀ lease, w.current = some lease → lease.session ∉ w.closed →
    lease.session ∉ w.sessionCleanup → lease.ending = false
  | .settleOperation i ok => ∀ lease operation rest, w.leases[i]? = some lease →
    lease.operations = operation :: rest → operation.kind.finishes = true → ok = true
  | _ => True

/-- A lease that is over. -/
structure Dead (lease : Lease) : Prop where
  released : lease.released = true
  ended : lease.ended = true
  operations : lease.operations = []

/-- The lease that is held. -/
structure LeaseOk (w : World) (lease : Lease) : Prop where
  released : lease.released = false
  waiting : ∀ operation ∈ lease.operations.tail, operation.running = false
  /-- nothing is behind its end -/
  last : ∀ operation ∈ lease.operations.dropLast, operation.kind.finishes = false
  closed : lease.session ∈ w.closed → lease.ending = true
  cleanup : w.sessionCleanup = [] ∨ w.sessionCleanup = [lease.session] ∧
    ∃ operation ∈ lease.operations, operation.kind = .cleanup

/-- A request was answered, or is still in a queue. -/
def Accounted (w : World) (request : ℕ) : Prop :=
  request ∈ w.settled ∨
    (∃ entry ∈ w.queue, entry.request = request ∧ ∀ i, entry.stage ≠ .held i) ∨
    ∃ lease ∈ w.leases, ∃ operation ∈ lease.operations, operation.request = some request

/-- The invariant of the runs. -/
structure Inv (w : World) : Prop where
  waiting : ∀ entry ∈ w.queue.tail, entry.stage = .waiting
  dead : ∀ (i : ℕ) lease, w.leases[i]? = some lease → w.lease = some i ∨ Dead lease
  holder : ∀ i, w.lease = some i → ∃ lease entry rest, w.leases[i]? = some lease ∧
    w.LeaseOk lease ∧ w.queue = entry :: rest ∧ entry.stage = .held i
  /-- only a lease that was granted is awaited -/
  held : ∀ entry rest i, w.queue = entry :: rest → entry.stage = .held i → i < w.leases.length
  /-- the session of a start that runs is open, or cleaned up after it -/
  starting : ∀ request session savePointName rest,
    w.queue = ⟨request, session, .root savePointName, .running⟩ :: rest → session ∈ w.closed →
      w.accepting = false
  cleanup : w.lease = none → w.sessionCleanup = []
  accounted : ∀ request < w.requests, w.Accounted request

/-! ## Reading the invariant -/

section
variable {w w' : World}

theorem Inv.no_lease (h : w.Inv) {entry : Entry} {rest : List Entry} (hq : w.queue = entry :: rest)
    (hstage : ∀ i, entry.stage ≠ .held i) : w.lease = none := by
  by_contra hne
  obtain ⟨i, hi⟩ := Option.ne_none_iff_exists'.mp hne
  obtain ⟨lease, entry', rest', -, -, hq', hheld⟩ := h.holder i hi
  rw [hq] at hq'
  obtain ⟨rfl, -⟩ := List.cons.inj hq'
  exact hstage i hheld

theorem Inv.all_dead (h : w.Inv) (hnone : w.lease = none) {lease : Lease}
    (hmem : lease ∈ w.leases) : Dead lease := by
  obtain ⟨i, hi⟩ := mem_iff_getElem?.mp hmem
  refine (h.dead i lease hi).resolve_left ?_
  rw [hnone]
  exact nofun

theorem Inv.lease_of_operation (h : w.Inv) {i : ℕ} {lease : Lease}
    (hi : w.leases[i]? = some lease) (hne : lease.operations ≠ []) : w.lease = some i :=
  (h.dead i lease hi).resolve_right fun hdead => hne hdead.operations

theorem leaseOf_eq_some {session : Session} {i : ℕ} :
    w.leaseOf session = some i ↔ w.lease = some i ∧
      ∃ lease, w.leases[i]? = some lease ∧ lease.session = session := by
  unfold leaseOf
  rw [Option.filter_eq_some_iff]
  rw [Option.any_eq_true]
  simp

theorem running_le_one {operations : List Operation}
    (hwaiting : ∀ operation ∈ operations.tail, operation.running = false) :
    (operations.filter (·.running)).length ≤ 1 := by
  cases operations with
  | nil => exact Nat.zero_le _
  | cons operation rest =>
    have hrest : rest.filter (·.running) = [] := by
      rw [filter_eq_nil_iff]
      intro operation hmem
      simp [hwaiting operation hmem]
    rw [filter_cons, hrest]
    split <;> simp

theorem Inv.callbacks_leases (h : w.Inv) {i : ℕ} {lease : Lease} (hlease : w.lease = some i)
    (hi : w.leases[i]? = some lease) :
    (w.leases.flatMap fun lease => (lease.operations.filter (·.running)).map fun _ =>
      lease.session) = (lease.operations.filter (·.running)).map fun _ => lease.session := by
  obtain ⟨hlt, hget⟩ := List.getElem?_eq_some_iff.mp hi
  have hsplit : w.leases = w.leases.take i ++ lease :: w.leases.drop (i + 1) := by
    rw [← hget, ← drop_eq_getElem_cons hlt, take_append_drop]
  have hdead : ∀ {j : ℕ} {lease' : Lease}, j ≠ i → w.leases[j]? = some lease' →
      lease'.operations = [] := by
    intro j lease' hne hj
    refine ((h.dead j lease' hj).resolve_left ?_).operations
    rw [hlease]
    exact fun heq => hne (Option.some.inj heq).symm
  have hbefore : ∀ lease' ∈ w.leases.take i, lease'.operations = [] := by
    intro lease' hmem
    obtain ⟨j, hj⟩ := mem_iff_getElem?.mp hmem
    rw [getElem?_take] at hj
    split at hj
    · next hlt' => exact hdead (Nat.ne_of_lt hlt') hj
    · cases hj
  have hafter : ∀ lease' ∈ w.leases.drop (i + 1), lease'.operations = [] := by
    intro lease' hmem
    obtain ⟨j, hj⟩ := mem_iff_getElem?.mp hmem
    rw [getElem?_drop] at hj
    exact hdead (by omega) hj
  conv_lhs => rw [hsplit]
  rw [flatMap_append, flatMap_cons, flatMap_eq_nil_iff.mpr fun lease' hmem => by
    simp [hbefore lease' hmem], flatMap_eq_nil_iff.mpr fun lease' hmem => by
    simp [hafter lease' hmem]]
  simp

theorem Inv.callbacks_queue (h : w.Inv) :
    (w.queue.filter fun entry => entry.stage matches .running).map (·.session) =
      (w.queue.head?.toList.filter fun entry => entry.stage matches .running).map (·.session) := by
  have hwaiting := h.waiting
  cases hq : w.queue with
  | nil => rfl
  | cons entry rest =>
    rw [hq] at hwaiting
    have hrest : (rest.filter fun entry => entry.stage matches .running) = [] := by
      rw [filter_eq_nil_iff]
      intro entry hmem
      simp [hwaiting entry hmem]
    simp [filter_cons, hrest]

theorem Inv.callbacks_held (h : w.Inv) {i : ℕ} {lease : Lease} (hlease : w.lease = some i)
    (hi : w.leases[i]? = some lease) :
    w.callbacks = (lease.operations.filter (·.running)).map fun _ => lease.session := by
  obtain ⟨lease', entry, rest, -, -, hq, hheld⟩ := h.holder i hlease
  rw [callbacks, h.callbacks_leases hlease hi, h.callbacks_queue, hq]
  simp [hheld]

theorem Inv.callbacks_free (h : w.Inv) (hnone : w.lease = none) : w.callbacks.length ≤ 1 := by
  have hleases : (w.leases.flatMap fun lease => (lease.operations.filter (·.running)).map fun _ =>
      lease.session) = [] := by
    rw [flatMap_eq_nil_iff]
    intro lease hmem
    simp [(h.all_dead hnone hmem).operations]
  rw [callbacks, hleases, h.callbacks_queue, append_nil, length_map]
  refine (length_filter_le _ _).trans ?_
  cases w.queue.head? <;> simp

end

section
variable {w w' : World}

theorem Accounted.mono {request : ℕ} (h : w.Accounted request)
    (hsettled : ∀ r ∈ w.settled, r ∈ w'.settled)
    (hqueue : ∀ entry ∈ w.queue, (∀ i, entry.stage ≠ .held i) → entry.request ∈ w'.settled ∨
      ∃ entry' ∈ w'.queue, entry'.request = entry.request ∧ ∀ i, entry'.stage ≠ .held i)
    (hleases : ∀ (i : ℕ) lease, w.leases[i]? = some lease → ∀ operation ∈ lease.operations,
      (∀ r ∈ operation.request, r ∈ w'.settled) ∨
        ∃ lease', w'.leases[i]? = some lease' ∧
          ∃ operation' ∈ lease'.operations, operation'.request = operation.request) :
    w'.Accounted request := by
  rcases h with hmem | ⟨entry, hmem, rfl, hstage⟩ | ⟨lease, hmem, operation, hop, hrequest⟩
  · exact .inl (hsettled request hmem)
  · exact (hqueue entry hmem hstage).imp id .inl
  · obtain ⟨i, hi⟩ := mem_iff_getElem?.mp hmem
    rcases hleases i lease hi operation hop with hdone | ⟨lease', hi', operation', hop', heq⟩
    · exact .inl (hdone request hrequest)
    · exact .inr (.inr ⟨lease', mem_of_getElem? hi', operation', hop', heq.trans hrequest⟩)

theorem Inv.of_held (h : w.Inv) {i : ℕ} (hlease : w.lease = some i) {lease lease' : Lease}
    (hi : w.leases[i]? = some lease) {f : Lease → Lease} (hf : f lease = lease')
    (hqueue : w'.queue = w.queue) (hlease' : w'.lease = some i)
    (hleases : w'.leases = w.leases.modify i f) (hok : w'.LeaseOk lease')
    (haccounted : ∀ request < w'.requests, w'.Accounted request) : w'.Inv := by
  have hi' : w'.leases[i]? = some lease' := by
    rw [hleases]
    simp [hi, hf]
  obtain ⟨-, entry, rest, -, -, hq, hheld⟩ := h.holder i hlease
  refine ⟨hqueue ▸ h.waiting, fun j lease'' hj => ?_, fun j hj => ?_, fun e r j he hstage => ?_,
    fun request session name r he => ?_, fun hnone => ?_, haccounted⟩
  · by_cases hij : i = j
    · exact .inl (hij ▸ hlease')
    · rw [hleases, getElem?_modify_ne _ _ hij] at hj
      refine .inr ((h.dead j lease'' hj).resolve_left ?_)
      rw [hlease]
      exact fun heq => hij (Option.some.inj heq)
  · rw [hlease'] at hj
    cases hj
    exact ⟨lease', entry, rest, hi', hok, hqueue.trans hq, hheld⟩
  · rw [hleases, length_modify]
    exact h.held e r j (hqueue ▸ he) hstage
  · rw [hqueue, hq] at he
    obtain ⟨rfl, -⟩ := List.cons.inj he
    cases hheld
  · rw [hlease'] at hnone
    cases hnone

theorem accounted_modify {i : ℕ} {lease : Lease} {f : Lease → Lease}
    (hi : w.leases[i]? = some lease) (hleases : w'.leases = w.leases.modify i f)
    (hops : ∀ operation ∈ lease.operations, (∀ r ∈ operation.request, r ∈ w'.settled) ∨
      ∃ operation' ∈ (f lease).operations, operation'.request = operation.request) :
    ∀ (j : ℕ) lease, w.leases[j]? = some lease → ∀ operation ∈ lease.operations,
      (∀ r ∈ operation.request, r ∈ w'.settled) ∨
        ∃ lease', w'.leases[j]? = some lease' ∧
          ∃ operation' ∈ lease'.operations, operation'.request = operation.request := by
  intro j lease'' hj operation hop
  rw [hleases]
  by_cases hij : i = j
  · subst hij
    rw [hi] at hj
    cases hj
    refine (hops operation hop).imp id fun hop' => ⟨f lease, ?_, hop'⟩
    simp [hi]
  · exact .inr ⟨lease'', by simpa [hij] using hj, operation, hop, rfl⟩

theorem Inv.serializeLease (h : w.Inv) {i : ℕ} (hlease : w.lease = some i) {lease : Lease}
    (hi : w.leases[i]? = some lease) (hending : lease.ending = false) {request : Option ℕ}
    {kind : OperationKind} {accepting : Bool} {closed sessionCleanup : List Session} {requests : ℕ}
    (hclosed : lease.session ∈ closed → lease.session ∉ w.closed → kind.finishes = true)
    (hcleanup : sessionCleanup = w.sessionCleanup ∧ kind ≠ .cleanup ∨
      sessionCleanup = [lease.session] ∧ kind = .cleanup)
    (hrequests : ∀ r < requests, r < w.requests ∨ request = some r) :
    ({ w with accepting, closed, sessionCleanup, requests }.serializeLease i request kind).Inv := by
  obtain ⟨lease', entry, rest, hi', hok, hq, hheld⟩ := h.holder i hlease
  rw [hi] at hi'
  cases hi'
  refine h.of_held hlease hi rfl rfl hlease rfl ?_ fun r hr => ?_
  · refine ⟨hok.released, fun operation hmem => ?_, fun operation hmem => ?_, fun hmem => ?_, ?_⟩
    · cases hops : lease.operations with
      | nil => simp [hops] at hmem
      | cons first others =>
        rw [hops] at hmem
        rcases mem_append.mp hmem with hold | hnew
        · exact hok.waiting operation (by rw [hops]; exact hold)
        · obtain rfl := mem_singleton.mp hnew
          rfl
    · rw [dropLast_concat] at hmem
      simpa using any_eq_false.mp hending operation hmem
    · by_cases hbefore : lease.session ∈ w.closed
      · have hended := hok.closed hbefore
        rw [hending] at hended
        cases hended
      · simp [Lease.ending, hclosed hmem hbefore]
    · rcases hcleanup with ⟨rfl, -⟩ | ⟨rfl, rfl⟩
      · refine hok.cleanup.imp id fun ⟨heq, operation, hmem, hkind⟩ => ⟨heq, operation, ?_, hkind⟩
        exact mem_append_left _ hmem
      · exact .inr ⟨rfl, _, mem_append_right _ (mem_singleton_self _), rfl⟩
  · rcases hrequests r hr with hold | rfl
    · refine (h.accounted r hold).mono (fun _ h => h) (fun e he hstage => .inr ⟨e, he, rfl, hstage⟩)
        (accounted_modify hi rfl fun operation hmem => .inr ⟨operation, ?_, rfl⟩)
      exact mem_append_left _ hmem
    · have hlast : ∀ r : Option ℕ, ({ w with accepting, closed, sessionCleanup, requests
          }.serializeLease i r kind).leases[i]? =
          some { lease with operations := lease.operations ++ [⟨r, kind, false⟩] } := fun r => by
        simp [World.serializeLease, modifyLease, hi]
      exact .inr (.inr ⟨_, mem_of_getElem? (hlast (some r)), ⟨some r, kind, false⟩,
        mem_append_right _ (mem_singleton_self _), rfl⟩)

theorem Inv.received (h : w.Inv) {requests : ℕ} {settled : List ℕ}
    (hsettled : ∀ r ∈ w.settled, r ∈ settled)
    (hrequests : ∀ r < requests, r < w.requests ∨ r ∈ settled) :
    { w with requests, settled }.Inv := by
  refine ⟨h.waiting, h.dead, fun i hi => ?_, h.held, h.starting, h.cleanup, fun r hr => ?_⟩
  · obtain ⟨lease, entry, rest, hlease, hok, hq⟩ := h.holder i hi
    exact ⟨lease, entry, rest, hlease, ⟨hok.released, hok.waiting, hok.last, hok.closed, hok.cleanup⟩,
      hq⟩
  · rcases hrequests r hr with hold | hnew
    · exact (h.accounted r hold).mono hsettled (fun e he hstage => .inr ⟨e, he, rfl, hstage⟩)
        fun i lease hi operation hmem => .inr ⟨lease, hi, operation, hmem, rfl⟩
    · exact .inl hnew

theorem Inv.enqueue (h : w.Inv) {session : Session} {kind : EntryKind}
    {rootSessions : List Session} : { w with
      rootSessions
      requests := w.requests + 1
      queue := w.queue ++ [Entry.mk w.requests session kind .waiting] }.Inv := by
  refine ⟨fun entry hmem => ?_, h.dead, fun i hi => ?_, fun entry rest i hq hstage => ?_,
    fun request s name rest hq => ?_, h.cleanup, fun r hr => ?_⟩
  · cases hqueue : w.queue with
    | nil => simp [hqueue] at hmem
    | cons first others =>
      simp only [hqueue] at hmem
      rcases mem_append.mp hmem with hold | hnew
      · exact h.waiting entry (by rw [hqueue]; exact hold)
      · obtain rfl := mem_singleton.mp hnew
        rfl
  · obtain ⟨lease, entry, rest, hlease, hok, hq, hheld⟩ := h.holder i hi
    exact ⟨lease, entry, _, hlease,
      ⟨hok.released, hok.waiting, hok.last, hok.closed, hok.cleanup⟩, congrArg (· ++ _) hq, hheld⟩
  · cases hqueue : w.queue with
    | nil =>
      rw [hqueue] at hq
      obtain ⟨rfl, -⟩ := List.cons.inj hq
      cases hstage
    | cons first others =>
      rw [hqueue] at hq
      obtain ⟨rfl, -⟩ := List.cons.inj hq
      exact h.held first others i hqueue hstage
  · cases hqueue : w.queue with
    | nil =>
      rw [hqueue] at hq
      cases hq
    | cons first others =>
      rw [hqueue] at hq
      obtain ⟨rfl, -⟩ := List.cons.inj hq
      exact h.starting request s name others hqueue
  · rcases Nat.lt_succ_iff_lt_or_eq.mp hr with hold | rfl
    · exact (h.accounted r hold).mono (fun _ h => h)
        (fun e he hstage => .inr ⟨e, mem_append_left _ he, rfl, hstage⟩)
        fun i lease hi operation hmem => .inr ⟨lease, hi, operation, hmem, rfl⟩
    · exact .inr (.inl ⟨Entry.mk w.requests session kind .waiting,
        mem_append_right _ (mem_singleton_self _), rfl, nofun⟩)

end

/-! ## Requests and sessions -/

section
variable {w : World}

variable {session : Session}

theorem leaseOperation_eq_some {r : Request} {i : ℕ} {kind : OperationKind}
    (h : w.leaseOperation session r = some (i, kind)) :
    w.leaseOf session = some i ∧ kind ≠ .cleanup := by
  cases r with
  | operation =>
    obtain ⟨j, hj, heq⟩ := Option.map_eq_some_iff.mp h
    obtain ⟨rfl, rfl⟩ := Prod.mk.inj heq
    exact ⟨hj, nofun⟩
  | rootTransactionStart => cases h
  | rootTransactionRelease | rootTransactionRollback =>
    obtain ⟨j, hj, heq⟩ := Option.map_eq_some_iff.mp h
    obtain ⟨rfl, rfl⟩ := Prod.mk.inj heq
    exact ⟨(Option.filter_eq_some_iff.mp hj).1, nofun⟩

theorem Inv.refuse (h : w.Inv) :
    { w with requests := w.requests + 1, settled := w.settled ++ [w.requests] }.Inv := by
  refine h.received (fun _ h => mem_append_left _ h) fun r hr => ?_
  rcases Nat.lt_succ_iff_lt_or_eq.mp hr with hold | rfl
  · exact .inl hold
  · exact .inr (mem_append_right _ (mem_singleton_self _))

theorem Inv.handleRequest (h : w.Inv) {r : Request} (hopen : session ∉ w.closed)
    (hok : w.Orderly (.request session r)) : (w.handleRequest session r).Inv := by
  simp only [World.handleRequest]
  split
  · unfold runConnectionRequest
    split
    · next i kind hoperation =>
      obtain ⟨hholds, hkind⟩ := leaseOperation_eq_some hoperation
      obtain ⟨hlease, lease, hi, rfl⟩ := leaseOf_eq_some.mp hholds
      refine h.serializeLease hlease hi (hok i kind lease hoperation hi)
        (fun hmem => absurd hmem hopen) (.inl ⟨rfl, hkind⟩) fun r hr => ?_
      rcases Nat.lt_succ_iff_lt_or_eq.mp hr with hold | rfl
      · exact .inl hold
      · exact .inr rfl
    · cases r with
      | operation => exact h.enqueue
      | rootTransactionStart savePointName =>
        cases savePointName with
        | none => exact h.refuse
        | some savePointName =>
          simp only
          split
          · exact h.refuse
          · exact h.enqueue
      | _ => exact h.refuse
  · exact h.refuse

theorem Inv.closes (h : w.Inv) {accepting : Bool} {closed : List Session}
    (hclosed : ∀ lease, w.current = some lease → lease.session ∈ closed → lease.ending = true)
    (hstarting : ∀ request session savePointName rest,
      w.queue = ⟨request, session, .root savePointName, .running⟩ :: rest → session ∈ closed →
        accepting = false) : { w with accepting, closed }.Inv := by
  refine ⟨h.waiting, h.dead, fun i hi => ?_, h.held, hstarting, h.cleanup, h.accounted⟩
  obtain ⟨lease, entry, rest, hlease, hok, hq⟩ := h.holder i hi
  have hcurrent : w.current = some lease := by
    rw [current, show w.lease = some i from hi]
    exact hlease
  exact ⟨lease, entry, rest, hlease,
    ⟨hok.released, hok.waiting, hok.last, hclosed lease hcurrent, hok.cleanup⟩, hq⟩

theorem current_eq_some {lease : Lease} :
    w.current = some lease ↔ ∃ i, w.lease = some i ∧ w.leases[i]? = some lease :=
  Option.bind_eq_some_iff

theorem Inv.scheduleSessionCleanup (h : w.Inv) (accepting : Bool) (closed : List Session)
    (hclosed : ∀ lease, w.current = some lease → lease.session ∈ closed →
      lease.session ∉ w.closed → lease.session = session)
    (hstarting : ∀ request session savePointName rest,
      w.queue = ⟨request, session, .root savePointName, .running⟩ :: rest → session ∈ closed →
        accepting = false)
    (hending : session ∉ w.sessionCleanup → ∀ lease, w.current = some lease →
      lease.session = session → lease.ending = false) :
    ({ w with accepting, closed }.scheduleSessionCleanup session).Inv := by
  -- the lease of a session that was closed before is ending already
  have hbefore : ∀ lease, w.current = some lease → lease.session ∈ w.closed →
      lease.ending = true := by
    intro lease hcurrent hmem
    obtain ⟨i, hi, hlease⟩ := current_eq_some.mp hcurrent
    obtain ⟨lease', -, -, hlease', hok, -⟩ := h.holder i hi
    rw [hlease] at hlease'
    cases hlease'
    exact hok.closed hmem
  unfold World.scheduleSessionCleanup
  split
  · next hcleaning =>
    refine h.closes (fun lease hcurrent hmem => ?_) hstarting
    obtain ⟨i, hi, hlease⟩ := current_eq_some.mp hcurrent
    obtain ⟨lease', -, -, hlease', hok, -⟩ := h.holder i hi
    rw [hlease] at hlease'
    cases hlease'
    rcases hok.cleanup with hempty | ⟨-, operation, hop, hkind⟩
    · rw [show w.sessionCleanup = [] from hempty] at hcleaning
      cases hcleaning
    · exact any_eq_true.mpr ⟨operation, hop, by rw [hkind]; rfl⟩
  · next hcleaning =>
    split
    · next hnone =>
      refine h.closes (fun lease hcurrent hmem => ?_) hstarting
      by_cases hclosed' : lease.session ∈ w.closed
      · exact hbefore lease hcurrent hclosed'
      · obtain ⟨i, hi, hlease⟩ := current_eq_some.mp hcurrent
        have hsome : w.leaseOf session = some i :=
          leaseOf_eq_some.mpr ⟨hi, lease, hlease, hclosed lease hcurrent hmem hclosed'⟩
        rw [show w.leaseOf session = none from hnone] at hsome
        cases hsome
    · next i hsome =>
      obtain ⟨hi, lease, hlease, rfl⟩ := leaseOf_eq_some.mp hsome
      have hcurrent := current_eq_some.mpr ⟨i, hi, hlease⟩
      have hempty : w.sessionCleanup = [] := by
        obtain ⟨lease', -, -, hlease', hok, -⟩ := h.holder i hi
        rw [show w.leases[i]? = some lease from hlease] at hlease'
        cases hlease'
        refine hok.cleanup.resolve_right fun ⟨hsingle, _⟩ => hcleaning ?_
        rw [hsingle]
        exact mem_singleton_self _
      refine h.serializeLease hi hlease (hending hcleaning lease hcurrent rfl) (fun _ _ => rfl)
        (.inr ⟨?_, rfl⟩) fun r hr => .inl hr
      rw [hempty]
      rfl

theorem Inv.disconnect (h : w.Inv) (hopen : session ∉ w.closed)
    (hok : w.Orderly (.disconnect session)) :
    ({ w with closed := w.closed ++ [session] }.scheduleSessionCleanup session).Inv := by
  refine h.scheduleSessionCleanup _ _ (fun lease _ hmem hnot => ?_) (fun request s name rest hq hmem => ?_)
    hok.2
  · exact mem_singleton.mp ((mem_append.mp hmem).resolve_left hnot)
  · rcases mem_append.mp hmem with hold | hnew
    · exact h.starting request s name rest hq hold
    · obtain rfl := mem_singleton.mp hnew
      exact hok.1 request name rest hq

theorem Inv.closeTransport (h : w.Inv) (hok : w.Orderly .closeTransport) {w' : World}
    (hstep : w.step .closeTransport = some w') : w'.Inv := by
  have hrevoked : { w with accepting := false }.Inv := by
    refine h.closes (fun lease hcurrent hmem => ?_) fun _ _ _ _ _ _ => rfl
    obtain ⟨i, hi, hlease⟩ := current_eq_some.mp hcurrent
    obtain ⟨lease', -, -, hlease', hok, -⟩ := h.holder i hi
    rw [hlease] at hlease'
    cases hlease'
    exact hok.closed hmem
  cases hstep
  split
  · next lease hcurrent =>
    split
    · exact hrevoked
    · next hopen =>
      refine h.scheduleSessionCleanup _ _ (fun lease' _ hmem hnot => absurd hmem hnot)
        (fun _ _ _ _ _ _ => rfl) fun hcleaning lease' hcurrent' _ => ?_
      rw [show w.current = some lease from hcurrent] at hcurrent'
      cases hcurrent'
      exact hok lease hcurrent hopen hcleaning
  · exact hrevoked

end

section
variable {w : World} {entry : Entry} {rest : List Entry}

section
variable (h : w.Inv) (hq : w.queue = entry :: rest) (hlease : w.lease = none)
include h hq hlease

theorem Inv.leaves (rootSessions : List Session) (settled : List ℕ)
    (hsettled : ∀ r ∈ w.settled, r ∈ settled)
    (hdone : (∀ i, entry.stage ≠ .held i) → entry.request ∈ settled) :
    { w with queue := rest, rootSessions, settled }.Inv := by
  have hwaiting : ∀ e ∈ rest, e.stage = .waiting := by
    have htail := h.waiting
    rwa [hq] at htail
  refine ⟨fun e he => hwaiting e (mem_of_mem_tail he), h.dead, fun i hi => ?_,
    fun e others i he hstage => ?_, fun request s name others he => ?_, h.cleanup, fun r hr => ?_⟩
  · rw [show w.lease = some i from hi] at hlease
    cases hlease
  · have hmem : e ∈ rest := by
      rw [show rest = e :: others from he]
      exact mem_cons_self
    rw [hwaiting e hmem] at hstage
    cases hstage
  · have hmem : (⟨request, s, .root name, .running⟩ : Entry) ∈ rest := by
      rw [show rest = _ :: others from he]
      exact mem_cons_self
    cases hwaiting _ hmem
  · refine (h.accounted r hr).mono hsettled (fun e he hstage => ?_)
      fun i lease hi operation hmem => .inr ⟨lease, hi, operation, hmem, rfl⟩
    rw [hq] at he
    rcases mem_cons.mp he with rfl | hmem
    · exact .inl (hdone hstage)
    · exact .inr ⟨e, hmem, rfl, hstage⟩

theorem Inv.runs (hstarting : ∀ savePointName, entry.kind = .root savePointName → entry.session ∈ w.closed →
      w.accepting = false) : (w.setStage entry .running).Inv := by
  have htail : w.queue.tail = rest := by rw [hq]; rfl
  have hwaiting := h.waiting
  rw [htail] at hwaiting
  unfold setStage
  rw [htail]
  refine ⟨hwaiting, h.dead, fun i hi => ?_, fun e others i he hstage => ?_,
    fun request s name others he hclosed => ?_, h.cleanup, fun r hr => ?_⟩
  · rw [show w.lease = some i from hi] at hlease
    cases hlease
  · obtain ⟨rfl, -⟩ := List.cons.inj he
    cases hstage
  · obtain ⟨heq, -⟩ := List.cons.inj he
    have hsession : entry.session = s := congrArg Entry.session heq
    exact hstarting name (congrArg Entry.kind heq) (hsession ▸ hclosed)
  · refine (h.accounted r hr).mono (fun _ h => h) (fun e he hstage => .inr ?_)
      fun i lease hi operation hmem => .inr ⟨lease, hi, operation, hmem, rfl⟩
    rw [hq] at he
    rcases mem_cons.mp he with rfl | hmem
    · exact ⟨_, mem_cons_self, rfl, nofun⟩
    · exact ⟨e, mem_cons_of_mem _ hmem, rfl, hstage⟩

theorem Inv.rejectStart :
    (w.rejectStart entry).Inv := by
  have hleaves := h.leaves hq hlease (w.rootSessions.erase entry.session)
    (w.settled ++ [entry.request]) (fun _ h => mem_append_left _ h)
    fun _ => mem_append_right _ (mem_singleton_self _)
  have htail : w.queue.tail = rest := by rw [hq]; rfl
  unfold World.rejectStart leave
  rwa [htail]

theorem Inv.granted (closed : List Session) (savePointName : String) (hopen : entry.session ∉ closed) :
    { w with
      closed
      leases := w.leases ++ [Lease.mk entry.session savePointName [] false false]
      lease := some w.leases.length
      settled := w.settled ++ [entry.request]
      queue := { entry with stage := .held w.leases.length } :: rest }.Inv := by
  have hwaiting := h.waiting
  rw [hq] at hwaiting
  have hlast : (w.leases ++ [Lease.mk entry.session savePointName [] false false])[
      w.leases.length]? = some ⟨entry.session, savePointName, [], false, false⟩ := by simp
  refine ⟨hwaiting, fun i lease hi => ?_, fun i hi => ?_, fun e others i he hstage => ?_,
    fun request s name others he => ?_, nofun, fun r hr => ?_⟩
  · by_cases hlt : i < w.leases.length
    · rw [getElem?_append_left hlt] at hi
      exact .inr (h.all_dead hlease (List.mem_of_getElem? hi))
    · obtain ⟨hbound, -⟩ := List.getElem?_eq_some_iff.mp hi
      rw [length_append, length_singleton] at hbound
      exact .inl (congrArg some (by omega))
  · cases hi
    refine ⟨_, _, rest, hlast, ⟨rfl, nofun, nofun, fun hmem => absurd hmem hopen, ?_⟩, rfl, rfl⟩
    exact .inl (h.cleanup hlease)
  · obtain ⟨rfl, -⟩ := List.cons.inj he
    cases hstage
    simp
  · obtain ⟨heq, -⟩ := List.cons.inj he
    cases congrArg Entry.stage heq
  · refine (h.accounted r hr).mono (fun _ h => mem_append_left _ h) (fun e he hstage => ?_)
      fun i lease hi operation hmem => ?_
    · rw [hq] at he
      rcases mem_cons.mp he with rfl | hmem
      · exact .inl (mem_append_right _ (mem_singleton_self _))
      · exact .inr ⟨e, mem_cons_of_mem _ hmem, rfl, hstage⟩
    · rw [(h.all_dead hlease (mem_of_getElem? hi)).operations] at hmem
      cases hmem

theorem Inv.grant (savePointName : String) (hstarting : entry.session ∈ w.closed → w.accepting = false) :
    (w.grant entry savePointName).Inv := by
  have htail : w.queue.tail = rest := by rw [hq]; rfl
  simp only [World.grant, setStage, htail]
  split
  · next ha =>
    refine h.granted hq hlease _ savePointName fun hmem => ?_
    rw [hstarting hmem] at ha
    cases ha
  · next ha =>
    have hopened := h.granted hq hlease [] savePointName nofun
    refine hopened.scheduleSessionCleanup w.accepting w.closed
      (fun lease hcurrent _ _ => ?_) (fun _ _ _ _ _ _ => by simpa using ha)
      fun _ lease hcurrent _ => ?_
    · obtain ⟨i, hi, hlease'⟩ := current_eq_some.mp hcurrent
      cases hi
      simp only [getElem?_concat_length] at hlease'
      exact congrArg Lease.session (Option.some.inj hlease').symm
    · obtain ⟨i, hi, hlease'⟩ := current_eq_some.mp hcurrent
      cases hi
      simp only [getElem?_concat_length] at hlease'
      rw [← Option.some.inj hlease']
      rfl

end

end

/-! ## The operations of a lease -/

section
variable {w : World} {i : ℕ} {lease : Lease} {operation : Operation} {rest : List Operation}

section
variable (h : w.Inv) (hi : w.leases[i]? = some lease)
  (hops : lease.operations = operation :: rest)
include h hi hops

theorem Inv.holds : w.lease = some i ∧ w.LeaseOk lease := by
  have hlease := h.lease_of_operation hi (by rw [hops]; exact nofun)
  obtain ⟨lease', -, -, hi', hok, -⟩ := h.holder i hlease
  rw [hi] at hi'
  cases hi'
  exact ⟨hlease, hok⟩

theorem Inv.beginOperation :
    (w.modifyLease i fun lease =>
      { lease with operations := lease.operations.modifyHead ({ · with running := true }) }).Inv := by
  obtain ⟨hlease, hok⟩ := h.holds hi hops
  have hwaiting := hok.waiting
  have hlast := hok.last
  have hcleanup := hok.cleanup
  have hclosed := hok.closed
  rw [Lease.ending, hops] at hclosed
  rw [hops] at hwaiting hlast hcleanup
  have hhead : lease.operations.modifyHead ({ · with running := true }) =
      { operation with running := true } :: rest := by rw [hops]; rfl
  refine h.of_held hlease hi rfl rfl hlease rfl ?_ fun r hr => ?_
  · refine ⟨hok.released, ?_, fun op hmem => ?_, fun hmem => ?_, ?_⟩
    · rw [hhead]
      exact hwaiting
    · simp only [hhead] at hmem
      cases rest with
      | nil => cases hmem
      | cons next others =>
        rcases mem_cons.mp hmem with rfl | hmem
        · exact hlast operation mem_cons_self
        · exact hlast op (mem_cons_of_mem _ hmem)
    · simp only [hhead]
      exact hclosed hmem
    · simp only [hhead]
      refine hcleanup.imp id fun ⟨heq, op, hmem, hkind⟩ => ⟨heq, ?_⟩
      rcases mem_cons.mp hmem with rfl | hmem
      · exact ⟨_, mem_cons_self, hkind⟩
      · exact ⟨op, mem_cons_of_mem _ hmem, hkind⟩
  · refine (h.accounted r hr).mono (fun _ h => h) (fun e he hstage => .inr ⟨e, he, rfl, hstage⟩)
      (accounted_modify hi rfl fun op hmem => .inr ?_)
    simp only [hhead]
    rw [hops] at hmem
    rcases mem_cons.mp hmem with rfl | hmem
    · exact ⟨_, mem_cons_self, rfl⟩
    · exact ⟨op, mem_cons_of_mem _ hmem, rfl⟩

end

theorem answered_tail (hops : lease.operations = operation :: rest) {settled : List ℕ} :
    ∀ op ∈ lease.operations, (∀ r ∈ op.request, r ∈ settled ++ operation.request.toList) ∨
      ∃ op' ∈ lease.operations.tail, op'.request = op.request := by
  intro op hmem
  rw [hops] at hmem ⊢
  rcases mem_cons.mp hmem with rfl | hmem
  · exact .inl fun r hr => mem_append_right _ (Option.mem_toList.mpr hr)
  · exact .inr ⟨op, hmem, rfl⟩

theorem Inv.endsOperation (h : w.Inv) (hi : w.leases[i]? = some lease)
    (hops : lease.operations = operation :: rest) (hkind : operation.kind = .operation) :
    ({ w with settled := w.settled ++ operation.request.toList }.modifyLease i fun lease =>
      { lease with operations := lease.operations.tail }).Inv := by
  obtain ⟨hlease, hok⟩ := h.holds hi hops
  have htail : lease.operations.tail = rest := by rw [hops]; rfl
  refine h.of_held hlease hi rfl rfl hlease rfl ?_ fun r hr => ?_
  · refine ⟨hok.released, fun op hmem => ?_, fun op hmem => ?_, fun hmem => ?_, ?_⟩
    · exact hok.waiting op (mem_of_mem_tail hmem)
    · refine hok.last op ?_
      rw [hops]
      simp only [htail] at hmem
      cases rest with
      | nil => cases hmem
      | cons next others => exact mem_cons_of_mem _ hmem
    · have hending := hok.closed hmem
      rw [Lease.ending, hops] at hending
      simpa [Lease.ending, htail, hkind, OperationKind.finishes] using hending
    · refine hok.cleanup.imp id fun ⟨heq, op, hmem, hcleanup⟩ => ⟨heq, op, ?_, hcleanup⟩
      rw [hops] at hmem
      refine htail.symm ▸ (mem_cons.mp hmem).resolve_left ?_
      rintro rfl
      rw [hkind] at hcleanup
      cases hcleanup
  · exact (h.accounted r hr).mono (fun _ h => mem_append_left _ h)
      (fun e he hstage => .inr ⟨e, he, rfl, hstage⟩) (accounted_modify hi rfl (answered_tail hops))

theorem LeaseOk.end_alone (hok : w.LeaseOk lease) (hops : lease.operations = operation :: rest)
    (hfinishes : operation.kind.finishes = true) : rest = [] := by
  have hlast := hok.last
  rw [hops] at hlast
  cases rest with
  | nil => rfl
  | cons next others =>
    rw [hlast operation mem_cons_self] at hfinishes
    cases hfinishes

section
variable (h : w.Inv) (hi : w.leases[i]? = some lease)
  (hops : lease.operations = operation :: rest)
include h hi hops

theorem Inv.finishRootLease (hfinishes : operation.kind.finishes = true)
    {sessionCleanup : List Session}
    (hcleanup : sessionCleanup = w.sessionCleanup ∧ operation.kind ≠ .cleanup ∨
      sessionCleanup = w.sessionCleanup.erase lease.session) :
    (({ w with
        sessionCleanup
        settled := w.settled ++ operation.request.toList }.modifyLease i fun lease =>
      { lease with operations := lease.operations.tail }).finishRootLease i lease.session true).Inv := by
  obtain ⟨hlease, hok⟩ := h.holds hi hops
  obtain rfl := hok.end_alone hops hfinishes
  have hended : ∀ {j : ℕ} {lease' : Lease},
      ((w.leases.modify i fun lease => { lease with operations := lease.operations.tail }).modify i
        fun lease => { lease with released := true, ended := true })[j]? = some lease' →
      Dead lease' := by
    intro j lease' hj
    by_cases hij : i = j
    · subst hij
      simp only [getElem?_modify_eq, hi] at hj
      cases hj
      refine ⟨rfl, rfl, ?_⟩
      show lease.operations.tail = []
      rw [hops]
      rfl
    · rw [getElem?_modify_ne _ _ hij, getElem?_modify_ne _ _ hij] at hj
      refine (h.dead j lease' hj).resolve_left ?_
      rw [hlease]
      exact fun heq => hij (Option.some.inj heq)
  refine ⟨h.waiting, fun j lease' hj => .inr (hended hj), nofun, fun e r j he hstage => ?_,
    h.starting, fun _ => ?_, fun r hr => ?_⟩
  · have hlt := h.held e r j he hstage
    simpa [World.finishRootLease, modifyLease] using hlt
  · show sessionCleanup = []
    rcases hcleanup with ⟨rfl, hkind⟩ | rfl
    · refine hok.cleanup.resolve_right ?_
      rintro ⟨-, op, hmem, hop⟩
      rw [hops] at hmem
      obtain rfl := mem_singleton.mp hmem
      exact hkind hop
    · rcases hok.cleanup with hempty | ⟨hsingle, -⟩
      · rw [hempty]
        rfl
      · rw [hsingle]
        simp
  · refine (h.accounted r hr).mono (fun _ h => mem_append_left _ h)
      (fun e he hstage => .inr ⟨e, he, rfl, hstage⟩) fun j lease' hj op hmem => .inl ?_
    -- the end was the only operation left
    have hheldOnly := h.lease_of_operation hj (ne_nil_of_mem hmem)
    rw [hlease] at hheldOnly
    cases hheldOnly
    rw [hi] at hj
    cases hj
    rw [hops] at hmem
    obtain rfl := mem_singleton.mp hmem
    exact fun r hr => mem_append_right _ (Option.mem_toList.mpr hr)

theorem Inv.settleOperation {ok : Bool}
    (hok : w.Orderly (.settleOperation i ok)) :
    (w.settleOperation i lease operation ok).Inv := by
  have hended := hok lease operation rest hi hops
  unfold World.settleOperation
  cases hkind : operation.kind with
  | operation => exact h.endsOperation hi hops hkind
  | release | rollback =>
    rw [hkind] at hended
    rw [hended rfl]
    exact h.finishRootLease hi hops (by rw [hkind]; rfl) (.inl ⟨rfl, by rw [hkind]; exact nofun⟩)
  | cleanup =>
    rw [hkind] at hended
    rw [hended rfl]
    exact h.finishRootLease hi hops (by rw [hkind]; rfl) (.inr rfl)

end

end

section
variable {w w' : World}

theorem work_modifyLease {i : ℕ} {lease : Lease} (hi : w.leases[i]? = some lease)
    (f : Lease → Lease) : (w.modifyLease i f).work + lease.work = w.work + (f lease).work := by
  have hsum := sum_map_modify hi f Lease.work
  simp only [work, modifyLease]
  omega

theorem work_scheduleSessionCleanup (session : Session) :
    (w.scheduleSessionCleanup session).work ≤ w.work + 2 := by
  unfold World.scheduleSessionCleanup
  split
  · omega
  · split
    · omega
    · next i hsome =>
      obtain ⟨-, lease, hi, -⟩ := leaseOf_eq_some.mp hsome
      have hwork := work_modifyLease (w := { w with
        sessionCleanup := w.sessionCleanup ++ [session] }) hi fun lease =>
          { lease with operations := lease.operations ++ [⟨none, .cleanup, false⟩] }
      have hadded : Lease.work { lease with
          operations := lease.operations ++ [⟨none, .cleanup, false⟩] } = lease.work + 2 := by
        simp [Lease.work, Operation.work]
      have hsame : { w with sessionCleanup := w.sessionCleanup ++ [session] }.work = w.work := rfl
      simp only [World.serializeLease]
      omega

theorem work_step {a : BrokerAction} (ha : a.internal = true) (hstep : w.step a = some w') :
    w'.work < w.work := by
  cases a with
  | request | disconnect | revoke | closeTransport => cases ha
  | begin =>
    simp only [step] at hstep
    split at hstep
    · next request session kind rest hq =>
      cases hstep
      cases kind with
      | operation =>
        simp [World.begin, setStage, work, hq, Entry.work]
      | root savePointName =>
        simp only [World.begin]
        split
        · simp [rejectStart, leave, work, hq, Entry.work]
        · simp [setStage, work, hq, Entry.work]
    · cases hstep
  | settle ok =>
    simp only [step] at hstep
    split at hstep
    · next request session kind rest hq =>
      cases hstep
      cases kind with
      | operation => simp [World.settle, leave, work, hq, Entry.work]
      | root savePointName =>
        cases ok with
        | false => simp [World.settle, rejectStart, leave, work, hq, Entry.work]
        | true =>
          simp only [World.settle, World.grant, if_true, setStage, hq]
          split
          · simp [work, hq, Entry.work, Lease.work]
          · refine (work_scheduleSessionCleanup session).trans_lt ?_
            simp [work, hq, Entry.work, Lease.work]
            omega
    · cases hstep
  | proceed =>
    simp only [step] at hstep
    split at hstep
    · next request session kind i rest hq =>
      split at hstep
      · cases hstep
        cases kind <;> simp [work, hq, Entry.work]
      · cases hstep
    · cases hstep
  | beginOperation i =>
    simp only [step] at hstep
    split at hstep
    · next session name request kind rest released ended hi =>
      cases hstep
      have hwork := work_modifyLease hi fun lease =>
        { lease with operations := lease.operations.modifyHead ({ · with running := true }) }
      simp only [Lease.work, modifyHead_cons, map_cons, sum_cons,
        Operation.work, Bool.false_eq_true, if_false, if_true] at hwork
      omega
    · cases hstep
  | settleOperation i ok =>
    simp only [step] at hstep
    split at hstep
    · next session name request kind rest released ended hi =>
      cases hstep
      have hwork := work_modifyLease hi fun lease =>
        { lease with operations := lease.operations.tail }
      have hends : (w.modifyLease i fun lease =>
          { lease with operations := lease.operations.tail }).work < w.work := by
        simp only [Lease.work, tail_cons, map_cons, sum_cons, Operation.work,
          if_true] at hwork
        omega
      -- giving up the lease leaves nothing new to do
      have hfinish : ∀ (u : World) (session : Session), u.leases = w.leases.modify i (fun lease =>
          { lease with operations := lease.operations.tail }) → u.queue = w.queue →
          (u.finishRootLease i session ok).work < w.work := by
        intro u session hleases hqueue
        have hsame : (u.finishRootLease i session ok).work =
            (w.modifyLease i fun lease => { lease with operations := lease.operations.tail }).work := by
          have hmap : ∀ l : List Lease, ((l.modify i fun lease =>
              { lease with released := true, ended := ok }).map Lease.work).sum =
                (l.map Lease.work).sum := by
            intro l
            cases hl : l[i]? with
            | none => rw [modify_eq_self (getElem?_eq_none_iff.mp hl)]
            | some lease =>
              have hsum := sum_map_modify hl
                (fun lease => { lease with released := true, ended := ok }) Lease.work
              have hkept : Lease.work { lease with released := true, ended := ok } = lease.work :=
                rfl
              omega
          simp [work, World.finishRootLease, modifyLease, hleases, hqueue, hmap]
        rw [hsame]
        exact hends
      cases kind with
      | operation => exact hends
      | release | rollback | cleanup => exact hfinish _ _ rfl rfl
    · cases hstep

theorem work_run (as : List BrokerAction) : ∀ {w w' : World}, (∀ a ∈ as, a.internal = true) →
    runActions step w as = some w' → as.length ≤ w.work := by
  induction as with
  | nil => exact fun _ _ => Nat.zero_le _
  | cons a as ih =>
    intro w w' hinternal hrun
    obtain ⟨w₁, hstep, hrest⟩ := runActions_cons.mp hrun
    have hless := work_step (hinternal a mem_cons_self) hstep
    have hlength := ih (fun b hb => hinternal b (mem_cons_of_mem _ hb)) hrest
    rw [length_cons]
    omega

end

/-! ## Runs -/

section
variable {w w' : World}

theorem inv_init : init.Inv := by
  refine ⟨fun _ h => ?_, fun _ _ h => ?_, fun _ h => ?_, fun _ _ _ h => ?_, fun _ _ _ _ h => ?_,
    fun _ => rfl, fun _ h => ?_⟩ <;> cases h

theorem Inv.step (h : w.Inv) (a : BrokerAction) (hok : w.Orderly a)
    (hstep : w.step a = some w') : w'.Inv := by
  cases a with
  | request session r =>
    simp only [World.step] at hstep
    split at hstep
    · cases hstep
    · next hopen =>
      cases hstep
      exact h.handleRequest hopen hok
  | begin =>
    simp only [World.step] at hstep
    split at hstep
    · next request session kind rest hq =>
      cases hstep
      have hlease := h.no_lease hq nofun
      cases kind with
      | operation => exact h.runs hq hlease nofun
      | root savePointName =>
        simp only [World.begin]
        split
        · exact h.rejectStart hq hlease
        · next hopen => exact h.runs hq hlease fun _ _ hclosed => absurd hclosed hopen
    · cases hstep
  | settle ok =>
    simp only [World.step] at hstep
    split at hstep
    · next request session kind rest hq =>
      cases hstep
      have hlease := h.no_lease hq nofun
      cases kind with
      | operation =>
        have hleaves := h.leaves hq hlease w.rootSessions (w.settled ++ [request]) (fun _ h => mem_append_left _ h)
          fun _ => mem_append_right _ (mem_singleton_self _)
        simpa [World.settle, leave, hq] using hleaves
      | root savePointName =>
        cases ok with
        | false => exact h.rejectStart hq hlease
        | true => exact h.grant hq hlease savePointName (h.starting _ _ _ _ hq)
    · cases hstep
  | proceed =>
    simp only [World.step] at hstep
    split at hstep
    · next request session kind i rest hq =>
      split at hstep
      · next hreleased =>
        cases hstep
        refine h.leaves hq ?_ _ _ (fun _ h => h) fun hstage => absurd rfl (hstage i)
        -- the lease that is held is not released
        by_contra hne
        obtain ⟨j, hj⟩ := Option.ne_none_iff_exists'.mp hne
        obtain ⟨lease, entry, others, hlease, hleaseOk, hq', hheld⟩ := h.holder j hj
        rw [hq] at hq'
        obtain ⟨rfl, -⟩ := List.cons.inj hq'
        cases hheld
        rw [hlease] at hreleased
        simp [hleaseOk.released] at hreleased
      · cases hstep
    · cases hstep
  | beginOperation i =>
    simp only [World.step] at hstep
    split at hstep
    · next hi =>
      cases hstep
      exact h.beginOperation hi rfl
    · cases hstep
  | settleOperation i ok =>
    simp only [World.step] at hstep
    split at hstep
    · next hi =>
      cases hstep
      exact h.settleOperation hi rfl hok
    · cases hstep
  | disconnect session =>
    simp only [World.step] at hstep
    split at hstep
    · cases hstep
    · next hopen =>
      cases hstep
      exact h.disconnect hopen hok
  | revoke =>
    cases hstep
    refine h.closes (fun lease hcurrent hmem => ?_) fun _ _ _ _ _ _ => rfl
    obtain ⟨i, hi, hlease⟩ := current_eq_some.mp hcurrent
    obtain ⟨lease', -, -, hlease', hleaseOk, -⟩ := h.holder i hi
    rw [hlease] at hlease'
    cases hlease'
    exact hleaseOk.closed hmem
  | closeTransport => exact h.closeTransport hok hstep

theorem Inv.quiescent (h : w.Inv) (hquiet : w.Quiescent) :
    (w.lease = none ∧ ∀ request < w.requests, request ∈ w.settled) ∨
    ∃ lease, w.current = some lease ∧ lease.session ∉ w.closed ∧ lease.operations = [] ∧
      ∀ request < w.requests, request ∈ w.settled ∨
        ∃ entry ∈ w.queue.tail, entry.request = request := by
  -- a first operation could begin, or settle
  have hidle : ∀ {i : ℕ} {lease : Lease}, w.leases[i]? = some lease → lease.operations = [] := by
    intro i lease hi
    obtain ⟨session, name, operations, released, ended⟩ := lease
    cases operations with
    | nil => rfl
    | cons operation rest =>
      obtain ⟨request, kind, running⟩ := operation
      cases running with
      | false =>
        have hnone := hquiet (.beginOperation i) rfl
        simp [World.step, hi] at hnone
      | true =>
        have hnone := hquiet (.settleOperation i true) rfl
        simp [World.step, hi] at hnone
  have haccounted : ∀ request < w.requests, request ∈ w.settled ∨
      ∃ entry ∈ w.queue, entry.request = request ∧ ∀ i, entry.stage ≠ .held i := by
    intro request hlt
    refine (h.accounted request hlt).imp id fun hwaits => hwaits.resolve_right ?_
    rintro ⟨lease, hmem, operation, hop, -⟩
    obtain ⟨i, hi⟩ := mem_iff_getElem?.mp hmem
    rw [hidle hi] at hop
    cases hop
  cases hq : w.queue with
  | nil =>
    refine .inl ⟨?_, fun request hlt => (haccounted request hlt).resolve_right ?_⟩
    · by_contra hne
      obtain ⟨i, hi⟩ := Option.ne_none_iff_exists'.mp hne
      obtain ⟨lease, entry, others, -, -, hqueue, -⟩ := h.holder i hi
      rw [hq] at hqueue
      cases hqueue
    · rw [hq]
      rintro ⟨entry, hmem, -⟩
      cases hmem
  | cons entry rest =>
    obtain ⟨request, session, kind, stage⟩ := entry
    cases stage with
    | waiting =>
      have hnone := hquiet .begin rfl
      simp [World.step, hq] at hnone
    | running =>
      have hnone := hquiet (.settle true) rfl
      simp [World.step, hq] at hnone
    | held i =>
      have hlt := h.held _ rest i hq rfl
      have hi : w.leases[i]? = some w.leases[i] := getElem?_eq_getElem hlt
      rcases h.dead i _ hi with hlease | hdead
      · obtain ⟨lease, -, -, hi', hok, -⟩ := h.holder i hlease
        refine .inr ⟨lease, current_eq_some.mpr ⟨i, hlease, hi'⟩, fun hclosed => ?_, hidle hi',
          fun r hr => (haccounted r hr).imp id ?_⟩
        · have hending := hok.closed hclosed
          rw [Lease.ending, hidle hi'] at hending
          cases hending
        · rintro ⟨e, hmem, rfl, hstage⟩
          rw [hq] at hmem
          refine ⟨e, (mem_cons.mp hmem).resolve_left ?_, rfl⟩
          rintro rfl
          exact hstage i rfl
      · have hnone := hquiet .proceed rfl
        simp [World.step, hq, hi, hdead.released] at hnone

theorem Inv.sound (h : w.Inv) : w.Sound where
  oneAtATime := by
    cases hlease : w.lease with
    | none => exact h.callbacks_free hlease
    | some i =>
      obtain ⟨lease, -, -, hi, hok, -⟩ := h.holder i hlease
      rw [h.callbacks_held hlease hi, length_map]
      exact running_le_one hok.waiting
  holderOnly i hlease := by
    obtain ⟨lease, -, -, hi, -⟩ := h.holder i hlease
    refine ⟨lease, hi, fun session hmem => ?_⟩
    rw [h.callbacks_held hlease hi] at hmem
    obtain ⟨-, -, rfl⟩ := mem_map.mp hmem
    rfl
  released i lease hi := (h.dead i lease hi).imp id fun hdead => ⟨hdead.released, hdead.ended⟩
  finite as w' := work_run as
  quiescent := h.quiescent

/-- **One session at a time.** In every run in which nothing is serialized with a lease behind its
    end, no session is lost while its root savepoint is being made, and the calls that end the root
    savepoints succeed: at most one callback runs on the connection, and while a lease is held only
    those of its holder; every other lease was released with its savepoint released or rolled back;
    and after finitely many further steps all that was received is answered, or waits for a holder
    whose session is open. -/
theorem shared_transaction_broker (as : List BrokerAction)
    (hok : Along World.step World.Orderly init as) (hrun : runActions World.step init as = some w) :
    w.Sound :=
  (runActions_invariant (fun _ a _ h hok hstep => h.step a hok hstep) as inv_init hok hrun).sound

/-- A session makes a root savepoint, works, and disconnects, while another one waits. -/
def disconnectRun : List BrokerAction :=
  [.request 0 (.rootTransactionStart (some "s")), .request 1 .operation, .begin, .settle true,
    .request 0 .operation, .beginOperation 0, .disconnect 0, .settleOperation 0 true,
    .beginOperation 0, .settleOperation 0 true, .proceed, .begin, .settle true]

theorem shared_transaction_broker_disconnect : ∃ w,
    runActions World.step init disconnectRun = some w ∧ w.settled = [0, 2, 1] ∧ w.Sound := by
  obtain ⟨w, hw⟩ : ∃ w, runActions World.step init disconnectRun = some w := ⟨_, rfl⟩
  refine ⟨w, hw, ?_, shared_transaction_broker disconnectRun ?_ hw⟩
  · cases hw
    rfl
  · refine ⟨?_, ?_, trivial, trivial, ?_, trivial, ⟨fun _ _ _ hq => ?_, fun _ lease hcurrent _ => ?_⟩, ?_,
      trivial, ?_, trivial, trivial, trivial, trivial⟩
    · intro i kind lease hoperation hi
      cases hi
    · intro i kind lease hoperation hi
      cases hi
    · intro i kind lease hoperation hi
      obtain ⟨rfl, -⟩ := Prod.mk.inj (Option.some.inj hoperation)
      cases hi
      rfl
    · injection (List.cons.inj hq).1 with _ _ _ hstage
      cases hstage
    · cases hcurrent
      rfl
    · exact fun _ _ _ _ _ _ => rfl
    · exact fun _ _ _ _ _ _ => rfl

/-- A session is lost while its root savepoint is being made. -/
def lostRun : List BrokerAction :=
  [.request 0 (.rootTransactionStart (some "s")), .request 1 .operation, .begin, .disconnect 0,
    .settle true]

/-- Its lease stays, and the other session waits for good. -/
theorem lost_while_starting : ∃ w,
    runActions World.step init lostRun = some w ∧ ¬w.Sound := by
  refine ⟨_, rfl, fun h => ?_⟩
  have hquiet : ∀ a : BrokerAction, a.internal = true →
      (⟨true, [0], [⟨0, 0, .root "s", .held 0⟩, ⟨1, 1, .operation, .waiting⟩], [0], some 0,
        [⟨0, "s", [], false, false⟩], [], 2, [0]⟩ : World).step a = none := by
    intro a ha
    cases a with
    | begin | settle | proceed => rfl
    | beginOperation i | settleOperation i => cases i <;> rfl
    | _ => cases ha
  rcases h.quiescent hquiet with ⟨hnone, -⟩ | ⟨lease, hcurrent, hopen, -⟩
  · cases hnone
  · cases hcurrent
    exact hopen mem_cons_self

end

end World

end Velocious.SharedTransactionBroker
