/-
  Calls of one mutation log that run at the same time (src/sync/local-mutation-log.js).

  A call waits for the lock of its storage key, asks the storage to read, asks it to write, and
  releases the lock. A storage operation takes effect in one step, some time between the request
  and the answer, or fails without an effect. `settle`, `enter`, `perform`, `reject` and `resume`
  are the steps of the calls, in any order that their promises allow.

  * The storage's `nextSequence` is above all numbers that it has returned before, and an id of the
    log's generator is new.
  * `history` records each write of the storage with the call it was for, as the change of the log
    that the write stands for.
-/
import Velocious.Foundation.Machine
import Velocious.Foundation.PromiseLock
import Velocious.Sync.MutationLogHistory

namespace Velocious.LocalLog

open Foundation Foundation.JsValue List
open DeviceIdentity (Platform)

/-- A call of the log. -/
inductive Call where
  | append (dependencies : List LocalMutationDependency) (mutation : JsValue)
      (signedMutation : Option JsValue)
  | updateStatus (id : String) (status : LocalMutationStatus) (syncResult : Option JsValue)
  | updateMutation (id : String) (mutation : JsValue)
  | compact (maxTerminalRecords terminalRetentionMs : Option ℕ)

/-- What a call returns. -/
inductive Result where
  | record (r : LocalMutationLogRecord)
  | deletedRecordIds (ids : List String)

/-- A write of the storage. -/
inductive StorageWrite where
  | appendRecord (record : LocalMutationLogRecord)
  | updateRecord (record : LocalMutationLogRecord)
  | deleteRecords (ids : List String)

/-- The storage's rows after a write. -/
def StorageWrite.apply (records : List LocalMutationLogRecord) :
    StorageWrite → List LocalMutationLogRecord
  | appendRecord record => records ++ [record]
  | updateRecord record => records.map fun r => if r.id = record.id then record else r
  | deleteRecords ids => records.filter fun r => r.id ∉ ids

/-- What a call returns after its write. -/
def StorageWrite.result : StorageWrite → Result
  | appendRecord record | updateRecord record => .record record
  | deleteRecords ids => .deletedRecordIds ids

/-- Where a call is. A write comes with the change of the log that it stands for. -/
inductive Phase where
  | waiting
  | sequencing (timestamp : ℤ) (id : String)
  | sequenced (timestamp : ℤ) (id : String) (sequence : ℕ)
  | finding (id : String)
  | found (rawRecord : Option LocalMutationLogRecord)
  | listing
  | listed (records : List LocalMutationLogRecord)
  | writing (op : StorageWrite) (event : LogEvent)
  | written (op : StorageWrite) (event : LogEvent)
  | done (result : Except String Result)

/-- A call, and where it is. -/
structure CallState where
  call : Call
  phase : Phase

/-- The storage's rows of the log's key, and what the storage and the log's id generator have given
    out. -/
structure Store where
  records : List LocalMutationLogRecord
  counter : ℕ
  usedIds : List String
  history : List (ℕ × LogEvent)

/-- The changes of the log so far. -/
def Store.events (s : Store) : List LogEvent := s.history.map Prod.snd

/-- A log and its calls, in the order in which they took the lock's promises. -/
structure World where
  store : Store
  lock : PromiseLock
  calls : List CallState

def World.start : World := ⟨⟨[], 0, [], []⟩, .empty, []⟩

/-- What can happen. -/
inductive Act where
  | call (c : Call)
  | settle (i : ℕ)
  /-- a call gets the lock, with the clock's time and the generator's next id -/
  | enter (i : ℕ) (now : Option ℤ) (id : String)
  /-- the storage does what a call has asked for; `sequence` is its next sequence -/
  | perform (i : ℕ) (sequence : ℕ)
  | reject (i : ℕ) (message : String)
  | resume (i : ℕ) (now : Option ℤ)

namespace World

def waitForLock (w : World) (c : Call) : World :=
  { w with lock := w.lock.acquire, calls := w.calls ++ [⟨c, .waiting⟩] }

def setPhase (w : World) (i : ℕ) (phase : Phase) : World :=
  { w with calls := w.calls.modify i fun c => { c with phase } }

/-- A call returns or throws, and releases the lock. -/
def finish (w : World) (i : ℕ) (result : Except String Result) : World :=
  { w.setPhase i (.done result) with lock := w.lock.release i }

end World

/-- What a call checks before it asks for the lock. -/
def Call.check : Call → Except String Unit
  | append _ mutation signedMutation => checkSignedMutation mutation signedMutation
  | updateStatus _ _ _ | updateMutation _ _ | compact _ _ => .ok ()

/-- A call that has got the lock. -/
def enter (w : World) (i : ℕ) (now : Option ℤ) (id : String) : Call → Option World
  | .append _ _ _ =>
    match currentTimestamp now with
    | .ok timestamp =>
      if id ∈ w.store.usedIds then none
      else some { w.setPhase i (.sequencing timestamp id) with
                  store := { w.store with usedIds := id :: w.store.usedIds } }
    | .error message => some (w.finish i (.error message))
  | .updateStatus recordId _ _ | .updateMutation recordId _ => some (w.setPhase i (.finding recordId))
  | .compact _ _ => some (w.setPhase i .listing)

/-- The storage does what a call has asked for. -/
def perform (w : World) (i sequence : ℕ) : Phase → Option World
  | .sequencing timestamp id =>
    if w.store.counter < sequence then
      some { w.setPhase i (.sequenced timestamp id sequence) with
             store := { w.store with counter := sequence } }
    else none
  | .finding id => some (w.setPhase i (.found (w.store.records.find? (·.id = id))))
  | .listing => some (w.setPhase i (.listed w.store.records))
  | .writing op event =>
    some { w.setPhase i (.written op event) with
           store := { w.store with records := op.apply w.store.records,
                                   history := w.store.history ++ [(i, event)] } }
  | .waiting | .sequenced _ _ _ | .found _ | .listed _ | .written _ _ | .done _ => none

/-- The storage fails at what a call has asked for. -/
def reject (w : World) (i : ℕ) (message : String) : Phase → Option World
  | .sequencing _ _ | .finding _ | .listing | .writing _ _ => some (w.finish i (.error message))
  | .waiting | .sequenced _ _ _ | .found _ | .listed _ | .written _ _ | .done _ => none

/-- What a call does with the storage's answer: it asks for a write, or is done. -/
def answer (p : Platform) (now : Option ℤ) (call : Call) : Phase → Option Phase
  | .sequenced timestamp id sequence =>
    match call with
    | .append dependencies mutation signedMutation =>
      match appendedRecord p dependencies mutation signedMutation timestamp id sequence with
      | .ok r => some (.writing (.appendRecord r) (.appended r))
      | .error message => some (.done (.error message))
    | .updateStatus _ _ _ | .updateMutation _ _ | .compact _ _ => none
  | .found rawRecord =>
    match call with
    | .updateStatus id status syncResult =>
      match statusRecord p id status syncResult rawRecord now with
      | .ok r => some (.writing (.updateRecord r)
          (.statusSet id status r.updatedAt (syncResult.map viaJson)))
      | .error message => some (.done (.error message))
    | .updateMutation id mutation =>
      match mutationRecord p id mutation rawRecord now with
      | .ok r => some (.writing (.updateRecord r) (.mutationSet id r.mutation r.updatedAt))
      | .error message => some (.done (.error message))
    | .append _ _ _ | .compact _ _ => none
  | .listed records =>
    match call with
    | .compact maxTerminalRecords terminalRetentionMs =>
      match normalizeRecordList p records with
      | .ok records =>
        match compactIds records maxTerminalRecords terminalRetentionMs now with
        | [] => some (.done (.ok (.deletedRecordIds [])))
        | id :: ids => some (.writing (.deleteRecords (id :: ids)) (.compacted (id :: ids)))
      | .error message => some (.done (.error message))
    | .append _ _ _ | .updateStatus _ _ _ | .updateMutation _ _ => none
  | .written op _ => some (.done (.ok op.result))
  | .waiting | .sequencing _ _ | .finding _ | .listing | .writing _ _ | .done _ => none

def resume (p : Platform) (w : World) (i : ℕ) (now : Option ℤ) (c : CallState) : Option World :=
  match answer p now c.call c.phase with
  | some (.done result) => some (w.finish i result)
  | some phase => some (w.setPhase i phase)
  | none => none

/-- One step of the log's calls. -/
def step (p : Platform) (w : World) : Act → Option World
  | .call c =>
    match c.check with
    | .ok () => some (w.waitForLock c)
    | .error _ => some w
  | .settle i => (w.lock.settle i).map fun lock => { w with lock }
  | .enter i now id =>
    match w.calls[i]? with
    | some ⟨call, .waiting⟩ => if w.lock.mayEnter i then enter w i now id call else none
    | _ => none
  | .perform i sequence => w.calls[i]?.bind fun c => perform w i sequence c.phase
  | .reject i message => w.calls[i]?.bind fun c => reject w i message c.phase
  | .resume i now => w.calls[i]?.bind fun c => resume p w i now c

def Call.Asks (p : Platform) : Call → LogEvent → Prop
  | .append dependencies mutation signedMutation, .appended r =>
    r.status = .pending ∧ r.dependencies = dependencies ∧ r.syncResult = none ∧
      r.signedMutation = signedMutation.map viaJson ∧
      ∃ m, normalizeMutation p mutation = .ok m ∧ r.mutation = m.mapValues viaJson
  | .updateStatus id status syncResult, .statusSet id' status' _ syncResult' =>
    id' = id ∧ status' = status ∧ syncResult' = syncResult.map viaJson
  | .updateMutation id mutation, .mutationSet id' mutation' _ =>
    id' = id ∧ ∃ m, normalizeMutation p mutation = .ok m ∧ mutation' = m.mapValues viaJson
  | .compact _ _, .compacted _ => True
  | _, _ => False

/-- What a call returns says the change that it made. -/
def LogEvent.Reports : LogEvent → Result → Prop
  | .appended r, .record r' => r' = r
  | .statusSet id status _ _, .record r => r.id = id ∧ r.status = status
  | .mutationSet id mutation _, .record r => r.id = id ∧ r.mutation = mutation
  | .compacted ids, .deletedRecordIds ids' => ids' = ids
  | _, _ => False

/-- A change that the log's records allow: an update is of one of them, and a compaction deletes
    terminal ones that no open one depends on. -/
def Allowed (records : List LocalMutationLogRecord) : LogEvent → Prop
  | .appended r => r.status = .pending
  | .statusSet id _ _ _ => ∃ r ∈ records, r.id = id
  | .mutationSet id _ _ => ∃ r ∈ records, r.id = id ∧ r.status.isPending = true
  | .compacted ids => ∀ id ∈ ids, ∃ r ∈ records, r.id = id ∧ isTerminal r.status = true ∧
      ∀ s ∈ records, isOpen s.status = true → ∀ d ∈ s.dependencies,
        d.clientMutationId ≠ r.mutation.clientMutationId

/-! ## The storage -/

section
variable {p : Platform} {s s' : Store} {i : ℕ} {c : CallState}

/-- No record of the log has an id. -/
structure Store.FreshId (s : Store) (id : String) : Prop where
  used : id ∈ s.usedIds
  new : ∀ r ∈ appendedRecords s.events, r.id ≠ id

/-- A sequence is above those of the log. -/
structure Store.FreshSequence (s : Store) (sequence : ℕ) : Prop where
  counted : sequence ≤ s.counter
  above : ∀ r ∈ appendedRecords s.events, r.sequence < sequence

/-- The log is what its history makes of it. -/
structure Store.Ok (p : Platform) (s : Store) : Prop where
  records_eq : s.records = replay s.events
  stored : ∀ r ∈ s.records, Stored p r
  sequences : (appendedRecords s.events).Pairwise fun r t => r.sequence < t.sequence
  ids : ((appendedRecords s.events).map (·.id)).Nodup
  counted : ∀ r ∈ appendedRecords s.events, r.sequence ≤ s.counter
  used : ∀ r ∈ appendedRecords s.events, r.id ∈ s.usedIds
  allowed : ∀ before e after, s.events = before ++ e :: after → Allowed (replay before) e

/-- A write does to the log what its call asks for. -/
structure WriteOk (p : Platform) (s : Store) (call : Call) (op : StorageWrite) (event : LogEvent) :
    Prop where
  asks : call.Asks p event
  reports : event.Reports op.result
  allowed : Allowed s.records event
  apply_eq : op.apply s.records = event.apply s.records
  stored : ∀ r ∈ op.apply s.records, Stored p r
  fresh : ∀ r, event.added = some r → s.FreshId r.id ∧ s.FreshSequence r.sequence

theorem Store.Ok.ids_replay (h : s.Ok p) : (s.records.map (·.id)).Nodup := by
  rw [h.records_eq]
  have hsub := (replay_keys s.events).map Prod.fst
  rw [map_map, map_map] at hsub
  exact hsub.nodup h.ids

theorem Store.Ok.ordered (h : s.Ok p) : s.records.Pairwise fun r t => r.sequence < t.sequence := by
  rw [h.records_eq]
  have hsub := (replay_keys s.events).map Prod.snd
  rw [map_map, map_map] at hsub
  have hpair : ((appendedRecords s.events).map (Prod.snd ∘ key)).Pairwise (· < ·) :=
    pairwise_map.mpr h.sequences
  exact pairwise_map.mp (hpair.sublist hsub)

theorem Store.Ok.write {call : Call} {op : StorageWrite} {event : LogEvent} (h : s.Ok p)
    (hw : WriteOk p s call op event) :
    Store.Ok p { s with records := op.apply s.records, history := s.history ++ [(i, event)] } := by
  have hevents : Store.events { s with
      records := op.apply s.records, history := s.history ++ [(i, event)] } = s.events ++ [event] :=
    map_append
  have happended : ∀ r ∈ appendedRecords (s.events ++ [event]),
      r ∈ appendedRecords s.events ∨ event.added = some r := by
    intro r hr
    rw [appendedRecords_concat] at hr
    exact (mem_append.mp hr).imp_right Option.mem_toList.mp
  refine ⟨?_, hw.stored, ?_, ?_, ?_, ?_, ?_⟩
  · rw [hevents, replay_concat, ← h.records_eq]
    exact hw.apply_eq
  · rw [hevents, appendedRecords_concat]
    refine pairwise_append.mpr ⟨h.sequences, ?_, fun r hr t ht => ?_⟩
    · cases event.added <;> simp
    · exact (hw.fresh t (Option.mem_toList.mp ht)).2.above r hr
  · rw [hevents, appendedRecords_concat, map_append]
    refine nodup_append.mpr ⟨h.ids, ?_, ?_⟩
    · cases event.added <;> simp
    · intro id hid id' hid'
      obtain ⟨r, hr, rfl⟩ := mem_map.mp hid
      obtain ⟨t, ht, rfl⟩ := mem_map.mp hid'
      exact (hw.fresh t (Option.mem_toList.mp ht)).1.new r hr
  · rw [hevents]
    intro r hr
    rcases happended r hr with hr | hr
    · exact h.counted r hr
    · exact (hw.fresh r hr).2.counted
  · rw [hevents]
    intro r hr
    rcases happended r hr with hr | hr
    · exact h.used r hr
    · exact (hw.fresh r hr).1.used
  · rw [hevents]
    intro before e after hsplit
    rcases eq_nil_or_concat after with rfl | ⟨after, last, rfl⟩
    · obtain ⟨hbefore, he⟩ := append_inj' hsplit rfl
      obtain rfl := (List.cons.inj he).1
      rw [← hbefore, ← h.records_eq]
      exact hw.allowed
    · rw [concat_eq_append, ← cons_append, ← append_assoc] at hsplit
      exact h.allowed before e after (append_inj' hsplit rfl).1

/-! ## Calls with the lock -/

def Call.recordId : Call → Option String
  | updateStatus id _ _ | updateMutation id _ => some id
  | append _ _ _ | compact _ _ => none

/-- A call between getting the lock and releasing it. -/
def Phase.running : Phase → Bool
  | waiting | done _ => false
  | sequencing _ _ | sequenced _ _ _ | finding _ | found _ | listing | listed _ | writing _ _
  | written _ _ => true

/-- A call that may have written. -/
def Phase.wrote : Phase → Bool
  | written _ _ | done _ => true
  | waiting | sequencing _ _ | sequenced _ _ _ | finding _ | found _ | listing | listed _
  | writing _ _ => false

/-- What a call has read is the log as it is. -/
def PhaseOk (p : Platform) (s : Store) (i : ℕ) (c : CallState) : Prop :=
  match c.phase with
  | .sequencing _ id => s.FreshId id
  | .sequenced _ id sequence => s.FreshId id ∧ s.FreshSequence sequence
  | .finding id => ∀ id', c.call.recordId = some id' → id' = id
  | .found rawRecord =>
    ∀ id, c.call.recordId = some id → rawRecord = s.records.find? (·.id = id)
  | .listed records => records = s.records
  | .writing op event => WriteOk p s c.call op event
  | .written op event => (i, event) ∈ s.history ∧ event.Reports op.result
  | .done (.ok result) => (∃ event, (i, event) ∈ s.history ∧ event.Reports result) ∨
      result = .deletedRecordIds [] ∧ ∃ n ms, c.call = .compact n ms
  | .waiting | .listing | .done (.error _) => True

theorem PhaseOk.frame (h : PhaseOk p s i c) (hc : c.phase.running = false)
    (hhistory : ∀ x ∈ s.history, x ∈ s'.history) : PhaseOk p s' i c := by
  obtain ⟨call, phase⟩ := c
  cases phase with
  | waiting => trivial
  | done result =>
    cases result with
    | error message => trivial
    | ok result => exact Or.imp_left (fun ⟨e, he, hreports⟩ => ⟨e, hhistory _ he, hreports⟩) h
  | sequencing | sequenced | finding | found | listing | listed | writing | written => cases hc

variable {r : LocalMutationLogRecord}

variable {id : String}

theorem updateRecord_apply {records : List LocalMutationLogRecord} {raw : LocalMutationLogRecord}
    {event : LogEvent} (hids : (records.map (·.id)).Nodup)
    (hraw : records.find? (·.id = id) = some raw) (hid : r.id = raw.id) (hr : event.update raw = r)
    (hother : ∀ t : LocalMutationLogRecord, t.id ≠ id → event.update t = t) :
    (StorageWrite.updateRecord r).apply records = records.map event.update := by
  have hmem := mem_of_find?_eq_some hraw
  have hrawid : raw.id = id := by simpa using find?_some hraw
  refine map_congr_left fun t ht => ?_
  by_cases htid : t.id = id
  · obtain rfl : t = raw := inj_on_of_nodup_map hids ht hmem (htid.trans hrawid.symm)
    rw [if_pos hid.symm]
    exact hr.symm
  · rw [if_neg fun heq => htid (heq.trans (hid.trans hrawid))]
    exact (hother t htid).symm

theorem updateRecord_stored {records : List LocalMutationLogRecord}
    (hstored : ∀ t ∈ records, Stored p t) (hr : Stored p r) :
    ∀ t ∈ (StorageWrite.updateRecord r).apply records, Stored p t := by
  intro t ht
  obtain ⟨u, hu, rfl⟩ := mem_map.mp ht
  split
  · exact hr
  · exact hstored u hu

theorem normalizeRecordList_records (h : s.Ok p) : normalizeRecordList p s.records = .ok s.records :=
  normalizeRecordList_stored h.stored h.ordered

theorem found_stored (h : s.Ok p) :
    ∀ r, s.records.find? (·.id = id) = some r → Stored p r := fun r hr =>
  h.stored r (mem_of_find?_eq_some hr)

theorem appended_writeOk {dependencies : List LocalMutationDependency} {mutation : JsValue}
    {signedMutation : Option JsValue} {timestamp : ℤ} {sequence : ℕ} (h : s.Ok p)
    (hid : s.FreshId id) (hsequence : s.FreshSequence sequence)
    (hr : appendedRecord p dependencies mutation signedMutation timestamp id sequence = .ok r) :
    WriteOk p s (.append dependencies mutation signedMutation) (.appendRecord r) (.appended r) := by
  obtain ⟨hstored, rfl, rfl, hstatus, hdependencies, hresult, hsigned, hmutation⟩ :=
    appendedRecord_ok hr
  refine ⟨⟨hstatus, hdependencies, hresult, hsigned, hmutation⟩, rfl, hstatus, rfl, ?_, ?_⟩
  · intro t ht
    rcases mem_append.mp ht with ht | ht
    · exact h.stored t ht
    · obtain rfl := mem_singleton.mp ht
      exact hstored
  · intro t ht
    cases ht
    exact ⟨hid, hsequence⟩

variable {now : Option ℤ}

theorem statusSet_writeOk {status : LocalMutationStatus} {syncResult : Option JsValue} (h : s.Ok p)
    (hr : statusRecord p id status syncResult (s.records.find? (·.id = id)) now = .ok r) :
    WriteOk p s (.updateStatus id status syncResult) (.updateRecord r)
      (.statusSet id status r.updatedAt (syncResult.map viaJson)) := by
  obtain ⟨hstored, raw, hraw, heq⟩ := statusRecord_ok (found_stored h) hr
  have hrawid : raw.id = id := by simpa using find?_some hraw
  have hid : r.id = raw.id := by rw [heq]
  have hstatus : r.status = status := by rw [heq]
  have hupdate : (LogEvent.statusSet id status r.updatedAt (syncResult.map viaJson)).update raw = r := by
    rw [LogEvent.update, if_pos hrawid]
    exact heq.symm
  have hother : ∀ t : LocalMutationLogRecord, t.id ≠ id →
      (LogEvent.statusSet id status r.updatedAt (syncResult.map viaJson)).update t = t := by
    intro t ht
    rw [LogEvent.update, if_neg ht]
  exact ⟨⟨rfl, rfl, rfl⟩, ⟨hid.trans hrawid, hstatus⟩, ⟨raw, mem_of_find?_eq_some hraw, hrawid⟩,
    updateRecord_apply h.ids_replay hraw hid hupdate hother, updateRecord_stored h.stored hstored,
    fun t ht => absurd ht.symm (Option.some_ne_none t)⟩

theorem mutationSet_writeOk {mutation : JsValue} (h : s.Ok p)
    (hr : mutationRecord p id mutation (s.records.find? (·.id = id)) now = .ok r) :
    WriteOk p s (.updateMutation id mutation) (.updateRecord r)
      (.mutationSet id r.mutation r.updatedAt) := by
  obtain ⟨hstored, raw, m, hraw, hpending, hm, heq⟩ := mutationRecord_ok (found_stored h) hr
  have hrawid : raw.id = id := by simpa using find?_some hraw
  have hid : r.id = raw.id := by rw [heq]
  have hmutation : r.mutation = m.mapValues viaJson := by rw [heq]
  have hupdate : (LogEvent.mutationSet id r.mutation r.updatedAt).update raw = r := by
    rw [LogEvent.update, if_pos hrawid, hmutation]
    exact heq.symm
  have hother : ∀ t : LocalMutationLogRecord, t.id ≠ id →
      (LogEvent.mutationSet id r.mutation r.updatedAt).update t = t := by
    intro t ht
    rw [LogEvent.update, if_neg ht]
  exact ⟨⟨rfl, m, hm, hmutation⟩, ⟨hid.trans hrawid, rfl⟩,
    ⟨raw, mem_of_find?_eq_some hraw, hrawid, hpending⟩,
    updateRecord_apply h.ids_replay hraw hid hupdate hother, updateRecord_stored h.stored hstored,
    fun t ht => absurd ht.symm (Option.some_ne_none t)⟩

theorem compacted_writeOk {maxTerminalRecords terminalRetentionMs : Option ℕ}
    {ids : List String} (h : s.Ok p)
    (hids : compactIds s.records maxTerminalRecords terminalRetentionMs now = ids) :
    WriteOk p s (.compact maxTerminalRecords terminalRetentionMs) (.deleteRecords ids)
      (.compacted ids) := by
  refine ⟨trivial, rfl, fun id hid => ?_, rfl, fun t ht => h.stored t (mem_filter.mp ht).1,
    fun t ht => absurd ht.symm (Option.some_ne_none t)⟩
  rw [← hids] at hid
  exact compactIds_mem hid

/-- **A call goes on to a write that does to the log what it asks for, or is done.** -/
theorem answer_ok {phase : Phase} (h : s.Ok p) (hc : PhaseOk p s i c)
    (hanswer : answer p now c.call c.phase = some phase) :
    PhaseOk p s i ⟨c.call, phase⟩ ∧
      ((∃ op event, phase = .writing op event) ∨ ∃ result, phase = .done result) := by
  obtain ⟨call, given⟩ := c
  cases given with
  | sequenced timestamp id sequence =>
    cases call with
    | append dependencies mutation signedMutation =>
      simp only [answer] at hanswer
      split at hanswer
      · rename_i r hr
        cases hanswer
        exact ⟨appended_writeOk h hc.1 hc.2 hr, .inl ⟨_, _, rfl⟩⟩
      · cases hanswer
        exact ⟨trivial, .inr ⟨_, rfl⟩⟩
    | updateStatus | updateMutation | compact => cases hanswer
  | found rawRecord =>
    cases call with
    | updateStatus id status syncResult =>
      obtain rfl : rawRecord = _ := hc id rfl
      simp only [answer] at hanswer
      split at hanswer
      · rename_i r hr
        cases hanswer
        exact ⟨statusSet_writeOk h hr, .inl ⟨_, _, rfl⟩⟩
      · cases hanswer
        exact ⟨trivial, .inr ⟨_, rfl⟩⟩
    | updateMutation id mutation =>
      obtain rfl : rawRecord = _ := hc id rfl
      simp only [answer] at hanswer
      split at hanswer
      · rename_i r hr
        cases hanswer
        exact ⟨mutationSet_writeOk h hr, .inl ⟨_, _, rfl⟩⟩
      · cases hanswer
        exact ⟨trivial, .inr ⟨_, rfl⟩⟩
    | append | compact => cases hanswer
  | listed records =>
    cases call with
    | compact maxTerminalRecords terminalRetentionMs =>
      obtain rfl : records = s.records := hc
      simp only [answer, normalizeRecordList_records h] at hanswer
      split at hanswer
      · cases hanswer
        exact ⟨.inr ⟨rfl, _, _, rfl⟩, .inr ⟨_, rfl⟩⟩
      · rename_i id ids hids
        cases hanswer
        exact ⟨compacted_writeOk h hids, .inl ⟨_, _, rfl⟩⟩
    | append | updateStatus | updateMutation => cases hanswer
  | written op event =>
    cases hanswer
    exact ⟨.inl ⟨event, hc⟩, .inr ⟨_, rfl⟩⟩
  | waiting | sequencing | finding | listing | writing | done => cases hanswer

end

/-! ## Steps -/

section
variable {p : Platform} {w w' : World} {i : ℕ} {c : CallState}

/-- What the calls say about the lock, and what the log says about the calls. -/
structure Inv (p : Platform) (w : World) : Prop where
  store : w.store.Ok p
  lock : w.lock.Valid
  length : w.calls.length = w.lock.tickets.length
  entered : ∀ {i c}, w.calls[i]? = some c → c.phase ≠ .waiting → ∀ j < i, w.lock.Released j
  released : ∀ {i c}, w.calls[i]? = some c → (w.lock.Released i ↔ ∃ result, c.phase = .done result)
  phase : ∀ {i c}, w.calls[i]? = some c → PhaseOk p w.store i c
  in_order : (w.store.history.map Prod.fst).Pairwise (· < ·)
  asked : ∀ {i event}, (i, event) ∈ w.store.history →
    ∃ c, w.calls[i]? = some c ∧ c.call.Asks p event ∧ c.phase.wrote = true

/-- A call has the lock. -/
structure Holds (w : World) (i : ℕ) : Prop where
  before : ∀ j < i, w.lock.Released j
  notReleased : ¬ w.lock.Released i

theorem inv_start : Inv p World.start where
  store := by
    have hnone : ∀ {α : Type} {a : α}, a ∉ ([] : List α) := not_mem_nil
    refine ⟨rfl, fun r hr => absurd hr hnone, .nil, .nil, fun r hr => absurd hr hnone,
      fun r hr => absurd hr hnone, fun before e after h => ?_⟩
    have hnil : ([] : List LogEvent) = before ++ e :: after := h
    simp at hnil
  lock := PromiseLock.valid_empty
  length := rfl
  entered h := by cases h
  released h := by cases h
  phase h := by cases h
  in_order := .nil
  asked h := by cases h

theorem Inv.holds (h : Inv p w) (hi : w.calls[i]? = some c) (hc : c.phase.running = true) :
    Holds w i := by
  refine ⟨h.entered hi fun hwaiting => ?_, fun hreleased => ?_⟩
  · rw [hwaiting] at hc
    cases hc
  · obtain ⟨result, hdone⟩ := (h.released hi).mp hreleased
    rw [hdone] at hc
    cases hc

theorem Inv.not_running (h : Inv p w) (hi : Holds w i) {k : ℕ} {c : CallState}
    (hk : w.calls[k]? = some c) (hne : k ≠ i) : c.phase.running = false := by
  by_contra hrunning
  have hk' := h.holds hk (Bool.not_eq_false _ ▸ hrunning)
  exact hne (PromiseLock.unique_holder hk'.before hk'.notReleased hi.before hi.notReleased)

/-- The lock after a call's next phase. -/
def lockAfter (l : PromiseLock) (i : ℕ) : Phase → PromiseLock
  | .done _ => l.release i
  | .waiting | .sequencing _ _ | .sequenced _ _ _ | .finding _ | .found _ | .listing | .listed _
  | .writing _ _ | .written _ _ => l

theorem released_lockAfter {l : PromiseLock} {phase : Phase} (hi : i < l.tickets.length) {k : ℕ} :
    (lockAfter l i phase).Released k ↔ (k = i ∧ ∃ result, phase = .done result) ∨ l.Released k := by
  cases phase with
  | done result =>
    refine (PromiseLock.released_release_iff hi).trans (or_congr_left ?_)
    exact ⟨fun h => ⟨h, result, rfl⟩, fun h => h.1⟩
  | _ => simp [lockAfter]

/-- **What the call with the lock does keeps the invariant.** -/
theorem Inv.advance {s : Store} (h : Inv p w) (phase : Phase) (hi : w.calls[i]? = some c)
    (hold : Holds w i) (hs : s.Ok p) (hphase : PhaseOk p s i ⟨c.call, phase⟩)
    (hwaiting : phase ≠ .waiting) (hwrote : c.phase.wrote = true → phase.wrote = true)
    (hhistory : s.history = w.store.history ∨
      ∃ event, s.history = w.store.history ++ [(i, event)] ∧ c.call.Asks p event ∧
        c.phase.wrote = false ∧ phase.wrote = true) :
    Inv p { store := s, lock := lockAfter w.lock i phase, calls := (w.setPhase i phase).calls } := by
  have hlt : i < w.lock.tickets.length := h.length ▸ (List.getElem?_eq_some_iff.mp hi).1
  have hlength : (lockAfter w.lock i phase).tickets.length = w.lock.tickets.length := by
    cases phase with
    | done => exact PromiseLock.length_release
    | _ => rfl
  have hcalls : ∀ {k : ℕ} {c' : CallState}, (w.setPhase i phase).calls[k]? = some c' →
      (k = i ∧ c' = ⟨c.call, phase⟩) ∨ (k ≠ i ∧ w.calls[k]? = some c') := by
    intro k c' hk
    rw [World.setPhase, getElem?_modify] at hk
    obtain ⟨d, hd, rfl⟩ := Option.map_eq_some_iff.mp hk
    rcases eq_or_ne k i with rfl | hne
    · cases hi.symm.trans hd
      exact .inl ⟨rfl, if_pos rfl⟩
    · rw [if_neg hne.symm]
      exact .inr ⟨hne, hd⟩
  have hself : (w.setPhase i phase).calls[i]? = some ⟨c.call, phase⟩ := by
    rw [World.setPhase, getElem?_modify, hi]
    simp
  have hother : ∀ {k : ℕ} {c' : CallState}, k ≠ i → w.calls[k]? = some c' →
      (w.setPhase i phase).calls[k]? = some c' := by
    intro k c' hne hk
    rw [World.setPhase, getElem?_modify, hk]
    simp [hne.symm]
  have hkept : ∀ x ∈ w.store.history, x ∈ s.history := by
    intro x hx
    rcases hhistory with hsame | ⟨event, hnew, -⟩
    · rw [hsame]
      exact hx
    · rw [hnew]
      exact mem_append_left _ hx
  have hask : ∀ {k event}, (k, event) ∈ w.store.history → ∃ c',
      (w.setPhase i phase).calls[k]? = some c' ∧ c'.call.Asks p event ∧ c'.phase.wrote = true := by
    intro k event hk
    obtain ⟨c', hc', hasks, hc'wrote⟩ := h.asked hk
    rcases eq_or_ne k i with rfl | hne
    · cases hi.symm.trans hc'
      exact ⟨_, hself, hasks, hwrote hc'wrote⟩
    · exact ⟨c', hother hne hc', hasks, hc'wrote⟩
  refine ⟨hs, ?_, ?_, ?_, ?_, ?_, ?_, ?_⟩
  · cases phase with
    | done => exact h.lock.release hold.before hlt
    | _ => exact h.lock
  · rw [hlength, ← h.length]
    exact length_modify ..
  · intro k c' hk hne j hj
    refine (released_lockAfter hlt).mpr (.inr ?_)
    rcases hcalls hk with ⟨rfl, -⟩ | ⟨-, hk⟩
    · exact hold.before j hj
    · exact h.entered hk hne j hj
  · intro k c' hk
    rw [released_lockAfter hlt]
    rcases hcalls hk with ⟨rfl, rfl⟩ | ⟨hne, hk⟩
    · simp [hold.notReleased]
    · simp [hne, h.released hk]
  · intro k c' hk
    rcases hcalls hk with ⟨rfl, rfl⟩ | ⟨hne, hk⟩
    · exact hphase
    · exact (h.phase hk).frame (h.not_running hold hk hne) hkept
  · rcases hhistory with hsame | ⟨event, hnew, -, hfirst, -⟩
    · rw [hsame]
      exact h.in_order
    · rw [hnew, map_append]
      refine pairwise_append.mpr ⟨h.in_order, pairwise_singleton _ _, fun k hk j hj => ?_⟩
      rw [show j = i from mem_singleton.mp hj]
      obtain ⟨⟨k', event'⟩, hmem, rfl⟩ := mem_map.mp hk
      obtain ⟨c', hc', -, hc'wrote⟩ := h.asked hmem
      -- the call of an earlier write is done, so it got the lock first
      rcases lt_trichotomy k' i with hearlier | rfl | hgt
      · exact hearlier
      · cases hi.symm.trans hc'
        rw [hfirst] at hc'wrote
        cases hc'wrote
      · refine absurd (h.entered hc' (fun hwait => ?_) i hgt) hold.notReleased
        rw [hwait] at hc'wrote
        cases hc'wrote
  · intro k event hk
    rcases hhistory with hsame | ⟨event', hnew, hasks, -, hwritten⟩
    · rw [hsame] at hk
      exact hask hk
    · rw [hnew] at hk
      rcases mem_append.mp hk with hk | hk
      · exact hask hk
      · obtain ⟨rfl, rfl⟩ := Prod.mk.inj (mem_singleton.mp hk)
        exact ⟨_, hself, hasks, hwritten⟩

theorem Inv.waitForLock (h : Inv p w) (call : Call) : Inv p (w.waitForLock call) := by
  have hcalls : ∀ {k : ℕ} {c' : CallState}, (w.waitForLock call).calls[k]? = some c' →
      w.calls[k]? = some c' ∨ k = w.calls.length ∧ c' = ⟨call, .waiting⟩ := by
    intro k c' hk
    rw [World.waitForLock, getElem?_append] at hk
    split at hk
    · exact .inl hk
    · rw [getElem?_singleton] at hk
      split at hk
      · exact .inr ⟨by omega, (Option.some.inj hk).symm⟩
      · cases hk
  refine ⟨h.store, h.lock.acquire, ?_, ?_, ?_, ?_, h.in_order, ?_⟩
  · show (w.calls ++ [_]).length = _
    rw [length_append, h.length]
    exact PromiseLock.length_acquire.symm
  · intro k c' hk hne j hj
    rcases hcalls hk with hk | ⟨-, rfl⟩
    · exact (h.entered hk hne j hj).acquire
    · exact absurd rfl hne
  · intro k c' hk
    refine PromiseLock.released_acquire_iff.trans ?_
    rcases hcalls hk with hk | ⟨rfl, rfl⟩
    · exact h.released hk
    · constructor
      · intro hreleased
        have hlt := hreleased.lt
        rw [h.length] at hlt
        exact absurd hlt (Nat.lt_irrefl _)
      · rintro ⟨result, hdone⟩
        cases hdone
  · intro k c' hk
    rcases hcalls hk with hk | ⟨rfl, rfl⟩
    · exact h.phase hk
    · trivial
  · intro k event hk
    obtain ⟨c', hc', hasks⟩ := h.asked hk
    exact ⟨c', (List.getElem?_append_left (List.getElem?_eq_some_iff.mp hc').1).trans hc', hasks⟩

theorem Inv.settle {lock : PromiseLock} (h : Inv p w) (hs : w.lock.settle i = some lock) :
    Inv p { w with lock } := by
  have hiff : ∀ j, lock.Released j ↔ w.lock.Released j := fun j =>
    (PromiseLock.released_settle_iff hs).1
  refine ⟨h.store, h.lock.settle hs, ?_, ?_, ?_, h.phase, h.in_order, h.asked⟩
  · exact h.length.trans (PromiseLock.released_settle_iff (j := 0) hs).2.symm
  · intro k c' hk hne j hj
    exact (hiff j).mpr (h.entered hk hne j hj)
  · intro k c' hk
    exact (hiff k).trans (h.released hk)

theorem Inv.setPhase {phase : Phase} (h : Inv p w) (hi : w.calls[i]? = some c) (hold : Holds w i)
    (hphase : PhaseOk p w.store i ⟨c.call, phase⟩) (hrunning : phase.running = true)
    (hwrote : c.phase.wrote = true → phase.wrote = true) : Inv p (w.setPhase i phase) := by
  have hadvance := h.advance _ hi hold h.store hphase (by rintro rfl; cases hrunning) hwrote (.inl rfl)
  cases phase with
  | waiting | done => cases hrunning
  | _ => exact hadvance

theorem Inv.finish {result : Except String Result} (h : Inv p w) (hi : w.calls[i]? = some c)
    (hold : Holds w i) (hphase : PhaseOk p w.store i ⟨c.call, .done result⟩) :
    Inv p (w.finish i result) :=
  h.advance _ hi hold h.store hphase nofun (fun _ => rfl) (.inl rfl)

theorem Inv.enter {call : Call} {now : Option ℤ} {id : String} (h : Inv p w)
    (hi : w.calls[i]? = some ⟨call, .waiting⟩) (hmay : w.lock.mayEnter i = true)
    (hstep : LocalLog.enter w i now id call = some w') : Inv p w' := by
  have hold : Holds w i := by
    refine ⟨h.lock.done_before hmay, fun hreleased => ?_⟩
    obtain ⟨result, hdone⟩ := (h.released hi).mp hreleased
    cases hdone
  cases call with
  | append dependencies mutation signedMutation =>
    simp only [LocalLog.enter] at hstep
    split at hstep
    · rename_i timestamp htimestamp
      split at hstep
      · cases hstep
      · rename_i hnew
        cases hstep
        -- the generator's id is new, so no record has it
        have hstore : Store.Ok p { w.store with usedIds := id :: w.store.usedIds } :=
          { h.store with used := fun r hr => mem_cons_of_mem id (h.store.used r hr) }
        have hfresh : Store.FreshId { w.store with usedIds := id :: w.store.usedIds } id :=
          ⟨mem_cons_self, fun r hr heq => hnew (heq ▸ h.store.used r hr)⟩
        exact h.advance (.sequencing timestamp id) hi hold hstore hfresh nofun
          (fun hw => hw) (.inl rfl)
    · cases hstep
      exact h.finish hi hold trivial
  | updateStatus recordId status syncResult =>
    cases hstep
    exact h.setPhase hi hold (fun id' hid => Option.some.inj hid.symm) rfl (fun hw => hw)
  | updateMutation recordId mutation =>
    cases hstep
    exact h.setPhase hi hold (fun id' hid => Option.some.inj hid.symm) rfl (fun hw => hw)
  | compact maxTerminalRecords terminalRetentionMs =>
    cases hstep
    exact h.setPhase hi hold trivial rfl (fun hw => hw)

theorem Inv.perform {sequence : ℕ} (h : Inv p w) (hi : w.calls[i]? = some c)
    (hstep : LocalLog.perform w i sequence c.phase = some w') : Inv p w' := by
  have hc := h.phase hi
  obtain ⟨call, phase⟩ := c
  cases phase with
  | sequencing timestamp id =>
    simp only [LocalLog.perform] at hstep
    split at hstep
    · rename_i hnext
      cases hstep
      have hstore : Store.Ok p { w.store with counter := sequence } :=
        { h.store with counted := fun r hr => (h.store.counted r hr).trans hnext.le }
      have hfresh : Store.FreshId { w.store with counter := sequence } id := ⟨hc.used, hc.new⟩
      have habove : Store.FreshSequence { w.store with counter := sequence } sequence :=
        ⟨le_refl _, fun r hr => (h.store.counted r hr).trans_lt hnext⟩
      exact h.advance (.sequenced timestamp id sequence) hi (h.holds hi rfl) hstore
        ⟨hfresh, habove⟩ nofun nofun (.inl rfl)
    · cases hstep
  | finding id =>
    cases hstep
    refine h.setPhase hi (h.holds hi rfl) (fun id' hid => ?_) rfl nofun
    rw [hc id' hid]
  | listing =>
    cases hstep
    exact h.setPhase hi (h.holds hi rfl) rfl rfl nofun
  | writing op event =>
    cases hstep
    refine h.advance (.written op event) hi (h.holds hi rfl) (h.store.write hc) ?_ nofun
      nofun (.inr ⟨event, rfl, hc.asks, rfl, rfl⟩)
    exact ⟨mem_append_right _ (mem_singleton_self _), hc.reports⟩
  | waiting | sequenced | found | listed | written | done => cases hstep

theorem Inv.reject {message : String} (h : Inv p w) (hi : w.calls[i]? = some c)
    (hstep : LocalLog.reject w i message c.phase = some w') : Inv p w' := by
  obtain ⟨call, phase⟩ := c
  cases phase with
  | sequencing | finding | listing | writing =>
    cases hstep
    exact h.finish hi (h.holds hi rfl) trivial
  | waiting | sequenced | found | listed | written | done => cases hstep

theorem Inv.resume {now : Option ℤ} (h : Inv p w) (hi : w.calls[i]? = some c)
    (hstep : LocalLog.resume p w i now c = some w') : Inv p w' := by
  unfold LocalLog.resume at hstep
  cases hanswer : answer p now c.call c.phase with
  | none =>
    rw [hanswer] at hstep
    cases hstep
  | some phase =>
    rw [hanswer] at hstep
    obtain ⟨hphase, hkind⟩ := answer_ok h.store (h.phase hi) hanswer
    have hrunning : c.phase.running = true := by
      cases hc : c.phase with
      | waiting | done =>
        rw [hc] at hanswer
        cases hanswer
      | _ => rfl
    have hold := h.holds hi hrunning
    rcases hkind with ⟨op, event, rfl⟩ | ⟨result, rfl⟩
    · cases hstep
      refine h.setPhase hi hold hphase rfl fun hwrote => ?_
      cases hc : c.phase with
      | written =>
        rw [hc] at hanswer
        cases hanswer
      | done =>
        rw [hc] at hrunning
        cases hrunning
      | _ =>
        rw [hc] at hwrote
        cases hwrote
    · cases hstep
      exact h.finish hi hold hphase

theorem inv_step {a : Act} (h : Inv p w) (hstep : step p w a = some w') : Inv p w' := by
  cases a with
  | call call =>
    simp only [step] at hstep
    split at hstep
    · cases hstep
      exact h.waitForLock call
    · cases hstep
      exact h
  | settle i =>
    obtain ⟨lock, hlock, rfl⟩ := Option.map_eq_some_iff.mp hstep
    exact h.settle hlock
  | enter i now id =>
    simp only [step] at hstep
    split at hstep
    · rename_i call hi
      split at hstep
      · rename_i hmay
        exact h.enter hi hmay hstep
      · cases hstep
    · cases hstep
  | perform i sequence =>
    obtain ⟨c, hi, hstep⟩ := Option.bind_eq_some_iff.mp hstep
    exact h.perform hi hstep
  | reject i message =>
    obtain ⟨c, hi, hstep⟩ := Option.bind_eq_some_iff.mp hstep
    exact h.reject hi hstep
  | resume i now =>
    obtain ⟨c, hi, hstep⟩ := Option.bind_eq_some_iff.mp hstep
    exact h.resume hi hstep

theorem inv_run {as : List Act} (h : runActions (step p) World.start as = some w) : Inv p w :=
  runActions_keeps (fun _ _ _ hi hs => inv_step hi hs) inv_start h

/-- What holds of a log and its calls in every run. -/
structure Serialized (p : Platform) (w : World) : Prop where
  /-- the log is what its changes make of it, each as its call asked for it -/
  records_eq : w.store.records = replay w.store.events
  /-- the changes are in the order of their calls -/
  in_order : (w.store.history.map Prod.fst).Pairwise (· < ·)
  asked : ∀ i event, (i, event) ∈ w.store.history →
    ∃ c, w.calls[i]? = some c ∧ c.call.Asks p event
  /-- a call that returned has made its change, or there was nothing to compact -/
  accepted : ∀ i call result, w.calls[i]? = some ⟨call, .done (.ok result)⟩ →
    (∃ event, (i, event) ∈ w.store.history ∧ event.Reports result) ∨
      result = .deletedRecordIds [] ∧ ∃ n ms, call = .compact n ms
  /-- an appended record is in the log unless a compaction has deleted it -/
  not_lost : ∀ before r after, w.store.events = before ++ .appended r :: after →
    (∃ t ∈ w.store.records, t.id = r.id ∧ t.sequence = r.sequence) ∨ ∃ e ∈ after, e.Deletes r.id
  /-- a record has the last status and the last mutation that it was given -/
  not_overwritten : ∀ t ∈ w.store.records, ∃ before r after,
    w.store.events = before ++ .appended r :: after ∧ t.id = r.id ∧ t.sequence = r.sequence ∧
      t.status = (lastStatus r.id after).getD r.status ∧
      t.mutation = (lastMutation r.id after).getD r.mutation
  /-- sequences are unique and increase in append order -/
  sequences : (appendedRecords w.store.events).Pairwise fun r t => r.sequence < t.sequence
  /-- a compaction deletes terminal records that no remaining open record names as a dependency -/
  compaction : ∀ before ids after, w.store.events = before ++ .compacted ids :: after →
    ∀ r ∈ replay before, r.id ∈ ids → isTerminal r.status = true ∧
      ∀ t ∈ replay (before ++ [.compacted ids]), isOpen t.status = true →
        ∀ d ∈ t.dependencies, d.clientMutationId ≠ r.mutation.clientMutationId

/-- **In every interleaving, the calls of a log have the effects that they would have one after the
    other.** -/
theorem log_runs {as : List Act} (h : runActions (step p) World.start as = some w) :
    Serialized p w := by
  have hinv := inv_run h
  have hstore := hinv.store
  refine ⟨hstore.records_eq, hinv.in_order, fun i event hi => ?_, fun i call result hi => hinv.phase hi,
    fun before r after hsplit => ?_, fun t ht => ?_, hstore.sequences,
    fun before ids after hsplit r hr hid => ?_⟩
  · obtain ⟨c, hc, hasks, -⟩ := hinv.asked hi
    exact ⟨c, hc, hasks⟩
  · by_cases hdeleted : ∃ e ∈ after, e.Deletes r.id
    · exact .inr hdeleted
    · refine .inl ?_
      rw [hstore.records_eq, hsplit]
      have hkeeps := replay_keeps before fun e he hdel => hdeleted ⟨e, he, hdel⟩
      exact ⟨_, hkeeps.1, (foldl_update_key after r).1, (foldl_update_key after r).2.1⟩
  · rw [hstore.records_eq] at ht
    obtain ⟨before, r, after, hsplit, rfl⟩ := mem_replay ht
    exact ⟨before, r, after, hsplit, (foldl_update_key after r).1, (foldl_update_key after r).2.1,
      foldl_update_status, foldl_update_mutation⟩
  · obtain ⟨r', hr', hid', hterminal, hfree⟩ := hstore.allowed before _ after hsplit r.id hid
    have hids : ((replay before).map (·.id)).Nodup := by
      have hsub := (replay_keys before).map Prod.fst
      rw [map_map, map_map] at hsub
      refine hsub.nodup (List.Nodup.sublist ?_ hstore.ids)
      rw [hsplit, appendedRecords_append, map_append]
      exact sublist_append_left _ _
    obtain rfl : r' = r := inj_on_of_nodup_map hids hr' hr hid'
    refine ⟨hterminal, fun t ht hopen => ?_⟩
    rw [replay_concat] at ht
    exact hfree t (mem_filter.mp ht).1 hopen

end

/-! ## Chains of dependencies -/

/-- A record depends on another of the log, directly or through other records. -/
def ReliesOn (records : List LocalMutationLogRecord) :
    LocalMutationLogRecord → LocalMutationLogRecord → Prop :=
  Relation.TransGen fun t r =>
    r ∈ records ∧ ∃ d ∈ t.dependencies, d.clientMutationId = r.mutation.clientMutationId

def chainMutation (clientMutationId : String) : DeviceIdentity.SyncMutation :=
  { DeviceIdentity.demoMutation .null with clientMutationId, attributes := none }

def alone (i : ℕ) (c : Call) (id : String) : List Act :=
  [.call c, .enter i (some i) id, .perform i (i + 1), .resume i (some i), .perform i 0,
    .resume i none]

/-- A mutation depends on a synced one, which depends on another synced one. -/
def chainRun : List Act :=
  alone 0 (.append [] (chainMutation "m1").toValue none) "a" ++
  alone 1 (.append [⟨"m1", "Task"⟩] (chainMutation "m2").toValue none) "b" ++
  alone 2 (.append [⟨"m2", "Task"⟩] (chainMutation "m3").toValue none) "c" ++
  alone 3 (.updateStatus "a" .synced none) "" ++
  alone 4 (.updateStatus "b" .synced none) "" ++
  alone 5 (.compact (some 0) none) ""

def chainWorld : World :=
  (runActions (step DeviceIdentity.checksumPlatform) World.start chainRun).getD World.start

theorem chainWorld_reached :
    runActions (step DeviceIdentity.checksumPlatform) World.start chainRun = some chainWorld := rfl

theorem chain_serialized :
    runActions (step DeviceIdentity.checksumPlatform) World.start chainRun = some chainWorld ∧
      Serialized DeviceIdentity.checksumPlatform chainWorld :=
  ⟨chainWorld_reached, log_runs chainWorld_reached⟩

def chainRecord (id clientMutationId : String) (n : ℕ) (dependencies : List LocalMutationDependency)
    (status : LocalMutationStatus) (updatedAt : ℤ) : LocalMutationLogRecord where
  createdAt := n
  dependencies := dependencies
  id := id
  mutation := chainMutation clientMutationId
  sequence := n + 1
  signedMutation := none
  status := status
  syncResult := none
  updatedAt := updatedAt

/-- **Compaction deletes a record that a pending one depends on through another record.** -/
theorem chain_compacted : ¬ ∀ (p : Platform) (as : List Act) (w : World),
    runActions (step p) World.start as = some w → ∀ before ids after,
      w.store.events = before ++ .compacted ids :: after →
        ∀ t ∈ replay (before ++ [.compacted ids]), isOpen t.status = true →
          ∀ r ∈ replay before, ReliesOn (replay before) t r → r.id ∉ ids := by
  intro hclaim
  let before : List LogEvent :=
    [.appended (chainRecord "a" "m1" 0 [] .pending 0),
     .appended (chainRecord "b" "m2" 1 [⟨"m1", "Task"⟩] .pending 1),
     .appended (chainRecord "c" "m3" 2 [⟨"m2", "Task"⟩] .pending 2),
     .statusSet "a" .synced 3 none, .statusSet "b" .synced 4 none]
  let a := chainRecord "a" "m1" 0 [] .synced 3
  let b := chainRecord "b" "m2" 1 [⟨"m1", "Task"⟩] .synced 4
  let c := chainRecord "c" "m3" 2 [⟨"m2", "Task"⟩] .pending 2
  have hbefore : replay before = [a, b, c] := rfl
  have hafter : replay (before ++ [.compacted ["a"]]) = [b, c] := rfl
  have hb : b ∈ replay before := hbefore ▸ by simp
  have ha : a ∈ replay before := hbefore ▸ by simp
  have hc : c ∈ replay (before ++ [.compacted ["a"]]) := hafter ▸ by simp
  have hrelies : ReliesOn (replay before) c a :=
    .tail (.single ⟨hb, ⟨"m2", "Task"⟩, List.mem_singleton_self _, rfl⟩)
      ⟨ha, ⟨"m1", "Task"⟩, List.mem_singleton_self _, rfl⟩
  exact hclaim DeviceIdentity.checksumPlatform chainRun chainWorld chainWorld_reached before ["a"] []
    rfl c hc rfl a ha hrelies (mem_singleton_self _)

end Velocious.LocalLog
