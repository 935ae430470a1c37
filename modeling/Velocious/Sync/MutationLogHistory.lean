/-
  What the mutation log is for: its records are what a history of accepted changes makes of them.

  An event changes what its call asked for, and nothing else: a status change keeps the mutation,
  a mutation change keeps the status, a compaction removes whole records. `replay` is the log
  after a history.

  * `replay_keys`: the log's ids and sequences are those of the appended records, in that order.
-/
import Velocious.Sync.MutationLogRecords

namespace Velocious.LocalLog

open Foundation Foundation.JsValue List

/-- An accepted change of the log. -/
inductive LogEvent where
  | appended (record : LocalMutationLogRecord)
  | statusSet (id : String) (status : LocalMutationStatus) (updatedAt : ℤ)
      (syncResult : Option JsValue)
  | mutationSet (id : String) (mutation : DeviceIdentity.SyncMutation) (updatedAt : ℤ)
  | compacted (ids : List String)

namespace LogEvent

def update (r : LocalMutationLogRecord) : LogEvent → LocalMutationLogRecord
  | appended _ | compacted _ => r
  | statusSet id status updatedAt syncResult =>
    if r.id = id then { r with status, updatedAt, syncResult := syncResult.or r.syncResult } else r
  | mutationSet id mutation updatedAt => if r.id = id then { r with mutation, updatedAt } else r

/-- The log after a change. -/
def apply (records : List LocalMutationLogRecord) : LogEvent → List LocalMutationLogRecord
  | appended record => records ++ [record]
  | statusSet id status updatedAt syncResult =>
    records.map fun r => (statusSet id status updatedAt syncResult).update r
  | mutationSet id mutation updatedAt =>
    records.map fun r => (mutationSet id mutation updatedAt).update r
  | compacted ids => records.filter fun r => r.id ∉ ids

def added : LogEvent → Option LocalMutationLogRecord
  | appended record => some record
  | statusSet _ _ _ _ | mutationSet _ _ _ | compacted _ => none

/-- The status that a change gives a record. -/
def statusFor (id : String) : LogEvent → Option LocalMutationStatus
  | statusSet id' status _ _ => if id = id' then some status else none
  | appended _ | mutationSet _ _ _ | compacted _ => none

/-- The mutation that a change gives a record. -/
def mutationFor (id : String) : LogEvent → Option DeviceIdentity.SyncMutation
  | mutationSet id' mutation _ => if id = id' then some mutation else none
  | appended _ | statusSet _ _ _ _ | compacted _ => none

/-- Whether a change deletes a record. -/
def Deletes (id : String) : LogEvent → Prop
  | compacted ids => id ∈ ids
  | appended _ | statusSet _ _ _ _ | mutationSet _ _ _ => False

end LogEvent

def replay (events : List LogEvent) : List LocalMutationLogRecord :=
  events.foldl LogEvent.apply []

def appendedRecords (events : List LogEvent) : List LocalMutationLogRecord :=
  events.filterMap LogEvent.added

/-- The last status that a history gives a record. -/
def lastStatus (id : String) (events : List LogEvent) : Option LocalMutationStatus :=
  (events.filterMap (LogEvent.statusFor id)).getLast?

/-- The last mutation that a history gives a record. -/
def lastMutation (id : String) (events : List LogEvent) : Option DeviceIdentity.SyncMutation :=
  (events.filterMap (LogEvent.mutationFor id)).getLast?

theorem replay_concat (events : List LogEvent) (e : LogEvent) :
    replay (events ++ [e]) = e.apply (replay events) := by
  rw [replay, foldl_append]
  rfl

theorem appendedRecords_concat (events : List LogEvent) (e : LogEvent) :
    appendedRecords (events ++ [e]) = appendedRecords events ++ e.added.toList := by
  cases h : e.added <;> simp [h, appendedRecords]

theorem appendedRecords_append (before after : List LogEvent) :
    appendedRecords (before ++ after) = appendedRecords before ++ appendedRecords after :=
  filterMap_append

/-! ## One change -/

section
variable {records : List LocalMutationLogRecord} {r s : LocalMutationLogRecord} {e : LogEvent}

@[simp] theorem update_id : (e.update r).id = r.id := by
  cases e <;> simp only [LogEvent.update] <;> split <;> rfl

@[simp] theorem update_sequence : (e.update r).sequence = r.sequence := by
  cases e <;> simp only [LogEvent.update] <;> split <;> rfl

@[simp] theorem update_dependencies : (e.update r).dependencies = r.dependencies := by
  cases e <;> simp only [LogEvent.update] <;> split <;> rfl

theorem update_status : (e.update r).status = (e.statusFor r.id).getD r.status := by
  cases e with
  | statusSet id => by_cases h : r.id = id <;> simp [LogEvent.update, LogEvent.statusFor, h]
  | mutationSet id => by_cases h : r.id = id <;> simp [LogEvent.update, LogEvent.statusFor, h]
  | appended | compacted => rfl

theorem update_mutation : (e.update r).mutation = (e.mutationFor r.id).getD r.mutation := by
  cases e with
  | statusSet id => by_cases h : r.id = id <;> simp [LogEvent.update, LogEvent.mutationFor, h]
  | mutationSet id => by_cases h : r.id = id <;> simp [LogEvent.update, LogEvent.mutationFor, h]
  | appended | compacted => rfl

theorem mem_apply (h : s ∈ e.apply records) :
    e = .appended s ∨ ∃ r ∈ records, ¬ e.Deletes r.id ∧ s = e.update r := by
  cases e with
  | appended record =>
    rcases mem_append.mp h with h | h
    · exact .inr ⟨s, h, id, rfl⟩
    · exact .inl (congrArg _ (mem_singleton.mp h).symm)
  | statusSet =>
    obtain ⟨r, hr, rfl⟩ := mem_map.mp h
    exact .inr ⟨r, hr, id, rfl⟩
  | mutationSet =>
    obtain ⟨r, hr, rfl⟩ := mem_map.mp h
    exact .inr ⟨r, hr, id, rfl⟩
  | compacted ids =>
    obtain ⟨hs, hids⟩ := mem_filter.mp h
    exact .inr ⟨s, hs, (of_decide_eq_true hids : s.id ∉ ids), rfl⟩

theorem update_mem_apply (hr : r ∈ records) (h : ¬ e.Deletes r.id) : e.update r ∈ e.apply records := by
  cases e with
  | appended => exact mem_append_left _ hr
  | statusSet => exact mem_map_of_mem hr
  | mutationSet => exact mem_map_of_mem hr
  | compacted ids =>
    have hids : r.id ∉ ids := h
    exact mem_filter.mpr ⟨hr, decide_eq_true hids⟩

def key (r : LocalMutationLogRecord) : String × ℕ := (r.id, r.sequence)

theorem key_apply : ((e.apply records).map key).Sublist
    (records.map key ++ e.added.toList.map key) := by
  have hupdate : (records.map fun r => e.update r).map key = records.map key := by
    simp [key]
  cases e with
  | appended record =>
    rw [LogEvent.apply, map_append]
    exact List.Sublist.refl _
  | statusSet => exact hupdate ▸ sublist_append_left _ _
  | mutationSet => exact hupdate ▸ sublist_append_left _ _
  | compacted ids => exact (filter_sublist.map key).trans (sublist_append_left _ _)

end

/-! ## Histories -/

section
variable {events : List LogEvent}

theorem replay_keys (events : List LogEvent) :
    ((replay events).map key).Sublist ((appendedRecords events).map key) := by
  induction events using List.reverseRecOn with
  | nil => exact List.Sublist.refl _
  | append_singleton events e ih =>
    rw [replay_concat, appendedRecords_concat, map_append]
    exact key_apply.trans (List.Sublist.append ih (List.Sublist.refl _))

/-- **A record of the log is an appended one with the changes that came after it.** -/
theorem mem_replay {s : LocalMutationLogRecord} (h : s ∈ replay events) :
    ∃ before r after, events = before ++ .appended r :: after ∧ s = after.foldl LogEvent.update r := by
  induction events using List.reverseRecOn generalizing s with
  | nil => cases h
  | append_singleton events e ih =>
    rw [replay_concat] at h
    rcases mem_apply h with rfl | ⟨r', hr', -, rfl⟩
    · exact ⟨events, s, [], rfl, rfl⟩
    · obtain ⟨before, r, after, rfl, rfl⟩ := ih hr'
      refine ⟨before, r, after ++ [e], ?_, ?_⟩
      · rw [append_assoc]
        rfl
      · rw [foldl_append]
        rfl

variable {after : List LogEvent}

/-- **An appended record stays until a compaction deletes it.** -/
theorem replay_keeps (before : List LogEvent)
    {r : LocalMutationLogRecord} (h : ∀ e ∈ after, ¬ e.Deletes r.id) :
    after.foldl LogEvent.update r ∈ replay (before ++ .appended r :: after) ∧
      (after.foldl LogEvent.update r).id = r.id := by
  induction after using List.reverseRecOn with
  | nil =>
    refine ⟨?_, rfl⟩
    rw [replay_concat]
    exact mem_append_right _ (mem_singleton_self _)
  | append_singleton after e ih =>
    obtain ⟨hmem, hid⟩ := ih fun e' he' => h e' (mem_append_left _ he')
    have hkept : ¬ e.Deletes (after.foldl LogEvent.update r).id := by
      rw [hid]
      exact h e (mem_append_right _ (mem_singleton_self _))
    rw [foldl_append, show before ++ .appended r :: (after ++ [e]) =
      before ++ .appended r :: after ++ [e] by simp, replay_concat]
    exact ⟨update_mem_apply hmem hkept, update_id.trans hid⟩

theorem foldl_update_key (after : List LogEvent) (r : LocalMutationLogRecord) :
    (after.foldl LogEvent.update r).id = r.id ∧
      (after.foldl LogEvent.update r).sequence = r.sequence ∧
      (after.foldl LogEvent.update r).dependencies = r.dependencies := by
  induction after generalizing r with
  | nil => exact ⟨rfl, rfl, rfl⟩
  | cons e after ih =>
    obtain ⟨h1, h2, h3⟩ := ih (e.update r)
    exact ⟨h1.trans update_id, h2.trans update_sequence, h3.trans update_dependencies⟩

theorem getLast?_filterMap_concat {α β : Type} (f : α → Option β) (l : List α) (a : α) (b : β) :
    ((l ++ [a]).filterMap f).getLast?.getD b = (f a).getD ((l.filterMap f).getLast?.getD b) := by
  cases h : f a <;> simp [h]

theorem foldl_update_status {r : LocalMutationLogRecord} :
    (after.foldl LogEvent.update r).status = (lastStatus r.id after).getD r.status := by
  induction after using List.reverseRecOn with
  | nil => rfl
  | append_singleton after e ih =>
    rw [foldl_append, lastStatus, getLast?_filterMap_concat, ← lastStatus, ← ih]
    have hid := (foldl_update_key after r).1
    rw [← hid]
    exact update_status

theorem foldl_update_mutation {r : LocalMutationLogRecord} :
    (after.foldl LogEvent.update r).mutation = (lastMutation r.id after).getD r.mutation := by
  induction after using List.reverseRecOn with
  | nil => rfl
  | append_singleton after e ih =>
    rw [foldl_append, lastMutation, getLast?_filterMap_concat, ← lastMutation, ← ih]
    have hid := (foldl_update_key after r).1
    rw [← hid]
    exact update_mutation

end

end Velocious.LocalLog
