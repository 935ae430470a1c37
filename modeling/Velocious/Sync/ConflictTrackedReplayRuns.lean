/-
  What a drained mutation log guarantees (`replayConflictTrackedSyncs` in
  src/sync/sync-api-client.js).

  * Statuses, timestamps and base versions change; the `intent` of a record does
    not. The intents of each resource form one chain, of which the drain posts
    consecutive pieces (`groupTail_consecutive`) and the service has applied a
    prefix (`Served.prefix`).
-/
import Velocious.Sync.ConflictTrackedReplay

namespace Velocious

open Foundation List

/-! ## Intents -/

namespace LocalMutationLogRecord

def intent (r : LocalMutationLogRecord) : LocalMutationLogRecord :=
  { r with status := .pending, updatedAt := 0, mutation := { r.mutation with baseVersion := .null } }

def resource (r : LocalMutationLogRecord) : String × String :=
  (r.mutation.model, r.mutation.payload.resourceId)

section
variable (r : LocalMutationLogRecord)
include r

@[simp] theorem intent_resource : r.intent.resource = r.resource := rfl

@[simp] theorem intent_clientMutationId :
    r.intent.mutation.clientMutationId = r.mutation.clientMutationId := rfl

@[simp] theorem intent_attributes :
    r.intent.mutation.attributes = r.mutation.attributes := rfl

end

theorem isFor_iff {r : LocalMutationLogRecord} {model resourceId : String} :
    r.isFor model resourceId = true ↔ r.resource = (model, resourceId) := by
  simp [isFor, resource]

end LocalMutationLogRecord

open LocalMutationLogRecord

variable {r : LocalMutationLogRecord}

theorem Follows.of_intent {p q : LocalMutationLogRecord} (h : Follows p r)
    (hq : q.intent = p.intent) : Follows q.intent r.intent := by
  rw [hq]
  exact ⟨h.dependencies, h.occurredAt⟩

def MutationLog.intents (log : MutationLog) : List LocalMutationLogRecord :=
  log.records.map intent

def ofResource (records : List LocalMutationLogRecord) (key : String × String) :
    List LocalMutationLogRecord :=
  records.filter (·.resource = key)

theorem mem_ofResource {records : List LocalMutationLogRecord} {key : String × String} :
    r ∈ ofResource records key ↔ r ∈ records ∧ r.resource = key := by
  simp [ofResource]

theorem ofResource_append (records others : List LocalMutationLogRecord) (key : String × String) :
    ofResource (records ++ others) key = ofResource records key ++ ofResource others key :=
  filter_append _ _

theorem ofResource_intents (log : MutationLog) (key : String × String) :
    ofResource log.intents key = (log.recordsFor key.1 key.2).map intent := by
  rw [ofResource, MutationLog.intents, filter_map]
  refine congrArg _ (filter_congr fun r _ => ?_)
  rw [Bool.eq_iff_iff, isFor_iff]
  exact decide_eq_true_iff

/-! ## Logs whose resources are chains -/

/-- The intents of a log: ids are not reused, and each resource is one chain. -/
structure Intents (intents : List LocalMutationLogRecord) : Prop where
  ids : (intents.map (·.id)).Nodup
  clientMutationIds : (intents.map (·.mutation.clientMutationId)).Nodup
  ordered : intents.Pairwise fun r s => r.sequence < s.sequence
  chained : ∀ key, IsDependencyChain (ofResource intents key)

namespace Intents

variable {intents : List LocalMutationLogRecord}

section
variable (h : Intents intents) {r s : LocalMutationLogRecord} (hr : r ∈ intents)
  (hs : s ∈ intents)
include h hr hs

theorem eq_of_id (hid : r.id = s.id) : r = s :=
  inj_on_of_nodup_map h.ids hr hs hid

theorem eq_of_clientMutationId (hid : r.mutation.clientMutationId = s.mutation.clientMutationId) : r = s :=
  inj_on_of_nodup_map h.clientMutationIds hr hs hid

end

theorem nodup (h : Intents intents) (key : String × String) : (ofResource intents key).Nodup :=
  (List.Nodup.of_map _ h.clientMutationIds).filter _

theorem timed (h : Intents intents) (key : String × String) :
    (ofResource intents key).Pairwise fun r s => r.mutation.occurredAt < s.mutation.occurredAt := by
  have hchain := (h.chained key).chain.imp fun r s (h : Follows r s) => h.occurredAt
  have hmap := (isChain_map fun r : LocalMutationLogRecord => r.mutation.occurredAt).mpr hchain
  exact pairwise_map.mp (isChain_iff_pairwise.mp hmap)

theorem next_of_dependsOn (h : Intents intents) {t s : LocalMutationLogRecord}
    (ht : t ∈ intents) (hs : s ∈ intents) (hdep : s.dependsOn t.mutation.clientMutationId) :
    ∃ before after, ofResource intents s.resource = before ++ t :: s :: after := by
  obtain ⟨before, after, hsplit⟩ := append_of_mem (mem_ofResource.mpr ⟨hs, rfl⟩)
  have hchain := h.chained s.resource
  rw [hsplit] at hchain
  obtain rfl | ⟨before, p, rfl⟩ := before.eq_nil_or_concat
  · have hnone := hchain.head s rfl
    simp [dependsOn, hnone] at hdep
  · rw [concat_eq_append, append_assoc] at hsplit hchain
    obtain ⟨-, hfollows⟩ := isChain_append.mp hchain.chain
    have hp : Follows p s := by
      obtain ⟨hps, -⟩ := hfollows
      exact (isChain_cons_cons.mp hps).1
    have hmem : p ∈ intents :=
      (mem_ofResource.mp (hsplit ▸ mem_append_right _ mem_cons_self)).1
    have hid : p.mutation.clientMutationId = t.mutation.clientMutationId := by
      simpa [dependsOn, hp.dependencies] using hdep
    obtain rfl := h.eq_of_clientMutationId hmem ht hid
    exact ⟨before, after, hsplit⟩

end Intents

section
variable {intents pending : List LocalMutationLogRecord}

theorem groupTail_consecutive (h : Intents intents) (hpending : ∀ r ∈ pending, r.intent ∈ intents)
    (n : ℕ) {tail : LocalMutationLogRecord} {before after : List LocalMutationLogRecord}
    {key : String × String} (hsplit : ofResource intents key = before ++ tail.intent :: after) :
    ∃ rest, after = (groupTail pending n tail).map intent ++ rest := by
  induction n generalizing tail before after with
  | zero => exact ⟨after, rfl⟩
  | succ n ih =>
    rw [groupTail]
    split
    · rename_i successor hfind
      split
      · have htail : tail.intent ∈ ofResource intents key :=
          hsplit ▸ mem_append_right _ mem_cons_self
        have hdep := find?_some hfind
        obtain ⟨before', after', hnext⟩ := h.next_of_dependsOn (mem_ofResource.mp htail).1
          (hpending successor (mem_of_find?_eq_some hfind)) hdep
        -- the tail is about the resource of its successor
        have hkey : successor.resource = key := by
          have hmem : tail.intent ∈ ofResource intents successor.resource :=
            hnext ▸ mem_append_right _ mem_cons_self
          exact (mem_ofResource.mp hmem).2.symm.trans (mem_ofResource.mp htail).2
        rw [intent_resource, hkey, hsplit] at hnext
        have hnodup := h.nodup key
        rw [hsplit, nodup_middle, nodup_cons, mem_append, not_or] at hnodup
        obtain ⟨rfl, -, rfl⟩ :=
          (append_cons_inj_of_notMem hnodup.1.1 hnodup.1.2).mp hnext
        obtain ⟨rest, rfl⟩ := @ih successor (before ++ [tail.intent]) after'
          (by rw [hsplit, append_assoc, singleton_append])
        exact ⟨rest, rfl⟩
      · exact ⟨after, rfl⟩
    · exact ⟨after, rfl⟩

theorem mem_groupsFrom {selected : List String} {ready group : List LocalMutationLogRecord}
    (h : group ∈ groupsFrom pending selected ready) :
    ∃ record ∈ ready, group = record :: groupTail pending pending.length record := by
  induction ready generalizing selected with
  | nil => exact absurd h not_mem_nil
  | cons record ready ih =>
    rw [groupsFrom] at h
    split at h
    · obtain ⟨r, hr, hgroup⟩ := ih h
      exact ⟨r, mem_cons_of_mem _ hr, hgroup⟩
    · obtain rfl | h := mem_cons.mp h
      · exact ⟨record, mem_cons_self, rfl⟩
      · obtain ⟨r, hr, hgroup⟩ := ih h
        exact ⟨r, mem_cons_of_mem _ hr, hgroup⟩

end

variable {fields : List (String × Json)} {f : String × Json}

theorem mem_setField {g : String × Json}
    (h : ∀ f ∈ fields, f.1 = g.1 → f = g) : f ∈ setField fields g ↔ f ∈ fields ∨ f = g := by
  unfold setField
  split
  · rename_i hany
    have hmap : fields.map (fun f => if f.1 = g.1 then g else f) = fields := by
      refine (map_congr_left fun f hf => ?_).trans (map_id fields)
      split
      · exact (h f hf ‹_›).symm
      · rfl
    have hg : g ∈ fields := by
      obtain ⟨f, hf, hfg⟩ := any_eq_true.mp hany
      exact h f hf (of_decide_eq_true hfg) ▸ hf
    rw [hmap]
    constructor
    · exact .inl
    · rintro (hf | rfl)
      · exact hf
      · exact hg
  · rw [mem_append, mem_singleton]

theorem mem_foldl_setField {assigned : List (String × Json)}
    (h : ∀ f ∈ fields ++ assigned, ∀ g ∈ fields ++ assigned, f.1 = g.1 → f = g)
    (hf : f ∈ fields ++ assigned) : f ∈ assigned.foldl setField fields := by
  induction assigned generalizing fields with
  | nil => rwa [append_nil] at hf
  | cons g assigned ih =>
    have hset : ∀ e, e ∈ setField fields g ↔ e ∈ fields ∨ e = g := fun e =>
      mem_setField fun f hf => h f (mem_append_left _ hf) g
        (mem_append_right _ mem_cons_self)
    have hmem : ∀ e, e ∈ setField fields g ++ assigned ↔ e ∈ fields ++ g :: assigned := by
      intro e
      rw [mem_append, hset, mem_append, mem_cons, or_assoc]
    exact ih (fun f hf g hg => h f ((hmem f).mp hf) g ((hmem g).mp hg)) ((hmem f).mpr hf)

theorem mem_ownFields : f ∈ ownFields fields ↔ f ∈ fields := by
  rw [ownFields, mem_append, (perm_insertionSort _ _).mem_iff, mem_filter,
    mem_filter, ← and_or_left]
  refine and_iff_left ?_
  cases arrayIndex? f.1 with
  | none => exact .inr rfl
  | some n => exact .inl rfl

theorem mem_conflictReplayPayload {first : LocalMutationLogRecord}
    {group : List LocalMutationLogRecord} (hgroup : OneValuePerField group) (hr : r ∈ group)
    (hf : f ∈ r.mutation.attributes) :
    f ∈ (conflictReplayPayload first group).data := by
  refine mem_ownFields.mpr (mem_foldl_setField ?_ ?_)
  · exact hgroup
  · exact mem_flatMap.mpr ⟨r, hr, hf⟩

/-! ## The service -/

def ReplayServer.intents (s : ReplayServer) : List LocalMutationLogRecord :=
  s.applied.flatten.map intent

/-- The time of the row that the service looks up. -/
def ReplayServer.rowTime (s : ReplayServer) (key : String × String) : Option ℤ :=
  (s.rows key).head?.bind (·.clientUpdatedAt)

theorem head_upsertSyncRow (rows : List SyncRow) (id : ℕ) (m : SyncReplayMutation) (data : Json) :
    (upsertSyncRow rows rows.head? id m data).head?.bind (·.clientUpdatedAt) =
      some m.clientUpdatedAt := by
  cases rows with
  | nil => rfl
  | cons row rows => simp [upsertSyncRow]

section
variable {sha256Hex : String → String} {strategy : ConflictStrategy}

def ReplayServer.newer (s : ReplayServer) (first : LocalMutationLogRecord) : Bool :=
  (s.rowTime first.resource).elim true fun t => t < first.mutation.occurredAt

/-- What applying a group changes. -/
structure Writes (s s' : ReplayServer) (first : LocalMutationLogRecord)
    (group : List LocalMutationLogRecord) : Prop where
  applied : s'.applied = s.applied ++ [group]
  row : s'.rowTime first.resource = some first.mutation.occurredAt
  otherRows : ∀ key ≠ first.resource, s'.rowTime key = s.rowTime key

/-- What an envelope can do: nothing, which is a success only if the row is not
    older, or an application, which is only done if the row is. -/
theorem ReplayServer.replay_cases {s s' : ReplayServer} {first : LocalMutationLogRecord}
    {group : List LocalMutationLogRecord} {outcome : ApplyOutcome} {answer : ServerAnswer}
    (h : s.replay sha256Hex strategy first group outcome = (s', answer)) :
    (s' = s ∧ (replayResultLocalStatus answer = .synced → s.newer first = false)) ∨
      (s.newer first = true ∧ Writes s s' first group) := by
  have hkey : ((conflictReplayPayload first group).resourceType,
      (conflictReplayPayload first group).resourceId) = first.resource := rfl
  have hnewer : shouldApplyReplayMutation (s.rows first.resource).head?
      (conflictReplayPayload first group) = s.newer first := by
    simp only [newer, shouldApplyReplayMutation, rowTime]
    cases (s.rows first.resource).head?.bind (·.clientUpdatedAt) <;> rfl
  dsimp only [replay] at h
  split at h
  · rename_i hshould
    split at h
    · obtain ⟨rfl, rfl⟩ := Prod.mk.inj h
      exact .inl ⟨rfl, fun h => by cases h⟩
    · split at h
      · obtain ⟨rfl, rfl⟩ := Prod.mk.inj h
        exact .inl ⟨rfl, fun h => by cases h⟩
      · obtain ⟨rfl, rfl⟩ := Prod.mk.inj h
        refine .inr ⟨hnewer ▸ hshould, rfl, ?_, fun key hne => ?_⟩
        · dsimp only [rowTime]
          rw [hkey, Function.update_self]
          exact head_upsertSyncRow _ _ _ _
        · dsimp only [rowTime]
          rw [hkey, Function.update_of_ne hne]
  · rename_i hshould
    obtain ⟨rfl, rfl⟩ := Prod.mk.inj h
    exact .inl ⟨rfl, fun _ => hnewer ▸ Bool.eq_false_iff.mpr hshould⟩

end

/-- The time of a row is that of an applied record, and no applied group is newer;
    without a row nothing was applied. -/
def RowTime (s : ReplayServer) (key : String × String) : Option ℤ → Prop
  | none => ofResource s.intents key = []
  | some t =>
    (∀ group ∈ s.applied, ∀ first ∈ group.head?, first.resource = key →
      first.mutation.occurredAt ≤ t) ∧
    ∃ r ∈ ofResource s.intents key, r.mutation.occurredAt = t

/-- The service has applied a prefix of each resource's intents, each of them
    once and with all its fields. -/
structure Served (intents : List LocalMutationLogRecord) (s : ReplayServer) : Prop where
  once : (s.applied.flatMap groupIds).Nodup
  isPrefix : ∀ key, ofResource s.intents key <+: ofResource intents key
  rowTime : ∀ key, RowTime s key (s.rowTime key)
  fields : ∀ group ∈ s.applied, OneValuePerField group

/-- A group continues what was applied of its resource, or was applied itself. -/
structure Posted (intents : List LocalMutationLogRecord) (s : ReplayServer)
    (group : List LocalMutationLogRecord) : Prop where
  fields : OneValuePerField group
  consecutive : ∃ key before after, group ≠ [] ∧
    ofResource intents key = before ++ group.map intent ++ after ∧
    ∀ p ∈ before.getLast?, p ∈ s.intents

/-- A group that was answered with success has been applied. -/
structure Answered (intents : List LocalMutationLogRecord) (s : ReplayServer)
    (group : AnsweredGroup) : Prop where
  logged : ∀ r ∈ group.1, r.intent ∈ intents
  applied : replayResultLocalStatus group.2 = .synced → ∀ r ∈ group.1, r.intent ∈ s.intents

theorem mem_serverIntents {s : ReplayServer} :
    r ∈ s.intents ↔ ∃ group ∈ s.applied, ∃ a ∈ group, a.intent = r := by
  simp only [ReplayServer.intents, mem_map, mem_flatten]
  constructor
  · rintro ⟨a, ⟨group, hgroup, ha⟩, rfl⟩
    exact ⟨group, hgroup, a, ha, rfl⟩
  · rintro ⟨group, hgroup, a, ha, rfl⟩
    exact ⟨a, ⟨group, hgroup, ha⟩, rfl⟩

theorem eq_of_prefix {α : Type} {applied before after : List α} {c : α}
    (h : applied <+: before ++ c :: after) (hc : c ∉ applied)
    (hlast : ∀ p ∈ before.getLast?, p ∈ applied) (hnodup : before.Nodup) : applied = before := by
  obtain ⟨rest, rfl⟩ | ⟨rest, rfl⟩ :=
    prefix_or_prefix_of_prefix h (prefix_append before _)
  · obtain rfl | ⟨rest, p, rfl⟩ := rest.eq_nil_or_concat
    · exact (append_nil _).symm
    · have hp : p ∈ applied := hlast p (by simp)
      have := disjoint_of_nodup_append hnodup hp
      exact absurd (by simp) this
  · cases rest with
    | nil => exact append_nil _
    | cons d rest =>
      obtain ⟨tail, htail⟩ := h
      rw [append_assoc, append_cancel_left_eq] at htail
      obtain ⟨rfl, -⟩ := List.cons.inj htail
      exact absurd (mem_append_right _ mem_cons_self) hc

namespace Served

variable {intents : List LocalMutationLogRecord} {s : ReplayServer}

theorem logged (h : Served intents s) {r : LocalMutationLogRecord} (hr : r ∈ s.intents) :
    r ∈ intents :=
  (mem_ofResource.mp ((h.isPrefix r.resource).subset (mem_ofResource.mpr ⟨hr, rfl⟩))).1

section
variable (h : Served intents s) (hlog : Intents intents) {first : LocalMutationLogRecord}
include h hlog

theorem same {others applied : List LocalMutationLogRecord} (happlied : applied ∈ s.applied)
    (hgroup : ∀ r ∈ first :: others, r.intent ∈ intents)
    (hids : groupIds applied = groupIds (first :: others)) :
    (∀ r ∈ first :: others, r.intent ∈ s.intents) ∧ s.newer first = false := by
  have heq : ∀ r ∈ first :: others, ∀ a ∈ applied,
      a.mutation.clientMutationId = r.mutation.clientMutationId → a.intent = r.intent :=
    fun r hr a ha hid => hlog.eq_of_clientMutationId
      (h.logged (mem_serverIntents.mpr ⟨applied, happlied, a, ha, rfl⟩)) (hgroup r hr) hid
  constructor
  · intro r hr
    have hr' : r.mutation.clientMutationId ∈ groupIds applied := hids ▸ mem_map_of_mem hr
    obtain ⟨a, ha, hid⟩ := mem_map.mp hr'
    exact mem_serverIntents.mpr ⟨applied, happlied, a, ha, heq r hr a ha hid⟩
  · cases applied with
    | nil => cases hids
    | cons a applied =>
      have hfirst : a.intent = first.intent :=
        heq first mem_cons_self a mem_cons_self (List.cons.inj hids).1
      have hkey : a.intent.resource = first.intent.resource := congrArg resource hfirst
      have hrow := h.rowTime first.resource
      unfold ReplayServer.newer
      cases ht : s.rowTime first.resource with
      | none =>
        rw [ht] at hrow
        have hmem : a.intent ∈ ofResource s.intents first.resource := mem_ofResource.mpr
          ⟨mem_serverIntents.mpr ⟨_, happlied, a, mem_cons_self, rfl⟩, hkey⟩
        rw [show ofResource s.intents first.resource = [] from hrow] at hmem
        exact absurd hmem not_mem_nil
      | some t =>
        rw [ht] at hrow
        have hle := hrow.1 _ happlied a rfl hkey
        have htime : a.intent.mutation.occurredAt = first.intent.mutation.occurredAt :=
          congrArg (·.mutation.occurredAt) hfirst
        exact decide_eq_false (not_lt.mpr (htime ▸ hle))

theorem fresh {others : List LocalMutationLogRecord} (hposted : Posted intents s (first :: others))
    (hnone : ¬ ∃ applied ∈ s.applied, ∃ id ∈ groupIds (first :: others), id ∈ groupIds applied) :
    ∃ after, ofResource intents first.resource =
      ofResource s.intents first.resource ++ (first :: others).map intent ++ after := by
  obtain ⟨key, before, after, -, hsplit, hlast⟩ := hposted.consecutive
  have hfirst : first.intent ∈ ofResource intents key := by simp [hsplit]
  obtain rfl := (mem_ofResource.mp hfirst).2
  rw [intent_resource] at hsplit
  refine ⟨after, ?_⟩
  suffices ofResource s.intents first.resource = before by rw [this, hsplit]
  rw [append_assoc] at hsplit
  refine eq_of_prefix (hsplit ▸ h.isPrefix first.resource) ?_ ?_ ?_
  · intro hmem
    obtain ⟨applied, happlied, a, ha, hid⟩ := mem_serverIntents.mp (mem_ofResource.mp hmem).1
    refine hnone ⟨applied, happlied, first.mutation.clientMutationId, ?_, ?_⟩
    · exact mem_map_of_mem mem_cons_self
    · have heq : a.intent.mutation.clientMutationId = first.intent.mutation.clientMutationId :=
        congrArg (·.mutation.clientMutationId) hid
      rw [intent_clientMutationId] at heq
      exact heq ▸ mem_map_of_mem ha
  · intro p hp
    have hmem : p ∈ ofResource intents first.resource :=
      hsplit ▸ mem_append_left _ (mem_of_mem_getLast? hp)
    exact mem_ofResource.mpr ⟨hlast p hp, (mem_ofResource.mp hmem).2⟩
  · exact (hsplit ▸ hlog.nodup first.resource).of_append_left

end

end Served

/-! ## Applying a group -/

namespace Writes

variable {s s' : ReplayServer} {first : LocalMutationLogRecord}
  {group : List LocalMutationLogRecord} (h : Writes s s' first group)

include h

theorem intents : s'.intents = s.intents ++ group.map intent := by
  simp [ReplayServer.intents, h.applied]

theorem mem_applied {g : List LocalMutationLogRecord} :
    g ∈ s'.applied ↔ g ∈ s.applied ∨ g = group := by
  rw [h.applied, mem_append, mem_singleton]

variable (hkey : ∀ r ∈ group.map intent, r.resource = first.resource)

include hkey

theorem ofResource_self : ofResource s'.intents first.resource =
    ofResource s.intents first.resource ++ group.map intent := by
  rw [h.intents, ofResource_append]
  exact congrArg _ (filter_eq_self.mpr fun r hr => decide_eq_true (hkey r hr))

theorem ofResource_other {key : String × String} (hne : key ≠ first.resource) :
    ofResource s'.intents key = ofResource s.intents key := by
  have hnil : ofResource (group.map intent) key = [] := filter_eq_nil_iff.mpr
    fun r hr heq => hne ((of_decide_eq_true heq).symm.trans (hkey r hr))
  rw [h.intents, ofResource_append, hnil, append_nil]

end Writes

namespace Served

variable {intents : List LocalMutationLogRecord} {s s' : ReplayServer}
  {first : LocalMutationLogRecord} {others after : List LocalMutationLogRecord}

theorem rowTime_apply (h : Served intents s) (hwrites : Writes s s' first (first :: others))
    (hkey : ∀ r ∈ (first :: others).map intent, r.resource = first.resource)
    (hlater : ∀ r ∈ ofResource s.intents first.resource,
      r.mutation.occurredAt < first.mutation.occurredAt) (key : String × String) :
    RowTime s' key (s'.rowTime key) := by
  by_cases hne : key = first.resource
  · subst hne
    rw [hwrites.row]
    constructor
    · intro group hgroup r hr hresource
      obtain hgroup | rfl := hwrites.mem_applied.mp hgroup
      · have hmem := mem_serverIntents.mpr ⟨group, hgroup, r, mem_of_mem_head? hr, rfl⟩
        exact le_of_lt (hlater r.intent (mem_ofResource.mpr ⟨hmem, hresource⟩))
      · cases hr
        exact le_rfl
    · refine ⟨first.intent, ?_, rfl⟩
      rw [hwrites.ofResource_self hkey]
      exact mem_append_right _ mem_cons_self
  · have hrow := h.rowTime key
    rw [hwrites.otherRows key hne]
    cases ht : s.rowTime key with
    | none =>
      rw [ht] at hrow
      exact (hwrites.ofResource_other hkey hne).trans hrow
    | some t =>
      rw [ht] at hrow
      constructor
      · intro group hgroup r hr hresource
        obtain hgroup | rfl := hwrites.mem_applied.mp hgroup
        · exact hrow.1 group hgroup r hr hresource
        · cases hr
          exact absurd hresource.symm hne
      · rw [hwrites.ofResource_other hkey hne]
        exact hrow.2

section
variable (h : Served intents s) (hlog : Intents intents)
  (hsplit : ofResource intents first.resource = ofResource s.intents first.resource ++ (first :: others).map intent ++ after)
include h hlog hsplit

theorem apply (hfields : OneValuePerField (first :: others))
    (hnone : ¬ ∃ applied ∈ s.applied, ∃ id ∈ groupIds (first :: others), id ∈ groupIds applied)
    (hwrites : Writes s s' first (first :: others)) : Served intents s' := by
  have hkey : ∀ r ∈ (first :: others).map intent, r.resource = first.resource := fun r hr =>
    (mem_ofResource.mp (hsplit ▸ mem_append_left _ (mem_append_right _ hr))).2
  have hlater : ∀ r ∈ ofResource s.intents first.resource,
      r.mutation.occurredAt < first.mutation.occurredAt := by
    have htimed := hlog.timed first.resource
    rw [hsplit, append_assoc] at htimed
    exact fun r hr => (pairwise_append.mp htimed).2.2 r hr first.intent mem_cons_self
  constructor
  · rw [hwrites.applied, flatMap_append, flatMap_singleton]
    refine nodup_append.mpr ⟨h.once, ?_, ?_⟩
    · have hsub : ((first :: others).map intent).Sublist (ofResource intents first.resource) := by
        rw [hsplit]
        exact (sublist_append_right _ _).trans (sublist_append_left _ _)
      have hids := hlog.clientMutationIds.sublist ((hsub.trans filter_sublist).map _)
      rwa [map_map] at hids
    · rintro id hid _ hgroup rfl
      obtain ⟨applied, happlied, hid⟩ := mem_flatMap.mp hid
      exact hnone ⟨applied, happlied, id, hgroup, hid⟩
  · intro key
    by_cases hne : key = first.resource
    · subst hne
      rw [hwrites.ofResource_self hkey, hsplit]
      exact prefix_append _ _
    · rw [hwrites.ofResource_other hkey hne]
      exact h.isPrefix key
  · exact h.rowTime_apply hwrites hkey hlater
  · intro group hgroup
    obtain hgroup | rfl := hwrites.mem_applied.mp hgroup
    · exact h.fields group hgroup
    · exact hfields

theorem newer_of_split :
    s.newer first = true := by
  have hrow := h.rowTime first.resource
  unfold ReplayServer.newer
  cases ht : s.rowTime first.resource with
  | none => rfl
  | some t =>
    rw [ht] at hrow
    obtain ⟨r, hr, rfl⟩ := hrow.2
    have htimed := hlog.timed first.resource
    rw [hsplit, append_assoc] at htimed
    exact decide_eq_true
      ((pairwise_append.mp htimed).2.2 r hr first.intent mem_cons_self)

end

end Served

theorem Served.replay {sha256Hex : String → String} {strategy : ConflictStrategy}
    {intents : List LocalMutationLogRecord} {s s' : ReplayServer} {first : LocalMutationLogRecord}
    {others : List LocalMutationLogRecord} {outcome : ApplyOutcome} {answer : ServerAnswer}
    (h : Served intents s) (hlog : Intents intents) (hposted : Posted intents s (first :: others))
    (hwhole : ∀ applied ∈ s.applied, (∃ id ∈ groupIds (first :: others), id ∈ groupIds applied) →
      groupIds applied = groupIds (first :: others))
    (hreplay : s.replay sha256Hex strategy first (first :: others) outcome = (s', answer)) :
    Served intents s' ∧ s.intents ⊆ s'.intents ∧
      Answered intents s' (first :: others, answer) := by
  have hgroup : ∀ r ∈ first :: others, r.intent ∈ intents := by
    obtain ⟨key, before, after, -, hsplit, -⟩ := hposted.consecutive
    intro r hr
    have hmem : r.intent ∈ ofResource intents key :=
      hsplit ▸ mem_append_left _ (mem_append_right _ (mem_map_of_mem hr))
    exact (mem_ofResource.mp hmem).1
  by_cases hshared : ∃ applied ∈ s.applied, ∃ id ∈ groupIds (first :: others), id ∈ groupIds applied
  · obtain ⟨applied, happlied, hid⟩ := hshared
    obtain ⟨hall, hold⟩ := h.same hlog happlied hgroup (hwhole applied happlied hid)
    obtain ⟨rfl, -⟩ | ⟨hnewer, -⟩ := ReplayServer.replay_cases hreplay
    · exact ⟨h, List.Subset.refl _, hgroup, fun _ => hall⟩
    · rw [hold] at hnewer
      cases hnewer
  · obtain ⟨after, hsplit⟩ := h.fresh hlog hposted hshared
    obtain ⟨rfl, hstale⟩ | ⟨-, hwrites⟩ := ReplayServer.replay_cases hreplay
    · refine ⟨h, List.Subset.refl _, hgroup, fun hsynced => ?_⟩
      have hnewer := h.newer_of_split hlog hsplit
      rw [hstale hsynced] at hnewer
      cases hnewer
    · refine ⟨h.apply hlog hsplit hposted.fields hshared hwrites, ?_, hgroup, fun _ r hr => ?_⟩
      · rw [hwrites.intents]
        exact subset_append_left _ _
      · rw [hwrites.intents]
        exact mem_append_right _ (mem_map_of_mem hr)

/-! ## Updates and appends -/

namespace MutationLog

theorem intents_mapRecords {log : MutationLog} {f : LocalMutationLogRecord → LocalMutationLogRecord}
    {hf : ∀ r, (f r).sequence = r.sequence}
    (hintent : ∀ r ∈ log.records, (f r).intent = r.intent) :
    (log.mapRecords f hf).intents = log.intents := by
  rw [intents, mapRecords, map_map]
  exact map_congr_left hintent

theorem updateStatus_ok {log log' : MutationLog} {id : String} {status : LocalMutationStatus}
    {now : Option ℤ} (h : log.updateStatus id status now = .ok log') :
    log'.intents = log.intents ∧ ∀ r' ∈ log'.records, ∃ r ∈ log.records, r'.intent = r.intent ∧
      (r'.status = r.status ∨ r'.id = id ∧ r'.status = status) := by
  unfold updateStatus at h
  split at h
  · cases hnow : currentTimestamp now with
    | error e =>
      rw [hnow] at h
      cases h
    | ok updatedAt =>
      rw [hnow] at h
      cases h
      refine ⟨intents_mapRecords fun r _ => ?_, fun r' hr' => ?_⟩
      · split <;> rfl
      · obtain ⟨r, hr, rfl⟩ := mem_map.mp hr'
        refine ⟨r, hr, ?_⟩
        split
        · rename_i hid
          exact ⟨rfl, .inr ⟨hid, rfl⟩⟩
        · exact ⟨rfl, .inl rfl⟩
  · cases h

theorem updateMutation_ok {log log' : MutationLog} {id : String} {mutation : SyncMutation}
    {now : Option ℤ} (h : log.updateMutation id mutation now = .ok log')
    (hintent : ∀ r ∈ log.records, r.id = id →
      intent { r with mutation := mutation } = r.intent) :
    log'.intents = log.intents ∧ ∀ r' ∈ log'.records, ∃ r ∈ log.records,
      r'.intent = r.intent ∧ r'.status = r.status := by
  unfold updateMutation at h
  split at h
  · cases h
  · split at h
    · cases hm : normalizeMutation mutation with
      | error e =>
        rw [hm] at h
        cases h
      | ok m =>
        obtain rfl := normalizeMutation_ok hm
        rw [hm] at h
        cases hnow : currentTimestamp now with
        | error e =>
          rw [hnow] at h
          cases h
        | ok updatedAt =>
          rw [hnow] at h
          cases h
          refine ⟨intents_mapRecords fun r hr => ?_, fun r' hr' => ?_⟩
          · split
            · exact hintent r hr ‹_›
            · rfl
          · obtain ⟨r, hr, rfl⟩ := mem_map.mp hr'
            refine ⟨r, hr, ?_⟩
            split
            · exact ⟨hintent r hr ‹_›, rfl⟩
            · exact ⟨rfl, rfl⟩
    · cases h

end MutationLog

theorem Intents.concat {intents : List LocalMutationLogRecord}
    (h : Intents intents) (hid : ∀ s ∈ intents, s.id ≠ r.id)
    (hclient : ∀ s ∈ intents, s.mutation.clientMutationId ≠ r.mutation.clientMutationId)
    (hsequence : ∀ s ∈ intents, s.sequence < r.sequence)
    (hcontinues : Continues (ofResource intents r.resource).getLast? r) :
    Intents (intents ++ [r]) where
  ids := by
    rw [map_append]
    refine nodup_append.mpr ⟨h.ids, nodup_singleton _, ?_⟩
    rintro _ hs _ hr rfl
    obtain ⟨s, hs, hsr⟩ := mem_map.mp hs
    exact hid s hs (hsr.trans (mem_singleton.mp hr))
  clientMutationIds := by
    rw [map_append]
    refine nodup_append.mpr ⟨h.clientMutationIds, nodup_singleton _, ?_⟩
    rintro _ hs _ hr rfl
    obtain ⟨s, hs, hsr⟩ := mem_map.mp hs
    exact hclient s hs (hsr.trans (mem_singleton.mp hr))
  ordered := pairwise_append.mpr ⟨h.ordered, pairwise_singleton _ _, fun s hs t ht =>
    mem_singleton.mp ht ▸ hsequence s hs⟩
  chained := by
    intro key
    rw [ofResource_append]
    by_cases hkey : r.resource = key
    · subst hkey
      rw [show ofResource [r] r.resource = [r] by simp [ofResource]]
      exact (h.chained _).concat hcontinues
    · rw [show ofResource [r] key = [] by simp [ofResource, hkey], append_nil]
      exact h.chained key

theorem Served.append {intents : List LocalMutationLogRecord} {s : ReplayServer}
    (h : Served intents s) (new : List LocalMutationLogRecord) : Served (intents ++ new) s where
  __ := h
  isPrefix key := by
    rw [ofResource_append]
    exact (h.isPrefix key).trans (prefix_append _ _)

theorem Posted.mono {intents group : List LocalMutationLogRecord} {s s' : ReplayServer}
    (h : Posted intents s group) (new : List LocalMutationLogRecord)
    (hs : s.intents ⊆ s'.intents) : Posted (intents ++ new) s' group := by
  obtain ⟨hfields, key, before, after, hne, hsplit, hlast⟩ := h
  refine ⟨hfields, key, before, after ++ ofResource new key, hne, ?_, fun p hp => hs (hlast p hp)⟩
  rw [ofResource_append, hsplit, append_assoc _ after]

theorem Answered.mono {intents : List LocalMutationLogRecord} {group : AnsweredGroup}
    {s s' : ReplayServer} (h : Answered intents s group) (new : List LocalMutationLogRecord)
    (hs : s.intents ⊆ s'.intents) : Answered (intents ++ new) s' group :=
  ⟨fun r hr => mem_append_left _ (h.logged r hr), fun hsynced r hr =>
    hs (h.applied hsynced r hr)⟩

/-! ## Runs -/

def KnowsReplay (intents : List LocalMutationLogRecord) (s : ReplayServer) : ReplayDrain → Prop
  | .idle | .reading _ => True
  | .posted _ todo answers =>
    (∀ group ∈ todo, Posted intents s group) ∧ ∀ group ∈ answers, Answered intents s group
  | .marking _ records group rest =>
    records ⊆ group.1 ∧ ∀ answered ∈ group :: rest, Answered intents s answered
  | .rebasing _ _ _ rest => ∀ group ∈ rest, Answered intents s group
  | .updating _ successor _ rest =>
    successor.intent ∈ intents ∧ ∀ group ∈ rest, Answered intents s group

theorem KnowsReplay.mono {intents : List LocalMutationLogRecord} {s s' : ReplayServer}
    {drain : ReplayDrain} (h : KnowsReplay intents s drain) (new : List LocalMutationLogRecord)
    (hs : s.intents ⊆ s'.intents) : KnowsReplay (intents ++ new) s' drain := by
  cases drain with
  | idle => trivial
  | reading => trivial
  | posted =>
    exact ⟨fun group hg => (h.1 group hg).mono new hs, fun group hg => (h.2 group hg).mono new hs⟩
  | marking => exact ⟨h.1, fun group hg => (h.2 group hg).mono new hs⟩
  | rebasing => exact fun group hg => (h group hg).mono new hs
  | updating =>
    exact ⟨mem_append_left _ h.1, fun group hg => (h.2 group hg).mono new hs⟩

theorem knowsReplay_next {intents : List LocalMutationLogRecord} {s : ReplayServer}
    {resourceType : String} {rest : List AnsweredGroup}
    (h : ∀ group ∈ rest, Answered intents s group) :
    KnowsReplay intents s (.next resourceType rest) := by
  cases rest with
  | nil => trivial
  | cons group rest => exact ⟨List.Subset.refl _, h⟩

/-- What an append will go on from is in the log. -/
def KnownPredecessor (intents : List LocalMutationLogRecord) (stage : QueueStage) : Prop :=
  ∀ p intent, stage = .appending (some p) intent → p.intent ∈ intents

namespace SyncWorld

variable {ι : Type}

/-- The log, the calls, the service and the drain agree. -/
structure Ok (args : ι → QueueArgs) (w : SyncWorld ι) : Prop where
  intents : Intents w.log.intents
  queued : ∀ i, Queued (args i) (w.queue.stage i)
  known : ∀ i, KnownPredecessor w.log.intents (w.queue.stage i)
  served : Served w.log.intents w.server
  synced : ∀ r ∈ w.log.records, r.status = .synced → r.intent ∈ w.server.intents
  drain : KnowsReplay w.log.intents w.server w.drain

variable [DecidableEq ι] {sha256Hex : String → String} {strategy : ConflictStrategy}
  {batchSize : ℕ} {tracking : ConflictTracking} {args : ι → QueueArgs}

omit [DecidableEq ι] in
theorem ok_init (record : String × String → Option SyncVersion) : Ok args (.init record) where
  intents := ⟨.nil, .nil, .nil, fun _ => ⟨fun r h => absurd h (Option.not_mem_none r), .nil⟩⟩
  queued _ := trivial
  known _ _ _ h := nomatch h
  served := ⟨.nil, fun _ => prefix_refl _, fun _ => rfl, fun _ h => absurd h not_mem_nil⟩
  synced _ h := absurd h not_mem_nil
  drain := trivial

variable {w : SyncWorld ι}

omit [DecidableEq ι] in
theorem Ok.drained (hw : Ok args w) {drain : ReplayDrain}
    (h : KnowsReplay w.log.intents w.server drain) : Ok args { w with drain } :=
  ⟨hw.intents, hw.queued, hw.known, hw.served, hw.synced, h⟩

variable {log : MutationLog}

omit [DecidableEq ι] in
theorem Ok.setLog (hw : Ok args w) {drain : ReplayDrain} (hintents : log.intents = w.log.intents)
    (hsynced : ∀ r ∈ log.records, r.status = .synced → r.intent ∈ w.server.intents)
    (h : KnowsReplay w.log.intents w.server drain) : Ok args (w.setLog log drain) where
  intents := hintents ▸ hw.intents
  queued := hw.queued
  known i := hintents ▸ hw.known i
  served := hintents ▸ hw.served
  synced := hsynced
  drain := hintents ▸ h

omit [DecidableEq ι] in
theorem getLast?_ofResource (w : SyncWorld ι) (i : ι) {key : String × String}
    (hkey : key = ((args i).resourceType, (args i).resourceId)) :
    (ofResource w.log.intents key).getLast? = ((args i).predecessor w.log).map intent := by
  subst hkey
  rw [ofResource_intents, getLast?_map]
  rfl

variable {i : ι}

omit [DecidableEq ι] in
theorem predecessor_logged {p : LocalMutationLogRecord}
    (h : (args i).predecessor w.log = some p) : p.intent ∈ w.log.intents :=
  mem_map_of_mem (mem_of_mem_filter (mem_of_mem_getLast? h))

variable {record : LocalMutationLogRecord}

omit [DecidableEq ι] in
theorem Ok.continues (hw : Ok args w) {predecessor : Option LocalMutationLogRecord}
    (hknown : ∀ p ∈ predecessor, p.intent ∈ w.log.intents)
    (hkey : record.resource = ((args i).resourceType, (args i).resourceId))
    (hcontinues : Continues predecessor record)
    (hlast : ((args i).predecessor w.log).map (·.mutation.clientMutationId) =
      predecessor.map (·.mutation.clientMutationId)) :
    Continues (ofResource w.log.intents record.resource).getLast? record.intent := by
  rw [getLast?_ofResource w i hkey]
  cases hq : (args i).predecessor w.log with
  | none =>
    rw [hq] at hlast
    obtain rfl := Option.map_eq_none_iff.mp hlast.symm
    exact hcontinues
  | some q =>
    rw [hq] at hlast
    obtain ⟨p, rfl, hpq⟩ := Option.map_eq_some_iff.mp hlast.symm
    have hintent : q.intent = p.intent :=
      hw.intents.eq_of_clientMutationId (predecessor_logged hq) (hknown p rfl) hpq.symm
    exact Follows.of_intent hcontinues hintent

theorem Ok.goto (hw : Ok args w) {s : QueueStage} (hs : Queued (args i) s)
    (hread : ∀ predecessor intent, s = .appending predecessor intent →
      predecessor = (args i).predecessor w.log) :
    Ok args { w with queue := w.queue.goto i s } where
  __ := hw
  queued := QueueWorld.queued_goto hw.queued hs
  known := by
    intro j
    by_cases hj : j = i
    · subst hj
      rintro p intent hp
      simp only [QueueWorld.goto, Function.update_self] at hp
      exact predecessor_logged (hread _ _ hp).symm
    · intro p intent hp
      simp only [QueueWorld.goto, Function.update_of_ne hj] at hp
      exact hw.known j p intent hp

variable {now : Option ℤ}

theorem Ok.append (hw : Ok args w) {sequence : ℕ} {id : String}
    {predecessor : Option LocalMutationLogRecord} {intent : QueuedIntent}
    (hi : w.queue.stage i = .appending predecessor intent)
    (hrecord : MutationLog.appendedRecord intent.dependencies intent.mutation sequence id now =
      .ok record)
    (habove : w.queue.log.Above record.sequence)
    (hnew : newIds w.queue (.append i sequence id now) = true)
    (hlast : ((args i).predecessor w.log).map (·.mutation.clientMutationId) =
      predecessor.map (·.mutation.clientMutationId)) :
    Ok args { w with queue :=
      { w.queue.goto i .done with log := w.queue.log.appendRecord record habove } } := by
  obtain ⟨hdeps, hmutation, -, hstatus, rfl⟩ := MutationLog.appendedRecord_ok hrecord
  have hqueued := hw.queued i
  rw [hi] at hqueued
  obtain ⟨hmodel, hresource, hcontinues⟩ := hqueued record hdeps hmutation
  have hdone : Ok args { w with queue := w.queue.goto i .done } :=
    hw.goto trivial fun _ _ h => nomatch h
  have hknown : ∀ p ∈ predecessor, p.intent ∈ w.log.intents := by
    rintro p rfl
    exact hw.known i p intent hi
  have hintents : (w.queue.log.appendRecord record habove).intents =
      w.log.intents ++ [record.intent] := map_append ..
  simp only [newIds, hi, all_eq_true, Bool.and_eq_true, decide_eq_true_eq] at hnew
  constructor
  · refine (congrArg Intents hintents).mpr (hw.intents.concat ?_ ?_ ?_ ?_)
    · intro s hs
      obtain ⟨r, hr, rfl⟩ := mem_map.mp hs
      exact (hnew r hr).1
    · intro s hs
      obtain ⟨r, hr, rfl⟩ := mem_map.mp hs
      rw [intent_clientMutationId, intent_clientMutationId, hmutation]
      exact (hnew r hr).2
    · intro s hs
      obtain ⟨r, hr, rfl⟩ := mem_map.mp hs
      exact habove r hr
    · have hkey : record.resource = ((args i).resourceType, (args i).resourceId) :=
        Prod.ext hmodel hresource
      have hlogged := hw.continues hknown hkey hcontinues hlast
      exact hlogged
  · exact hdone.queued
  · intro j p intent hp
    exact (congrArg (p.intent ∈ ·) hintents).mpr (mem_append_left _ (hdone.known j p intent hp))
  · exact (congrArg (Served · w.server) hintents).mpr (hw.served.append _)
  · intro r hr hsynced
    obtain hr | hr := mem_append.mp hr
    · exact hw.synced r hr hsynced
    · rw [mem_singleton.mp hr, hstatus] at hsynced
      cases hsynced
  · exact (congrArg (KnowsReplay · w.server w.drain) hintents).mpr
      (hw.drain.mono _ (List.Subset.refl _))

variable {resourceType : String}

omit [DecidableEq ι] in
theorem Ok.posted (hw : Ok args w)
    {group : List LocalMutationLogRecord} (h : group ∈ conflictReplayGroups w.log resourceType)
    (hfields : OneValuePerField group) : Posted w.log.intents w.server group := by
  obtain ⟨record, hready, rfl⟩ := mem_groupsFrom h
  obtain ⟨hpending, hdeps⟩ := mem_filter.mp hready
  have hlogged : ∀ r ∈ pendingRecords w.log resourceType, r.intent ∈ w.log.intents := fun r hr =>
    mem_map_of_mem (mem_of_mem_filter hr)
  obtain ⟨before, after, hsplit⟩ :=
    append_of_mem (mem_ofResource.mpr ⟨hlogged record hpending, rfl⟩)
  obtain ⟨rest, rfl⟩ := groupTail_consecutive hw.intents hlogged
    (pendingRecords w.log resourceType).length hsplit
  refine ⟨hfields, record.intent.resource, before, rest, cons_ne_nil _ _, ?_, fun p hp => ?_⟩
  · rw [hsplit, map_cons, append_assoc, cons_append]
  · -- the record depends on the one before it, which is synced
    have hchain := (hw.intents.chained record.intent.resource).chain
    rw [hsplit] at hchain
    have hfollows := (isChain_append.mp hchain).2.2 p hp record.intent rfl
    have hstatus := all_eq_true.mp hdeps
      ⟨p.mutation.clientMutationId, record.intent.mutation.model⟩
      (hfollows.dependencies ▸ mem_cons_self)
    obtain ⟨r, hr, hsynced⟩ := Option.map_eq_some_iff.mp (of_decide_eq_true hstatus)
    have hmem : r ∈ w.log.records := mem_reverse.mp (mem_of_find?_eq_some hr)
    have hid := find?_some hr
    have hp' : p ∈ w.log.intents :=
      (mem_ofResource.mp (hsplit ▸ mem_append_left _ (mem_of_mem_getLast? hp))).1
    obtain rfl := hw.intents.eq_of_clientMutationId (mem_map_of_mem hmem) hp'
      (of_decide_eq_true hid)
    exact hw.synced r hmem hsynced

omit [DecidableEq ι] in
theorem Ok.served_step (hw : Ok args w) {server : ReplayServer}
    {group : List LocalMutationLogRecord} {answer : ServerAnswer}
    {todo : List (List LocalMutationLogRecord)} {answers : List AnsweredGroup}
    (hserved : Served w.log.intents server) (hsub : w.server.intents ⊆ server.intents)
    (hdrain : KnowsReplay w.log.intents w.server (.posted resourceType (group :: todo) answers))
    (hanswered : Answered w.log.intents server (group, answer)) :
    Ok args { w with
      drain := .posted resourceType todo (answers ++ [(group, answer)]), server } where
  __ := hw
  served := hserved
  synced r hr hsynced := hsub (hw.synced r hr hsynced)
  drain := by
    have hmono := hdrain.mono [] hsub
    rw [append_nil] at hmono
    refine ⟨fun g hg => hmono.1 g (mem_cons_of_mem _ hg), fun g hg => ?_⟩
    obtain hg | hg := mem_append.mp hg
    · exact hmono.2 g hg
    · rw [mem_singleton.mp hg]
      exact hanswered

omit [DecidableEq ι] in
theorem Ok.marked (hw : Ok args w) {records : List LocalMutationLogRecord}
    {group : AnsweredGroup} {rest : List AnsweredGroup}
    (hdrain : KnowsReplay w.log.intents w.server
      (.marking resourceType (record :: records) group rest))
    (hlog : w.log.updateStatus record.id (replayResultLocalStatus group.2) now = .ok log) :
    Ok args (w.setLog log (.marking resourceType records group rest)) := by
  obtain ⟨hintents, hrecords⟩ := MutationLog.updateStatus_ok hlog
  obtain ⟨hsub, hanswered⟩ := hdrain
  have hmem := hsub mem_cons_self
  have hgroup := hanswered group mem_cons_self
  refine hw.setLog hintents (fun r' hr' hsynced => ?_)
    ⟨fun r hr => hsub (mem_cons_of_mem _ hr), hanswered⟩
  obtain ⟨r, hr, hintent, hstatus | ⟨hid, hstatus⟩⟩ := hrecords r' hr'
  · rw [hintent]
    exact hw.synced r hr (hstatus ▸ hsynced)
  · have hlogged : r'.intent ∈ w.log.intents := hintent ▸ mem_map_of_mem hr
    rw [hw.intents.eq_of_id hlogged (hgroup.logged record hmem) hid]
    exact hgroup.applied (hstatus ▸ hsynced) record hmem

omit [DecidableEq ι] in
theorem Ok.rebased (hw : Ok args w)
    {successor : LocalMutationLogRecord} {version : Json} {rest : List AnsweredGroup}
    {baseVersion : SyncVersion}
    (hdrain : KnowsReplay w.log.intents w.server (.updating resourceType successor version rest))
    (hlog : w.log.updateMutation successor.id { successor.mutation with baseVersion } now =
      .ok log) : Ok args (w.setLog log (.next resourceType rest)) := by
  obtain ⟨hsuccessor, hrest⟩ := hdrain
  obtain ⟨hintents, hrecords⟩ := MutationLog.updateMutation_ok hlog fun r hr hid => by
    have heq := hw.intents.eq_of_id (mem_map_of_mem hr) hsuccessor hid
    have hmutation : r.intent.mutation = successor.intent.mutation := by rw [heq]
    exact congrArg (fun m => { r.intent with mutation := m }) hmutation.symm
  refine hw.setLog hintents (fun r' hr' hsynced => ?_) (knowsReplay_next hrest)
  obtain ⟨r, hr, hintent, hstatus⟩ := hrecords r' hr'
  rw [hintent]
  exact hw.synced r hr (hstatus ▸ hsynced)

theorem Ok.step {w w' : SyncWorld ι} {a : SyncAction ι} (hw : Ok args w)
    (hwhole : Undivided batchSize args w a)
    (h : step sha256Hex strategy batchSize tracking args w a = some w') : Ok args w' := by
  cases a with
  | queue a =>
    dsimp only [SyncWorld.step] at h
    split at h
    · rename_i hnew
      obtain ⟨queue, hqueue, rfl⟩ := Option.map_eq_some_iff.mp h
      obtain ⟨i, s, rfl, hs, hread⟩ |
        ⟨i, sequence, id, now, predecessor, intent, record, rfl, hi, hrecord, habove, rfl⟩ :=
        QueueWorld.step_cases hqueue
      · exact hw.goto hs hread
      · exact hw.append hi hrecord habove hnew (hwhole predecessor intent hi)
    · cases h
  | start resourceType =>
    dsimp only [SyncWorld.step] at h
    split at h
    · cases h
      exact hw.drained trivial
    · cases h
  | post =>
    dsimp only [SyncWorld.step] at h
    split at h
    · rename_i resourceType hdrain
      split at h
      · cases h
        exact hw.drained trivial
      · cases h
        refine hw.drained ⟨fun group hgroup => ?_, fun _ h => absurd h not_mem_nil⟩
        exact hw.posted (mem_of_mem_take hgroup) (hwhole _ hdrain group hgroup)
    · cases h
  | serve outcome =>
    dsimp only [SyncWorld.step] at h
    split at h
    · rename_i resourceType first others todo answers hdrain
      have hok := hw.drain
      rw [hdrain] at hok
      cases hreplay : w.server.replay sha256Hex strategy first (first :: others) outcome with
      | mk server answer =>
        obtain ⟨hserved, hsub, hanswered⟩ := hw.served.replay hw.intents
          (hok.1 _ mem_cons_self) (hwhole _ _ _ _ hdrain) hreplay
        rw [hreplay] at h
        cases h
        exact hw.served_step hserved hsub hok hanswered
    · cases h
  | receive =>
    dsimp only [SyncWorld.step] at h
    split at h
    · rename_i resourceType answers hdrain
      cases h
      have hok := hw.drain
      rw [hdrain] at hok
      exact hw.drained (knowsReplay_next hok.2)
    · cases h
  | lose =>
    cases h
    exact hw.drained trivial
  | mark now =>
    dsimp only [SyncWorld.step] at h
    split at h
    · rename_i resourceType record records group rest hdrain
      have hok := hw.drain
      rw [hdrain] at hok
      split at h
      · rename_i log hlog
        cases h
        exact hw.marked hok hlog
      · cases h
        exact hw.drained trivial
    · cases h
  | settle sameGeneration =>
    dsimp only [SyncWorld.step] at h
    split at h
    · rename_i resourceType group rest hdrain
      have hok := hw.drain
      rw [hdrain] at hok
      have hrest := fun g hg => hok.2 g (mem_cons_of_mem _ hg)
      split at h
      · split at h
        · cases h
          exact hw.drained hrest
        · cases h
          exact hw.drained (knowsReplay_next hrest)
      · cases h
        exact hw.drained (knowsReplay_next hrest)
    · cases h
  | findSuccessor =>
    dsimp only [SyncWorld.step] at h
    split at h
    · rename_i resourceType predecessor version rest hdrain
      have hok := hw.drain
      rw [hdrain] at hok
      split at h
      · rename_i successor hfind
        cases h
        have hmem := (mem_filter.mp (mem_of_find?_eq_some hfind)).1
        exact hw.drained ⟨mem_map_of_mem hmem, hok⟩
      · cases h
        exact hw.drained (knowsReplay_next hok)
    · cases h
  | rebase now =>
    dsimp only [SyncWorld.step] at h
    split at h
    · rename_i resourceType successor version rest hdrain
      have hok := hw.drain
      rw [hdrain] at hok
      split at h
      · split at h
        · rename_i baseVersion log hlog
          cases h
          exact hw.rebased hok hlog
        · cases h
          exact hw.drained trivial
      · cases h
        exact hw.drained trivial
    · cases h
  | otherWrite key version =>
    cases h
    have hdrain : KnowsReplay (w.log.intents ++ [])
        { w.server with record := Function.update w.server.record key version } w.drain :=
      hw.drain.mono [] fun _ h => h
    rw [append_nil] at hdrain
    exact ⟨hw.intents, hw.queued, hw.known,
      ⟨hw.served.once, hw.served.isPrefix, hw.served.rowTime, hw.served.fields⟩, hw.synced, hdrain⟩

/-- What has been done for a record: an envelope with all its fields was applied,
    no other one contains it, and all earlier records of its resource were
    applied no later. -/
def AppliedOnce (w : SyncWorld ι) (r : LocalMutationLogRecord) : Prop :=
  ∃ before first others after, w.server.applied = before ++ (first :: others) :: after ∧
    r.mutation.clientMutationId ∈ groupIds (first :: others) ∧
    (∀ f ∈ r.mutation.attributes, f ∈ (conflictReplayPayload first (first :: others)).data) ∧
    (w.server.applied.flatMap groupIds).count r.mutation.clientMutationId = 1 ∧
    ∀ p ∈ w.log.records, p.resource = r.resource → p.sequence < r.sequence →
      p.mutation.clientMutationId ∈ (before ++ [first :: others]).flatMap groupIds

omit [DecidableEq ι] in
theorem Ok.earlier_applied (hw : Ok args w) {a p r : LocalMutationLogRecord}
    {before after : List (List LocalMutationLogRecord)} {group : List LocalMutationLogRecord}
    (happlied : w.server.applied = before ++ group :: after) (ha : a ∈ group)
    (hintent : a.intent = r.intent) (hp : p ∈ w.log.records) (hkey : p.resource = r.resource)
    (hlt : p.sequence < r.sequence) :
    p.mutation.clientMutationId ∈ (before ++ [group]).flatMap groupIds := by
  have hsplit : w.server.intents =
      (before ++ [group]).flatten.map intent ++ after.flatten.map intent := by
    simp [ReplayServer.intents, happlied]
  obtain ⟨rest, hrest⟩ := hw.served.isPrefix r.resource
  rw [hsplit, ofResource_append, append_assoc] at hrest
  have hr : r.intent ∈ ofResource ((before ++ [group]).flatten.map intent) r.resource := by
    refine mem_ofResource.mpr ⟨mem_map.mpr ⟨a, ?_, hintent⟩, rfl⟩
    exact mem_flatten.mpr ⟨group, mem_append_right _ mem_cons_self, ha⟩
  have hchain : p.intent ∈ ofResource w.log.intents r.resource :=
    mem_ofResource.mpr ⟨mem_map_of_mem hp, hkey⟩
  have hordered := hw.intents.ordered.filter (·.resource = r.resource)
  rw [← ofResource, ← hrest] at hordered
  rw [← hrest] at hchain
  obtain hmem | hlater := mem_append.mp hchain
  · obtain ⟨b, hb, hbp⟩ := mem_map.mp (mem_ofResource.mp hmem).1
    obtain ⟨g, hg, hb⟩ := mem_flatten.mp hb
    have hid : b.intent.mutation.clientMutationId = p.intent.mutation.clientMutationId :=
      congrArg (·.mutation.clientMutationId) hbp
    rw [intent_clientMutationId, intent_clientMutationId] at hid
    exact mem_flatMap.mpr ⟨g, hg, hid ▸ mem_map_of_mem hb⟩
  · have hle : r.sequence < p.sequence := (pairwise_append.mp hordered).2.2 _ hr p.intent hlater
    omega

omit [DecidableEq ι] in
theorem Ok.appliedOnce (hw : Ok args w) {r : LocalMutationLogRecord}
    (hr : r ∈ w.log.records) (hsynced : r.status = .synced) : AppliedOnce w r := by
  obtain ⟨group, hgroup, a, ha, hintent⟩ := mem_serverIntents.mp (hw.synced r hr hsynced)
  obtain ⟨before, after, happlied⟩ := append_of_mem hgroup
  have hid : a.intent.mutation.clientMutationId = r.intent.mutation.clientMutationId :=
    congrArg (·.mutation.clientMutationId) hintent
  have hattributes : a.intent.mutation.attributes = r.intent.mutation.attributes :=
    congrArg (·.mutation.attributes) hintent
  rw [intent_clientMutationId, intent_clientMutationId] at hid
  rw [intent_attributes, intent_attributes] at hattributes
  have hmem : r.mutation.clientMutationId ∈ groupIds group := hid ▸ mem_map_of_mem ha
  cases group with
  | nil => exact absurd ha not_mem_nil
  | cons first others =>
    refine ⟨before, first, others, after, happlied, hmem, fun f hf => ?_, ?_, fun p hp hkey hlt => ?_⟩
    · exact mem_conflictReplayPayload (hw.served.fields _ hgroup) ha (hattributes ▸ hf)
    · exact count_eq_one_of_mem hw.served.once (mem_flatMap.mpr ⟨_, hgroup, hmem⟩)
    · exact hw.earlier_applied happlied ha hintent hp hkey hlt

/-- **Undivided groups lose no intent.** From an empty log and a service without
    sync rows, in every run in which each append still follows the last record
    of its resource, no field has two values in a posted group, and an envelope
    that shares a record with an applied one has the same records: each synced
    record has been applied exactly once, with all its fields and after all its
    predecessors. -/
theorem synced_intents_are_applied {record : String × String → Option SyncVersion}
    {actions : List (SyncAction ι)} {w : SyncWorld ι}
    (hwhole : Along (step sha256Hex strategy batchSize tracking args) (Undivided batchSize args)
      (init record) actions)
    (hrun : runActions (step sha256Hex strategy batchSize tracking args) (init record) actions =
      some w) :
    ∀ r ∈ w.log.records, r.status = .synced → AppliedOnce w r := by
  have hw : Ok args w := runActions_invariant (I := Ok args)
    (fun _ _ _ hs hok h => hs.step hok h) actions (ok_init record) hwhole hrun
  intro r hr hsynced
  exact hw.appliedOnce hr hsynced

end SyncWorld

/-! ## A lost response -/

/-- Another field of the same task. -/
def finishTask : QueueArgs := ⟨.num (.int 1), [("done", .bool true)], .update, "1", "Task", "update"⟩

def taskIntents (finish : Bool) : QueueArgs := if finish then finishTask else renameTask

/-- One step, with the digest left out. -/
def drainStep : SyncWorld Bool → SyncAction Bool → Option (SyncWorld Bool) :=
  SyncWorld.step id .optimisticVersion 100 deviceTracking taskIntents

/-- The service has the task in version 1. -/
def taskInVersionOne : SyncWorld Bool := .init fun _ => some (.num (.int 1))

/-- The first edit is queued, and drained once. -/
def renameDrained : List (SyncAction Bool) :=
  [.queue (.read false "m1" (some 5)), .queue (.append false 1 "r1" (some 5)), .start "Task", .post,
    .serve (.written (.num (.int 2)) 1), .receive, .mark (some 6), .settle true, .findSuccessor]

/-- The response to the first edit is lost, and the second one is queued. -/
def finishAfterLoss : List (SyncAction Bool) :=
  [.queue (.read false "m1" (some 5)), .queue (.append false 1 "r1" (some 5)), .start "Task", .post,
    .serve (.written (.num (.int 2)) 1), .lose,
    .queue (.read true "m2" (some 9)), .queue (.append true 2 "r2" (some 9)), .start "Task", .post,
    .serve (.written (.num (.int 3)) 2), .receive, .mark (some 10), .mark (some 10)]

theorem renameDrained_undivided :
    Along drainStep (SyncWorld.Undivided 100 taskIntents) taskInVersionOne renameDrained := by
  refine ⟨trivial, ?_, trivial, ?_, ?_, trivial, trivial, trivial, trivial, trivial⟩
  · rintro _ _ ⟨⟩
    rfl
  · rintro _ ⟨⟩ group hgroup
    obtain rfl := (mem_singleton (a := group) (b := [_])).mp hgroup
    intro f hf g hg _
    have hname : ∀ e ∈ [("name", Json.str "a")], e = ("name", .str "a") := fun e he =>
      mem_singleton.mp he
    exact (hname f hf).trans (hname g hg).symm
  · intro _ _ _ _ _ _ h
    exact absurd h not_mem_nil

theorem synced_intents_are_applied_rename :
    ∃ w, runActions drainStep taskInVersionOne renameDrained = some w ∧
      w.log.records.map (·.status) = [.synced] ∧
      ∀ r ∈ w.log.records, r.status = .synced → SyncWorld.AppliedOnce w r := by
  have hrun : (runActions drainStep taskInVersionOne renameDrained).map
      (·.log.records.map (·.status)) = some [.synced] := by
    decide +kernel
  obtain ⟨w, hw, hstatus⟩ := Option.map_eq_some_iff.mp hrun
  exact ⟨w, hw, hstatus, SyncWorld.synced_intents_are_applied renameDrained_undivided hw⟩

/-- **A grown group is skipped.** The retry carries both edits under the id and
    the time of the first, the service has that one, and both are marked synced. -/
theorem grown_group_skipped :
    ∃ w, runActions drainStep taskInVersionOne finishAfterLoss = some w ∧
      w.log.records.map (fun r => (r.mutation.clientMutationId, r.status)) =
        [("m1", .synced), ("m2", .synced)] ∧
      w.server.applied.map groupIds = [["m1"]] ∧
      ¬ ∀ r ∈ w.log.records, r.status = .synced → SyncWorld.AppliedOnce w r := by
  have hrun : (runActions drainStep taskInVersionOne finishAfterLoss).map (fun w =>
      (w.log.records.map fun r => (r.mutation.clientMutationId, r.status),
        w.server.applied.map groupIds)) = some ([("m1", .synced), ("m2", .synced)], [["m1"]]) := by
    decide +kernel
  obtain ⟨w, hw, hboth⟩ := Option.map_eq_some_iff.mp hrun
  obtain ⟨hrecords, happlied⟩ := Prod.mk.inj hboth
  refine ⟨w, hw, hrecords, happlied, fun h => ?_⟩
  have hsecond : ("m2", LocalMutationStatus.synced) ∈
      w.log.records.map fun r => (r.mutation.clientMutationId, r.status) := by
    rw [hrecords]
    exact mem_cons_of_mem _ mem_cons_self
  obtain ⟨r, hr, hfields⟩ := mem_map.mp hsecond
  obtain ⟨hid, hsynced⟩ := Prod.mk.inj hfields
  obtain ⟨before, first, others, after, hsplit, hmem, -⟩ := h r hr hsynced
  have hgroup : groupIds (first :: others) ∈ w.server.applied.map groupIds := by
    rw [hsplit]
    exact mem_map_of_mem (mem_append_right _ mem_cons_self)
  rw [happlied, mem_singleton] at hgroup
  rw [hgroup, hid] at hmem
  exact absurd hmem (by decide)

end Velocious
