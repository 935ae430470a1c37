/-
  Local sync rows: queueing them and draining them to the server
  (`queueLocalSync` and `replayLocalSyncs` in src/sync/sync-api-client.js).

  A queueing call finds the row of its resource and then updates or creates it.
  The drain loads the pending rows, posts them in batches, and for each
  acknowledgement reloads the row, compares what it posted, and then marks the
  row. A model writes only the columns that differ from what it has loaded, so
  a call that found the row pending does not write its state again.
-/
import Velocious.Foundation.Javascript
import Velocious.Foundation.Machine

namespace Velocious

open Foundation

/-! ## Rows and payloads -/

/-- What a sync row is about. -/
structure SyncIdentity where
  resourceType : String
  resourceId : String
  deriving DecidableEq

/-- `state` of a row. -/
inductive LocalSyncState where
  | pending
  | success
  deriving DecidableEq, Repr

/-- A local sync row; the list of rows is in the order they were created. -/
structure LocalSync where
  id : ℕ
  identity : SyncIdentity
  data : List (String × Json)
  syncType : String
  state : LocalSyncState

/-- What the drain posts for a row. -/
structure LocalSyncPayload where
  id : ℕ
  identity : SyncIdentity
  data : List (String × Json)
  syncType : String

def localSyncReplaySnapshot (data : List (String × Json)) (syncType : String) : String :=
  (Json.obj [("data", .obj data), ("syncType", .str syncType)]).stringify

def LocalSyncPayload.snapshot (p : LocalSyncPayload) : String :=
  localSyncReplaySnapshot p.data p.syncType

/-- `localSyncData`: without data of its own a row stands for the attributes of
    its resource, if that could be loaded. -/
def localSyncData (data : List (String × Json)) (attributes : Option (List (String × Json))) :
    List (String × Json) :=
  if data.isEmpty then attributes.getD [] else data

/-- `localSyncPayload`, with the preloaded attributes of the resource. -/
def localSyncPayload (attributes : SyncIdentity → Option (List (String × Json)))
    (row : LocalSync) : LocalSyncPayload :=
  ⟨row.id, row.identity, localSyncData row.data (attributes row.identity), row.syncType⟩

/-! ## Queueing and draining -/

/-- What a call of `queueLocalSync` is about. -/
structure LocalQueueArgs where
  identity : SyncIdentity
  data : List (String × Json)
  syncType : String

/-- Where a call of `queueLocalSync` is. -/
inductive LocalQueueStage where
  | finding
  | saving (existing : Option LocalSync)
  | done

/-- Where the drain is; `posted` are the payloads of the drain so far. -/
inductive DrainStage where
  | idle
  | awaiting (batch : List ℕ) (rest : List LocalSyncPayload) (posted : List LocalSyncPayload)
  | marking (acks : List ℕ) (rest : List LocalSyncPayload) (posted : List LocalSyncPayload)
  | updating (current : LocalSync) (acks : List ℕ) (rest : List LocalSyncPayload)
      (posted : List LocalSyncPayload)

/-- The rows, the calls, the drain, and the history: what the last call for each
    resource queued, and what the server has acknowledged. -/
structure LocalSyncWorld (ι : Type) where
  rows : List LocalSync
  stage : ι → LocalQueueStage
  drain : DrainStage
  last : SyncIdentity → Option (List (String × Json) × String)
  acknowledged : List LocalSyncPayload

/-- What happens next: a call finds or saves, a created row getting an id; the
    drain loads, gets a response, reloads a row, updates it, or throws. -/
inductive LocalSyncAction (ι : Type) where
  | find (i : ι)
  | save (i : ι) (id : ℕ)
  | load (attributes : SyncIdentity → Option (List (String × Json)))
  | respond (successful : List ℕ)
  | reload (attributes : SyncIdentity → Option (List (String × Json)))
  | mark
  | abort

def nextBatch (batchSize : ℕ) (rest posted : List LocalSyncPayload) : DrainStage :=
  if rest.isEmpty then .idle
  else
    .awaiting ((rest.take batchSize).map (·.id)) (rest.drop batchSize)
      (rest.take batchSize ++ posted)

/-- The next acknowledgement, if one is left. -/
def nextAck (batchSize : ℕ) (acks : List ℕ) (rest posted : List LocalSyncPayload) : DrainStage :=
  if acks.isEmpty then nextBatch batchSize rest posted else .marking acks rest posted

def postedFor (posted : List LocalSyncPayload) (id : ℕ) : Option LocalSyncPayload :=
  posted.find? (·.id = id)

/-- The update of a call on the row it found: `data` always changes, the other
    columns if they differ from what was found. -/
def queuedUpdate (args : LocalQueueArgs) (existing row : LocalSync) : LocalSync :=
  { row with
    data := args.data
    state := if existing.state = .pending then row.state else .pending
    syncType := if existing.syncType = args.syncType then row.syncType else args.syncType }

def markSuccess (row : LocalSync) : LocalSync := { row with state := .success }

def updateRow (rows : List LocalSync) (id : ℕ) (f : LocalSync → LocalSync) : List LocalSync :=
  rows.map fun row => if row.id = id then f row else row

namespace LocalSyncWorld

variable {ι : Type}

def init : LocalSyncWorld ι := ⟨[], fun _ => .finding, .idle, fun _ => none, []⟩

section
variable [DecidableEq ι]

def goto (w : LocalSyncWorld ι) (i : ι) (s : LocalQueueStage) : LocalSyncWorld ι :=
  { w with stage := Function.update w.stage i s }

/-- The save of a call, after which it is the last one for its resource. -/
def save (w : LocalSyncWorld ι) (i : ι) (args : LocalQueueArgs) (existing : Option LocalSync)
    (id : ℕ) : Option (LocalSyncWorld ι) :=
  let last := Function.update w.last args.identity (some (args.data, args.syncType))
  match existing with
  | some row => some { w.goto i .done with
      rows := updateRow w.rows row.id (queuedUpdate args row), last }
  | none =>
    if w.rows.any (·.id = id) then none
    else some { w.goto i .done with
      rows := w.rows ++ [⟨id, args.identity, args.data, args.syncType, .pending⟩], last }

/-- One step of a call or of the drain. -/
def step (batchSize : ℕ) (args : ι → LocalQueueArgs) (w : LocalSyncWorld ι) :
    LocalSyncAction ι → Option (LocalSyncWorld ι)
  | .find i =>
    match w.stage i with
    | .finding => some (w.goto i (.saving (w.rows.find? (·.identity = (args i).identity))))
    | _ => none
  | .save i id =>
    match w.stage i with
    | .saving existing => w.save i (args i) existing id
    | _ => none
  | .load attributes =>
    match w.drain with
    | .idle => some { w with
        drain := nextBatch batchSize
          ((w.rows.filter (·.state = .pending)).map (localSyncPayload attributes)) [] }
    | _ => none
  | .respond successful =>
    match w.drain with
    | .awaiting batch rest posted =>
      let acks := successful.filter (· ∈ batch)
      some { w with
        drain := nextAck batchSize acks rest posted
        acknowledged := w.acknowledged ++ acks.filterMap (postedFor posted) }
    | _ => none
  | .reload attributes =>
    match w.drain with
    | .marking (id :: acks) rest posted =>
      match w.rows.find? (·.id = id) with
      | none => some { w with drain := nextAck batchSize acks rest posted }
      | some current =>
        if (postedFor posted id).map (·.snapshot) = some (localSyncPayload attributes current).snapshot
        then some { w with drain := .updating current acks rest posted }
        else some { w with drain := nextAck batchSize acks rest posted }
    | _ => none
  | .mark =>
    match w.drain with
    | .updating current acks rest posted => some { w with
        drain := nextAck batchSize acks rest posted
        rows := if current.state = .success then w.rows
          else updateRow w.rows current.id markSuccess }
    | _ => none
  | .abort =>
    match w.drain with
    | .idle => none
    | _ => some { w with drain := .idle }

end

/-- No save and no mark meets a row that has changed under it: a save finds a
    row if there is one, and what it leaves out is there; a mark finds what was
    reloaded. No call queues empty data, which stands for the resource's
    attributes. -/
def Undisturbed (args : ι → LocalQueueArgs) (w : LocalSyncWorld ι) : LocalSyncAction ι → Prop
  | .save i _ => (args i).data ≠ [] ∧ ∀ existing, w.stage i = .saving existing →
      ∀ row ∈ w.rows, row.identity = (args i).identity →
        ∃ e, existing = some e ∧ (e.state = .pending → row.state = .pending) ∧
          (e.syncType = (args i).syncType → row.syncType = (args i).syncType)
  | .mark => ∀ current acks rest posted, w.drain = .updating current acks rest posted →
      current.state = .success ∨ ∀ row ∈ w.rows, row.id = current.id →
        row.data = current.data ∧ row.syncType = current.syncType
  | _ => True

end LocalSyncWorld

/-! ## Rows that are updated or added -/

def Known (rows : List LocalSync) (id : ℕ) (identity : SyncIdentity) : Prop :=
  ∃ row ∈ rows, row.id = id ∧ row.identity = identity

def KeepsRows (rows rows' : List LocalSync) : Prop :=
  ∀ id identity, Known rows id identity → Known rows' id identity

/-- An update that leaves the id and the resource of a row. -/
structure KeepsKeys (f : LocalSync → LocalSync) : Prop where
  id : ∀ row, (f row).id = row.id
  identity : ∀ row, (f row).identity = row.identity

theorem KeepsKeys.queuedUpdate (args : LocalQueueArgs) (existing : LocalSync) :
    KeepsKeys (queuedUpdate args existing) := ⟨fun _ => rfl, fun _ => rfl⟩

theorem KeepsKeys.success : KeepsKeys markSuccess := ⟨fun _ => rfl, fun _ => rfl⟩

section
variable {rows : List LocalSync} {id : ℕ} {f : LocalSync → LocalSync}

theorem mem_updateRow {row' : LocalSync} :
    row' ∈ updateRow rows id f ↔
      ∃ row ∈ rows, (row.id = id ∧ row' = f row) ∨ (row.id ≠ id ∧ row' = row) := by
  simp only [updateRow, List.mem_map]
  constructor
  · rintro ⟨row, hrow, rfl⟩
    by_cases h : row.id = id
    · exact ⟨row, hrow, .inl ⟨h, if_pos h⟩⟩
    · exact ⟨row, hrow, .inr ⟨h, if_neg h⟩⟩
  · rintro ⟨row, hrow, ⟨h, rfl⟩ | ⟨h, rfl⟩⟩
    · exact ⟨row, hrow, if_pos h⟩
    · exact ⟨row', hrow, if_neg h⟩

theorem map_id_updateRow (hf : KeepsKeys f) :
    (updateRow rows id f).map (·.id) = rows.map (·.id) := by
  rw [updateRow, List.map_map]
  refine List.map_congr_left fun row _ => ?_
  by_cases h : row.id = id
  · simp [h, hf.id]
  · simp [h]

theorem map_identity_updateRow (hf : KeepsKeys f) :
    (updateRow rows id f).map (·.identity) = rows.map (·.identity) := by
  rw [updateRow, List.map_map]
  refine List.map_congr_left fun row _ => ?_
  by_cases h : row.id = id
  · simp [h, hf.identity]
  · simp [h]

theorem keepsRows_updateRow (hf : KeepsKeys f) : KeepsRows rows (updateRow rows id f) := by
  rintro k identity ⟨row, hrow, rfl, rfl⟩
  by_cases h : row.id = id
  · exact ⟨f row, mem_updateRow.mpr ⟨row, hrow, .inl ⟨h, rfl⟩⟩, hf.id row, hf.identity row⟩
  · exact ⟨row, mem_updateRow.mpr ⟨row, hrow, .inr ⟨h, rfl⟩⟩, rfl, rfl⟩

theorem keepsRows_append (more : List LocalSync) : KeepsRows rows (rows ++ more) := by
  rintro k identity ⟨row, hrow, h⟩
  exact ⟨row, List.mem_append_left _ hrow, h⟩

end

/-! ## What the drain knows -/

def Acked (acknowledged posted : List LocalSyncPayload) (acks : List ℕ) : Prop :=
  ∀ id ∈ acks, ∀ p, postedFor posted id = some p → p ∈ acknowledged

def AllKnown (rows : List LocalSync) (payloads : List LocalSyncPayload) : Prop :=
  ∀ p ∈ payloads, Known rows p.id p.identity

/-- What the drain has posted is of rows, what it is to mark is acknowledged,
    and the row it updates was reloaded as posted. -/
def DrainOk (rows : List LocalSync) (acknowledged : List LocalSyncPayload) : DrainStage → Prop
  | .idle => True
  | .awaiting _ rest posted => AllKnown rows rest ∧ AllKnown rows posted
  | .marking acks rest posted =>
    AllKnown rows rest ∧ AllKnown rows posted ∧ Acked acknowledged posted acks
  | .updating current acks rest posted =>
    AllKnown rows rest ∧ AllKnown rows posted ∧ Acked acknowledged posted acks ∧
      ∃ p ∈ acknowledged, p.id = current.id ∧
        ∃ attributes, p.snapshot = (localSyncPayload attributes current).snapshot

section
variable {rows rows' : List LocalSync} {acknowledged : List LocalSyncPayload}

theorem AllKnown.mono {payloads : List LocalSyncPayload} (h : AllKnown rows payloads)
    (hrows : KeepsRows rows rows') : AllKnown rows' payloads :=
  fun p hp => hrows _ _ (h p hp)

theorem DrainOk.mono {s : DrainStage} (h : DrainOk rows acknowledged s)
    (hrows : KeepsRows rows rows') : DrainOk rows' acknowledged s := by
  cases s with
  | idle => trivial
  | awaiting batch rest posted => exact ⟨h.1.mono hrows, h.2.mono hrows⟩
  | marking acks rest posted => exact ⟨h.1.mono hrows, h.2.1.mono hrows, h.2.2⟩
  | updating current acks rest posted => exact ⟨h.1.mono hrows, h.2.1.mono hrows, h.2.2⟩

theorem drainOk_nextBatch {batchSize : ℕ} {rest posted : List LocalSyncPayload}
    (hrest : AllKnown rows rest) (hposted : AllKnown rows posted) :
    DrainOk rows acknowledged (nextBatch batchSize rest posted) := by
  unfold nextBatch
  split
  · trivial
  · refine ⟨fun p hp => hrest p (List.mem_of_mem_drop hp), fun p hp => ?_⟩
    rcases List.mem_append.mp hp with hp | hp
    · exact hrest p (List.mem_of_mem_take hp)
    · exact hposted p hp

theorem drainOk_nextAck {batchSize : ℕ} {acks : List ℕ} {rest posted : List LocalSyncPayload}
    (hrest : AllKnown rows rest) (hposted : AllKnown rows posted)
    (hacks : Acked acknowledged posted acks) :
    DrainOk rows acknowledged (nextAck batchSize acks rest posted) := by
  unfold nextAck
  split
  · exact drainOk_nextBatch hrest hposted
  · exact ⟨hrest, hposted, hacks⟩

end

/-! ## The invariant -/

namespace LocalSyncWorld

def AsQueued (last : SyncIdentity → Option (List (String × Json) × String)) (row : LocalSync) :
    Prop :=
  row.data ≠ [] ∧ last row.identity = some (row.data, row.syncType)

def Sent (acknowledged : List LocalSyncPayload) (row : LocalSync) : Prop :=
  row.state = .success → ∃ p ∈ acknowledged, p.identity = row.identity ∧
    p.snapshot = localSyncReplaySnapshot row.data row.syncType

/-- The invariant of the queue. -/
structure Ok {ι : Type} (args : ι → LocalQueueArgs) (w : LocalSyncWorld ι) : Prop where
  ids : (w.rows.map (·.id)).Nodup
  identities : (w.rows.map (·.identity)).Nodup
  queued : ∀ row ∈ w.rows, AsQueued w.last row
  sent : ∀ row ∈ w.rows, Sent w.acknowledged row
  found : ∀ i e, w.stage i = .saving (some e) →
    e.identity = (args i).identity ∧ Known w.rows e.id e.identity
  acknowledged : AllKnown w.rows w.acknowledged
  drain : DrainOk w.rows w.acknowledged w.drain

variable {ι : Type} {args : ι → LocalQueueArgs} {w w' : LocalSyncWorld ι}

theorem ok_init : Ok args (init : LocalSyncWorld ι) where
  ids := .nil
  identities := .nil
  queued := fun _ h => absurd h List.not_mem_nil
  sent := fun _ h => absurd h List.not_mem_nil
  found := fun _ _ h => nomatch h
  acknowledged := fun _ h => absurd h List.not_mem_nil
  drain := trivial

section
variable (hw : Ok args w) {r s : LocalSync} (hr : r ∈ w.rows) (hs : s ∈ w.rows)
include hw hr hs

theorem Ok.same_id (h : r.id = s.id) : r = s :=
  List.inj_on_of_nodup_map hw.ids hr hs h

theorem Ok.same_identity (h : r.identity = s.identity) : r = s :=
  List.inj_on_of_nodup_map hw.identities hr hs h

end

theorem Ok.drained (hw : Ok args w) {drain : DrainStage} {more : List LocalSyncPayload}
    (hmore : AllKnown w.rows more) (hdrain : DrainOk w.rows (w.acknowledged ++ more) drain) :
    Ok args { w with drain, acknowledged := w.acknowledged ++ more } where
  __ := hw
  sent := by
    intro row hrow hsuccess
    obtain ⟨p, hp, h⟩ := hw.sent row hrow hsuccess
    exact ⟨p, List.mem_append_left _ hp, h⟩
  acknowledged := by
    intro p hp
    rcases List.mem_append.mp hp with hp | hp
    · exact hw.acknowledged p hp
    · exact hmore p hp
  drain := hdrain

theorem Ok.drainTo (hw : Ok args w) {drain : DrainStage}
    (hdrain : DrainOk w.rows w.acknowledged drain) : Ok args { w with drain } := by
  have hnone : AllKnown w.rows [] := fun p hp => absurd hp List.not_mem_nil
  have h := hw.drained hnone (by rwa [List.append_nil])
  rwa [List.append_nil] at h

section
variable [DecidableEq ι] {batchSize : ℕ} {i : ι}

theorem found_goto (hw : Ok args w) {rows : List LocalSync} (hrows : KeepsRows w.rows rows)
    {s : LocalQueueStage}
    (hs : ∀ e, s = .saving (some e) →
      e.identity = (args i).identity ∧ Known rows e.id e.identity) (j : ι) (e : LocalSync)
    (hj : (w.goto i s).stage j = .saving (some e)) :
    e.identity = (args j).identity ∧ Known rows e.id e.identity := by
  by_cases hji : j = i
  · subst hji
    exact hs e (by simpa [goto] using hj)
  · obtain ⟨h, hknown⟩ := hw.found j e (by simpa [goto, hji] using hj)
    exact ⟨h, hrows _ _ hknown⟩

theorem Ok.save (hw : Ok args w) {existing : Option LocalSync} {id : ℕ}
    (hi : w.stage i = .saving existing) (hfresh : Undisturbed args w (.save i id))
    (h : w.save i (args i) existing id = some w') : Ok args w' := by
  obtain ⟨hdata, hrow⟩ := hfresh
  replace hrow := hrow existing hi
  have hlast : ∀ {row : LocalSync}, row ∈ w.rows → row.identity ≠ (args i).identity →
      AsQueued (Function.update w.last (args i).identity (some ((args i).data, (args i).syncType)))
        row := by
    intro row hmem hne
    obtain ⟨hdata, hqueued⟩ := hw.queued row hmem
    exact ⟨hdata, by rw [Function.update_of_ne hne, hqueued]⟩
  unfold LocalSyncWorld.save at h
  split at h
  · rename_i e
    cases h
    obtain ⟨heargs, r, hr, hrid, hridentity⟩ := hw.found i e hi
    have hkeys := KeepsKeys.queuedUpdate (args i) e
    have hrows : KeepsRows w.rows (updateRow w.rows e.id (queuedUpdate (args i) e)) :=
      keepsRows_updateRow hkeys
    -- the one row that changes gets all three columns of the call
    have hupdated : queuedUpdate (args i) e r =
        ⟨r.id, r.identity, (args i).data, (args i).syncType, .pending⟩ := by
      obtain ⟨e', he', hstate, htype⟩ := hrow r hr (hridentity.trans heargs)
      cases he'
      have hs : (if e.state = .pending then r.state else .pending) = LocalSyncState.pending := by
        split
        · exact hstate ‹_›
        · rfl
      have ht : (if e.syncType = (args i).syncType then r.syncType else (args i).syncType) =
          (args i).syncType := by
        split
        · exact htype ‹_›
        · rfl
      simp [queuedUpdate, hs, ht]
    exact {
      ids := by
        show ((updateRow w.rows e.id _).map (·.id)).Nodup
        rw [map_id_updateRow hkeys]
        exact hw.ids
      identities := by
        show ((updateRow w.rows e.id _).map (·.identity)).Nodup
        rw [map_identity_updateRow hkeys]
        exact hw.identities
      queued := by
        intro row hmem
        rcases mem_updateRow.mp hmem with ⟨s, hs, ⟨hid, rfl⟩ | ⟨hid, rfl⟩⟩
        · obtain rfl := hw.same_id hs hr (hid.trans hrid.symm)
          rw [hupdated]
          refine ⟨hdata, ?_⟩
          show Function.update w.last _ _ s.identity = _
          rw [hridentity, heargs, Function.update_self]
        · refine hlast hs fun hsame => hid ?_
          rw [hw.same_identity hs hr (hsame.trans (hridentity.trans heargs).symm), hrid]
      sent := by
        intro row hmem hsuccess
        rcases mem_updateRow.mp hmem with ⟨s, hs, ⟨hid, rfl⟩ | ⟨hid, rfl⟩⟩
        · obtain rfl := hw.same_id hs hr (hid.trans hrid.symm)
          rw [hupdated] at hsuccess
          cases hsuccess
        · exact hw.sent row hs hsuccess
      found := found_goto hw hrows nofun
      acknowledged := hw.acknowledged.mono hrows
      drain := hw.drain.mono hrows }
  · split at h
    · cases h
    rename_i hnew
    cases h
    have hnone : ∀ row ∈ w.rows, row.identity ≠ (args i).identity := by
      intro row hmem hsame
      obtain ⟨e, he, -⟩ := hrow row hmem hsame
      cases he
    have hrows : KeepsRows w.rows
        (w.rows ++ [⟨id, (args i).identity, (args i).data, (args i).syncType, .pending⟩]) :=
      keepsRows_append _
    exact {
      ids := by
        show (List.map (fun row : LocalSync => row.id) (w.rows ++ [_])).Nodup
        rw [List.map_append, List.nodup_append]
        refine ⟨hw.ids, List.nodup_singleton _, ?_⟩
        rintro _ hk _ hid rfl
        obtain ⟨row, hmem, rfl⟩ := List.mem_map.mp hk
        refine hnew (List.any_eq_true.mpr ⟨row, hmem, ?_⟩)
        simpa using hid
      identities := by
        show (List.map (fun row : LocalSync => row.identity) (w.rows ++ [_])).Nodup
        rw [List.map_append, List.nodup_append]
        refine ⟨hw.identities, List.nodup_singleton _, ?_⟩
        rintro _ hk _ hidentity rfl
        obtain ⟨row, hmem, rfl⟩ := List.mem_map.mp hk
        exact hnone row hmem (by simpa using hidentity)
      queued := by
        intro row hmem
        rcases List.mem_append.mp hmem with hmem | hmem
        · exact hlast hmem (hnone row hmem)
        · obtain rfl := List.mem_singleton.mp hmem
          exact ⟨hdata, Function.update_self ..⟩
      sent := by
        intro row hmem hsuccess
        rcases List.mem_append.mp hmem with hmem | hmem
        · exact hw.sent row hmem hsuccess
        · obtain rfl := List.mem_singleton.mp hmem
          cases hsuccess
      found := found_goto hw hrows nofun
      acknowledged := hw.acknowledged.mono hrows
      drain := hw.drain.mono hrows }

end

theorem Ok.mark (hw : Ok args w) {batchSize : ℕ} {current : LocalSync} {acks : List ℕ}
    {rest posted : List LocalSyncPayload} (hdrain : w.drain = .updating current acks rest posted)
    (hfresh : Undisturbed args w (.mark)) :
    Ok args { w with
      drain := nextAck batchSize acks rest posted
      rows := if current.state = .success then w.rows
        else updateRow w.rows current.id markSuccess } := by
  have hok := hw.drain
  rw [hdrain] at hok
  obtain ⟨hrest, hposted, hacks, p, hp, hpid, attributes, hsnapshot⟩ := hok
  have hnext : Ok args { w with drain := nextAck batchSize acks rest posted } :=
    hw.drainTo (drainOk_nextAck hrest hposted hacks)
  split
  · exact hnext
  rename_i hpending
  have hkeys := KeepsKeys.success
  have hrows : KeepsRows w.rows (updateRow w.rows current.id markSuccess) :=
    keepsRows_updateRow hkeys
  have hsame : ∀ row ∈ w.rows, row.id = current.id →
      row.data = current.data ∧ row.syncType = current.syncType :=
    (hfresh current acks rest posted hdrain).resolve_left hpending
  exact {
    ids := by
      show ((updateRow w.rows current.id _).map (·.id)).Nodup
      rw [map_id_updateRow hkeys]
      exact hw.ids
    identities := by
      show ((updateRow w.rows current.id _).map (·.identity)).Nodup
      rw [map_identity_updateRow hkeys]
      exact hw.identities
    queued := by
      intro row hmem
      rcases mem_updateRow.mp hmem with ⟨s, hs, ⟨-, rfl⟩ | ⟨-, rfl⟩⟩
      · exact hw.queued s hs
      · exact hw.queued row hs
    sent := by
      intro row hmem hsuccess
      rcases mem_updateRow.mp hmem with ⟨s, hs, ⟨hid, rfl⟩ | ⟨-, rfl⟩⟩
      · obtain ⟨hdata, htype⟩ := hsame s hs hid
        refine ⟨p, hp, ?_, ?_⟩
        · obtain ⟨r, hr, hrid, hridentity⟩ := hw.acknowledged p hp
          rw [← hridentity, hw.same_id hr hs (hrid.trans (hpid.trans hid.symm))]
          rfl
        · have hown : localSyncData current.data (attributes current.identity) = s.data := by
            rw [localSyncData, ← hdata, if_neg]
            simpa using (hw.queued s hs).1
          rw [hsnapshot, localSyncPayload, hown, ← htype]
          rfl
      · exact hw.sent row hs hsuccess
    found := by
      intro i e hi
      obtain ⟨h, hknown⟩ := hw.found i e hi
      exact ⟨h, hrows _ _ hknown⟩
    acknowledged := hw.acknowledged.mono hrows
    drain := hnext.drain.mono hrows }

theorem allKnown_pending (rows : List LocalSync)
    (attributes : SyncIdentity → Option (List (String × Json))) :
    AllKnown rows ((rows.filter (·.state = .pending)).map (localSyncPayload attributes)) := by
  intro p hp
  obtain ⟨row, hrow, rfl⟩ := List.mem_map.mp hp
  exact ⟨row, (List.mem_filter.mp hrow).1, rfl, rfl⟩

theorem Ok.step [DecidableEq ι] {batchSize : ℕ} (hw : Ok args w) {a : LocalSyncAction ι}
    (hfresh : Undisturbed args w a) (h : step batchSize args w a = some w') : Ok args w' := by
  cases a with
  | find i =>
    dsimp only [LocalSyncWorld.step] at h
    split at h
    · cases h
      refine { hw with found := found_goto hw (fun _ _ h => h) ?_ }
      intro e he
      have hfind := LocalQueueStage.saving.inj he
      have hidentity : e.identity = (args i).identity := by simpa using List.find?_some hfind
      exact ⟨hidentity, e, List.mem_of_find?_eq_some hfind, rfl, rfl⟩
    · cases h
  | save i id =>
    dsimp only [LocalSyncWorld.step] at h
    split at h
    · rename_i existing hi
      exact hw.save hi hfresh h
    · cases h
  | load attributes =>
    dsimp only [LocalSyncWorld.step] at h
    split at h
    · cases h
      exact hw.drainTo (drainOk_nextBatch (allKnown_pending w.rows attributes)
        fun p hp => absurd hp List.not_mem_nil)
    · cases h
  | respond successful =>
    dsimp only [LocalSyncWorld.step] at h
    split at h
    · rename_i batch rest posted hdrain
      cases h
      have hok := hw.drain
      rw [hdrain] at hok
      obtain ⟨hrest, hposted⟩ := hok
      refine hw.drained ?_ (drainOk_nextAck hrest hposted ?_)
      · intro p hp
        obtain ⟨id, -, hfor⟩ := List.mem_filterMap.mp hp
        exact hposted p (List.mem_of_find?_eq_some hfor)
      · intro id hid p hfor
        exact List.mem_append_right _ (List.mem_filterMap.mpr ⟨id, hid, hfor⟩)
    · cases h
  | reload attributes =>
    dsimp only [LocalSyncWorld.step] at h
    split at h
    · rename_i id acks rest posted hdrain
      have hok := hw.drain
      rw [hdrain] at hok
      obtain ⟨hrest, hposted, hacks⟩ := hok
      have htail : Acked w.acknowledged posted acks :=
        fun k hk => hacks k (List.mem_cons_of_mem _ hk)
      split at h
      · cases h
        exact hw.drainTo (drainOk_nextAck hrest hposted htail)
      · rename_i current hcurrent
        split at h
        · rename_i hsnapshot
          cases h
          obtain ⟨p, hfor, hp⟩ := Option.map_eq_some_iff.mp hsnapshot
          have hpid : p.id = id := by simpa using List.find?_some hfor
          have hid : current.id = id := by simpa using List.find?_some hcurrent
          exact hw.drainTo ⟨hrest, hposted, htail, p, hacks id List.mem_cons_self p hfor,
            hpid.trans hid.symm, attributes, hp⟩
        · cases h
          exact hw.drainTo (drainOk_nextAck hrest hposted htail)
    · cases h
  | mark =>
    dsimp only [LocalSyncWorld.step] at h
    split at h
    · rename_i current acks rest posted hdrain
      cases h
      exact hw.mark hdrain hfresh
    · cases h
  | abort =>
    dsimp only [LocalSyncWorld.step] at h
    split at h
    · cases h
    · cases h
      exact hw.drainTo trivial

/-- **Rows in state success were acknowledged.** In every interleaving of queueing
    calls with the drain in which no save and no mark meets a row that has
    changed under it, there is at most one row for each resource, and if that is
    in state success, a payload with the data and the sync type of the last call
    for the resource was posted and acknowledged. -/
theorem success_rows_are_acknowledged [DecidableEq ι] {batchSize : ℕ}
    {actions : List (LocalSyncAction ι)}
    (hfresh : Along (step batchSize args) (Undisturbed args) init actions)
    (hrun : runActions (step batchSize args) init actions = some w) (identity : SyncIdentity) :
    (w.rows.filter (·.identity = identity)).length ≤ 1 ∧
      ∀ row ∈ w.rows, row.identity = identity → row.state = .success →
        ∃ data syncType, w.last identity = some (data, syncType) ∧
          ∃ p ∈ w.acknowledged, p.identity = identity ∧
            p.snapshot = localSyncReplaySnapshot data syncType := by
  have hw : Ok args w := runActions_invariant (I := Ok args)
    (fun _ _ _ hs hok h => hs.step hok h) actions ok_init hfresh hrun
  constructor
  · have hcount := List.nodup_iff_count_le_one.mp hw.identities identity
    rw [List.count, List.countP_map, List.countP_eq_length_filter] at hcount
    refine le_of_eq_of_le (congrArg List.length (List.filter_congr fun row _ => ?_)) hcount
    simp [beq_eq_decide]
  · rintro row hrow rfl hsuccess
    exact ⟨row.data, row.syncType, (hw.queued row hrow).2, hw.sent row hrow hsuccess⟩

end LocalSyncWorld

/-! ## An edit while a row is marked -/

def taskIdentity : SyncIdentity := ⟨"Task", "1"⟩

def taskEdits : Bool → LocalQueueArgs
  | false => ⟨taskIdentity, [("name", .str "a")], "update"⟩
  | true => ⟨taskIdentity, [("name", .str "b")], "update"⟩

/-- The first edit is queued, posted and acknowledged. -/
def queueAndPost : List (LocalSyncAction Bool) :=
  [.find false, .save false 1, .load fun _ => none, .respond [1], .reload fun _ => none]

/-- The second edit comes between the comparison and the mark. -/
def editBeforeMark : List (LocalSyncAction Bool) :=
  queueAndPost ++ [.find true, .save true 2, .mark]

/-- Both edits look for the row before either has created it. -/
def editsAtOnce : List (LocalSyncAction Bool) :=
  [.find false, .find true, .save false 1, .save true 2]

theorem queueAndPost_undisturbed :
    Along (LocalSyncWorld.step 100 taskEdits) (LocalSyncWorld.Undisturbed taskEdits) .init
      (queueAndPost ++ [.mark]) := by
  refine ⟨trivial, ⟨List.cons_ne_nil _ _, ?_⟩, trivial, trivial, trivial, ?_, trivial⟩
  · rintro existing - row hrow
    cases hrow
  · rintro current acks rest posted ⟨⟩
    refine .inr fun row hrow _ => ?_
    obtain rfl := List.mem_singleton.mp hrow
    exact ⟨rfl, rfl⟩

theorem success_rows_are_acknowledged_task :
    ∃ w, runActions (LocalSyncWorld.step 100 taskEdits) .init (queueAndPost ++ [.mark]) = some w ∧
      (w.rows.map fun row => row.state) = [.success] ∧
      ((w.rows.filter (·.identity = taskIdentity)).length ≤ 1 ∧
        ∀ row ∈ w.rows, row.identity = taskIdentity → row.state = .success →
          ∃ data syncType, w.last taskIdentity = some (data, syncType) ∧
            ∃ p ∈ w.acknowledged, p.identity = taskIdentity ∧
              p.snapshot = localSyncReplaySnapshot data syncType) :=
  ⟨_, rfl, rfl, @LocalSyncWorld.success_rows_are_acknowledged Bool taskEdits _ _ 100
    (queueAndPost ++ [.mark]) queueAndPost_undisturbed rfl taskIdentity⟩

/-- **An overwritten edit is marked.** The row is in state success, while the last
    edit was never posted; and two edits at once leave two rows. -/
theorem overwritten_edit_marked :
    (∃ w, runActions (LocalSyncWorld.step 100 taskEdits) .init editBeforeMark = some w ∧
      (w.rows.map fun row => (row.identity, row.state)) = [(taskIdentity, .success)] ∧
      w.last taskIdentity = some ([("name", .str "b")], "update") ∧
      ∀ p ∈ w.acknowledged, p.snapshot ≠ localSyncReplaySnapshot [("name", .str "b")] "update") ∧
    ∃ w, runActions (LocalSyncWorld.step 100 taskEdits) .init editsAtOnce = some w ∧
      (w.rows.filter (·.identity = taskIdentity)).length = 2 := by
  refine ⟨⟨_, rfl, rfl, rfl, ?_⟩, _, rfl, rfl⟩
  intro p hp
  obtain rfl := List.mem_singleton.mp hp
  decide

end Velocious
