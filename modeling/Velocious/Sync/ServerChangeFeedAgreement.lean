/-
  When the two stores of the server change feed agree.
-/
import Velocious.Sync.ServerChangeFeedStores

namespace Velocious.FeedStores

open Foundation Foundation.JsValue DeviceIdentity List

variable {p : Platform} {size : JsNumber} {a : Append} {calls before : List Append}
variable {e : ServerChangeFeedEntry} {row : ServerChangeFeedRow} {m : MemoryStore} {s : SqlStore}
variable {n : ℕ}

/-! ## One change -/

/-- The row reads as the entry, and is found under the same scopes. -/
structure Kin (p : Platform) (e : ServerChangeFeedEntry) (row : ServerChangeFeedRow) : Prop where
  same : SameEntry e (normalizeChangeRow row)
  scope : write (normal (valueOrNull e.scope)) = write row.scopeJson
  scopeText : ∀ scope : JsonValue,
    p.sameText (jsonText row.scopeJson) (jsonText (normal scope.value)) →
      write row.scopeJson = write (normal scope.value)

theorem written_onKeys : OnKeys isWritten := ⟨fun _ _ => rfl, fun _ _ _ _ => rfl⟩

variable {v : JsValue}

theorem same_viaJson : Same v (viaJson v) ↔ all isWritten v = true := by
  constructor
  · intro h
    have hsorted := (all_sortAll written_onKeys (viaJson v)).mpr (written_viaJson v)
    rw [← show sortAll v = sortAll (viaJson v) from h] at hsorted
    exact (all_sortAll written_onKeys v).mp hsorted
  · intro h
    rw [viaJson_of_written h]
    rfl

theorem ordinary_of_written (h : all isWritten v = true) : all isOrdinary v = true := by
  refine all_imp (fun w hw => ?_) h
  cases w with
  | obj o fields => exact hw
  | null | bool _ | num _ | str _ | arr _ => rfl

theorem same_viaJson_scope (hkeys : all hasDistinctKeys v = true) :
    Same v (viaJson (normal v)) ↔ all isWritten v = true ∧ all hasNoProto v = true := by
  constructor
  · intro h
    have hback : ∀ {q : JsValue → Bool}, OnKeys q → all q (viaJson (normal v)) = true →
        all q v = true := by
      intro q hq hall
      have hsorted := (all_sortAll hq _).mpr hall
      rw [← show sortAll v = sortAll (viaJson (normal v)) from h] at hsorted
      exact (all_sortAll hq v).mp hsorted
    exact ⟨hback written_onKeys (written_viaJson _), hback hasNoProto_onKeys
      (noProto_relabel (fun _ => rereadScalar_scalar) (noProto_normal v))⟩
  · rintro ⟨hwritten, hproto⟩
    exact Eq.symm ((same_viaJson_normal hkeys (ordinary_of_written hwritten)).mpr
      ⟨finite_of_written hwritten, hproto⟩)

theorem orNull_eq_self {value : Option String} : value = orNull value ↔ value ≠ some "" := by
  cases value with
  | none => simp [orNull]
  | some s => by_cases hs : s = "" <;> simp [orNull, Option.filter]

theorem valueOrNull_valueOrNull (v : JsValue) : valueOrNull (valueOrNull v) = valueOrNull v := by
  unfold valueOrNull
  by_cases h : isTruthy v = true
  · simp [h]
  · simp [h]

theorem valueOrNull_givenOrNull (v : Option JsonValue) :
    valueOrNull (givenOrNull v) = givenOrNull v := by
  cases v with
  | none => rfl
  | some v => exact valueOrNull_valueOrNull v.value

theorem distinct_givenOrNull (v : Option JsonValue) :
    all hasDistinctKeys (givenOrNull v) = true := by
  cases v with
  | none => rfl
  | some v =>
    show all hasDistinctKeys (valueOrNull v.value) = true
    unfold valueOrNull
    split
    · exact v.distinct
    · rfl

/-- **What a row gives back** is the memory store's entry exactly when the columns keep it. -/
theorem same_row {t : TimeValue} (hparse : p.parseDate a.createdAt = some t) :
    SameEntry (a.entry n) (normalizeChangeRow (a.row (p.keepTime t) n)) ∧ a.ScopeText p ↔
      a.Kept p := by
  have hdate : (p.parseDate a.createdAt).map (fun t => String.ofList (isoText (p.keepTime t))) =
      some (.ofList (isoText (p.keepTime t))) := by
    rw [hparse]
    rfl
  have hscope := same_viaJson_scope (distinct_givenOrNull a.change.scope)
  constructor
  · rintro ⟨h, hscopeText⟩
    exact {
      actorDeviceId := orNull_eq_self.mp h.actorDeviceId
      actorUserId := orNull_eq_self.mp h.actorUserId
      idempotencyKey := orNull_eq_self.mp h.idempotencyKey
      recordId := orNull_eq_self.mp h.recordId
      createdAt := hdate.trans (congrArg some h.createdAt.symm)
      attributes := same_viaJson.mp h.attributes
      payload := same_viaJson.mp h.payload
      response := same_viaJson.mp h.response
      scope := hscope.mp h.scope
      scopeText := hscopeText }
  · intro h
    refine ⟨?_, h.scopeText⟩
    exact {
      actorDeviceId := orNull_eq_self.mpr h.actorDeviceId
      actorUserId := orNull_eq_self.mpr h.actorUserId
      attributes := same_viaJson.mpr h.attributes
      createdAt := (Option.some.inj (hdate.symm.trans h.createdAt)).symm
      id := rfl
      idempotencyKey := orNull_eq_self.mpr h.idempotencyKey
      model := rfl
      operation := rfl
      payload := same_viaJson.mpr h.payload
      recordId := orNull_eq_self.mpr h.recordId
      response := same_viaJson.mpr h.response
      scope := hscope.mpr h.scope
      serverSequence := rfl }

theorem Append.Kept.parsed (h : a.Kept p) : ∃ t, p.parseDate a.createdAt = some t := by
  obtain ⟨t, ht, -⟩ := Option.map_eq_some_iff.mp h.createdAt
  exact ⟨t, ht⟩

theorem Append.Kept.kin (h : a.Kept p) {t : TimeValue} (ht : p.parseDate a.createdAt = some t) :
    Kin p (a.entry n) (a.row (p.keepTime t) n) where
  same := ((same_row ht).mpr h).1
  scopeText := h.scopeText
  scope := by
    show write (normal (valueOrNull (givenOrNull a.change.scope))) = _
    rw [valueOrNull_givenOrNull]
    rfl

/-! ## Stores of the same changes -/

/-- The changes of the stores have increasing sequences and are kin, one by one. -/
structure Numbered (p : Platform) (m : MemoryStore) (s : SqlStore) : Prop where
  kin : List.Forall₂ (Kin p) m.memoryChanges s.rows
  increasing : m.memoryChanges.Pairwise fun e f => e.serverSequence < f.serverSequence
  positive : ∀ e ∈ m.memoryChanges, 0 < e.serverSequence
  latest : m.memorySequence = s.latestSequence

def Ascending (s : SqlStore) : Prop :=
  s.rows.Pairwise fun r t => r.serverSequence < t.serverSequence

theorem Ascending.sorted (h : Ascending s) : s.sorted = s.rows :=
  (h.imp fun hlt => hlt.le).insertionSort_eq

variable {entries : List ServerChangeFeedEntry} {rows : List ServerChangeFeedRow}

theorem kin_sequences (h : List.Forall₂ (Kin p) entries rows) :
    entries.map (·.serverSequence) = rows.map (·.serverSequence) := by
  induction h with
  | nil => rfl
  | cons hkin _ ih =>
    rw [map_cons, ih]
    exact congrArg (· :: _) hkin.same.serverSequence

theorem Numbered.ascending (h : Numbered p m s) : Ascending s := by
  have hmap := pairwise_map.mpr h.increasing
  rw [kin_sequences h.kin] at hmap
  exact pairwise_map.mp hmap

theorem Numbered.oldestSequence (h : Numbered p m s) : m.oldestSequence = s.oldestSequence := by
  rw [SqlStore.oldestSequence, h.ascending.sorted, ← head?_map, ← kin_sequences h.kin,
    head?_map, MemoryStore.oldestSequence]
  cases hhead : m.memoryChanges.head? with
  | none => rfl
  | some e =>
    have hpos := h.positive e (mem_of_head? hhead)
    simp [hpos.ne']

theorem Kin.inScope {e : ServerChangeFeedEntry} (h : Kin p e row) (scope : Option JsonValue) :
    MemoryStore.scopesEqual e.scope scope = SqlStore.inScope p row scope := by
  cases scope with
  | none => rfl
  | some scope =>
    show decide (write (normal (valueOrNull e.scope)) = _) = _
    rw [h.scope, Bool.eq_iff_iff, decide_eq_true_eq]
    refine ⟨fun hsame => ?_, h.scopeText scope⟩
    show p.sameText (jsonText row.scopeJson) (jsonText (normal scope.value)) = true
    rw [jsonText, jsonText, hsame]
    exact p.sameText_refl _

section
variable (h : List.Forall₂ (Kin p) entries rows)
include h

theorem kin_filter (after latest : JsNumber) (scope : Option JsonValue) :
    List.Forall₂ (Kin p)
      (entries.filter fun e => isAbove e.serverSequence after && isUpTo e.serverSequence latest &&
        MemoryStore.scopesEqual e.scope scope)
      (rows.filter fun row => isAbove row.serverSequence after &&
        isUpTo row.serverSequence latest && SqlStore.inScope p row scope) := by
  refine rel_filter (fun e row hkin => ?_) h
  have hsequence : e.serverSequence = row.serverSequence := hkin.same.serverSequence
  show (_ : Bool) = true ↔ (_ : Bool) = true
  rw [hkin.inScope, hsequence]

theorem kin_length (size : ℕ) :
    decide (size < entries.length) = decide (size < (rows.take (size + 1)).length) := by
  rw [h.length_eq, length_take]
  exact decide_eq_decide.mpr (by omega)

theorem kin_getLast? :
    entries.getLast?.map (fun e => JsNumber.int e.serverSequence) =
      (rows.map normalizeChangeRow).getLast?.map fun e => JsNumber.int e.serverSequence := by
  have hmap := congrArg (fun l => (l.getLast?).map fun k : ℕ => JsNumber.int k) (kin_sequences h)
  simp only [getLast?_map, Option.map_map] at hmap ⊢
  exact hmap

end

/-- **Stores of the same changes answer every query alike.** -/
theorem Numbered.agree (h : Numbered p m s) : Agree p m s where
  latestSequence := h.latest
  oldestSequence := h.oldestSequence
  changesAfter := by
    intro q hq
    have hlatest : (q.upToSequence.getD (.int s.latestSequence)).floor?.isSome = true := by
      cases hup : q.upToSequence with
      | none => rfl
      | some x => exact hq.upToSequence x hup
    have hnumbers : (q.afterSequence.floor?.isNone ||
        (q.upToSequence.getD (.int s.latestSequence)).floor?.isNone) = false := by
      rw [← Option.not_isSome, ← Option.not_isSome, hq.afterSequence, hlatest]
      rfl
    unfold MemoryStore.changesAfter SqlStore.changesAfter
    rw [h.oldestSequence, h.latest, h.ascending.sorted]
    by_cases hsnapshot : snapshotRequired q.afterSequence s.oldestSequence = true
    · simp only [hsnapshot]
      exact ⟨_, rfl, .nil, rfl, rfl, rfl, rfl, rfl⟩
    · simp only [hsnapshot, hnumbers]
      have hrows := kin_filter h.kin q.afterSequence
        (q.upToSequence.getD (.int s.latestSequence)) q.scope
      have hpage := forall₂_take q.pageSize hrows
      refine ⟨_, rfl, ?_, kin_length hrows q.pageSize, ?_, rfl, rfl, rfl⟩
      · rw [take_take, min_eq_left (Nat.le_succ _), forall₂_map_right_iff]
        exact hpage.imp fun _ _ hkin => hkin.same
      · rw [take_take, min_eq_left (Nat.le_succ _)]
        exact congrArg (fun last => last.getD q.afterSequence) (kin_getLast? hpage)

/-! ## What agreeing stores hold -/

/-- The changes of the memory store, in the order of their sequences. -/
structure MemoryOrdered (m : MemoryStore) : Prop where
  increasing : m.memoryChanges.Pairwise fun e f => e.serverSequence < f.serverSequence
  bounds : ∀ e ∈ m.memoryChanges, 0 < e.serverSequence ∧ e.serverSequence ≤ m.memorySequence

def queryFor (e : ServerChangeFeedEntry) : ChangesQuery where
  afterSequence := .int (e.serverSequence - 1)
  limit := some (.num (.int 1))
  scope := none
  upToSequence := none

theorem filter_from
    (h : entries.Pairwise fun e f => e.serverSequence < f.serverSequence) (he : e ∈ entries)
    {keep : ServerChangeFeedEntry → Bool} (hkeep : keep e = true)
    (hfrom : ∀ f ∈ entries, keep f = true → e.serverSequence ≤ f.serverSequence) :
    (entries.filter keep).take 1 = [e] := by
  induction entries with
  | nil => exact absurd he not_mem_nil
  | cons f entries ih =>
    obtain ⟨hfirst, hothers⟩ := pairwise_cons.mp h
    rcases mem_cons.mp he with rfl | he
    · rw [filter_cons_of_pos hkeep]
      rfl
    · have hdrop : ¬ keep f = true := fun hf =>
        absurd (hfrom f mem_cons_self hf) (not_le.mpr (hfirst e he))
      rw [filter_cons_of_neg hdrop]
      exact ih hothers he fun g hg => hfrom g (mem_cons_of_mem f hg)

variable {first k : ℕ}

theorem MemoryOrdered.oldest_le (h : MemoryOrdered m) (he : e ∈ m.memoryChanges)
    (hk : m.oldestSequence = some k) : k ≤ e.serverSequence := by
  obtain ⟨hk, -⟩ := Option.filter_eq_some_iff.mp hk
  obtain ⟨first, hfirst, rfl⟩ := Option.map_eq_some_iff.mp hk
  obtain ⟨rest, hrest⟩ := head?_eq_some_iff.mp hfirst
  rw [hrest] at he
  rcases mem_cons.mp he with rfl | he
  · exact le_rfl
  · have hpair := h.increasing
    rw [hrest] at hpair
    exact ((pairwise_cons.mp hpair).1 e he).le

theorem MemoryOrdered.snapshot (h : MemoryOrdered m) (he : e ∈ m.memoryChanges) :
    snapshotRequired (queryFor e).afterSequence m.oldestSequence = false := by
  show (decide ((0 : ℤ) < (e.serverSequence : ℤ) - 1) && m.oldestSequence.any fun oldest : ℕ =>
    decide ((e.serverSequence : ℤ) - 1 + 1 < (oldest : ℤ))) = false
  cases hold : m.oldestSequence with
  | none => simp
  | some k =>
    have hk := h.oldest_le he hold
    have hnot : ¬ (e.serverSequence : ℤ) - 1 + 1 < k := by omega
    rw [Option.any_some, decide_eq_false hnot, Bool.and_false]

theorem MemoryOrdered.page (h : MemoryOrdered m) (he : e ∈ m.memoryChanges) :
    (m.changesAfter (queryFor e)).changes = [e] := by
  obtain ⟨hpos, hle⟩ := h.bounds e he
  have hsnapshot := h.snapshot he
  unfold MemoryStore.changesAfter
  simp only [hsnapshot]
  refine filter_from h.increasing he ?_ fun f _ hf => ?_
  · have habove : (e.serverSequence : ℤ) - 1 < e.serverSequence := by omega
    have hup : (e.serverSequence : ℤ) ≤ m.memorySequence := by exact_mod_cast hle
    simp [queryFor, isAbove, isUpTo, MemoryStore.scopesEqual, habove, hup]
  · simp only [queryFor, isAbove, Bool.and_eq_true, decide_eq_true_eq] at hf
    omega

theorem mem_of_changesAfter {q : ChangesQuery} {answer : ChangesAnswer}
    (h : s.changesAfter p q = some answer) (he : e ∈ answer.changes) :
    ∃ row ∈ s.rows, e = normalizeChangeRow row := by
  simp only [SqlStore.changesAfter] at h
  split at h
  · cases h
    exact absurd he not_mem_nil
  · split at h
    · cases h
    · cases h
      obtain ⟨row, hrow, rfl⟩ := mem_map.mp he
      have hmem := mem_of_mem_filter (mem_of_mem_take (mem_of_mem_take hrow))
      exact ⟨row, mem_sortByKey.mp hmem, rfl⟩

/-- **What the memory store holds, an agreeing SQL store does.** -/
theorem Agree.entry (h : Agree p m s) (hm : MemoryOrdered m) (he : e ∈ m.memoryChanges) :
    ∃ row ∈ s.rows, SameEntry e (normalizeChangeRow row) := by
  obtain ⟨answer, hanswer, hsame⟩ := h.changesAfter (queryFor e) ⟨rfl, nofun⟩
  have hchanges := hsame.changes
  rw [hm.page he] at hchanges
  obtain ⟨f, rest, hef, -, hlist⟩ := forall₂_cons_left_iff.mp hchanges
  obtain ⟨row, hrow, rfl⟩ := mem_of_changesAfter hanswer (hlist ▸ mem_cons_self)
  exact ⟨row, hrow, hef⟩

theorem changesAfter_ne_nil {q : ChangesQuery} {answer : ChangesAnswer}
    (h : s.changesAfter p q = some answer) (hpage : 0 < q.pageSize)
    (hsnapshot : snapshotRequired q.afterSequence s.oldestSequence = false) (hrow : row ∈ s.rows)
    (hkeep : (isAbove row.serverSequence q.afterSequence &&
      isUpTo row.serverSequence (q.upToSequence.getD (.int s.latestSequence)) &&
        SqlStore.inScope p row q.scope) = true) : answer.changes ≠ [] := by
  simp only [SqlStore.changesAfter, hsnapshot, Bool.false_eq_true, if_false] at h
  split at h
  · cases h
  · cases h
    have hmem : row ∈ s.sorted.filter fun row => isAbove row.serverSequence q.afterSequence &&
        isUpTo row.serverSequence (q.upToSequence.getD (.int s.latestSequence)) &&
          SqlStore.inScope p row q.scope := mem_filter.mpr ⟨mem_sortByKey.mpr hrow, hkeep⟩
    have hlength := length_pos_of_mem hmem
    refine ne_nil_of_length_pos ?_
    rw [length_map, length_take, length_take]
    exact lt_min hpage (lt_min (Nat.succ_pos _) hlength)

theorem of_mem_changesAfter {q : ChangesQuery} (h : e ∈ (m.changesAfter q).changes) :
    e ∈ m.memoryChanges ∧ isAbove e.serverSequence q.afterSequence = true ∧
      MemoryStore.scopesEqual e.scope q.scope = true := by
  simp only [MemoryStore.changesAfter] at h
  split at h
  · exact absurd h not_mem_nil
  · obtain ⟨hmem, hkeep⟩ := mem_filter.mp (mem_of_mem_take h)
    rw [Bool.and_eq_true, Bool.and_eq_true] at hkeep
    exact ⟨hmem, hkeep.1.1, hkeep.2⟩

/-- **Where an agreeing SQL store finds the latest change, the memory store does.** -/
theorem Agree.scopes (h : Agree p m s) (hm : MemoryOrdered m) (he : e ∈ m.memoryChanges)
    (hlatest : e.serverSequence = m.memorySequence) (hrow : row ∈ s.rows)
    (hsequence : row.serverSequence = e.serverSequence) {scope : JsonValue}
    (hscope : SqlStore.inScope p row (some scope) = true) :
    MemoryStore.scopesEqual e.scope (some scope) = true := by
  obtain ⟨answer, hanswer, hsame⟩ :=
    h.changesAfter { queryFor e with scope := some scope } ⟨rfl, nofun⟩
  have hne : answer.changes ≠ [] := by
    refine changesAfter_ne_nil hanswer Nat.one_pos (h.oldestSequence ▸ hm.snapshot he) hrow ?_
    have hlatest' : s.latestSequence = e.serverSequence := h.latestSequence.symm.trans hlatest.symm
    rw [hscope, Bool.and_true, hsequence, Bool.and_eq_true]
    refine ⟨decide_eq_true ?_, decide_eq_true ?_⟩
    · show ((e.serverSequence : ℤ) - 1) < e.serverSequence
      omega
    · show (e.serverSequence : ℤ) ≤ s.latestSequence
      rw [hlatest']
  obtain ⟨f, rest, hfound⟩ := exists_cons_of_ne_nil hne
  have hchanges := hsame.changes
  rw [hfound] at hchanges
  obtain ⟨g, others, -, -, hmemory⟩ := forall₂_cons_right_iff.mp hchanges
  obtain ⟨hg, habove, hequal⟩ := of_mem_changesAfter (hmemory ▸ mem_cons_self)
  have hlt : (e.serverSequence : ℤ) - 1 < g.serverSequence := of_decide_eq_true habove
  have hle := (hm.bounds g hg).2
  obtain rfl : g = e := eq_of_key_eq (hm.increasing.imp fun hlt => hlt.ne) hg he (by omega)
  exact hequal

/-! ## What the stores hold after the appends -/

/-- The entries of these calls, numbered from 1. -/
def entriesOf (calls : List Append) : List ServerChangeFeedEntry :=
  calls.mapIdx fun i a => a.entry (i + 1)

/-- What the datetime column keeps of the date of a change that has one. -/
def Append.time (p : Platform) (a : Append) : TimeValue :=
  p.keepTime ((p.parseDate a.createdAt).getD a.now)

/-- The rows of these calls, numbered from 1. -/
def rowsOf (p : Platform) (calls : List Append) : List ServerChangeFeedRow :=
  calls.mapIdx fun i a => a.row (a.time p) (i + 1)

theorem entriesOf_concat (before : List Append) (a : Append) :
    entriesOf (before ++ [a]) = entriesOf before ++ [a.entry (before.length + 1)] :=
  mapIdx_concat

theorem rowsOf_concat (before : List Append) (a : Append) :
    rowsOf p (before ++ [a]) = rowsOf p before ++ [a.row (a.time p) (before.length + 1)] :=
  mapIdx_concat

theorem length_entriesOf : (entriesOf calls).length = calls.length := length_mapIdx

theorem length_rowsOf : (rowsOf p calls).length = calls.length := length_mapIdx

theorem rowsOf_sequences :
    (rowsOf p calls).map (·.serverSequence) = List.range' 1 calls.length := by
  induction calls using List.reverseRecOn with
  | nil => rfl
  | append_singleton before a ih =>
    rw [rowsOf_concat, map_append, ih, length_append, length_singleton,
      range'_concat, one_mul, add_comm 1]
    rfl

theorem entriesOf_sequences :
    (entriesOf calls).map (·.serverSequence) = List.range' 1 calls.length := by
  induction calls using List.reverseRecOn with
  | nil => rfl
  | append_singleton before a ih =>
    rw [entriesOf_concat, map_append, ih, length_append, length_singleton,
      range'_concat, one_mul, add_comm 1]
    rfl

theorem rowsOf_ids : (rowsOf p calls).map (·.id) = calls.map Append.id := by
  induction calls using List.reverseRecOn with
  | nil => rfl
  | append_singleton before a ih =>
    rw [rowsOf_concat, map_append, map_append, ih]
    rfl

/-- How many changes the stores have cut off after `n` appends. -/
def cutOff (size : JsNumber) (n : ℕ) : ℕ :=
  match size.integer? with
  | some k => if 1 ≤ k then n - k.toNat else 0
  | none => 0

/-- The stores hold what these appends leave. -/
structure Holds (p : Platform) (size : JsNumber) (calls : List Append) (m : MemoryStore)
    (s : SqlStore) : Prop where
  kept : ∀ a ∈ calls, a.Kept p
  entries : m.memoryChanges = (entriesOf calls).drop (cutOff size calls.length)
  memorySequence : m.memorySequence = calls.length
  rows : s.rows = (rowsOf p calls).drop (cutOff size calls.length)
  sequence : s.sequence = calls.length

theorem cutOff_le (h : 0 < n) : cutOff size n ≤ n - 1 := by
  unfold cutOff
  split
  · split
    · omega
    · omega
  · omega

theorem cutOff_le_self (n : ℕ) : cutOff size n ≤ n := by
  unfold cutOff
  split
  · split
    · omega
    · omega
  · omega

theorem mem_entriesOf_bounds (he : e ∈ entriesOf calls) :
    0 < e.serverSequence ∧ e.serverSequence ≤ calls.length := by
  have hmem : e.serverSequence ∈ (entriesOf calls).map (·.serverSequence) :=
    mem_map_of_mem he
  rw [entriesOf_sequences, mem_range'_1] at hmem
  omega

theorem entriesOf_increasing :
    (entriesOf calls).Pairwise fun e f => e.serverSequence < f.serverSequence := by
  have hrange := pairwise_lt_range' (s := 1) (n := calls.length) 1
  rw [← entriesOf_sequences] at hrange
  exact pairwise_map.mp hrange

theorem oldest_of_sequences (h : s.rows.map (·.serverSequence) = List.range' first n) :
    s.oldestSequence = if n = 0 then none else some first := by
  have hascending : Ascending s := by
    have hrange := pairwise_lt_range' (s := first) (n := n) 1
    rw [← h] at hrange
    exact pairwise_map.mp hrange
  rw [SqlStore.oldestSequence, hascending.sorted, ← head?_map, h, head?_range']

theorem latest_of_sequences (h : s.rows.map (·.serverSequence) = List.range' first n) :
    s.latestSequence = if n = 0 then 0 else first + n - 1 := by
  have hascending : Ascending s := by
    have hrange := pairwise_lt_range' (s := first) (n := n) 1
    rw [← h] at hrange
    exact pairwise_map.mp hrange
  rw [SqlStore.latestSequence, hascending.sorted, ← getLast?_map, h, getLast?_range']
  split
  · rfl
  · rfl

theorem oldest_of_entries (hfirst : 0 < first)
    (h : m.memoryChanges.map (·.serverSequence) = List.range' first n) :
    m.oldestSequence = if n = 0 then none else some first := by
  rw [MemoryStore.oldestSequence, ← head?_map, h, head?_range']
  split
  · rfl
  · simp [hfirst.ne']

namespace Holds
variable (h : Holds p size calls m s)
include h

theorem rows_sequences : s.rows.map (·.serverSequence) =
    List.range' (cutOff size calls.length + 1) (calls.length - cutOff size calls.length) := by
  rw [h.rows, map_drop, rowsOf_sequences, drop_range', mul_one, add_comm 1]

theorem memoryOrdered : MemoryOrdered m where
  increasing := by
    rw [h.entries]
    exact entriesOf_increasing.sublist (drop_sublist _ _)
  bounds := by
    intro e he
    rw [h.entries] at he
    rw [h.memorySequence]
    exact mem_entriesOf_bounds (mem_of_mem_drop he)

theorem numbered : Numbered p m s where
  kin := by
    rw [h.entries, h.rows]
    refine forall₂_drop _ ?_
    have hall := h.kept
    clear h
    induction calls using List.reverseRecOn with
    | nil => exact .nil
    | append_singleton before a ih =>
      obtain ⟨t, ht⟩ := (hall a (by simp)).parsed
      have htime : a.time p = p.keepTime t := by rw [Append.time, ht, Option.getD_some]
      rw [entriesOf_concat, rowsOf_concat, htime]
      refine rel_append (ih fun b hb => hall b (mem_append_left _ hb)) ?_
      exact .cons ((hall a (by simp)).kin ht) .nil
  increasing := h.memoryOrdered.increasing
  positive := fun e he => (h.memoryOrdered.bounds e he).1
  latest := by
    rw [h.memorySequence, latest_of_sequences h.rows_sequences]
    rcases Nat.eq_zero_or_pos calls.length with hzero | hpos
    · rw [hzero, Nat.zero_sub]
      rfl
    · have hcut : cutOff size calls.length ≤ calls.length - 1 := cutOff_le hpos
      rw [if_neg (by omega)]
      omega

/-- **Stores that hold what these appends leave answer alike.** -/
theorem agree : Agree p m s := h.numbered.agree

end Holds

/-! ## One append -/

theorem excess_integer {k : ℤ} (h : size.integer? = some k) (length : ℕ) :
    MemoryStore.excess p size length = ((length : ℤ) - k).toNat := by
  cases size with
  | int n =>
    cases h
    rfl
  | real floor integral text =>
    cases integral with
    | true =>
      cases h
      rfl
    | false => cases h
  | nan => cases h
  | infinity negative => cases h

/-- A positive integer, the number of changes that stay. -/
def Window (size : JsNumber) (k : ℕ) : Prop := 0 < k ∧ size.integer? = some (k : ℤ)

theorem cutOff_window (h : Window size k) (n : ℕ) : cutOff size n = n - k := by
  have hk : (1 : ℤ) ≤ k := by exact_mod_cast h.1
  simp [cutOff, h.2, hk]

theorem retained_window (h : Window size k) : RetainedAlike p size before a ↔
    ∀ oldest recent, before.drop (before.length - k) = oldest :: recent → k ≤ before.length →
      (∀ id ∈ (oldest :: recent).map Append.id, p.sameText id a.id = false) ∧
        ∀ id ∈ recent.map Append.id, p.sameText id oldest.id = false := by
  have hk : (1 : ℤ) ≤ k := by exact_mod_cast h.1
  simp [RetainedAlike, h.2, hk]

theorem prune_window (h : Window size k) (rows : List ServerChangeFeedRow) (latest : ℕ) :
    SqlStore.pruneRetainedChanges p size rows latest =
      if latest ≤ k then rows
      else rows.filter fun row =>
        !((rows.filter fun row => row.serverSequence ≤ latest - k).map (·.id)).any fun id =>
          p.sameText row.id id := by
  have hk : ¬ (k : ℤ) < 1 := by exact_mod_cast not_lt.mpr h.1
  simp only [SqlStore.pruneRetainedChanges, h.2, hk, if_false]
  by_cases hle : latest ≤ k
  · rw [if_pos hle, if_pos (by omega)]
  · rw [if_neg hle, if_neg (by omega)]
    have hfilter : ∀ row : ServerChangeFeedRow,
        decide ((row.serverSequence : ℤ) ≤ latest - k) = decide (row.serverSequence ≤ latest - k) :=
      fun row => decide_eq_decide.mpr (by omega)
    simp only [hfilter]

theorem window_or (p : Platform) (size : JsNumber) : (∃ k, Window size k) ∨
    ((∀ n, cutOff size n = 0) ∧
      (∀ rows latest, SqlStore.pruneRetainedChanges p size rows latest = rows) ∧
      ∀ before a, RetainedAlike p size before a ↔
        MemoryStore.excess p size (before.length + 1) = 0) := by
  cases hsize : size.integer? with
  | none =>
    refine .inr ⟨fun n => ?_, fun rows latest => ?_, fun before a => ?_⟩
    · simp [cutOff, hsize]
    · simp [SqlStore.pruneRetainedChanges, hsize]
    · simp [RetainedAlike, hsize]
  | some k =>
    by_cases hk : 1 ≤ k
    · refine .inl ⟨k.toNat, by omega, ?_⟩
      rw [hsize, Int.toNat_of_nonneg (by omega)]
    · refine .inr ⟨fun n => ?_, fun rows latest => ?_, fun before a => ?_⟩
      · simp [cutOff, hsize, hk]
      · have hlt : k < 1 := by omega
        simp [SqlStore.pruneRetainedChanges, hsize, hlt]
      · simp [RetainedAlike, hsize, hk]

theorem append_sql {t : TimeValue} (hparse : p.parseDate a.createdAt = some t) :
    ∃ found, (s.rows ++ [a.row (p.keepTime t) (s.sequence + 1)]).find? (fun row => p.sameText row.id a.id) =
        some found ∧
      (s.append p size a).toOption.getD s = ⟨s.sequence + 1,
        SqlStore.pruneRetainedChanges p size
          (s.rows ++ [a.row (p.keepTime t) (s.sequence + 1)]) found.serverSequence⟩ := by
  have hfound : ((s.rows ++ [a.row (p.keepTime t) (s.sequence + 1)]).find?
      fun row => p.sameText row.id a.id).isSome = true := by
    refine find?_isSome.mpr ⟨_, mem_append_right _ (mem_singleton_self _), ?_⟩
    exact p.sameText_refl a.id
  obtain ⟨found, hfound⟩ := Option.isSome_iff_exists.mp hfound
  refine ⟨found, hfound, ?_⟩
  simp only [SqlStore.append, hparse, hfound]
  rfl

theorem prune_subset {latest : ℕ}
    (h : row ∈ SqlStore.pruneRetainedChanges p size rows latest) : row ∈ rows := by
  rcases window_or p size with ⟨k, hk⟩ | ⟨-, hprune, -⟩
  · rw [prune_window hk] at h
    split at h
    · exact h
    · exact mem_of_mem_filter h
  · rwa [hprune] at h

namespace Holds
variable (h : Holds p size before m s)
include h

theorem append_entries : (m.append p size a).memoryChanges =
    (entriesOf (before ++ [a])).drop (cutOff size before.length +
      MemoryStore.excess p size (before.length - cutOff size before.length + 1)) := by
  have hle : cutOff size before.length ≤ (entriesOf before).length := by
    rw [length_entriesOf]
    exact cutOff_le_self _
  have hlist : m.memoryChanges ++ [a.entry (m.memorySequence + 1)] =
      (entriesOf (before ++ [a])).drop (cutOff size before.length) := by
    rw [h.entries, h.memorySequence, entriesOf_concat, drop_append_of_le_length hle]
  have hlength : (m.memoryChanges ++ [a.entry (m.memorySequence + 1)]).length =
      before.length - cutOff size before.length + 1 := by
    rw [length_append, h.entries, length_drop, length_entriesOf, length_singleton]
  show ((m.memoryChanges ++ [a.entry (m.memorySequence + 1)]).drop (MemoryStore.excess p size
    (m.memoryChanges ++ [a.entry (m.memorySequence + 1)]).length)) = _
  rw [hlength, hlist, drop_drop]

theorem append_retained (hretained : RetainedAlike p size before a) :
    (m.append p size a).memoryChanges =
      (entriesOf (before ++ [a])).drop (cutOff size (before ++ [a]).length) := by
  rw [h.append_entries, length_append, length_singleton]
  rcases window_or p size with ⟨k, hk⟩ | ⟨hcut, -, hiff⟩
  · have hexcess := @excess_integer p size k hk.2 (before.length - (before.length - k) + 1)
    rw [cutOff_window hk, cutOff_window hk]
    congr 1
    omega
  · rw [hcut, hcut, Nat.sub_zero, (hiff before a).mp hretained]

theorem rows_window {k : ℕ} (hk : Window size k) (hle : k ≤ before.length) :
    ∃ first rest, s.rows = first :: rest ∧ first.serverSequence = before.length - k + 1 ∧
      (∀ row ∈ rest, before.length - k + 1 < row.serverSequence ∧
        row.serverSequence ≤ before.length) ∧
      ∃ oldest recent, before.drop (before.length - k) = oldest :: recent ∧
        first.id = oldest.id ∧ rest.map (·.id) = recent.map Append.id := by
  have hpos := hk.1
  have hsequences := h.rows_sequences
  rw [cutOff_window hk, show before.length - (before.length - k) = (k - 1) + 1 by omega] at hsequences
  obtain ⟨first, rest, hrows, hfirst, hrest⟩ := map_eq_cons_iff.mp hsequences
  have hids : s.rows.map (·.id) = (before.drop (before.length - k)).map Append.id := by
    rw [h.rows, cutOff_window hk, map_drop, rowsOf_ids, map_drop]
  rw [hrows] at hids
  obtain ⟨oldest, recent, hdrop, hid, hrecent⟩ := map_eq_cons_iff.mp hids.symm
  refine ⟨first, rest, hrows, hfirst, fun row hrow => ?_, oldest, recent, hdrop, hid.symm,
    hrecent.symm⟩
  have hmem : row.serverSequence ∈ rest.map (·.serverSequence) := mem_map_of_mem hrow
  rw [hrest, mem_range'_1] at hmem
  omega

variable {t : TimeValue}

section
variable {k : ℕ} (hk : Window size k) (hle : k ≤ before.length)
  (hparse : p.parseDate a.createdAt = some t) {first : ServerChangeFeedRow}
  {rest : List ServerChangeFeedRow} (hrows : s.rows = first :: rest)
  (hfirst : first.serverSequence = before.length - k + 1)
  (hrest : ∀ row ∈ rest, before.length - k + 1 < row.serverSequence ∧ row.serverSequence ≤ before.length)
include hk hle hparse hrows hfirst hrest

theorem append_fresh
    (hfresh : ∀ id ∈ (first :: rest).map (·.id), p.sameText id a.id = false) :
    ((s.append p size a).toOption.getD s).rows =
      (rest ++ [a.row (p.keepTime t) (before.length + 1)]).filter fun row =>
        !p.sameText row.id first.id := by
  obtain ⟨found, hfound, happend⟩ := @append_sql p size a s t hparse
  have hnone : (first :: rest).find? (fun row => p.sameText row.id a.id) = none :=
    find?_eq_none.mpr fun row hrow hid => by
      rw [hfresh row.id (mem_map_of_mem hrow)] at hid
      cases hid
  rw [hrows, find?_append, hnone, h.sequence, find?_singleton] at hfound
  have hid : p.sameText (a.row (p.keepTime t) (before.length + 1)).id a.id = true :=
    p.sameText_refl a.id
  rw [if_pos hid] at hfound
  cases hfound
  have hpruned : (first :: rest ++ [a.row (p.keepTime t) (before.length + 1)]).filter
      (fun row => row.serverSequence ≤ before.length + 1 - k) = [first] := by
    rw [cons_append, filter_cons_of_pos (by exact decide_eq_true (by omega))]
    refine congrArg (first :: ·) (filter_eq_nil_iff.mpr fun row hrow => ?_)
    rw [decide_eq_true_eq]
    rcases mem_append.mp hrow with hrow | hrow
    · have hbound := (hrest row hrow).1
      omega
    · have hpos := hk.1
      rw [mem_singleton.mp hrow]
      show ¬ before.length + 1 ≤ before.length + 1 - k
      omega
  have hlatest : (a.row (p.keepTime t) (before.length + 1)).serverSequence = before.length + 1 := rfl
  rw [happend, hrows, h.sequence]
  show SqlStore.pruneRetainedChanges p size _ _ = _
  rw [prune_window hk, hlatest, if_neg (by omega), hpruned]
  simp [p.sameText_refl first.id]

theorem append_known (hknown : ∃ id ∈ (first :: rest).map (·.id), p.sameText id a.id = true) :
    ((s.append p size a).toOption.getD s).rows =
      s.rows ++ [a.row (p.keepTime t) (before.length + 1)] := by
  obtain ⟨found, hfound, happend⟩ := @append_sql p size a s t hparse
  have hold : ((first :: rest).find? fun row => p.sameText row.id a.id).isSome = true := by
    obtain ⟨id, hid, hsame⟩ := hknown
    obtain ⟨row, hrow, rfl⟩ := mem_map.mp hid
    exact find?_isSome.mpr ⟨row, hrow, hsame⟩
  obtain ⟨old, hold⟩ := Option.isSome_iff_exists.mp hold
  rw [hrows, find?_append, hold] at hfound
  obtain rfl := Option.some.inj hfound
  have hbounds : ∀ row ∈ first :: rest, before.length - k < row.serverSequence ∧
      row.serverSequence ≤ before.length := by
    intro row hrow
    have hpos := hk.1
    rcases mem_cons.mp hrow with rfl | hrow
    · omega
    · have hbound := hrest row hrow
      omega
  have hlast := (hbounds old (mem_of_find?_eq_some hold)).2
  rw [happend, h.sequence]
  show SqlStore.pruneRetainedChanges p size _ _ = _
  rw [prune_window hk]
  split
  · rfl
  · have hpruned : (s.rows ++ [a.row (p.keepTime t) (before.length + 1)]).filter
        (fun row => row.serverSequence ≤ old.serverSequence - k) = [] := by
      refine filter_eq_nil_iff.mpr fun row hrow => ?_
      rw [decide_eq_true_eq]
      rcases mem_append.mp hrow with hrow | hrow
      · rw [hrows] at hrow
        have hbound := (hbounds row hrow).1
        omega
      · rw [mem_singleton.mp hrow]
        show ¬ before.length + 1 ≤ old.serverSequence - k
        omega
    rw [hpruned]
    simp

end

section
variable (hparse : p.parseDate a.createdAt = some t)
include hparse

theorem append_all (hprune : ∀ rows latest, latest ≤ before.length + 1 →
      SqlStore.pruneRetainedChanges p size rows latest = rows) :
    ((s.append p size a).toOption.getD s).rows =
      s.rows ++ [a.row (p.keepTime t) (before.length + 1)] := by
  obtain ⟨found, hfound, happend⟩ := @append_sql p size a s t hparse
  have hlatest : found.serverSequence ≤ before.length + 1 := by
    rcases mem_append.mp (mem_of_find?_eq_some hfound) with hmem | hmem
    · have hseq : found.serverSequence ∈ s.rows.map (·.serverSequence) :=
        mem_map_of_mem hmem
      rw [h.rows_sequences, mem_range'_1] at hseq
      omega
    · rw [mem_singleton.mp hmem]
      show s.sequence + 1 ≤ before.length + 1
      rw [h.sequence]
  rw [happend, h.sequence]
  exact hprune _ _ hlatest

theorem rows_concat :
    s.rows ++ [a.row (p.keepTime t) (before.length + 1)] =
      (rowsOf p (before ++ [a])).drop (cutOff size before.length) := by
  have hle : cutOff size before.length ≤ (rowsOf p before).length := by
    rw [length_rowsOf]
    exact cutOff_le_self _
  have htime : a.time p = p.keepTime t := by rw [Append.time, hparse, Option.getD_some]
  rw [h.rows, rowsOf_concat, drop_append_of_le_length hle, htime]

theorem append_rows (hretained : RetainedAlike p size before a) :
    ((s.append p size a).toOption.getD s).rows =
      (rowsOf p (before ++ [a])).drop (cutOff size (before ++ [a]).length) := by
  rw [length_append, length_singleton]
  rcases window_or p size with ⟨k, hk⟩ | ⟨hcut, hprune, -⟩
  · by_cases hle : k ≤ before.length
    · obtain ⟨first, rest, hrows, hfirst, hrest, oldest, recent, hdrop, hid, hids⟩ :=
        h.rows_window hk hle
      obtain ⟨hfresh, hleaves⟩ := (retained_window hk).mp hretained oldest recent hdrop hle
      have hnew : ∀ id ∈ (first :: rest).map (·.id), p.sameText id a.id = false := by
        rw [map_cons, hid, hids]
        exact hfresh
      have hkept : (rest ++ [a.row (p.keepTime t) (before.length + 1)]).filter
          (fun row => !p.sameText row.id first.id) =
            rest ++ [a.row (p.keepTime t) (before.length + 1)] := by
        refine filter_eq_self.mpr fun row hrow => (Bool.not_eq_true' _).mpr ?_
        rcases mem_append.mp hrow with hrow | hrow
        · have hmem : row.id ∈ rest.map (·.id) := mem_map_of_mem hrow
          rw [hids] at hmem
          rw [hid]
          exact hleaves row.id hmem
        · rw [mem_singleton.mp hrow]
          exact (p.sameText_symm _ _).trans (hnew first.id mem_cons_self)
      have hconcat := h.rows_concat hparse
      rw [hrows, cutOff_window hk] at hconcat
      rw [h.append_fresh hk hle hparse hrows hfirst hrest hnew, hkept, cutOff_window hk,
        show before.length + 1 - k = before.length - k + 1 by omega, ← drop_drop, ← hconcat]
      rfl
    · rw [h.append_all hparse fun rows latest hlatest => by
        rw [prune_window hk, if_pos (by omega)], h.rows_concat hparse, cutOff_window hk,
        cutOff_window hk, show before.length - k = before.length + 1 - k by omega]
  · rw [h.append_all hparse fun rows latest _ => hprune rows latest, h.rows_concat hparse, hcut,
      hcut]

end

/-- **What one append keeps.** -/
theorem append (hkept : a.Kept p) (hretained : RetainedAlike p size before a) :
    Holds p size (before ++ [a]) (m.append p size a) ((s.append p size a).toOption.getD s) where
  kept := by
    intro b hb
    rcases mem_append.mp hb with hb | hb
    · exact h.kept b hb
    · rw [mem_singleton.mp hb]
      exact hkept
  entries := h.append_retained hretained
  memorySequence := by
    show m.memorySequence + 1 = _
    rw [h.memorySequence, length_append, length_singleton]
  rows := by
    obtain ⟨t, hparse⟩ := hkept.parsed
    exact h.append_rows hparse hretained
  sequence := by
    obtain ⟨t, hparse⟩ := hkept.parsed
    obtain ⟨found, -, happend⟩ := @append_sql p size a s t hparse
    rw [happend, length_append, length_singleton, ← h.sequence]

theorem parsed_of_agree
    (hagree : Agree p (m.append p size a) ((s.append p size a).toOption.getD s)) :
    ∃ t, p.parseDate a.createdAt = some t := by
  cases hparse : p.parseDate a.createdAt with
  | some t => exact ⟨t, rfl⟩
  | none =>
    have hrejected : (s.append p size a).toOption.getD s = s := by
      simp only [SqlStore.append, hparse]
      rfl
    have hlatest := hagree.latestSequence
    rw [hrejected, ← h.numbered.latest] at hlatest
    exact absurd hlatest (Nat.succ_ne_self _)

theorem append_memoryOrdered : MemoryOrdered (m.append p size a) where
  increasing := by
    rw [h.append_entries]
    exact entriesOf_increasing.sublist (drop_sublist _ _)
  bounds := by
    intro e he
    rw [h.append_entries] at he
    have hbounds := mem_entriesOf_bounds (mem_of_mem_drop he)
    rw [length_append, ← h.memorySequence] at hbounds
    exact hbounds

section
variable (hagree : Agree p (m.append p size a) ((s.append p size a).toOption.getD s))
include hagree

theorem retained_of_agree :
    RetainedAlike p size before a := by
  obtain ⟨t, hparse⟩ := h.parsed_of_agree hagree
  have holdest := hagree.oldestSequence
  have hentries : (m.append p size a).memoryChanges.map (·.serverSequence) =
      List.range' (cutOff size before.length + MemoryStore.excess p size
          (before.length - cutOff size before.length + 1) + 1)
        (before.length + 1 - (cutOff size before.length + MemoryStore.excess p size
          (before.length - cutOff size before.length + 1))) := by
    rw [h.append_entries, map_drop, entriesOf_sequences, drop_range', mul_one,
      add_comm 1, length_append, length_singleton]
  rw [oldest_of_entries (Nat.succ_pos _) hentries] at holdest
  rcases window_or p size with ⟨k, hk⟩ | ⟨hcut, hprune, hiff⟩
  · refine (retained_window hk).mpr fun oldest recent hdrop hle => ?_
    obtain ⟨first, rest, hrows, hfirst, hrest, oldest', recent', hdrop', hid, hids⟩ :=
      h.rows_window hk hle
    obtain ⟨rfl, rfl⟩ := List.cons.inj (hdrop.symm.trans hdrop')
    have hpos := hk.1
    have hexcess := @excess_integer p size k hk.2 (before.length - (before.length - k) + 1)
    rw [cutOff_window hk, if_neg (by omega)] at holdest
    have hfresh : ∀ id ∈ (first :: rest).map (·.id), p.sameText id a.id = false := by
      refine fun id hid => Bool.eq_false_iff.mpr fun hknown => ?_
      have hall := h.append_known hk hle hparse hrows hfirst hrest ⟨id, hid, hknown⟩
      have hsequences : ((s.append p size a).toOption.getD s).rows.map (·.serverSequence) =
          List.range' (before.length - k + 1) (k + 1) := by
        rw [hall, map_append, h.rows_sequences, cutOff_window hk,
          show before.length - (before.length - k) = k by omega, range'_concat, one_mul,
          show before.length - k + 1 + k = before.length + 1 by omega]
        rfl
      rw [oldest_of_sequences hsequences] at holdest
      have hsame := Option.some.inj holdest
      omega
    have hleft := h.append_fresh hk hle hparse hrows hfirst hrest hfresh
    rw [map_cons, hid, hids] at hfresh
    refine ⟨hfresh, fun id hleaves => Bool.eq_false_iff.mpr fun hsame => ?_⟩
    rw [← hids] at hleaves
    obtain ⟨row, hrow, rfl⟩ := mem_map.mp hleaves
    -- the row was deleted with the oldest one, and the memory store still has its entry
    have hbounds := hrest row hrow
    have hseq : row.serverSequence ∈
        (m.append p size a).memoryChanges.map (·.serverSequence) := by
      rw [hentries, cutOff_window hk, mem_range'_1]
      omega
    obtain ⟨e, he, heseq⟩ := mem_map.mp hseq
    obtain ⟨row', hrow', hentry⟩ := hagree.entry h.append_memoryOrdered he
    have hseq' : row'.serverSequence = row.serverSequence :=
      hentry.serverSequence.symm.trans heseq
    rw [hleft, mem_filter] at hrow'
    obtain ⟨hmem, hid'⟩ := hrow'
    have hrow'' : row' = row := by
      have hascending := h.numbered.ascending
      rw [Ascending, hrows] at hascending
      rcases mem_append.mp hmem with hmem | hmem
      · exact eq_of_key_eq ((pairwise_cons.mp hascending).2.imp fun hlt => hlt.ne) hmem hrow
          hseq'
      · rw [mem_singleton.mp hmem] at hseq'
        have hlast : before.length + 1 = row.serverSequence := hseq'
        omega
    rw [hrow'', hid, hsame] at hid'
    cases hid'
  · rw [hcut, Nat.sub_zero] at holdest
    have hsequences : ((s.append p size a).toOption.getD s).rows.map (·.serverSequence) =
        List.range' 1 (before.length + 1) := by
      rw [h.append_all hparse fun rows latest _ => hprune rows latest, map_append,
        h.rows_sequences, hcut, range'_concat, one_mul, add_comm 1 before.length]
      rfl
    rw [(oldest_of_sequences hsequences).trans (if_neg (Nat.succ_ne_zero _))] at holdest
    refine (hiff before a).mpr ?_
    split at holdest
    · cases holdest
    · have hsame := Option.some.inj holdest
      omega

theorem kept_of_agree : a.Kept p := by
  obtain ⟨t, hparse⟩ := h.parsed_of_agree hagree
  have hmem : a.entry (before.length + 1) ∈ (m.append p size a).memoryChanges := by
    rw [h.append_retained (h.retained_of_agree hagree), entriesOf_concat,
      drop_append_of_le_length]
    · exact mem_append_right _ (mem_singleton_self _)
    · rw [length_entriesOf, length_append]
      exact cutOff_le (Nat.succ_pos _)
  obtain ⟨row, hrow, hsame⟩ := hagree.entry h.append_memoryOrdered hmem
  obtain ⟨found, -, happend⟩ := @append_sql p size a s t hparse
  rw [happend] at hrow
  rcases mem_append.mp (prune_subset hrow) with hold | hnew
  · have hseq : row.serverSequence ∈ s.rows.map (·.serverSequence) := mem_map_of_mem hold
    rw [h.rows_sequences, mem_range'_1] at hseq
    have hlast : before.length + 1 = row.serverSequence := hsame.serverSequence
    omega
  · rw [← happend] at hrow
    obtain rfl : row = a.row (p.keepTime t) (before.length + 1) := by
      rw [mem_singleton.mp hnew, h.sequence]
    refine (same_row hparse).mp ⟨hsame, fun scope hscope => ?_⟩
    have hlatest : (a.entry (before.length + 1)).serverSequence =
        (m.append p size a).memorySequence := congrArg (· + 1) h.memorySequence.symm
    have hequal := hagree.scopes h.append_memoryOrdered hmem hlatest hrow rfl hscope
    have hwritten : write (normal (valueOrNull (givenOrNull a.change.scope))) =
        write (normal scope.value) := of_decide_eq_true hequal
    rwa [valueOrNull_givenOrNull] at hwritten

end

end Holds

/-! ## Runs -/

theorem memoryRun_concat (before : List Append) (a : Append) :
    memoryRun p size (before ++ [a]) = (memoryRun p size before).append p size a := by
  rw [memoryRun, foldl_append]
  rfl

theorem sqlRun_concat (before : List Append) (a : Append) :
    sqlRun p size (before ++ [a]) =
      ((sqlRun p size before).append p size a).toOption.getD (sqlRun p size before) := by
  rw [sqlRun, foldl_append]
  rfl

theorem holds_empty : Holds p size [] (memoryRun p size []) (sqlRun p size []) where
  kept := by simp
  entries := by
    rw [show entriesOf [] = [] from rfl, drop_nil]
    rfl
  memorySequence := rfl
  rows := by
    rw [show rowsOf p [] = [] from rfl, drop_nil]
    rfl
  sequence := rfl

theorem holds_run (h : ∀ before a after, calls = before ++ a :: after →
    a.Kept p ∧ RetainedAlike p size before a) :
    Holds p size calls (memoryRun p size calls) (sqlRun p size calls) := by
  induction calls using List.reverseRecOn with
  | nil => exact holds_empty
  | append_singleton before a ih =>
    have hbefore := ih fun before' b after hsplit =>
      h before' b (after ++ [a]) (by rw [hsplit, append_assoc, cons_append])
    obtain ⟨hkept, hretained⟩ := h before a [] rfl
    rw [memoryRun_concat, sqlRun_concat]
    exact hbefore.append hkept hretained

/-- The stores agree after every append of a run. -/
def AgreeAlong (p : Platform) (size : JsNumber) (calls : List Append) : Prop :=
  ∀ before a after, calls = before ++ a :: after →
    Agree p (memoryRun p size (before ++ [a])) (sqlRun p size (before ++ [a]))

theorem kept_run (h : AgreeAlong p size calls) : ∀ before a after, calls = before ++ a :: after →
    a.Kept p ∧ RetainedAlike p size before a := by
  induction calls using List.reverseRecOn with
  | nil =>
    intro before a after hsplit
    exact absurd hsplit (by simp)
  | append_singleton calls c ih =>
    have hcalls := ih fun before a after hsplit =>
      h before a (after ++ [c]) (by rw [hsplit, append_assoc, cons_append])
    intro before a after hsplit
    rcases eq_nil_or_concat after with rfl | ⟨after, d, rfl⟩
    · obtain ⟨rfl, hlast⟩ := append_inj' hsplit rfl
      obtain rfl := singleton_inj.mp hlast
      have hagree := h calls c [] rfl
      rw [memoryRun_concat, sqlRun_concat] at hagree
      have hholds := holds_run hcalls
      exact ⟨hholds.kept_of_agree hagree, hholds.retained_of_agree hagree⟩
    · rw [concat_eq_append, ← cons_append, ← append_assoc] at hsplit
      exact hcalls before a after (append_inj' hsplit rfl).1

/-- ISO dates, in a column that keeps them. -/
def isoPlatform : Platform where
  parseDate s := parseIso s.toList
  keepTime := id
  sameText s t := s = t
  sameText_refl _ := decide_eq_true rfl
  sameText_symm _ _ := decide_eq_decide.mpr eq_comm
  roundsUp _ _ := false

def emptyRecordId : Append where
  change :=
    { actorDeviceId := none, actorUserId := none, attributes := none, createdAt := none
      id := some "1", idempotencyKey := none, model := "Task", operation := "update"
      payload := none, recordId := some (.text ""), response := none, scope := none }
  randomUUID := "2"
  now := ⟨0, (by decide : (0 : ℤ) ≤ maxTime)⟩

/-- With a size of 2.5 the memory store cuts off a change of four, and the SQL store none. -/
example : MemoryStore.excess isoPlatform (.real 2 false "2.5") 4 = 1 ∧
    ∀ rows latest, SqlStore.pruneRetainedChanges isoPlatform (.real 2 false "2.5") rows latest = rows :=
  ⟨rfl, fun _ _ => rfl⟩

end Velocious.FeedStores
