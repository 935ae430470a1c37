/-
  Live queries converge.
-/
import Velocious.Database.LiveQuery
import Velocious.Foundation.History
import Velocious.Foundation.JsonText

namespace Velocious.LiveQueries

open Foundation List

variable {ρ err ε ι : Type}

theorem toList_split {a b c d : List Char} {stop : Char} (ha : stop ∉ a) (hb : stop ∉ b)
    (h : a ++ stop :: c = b ++ stop :: d) : a = b ∧ c = d := by
  induction a generalizing b with
  | nil =>
    cases b with
    | nil => exact ⟨rfl, (List.cons.inj h).2⟩
    | cons x b => exact absurd (List.cons.inj h).1 (fun heq => hb (heq ▸ mem_cons_self))
  | cons x a ih =>
    cases b with
    | nil => exact absurd (List.cons.inj h).1 (fun heq => ha (heq ▸ mem_cons_self))
    | cons y b =>
      obtain ⟨rfl, htail⟩ := List.cons.inj h
      obtain ⟨rfl, hrest⟩ := ih (fun hmem => ha (mem_cons_of_mem _ hmem))
        (fun hmem => hb (mem_cons_of_mem _ hmem)) htail
      exact ⟨rfl, hrest⟩

theorem colon_notMem_digits (n : ℕ) : ':' ∉ Nat.toDigits 10 n := by
  intro h
  have hdigit := Nat.isDigit_of_mem_toDigits (by decide) (by decide) h
  revert hdigit
  decide

theorem digits_inj {m n : ℕ} (h : Nat.toDigits 10 m = Nat.toDigits 10 n) : m = n := by
  have hvalue := congrArg (Nat.ofDigitChars 10 · 0) h
  simpa using hvalue

theorem codeUnits_append (s t : String) : codeUnits (s ++ t) = codeUnits s ++ codeUnits t := by
  simp [codeUnits]

/-- **The keys of the buffer are those of the model and the database.** -/
theorem eventKey_inj {key key' : Key} (h : eventKey key = eventKey key') : key = key' := by
  have hsplit : Nat.toDigits 10 (jsLength key.modelName) ++
        ':' :: (key.modelName ++ ":" ++ key.databaseIdentity).toList =
      Nat.toDigits 10 (jsLength key'.modelName) ++
        ':' :: (key'.modelName ++ ":" ++ key'.databaseIdentity).toList := by
    have hlist := congrArg String.toList h
    simpa [eventKey] using hlist
  obtain ⟨hdigits, hrest⟩ := toList_split (colon_notMem_digits _) (colon_notMem_digits _) hsplit
  have hlength := digits_inj hdigits
  have hunits := congrArg codeUnits (String.toList_inj.1 hrest)
  rw [codeUnits_append, codeUnits_append, codeUnits_append, codeUnits_append, append_assoc,
    append_assoc] at hunits
  obtain ⟨hname, hothers⟩ := append_inj hunits hlength
  obtain ⟨-, hidentity⟩ := append_inj hothers rfl
  rw [Key.mk.injEq]
  exact ⟨codeUnits_inj hname, codeUnits_inj hidentity⟩

/-! ## The bus -/

def isBatched : Entry ρ err ι → Bool
  | .batched => true
  | _ => false

def isEnded : Entry ρ err ι → Bool
  | .ended _ => true
  | _ => false

def Kept (bus : RecordChanges ε) (key : Key) : Prop :=
  ∃ event ∈ bus.bufferedEvents.values, event.key = key

/-- What was dispatched at the end of a batch. -/
def Dispatched (key : Key) (history : List (Entry ρ err ι)) : Prop :=
  ∃ keys, .ended (some keys) ∈ history ∧ key ∈ keys

/-- What is buffered, and what was. -/
structure BusInv (bus : RecordChanges ε) (history : List (Entry ρ err ι)) : Prop where
  empty : bus.batchDepth = 0 → bus.bufferedEvents = .empty
  keyed : ∀ k event, bus.bufferedEvents.get? k = some event → k = eventKey event.key
  buffered : ∀ key, After history (.emitted key true) fun later =>
    Dispatched key later ∨ Kept bus key
  once : ∀ keys, .ended (some keys) ∈ history → keys.Nodup
  depth : history.countP isBatched = history.countP isEnded + bus.batchDepth
  outermost : ∀ earlier keys later, history = earlier ++ .ended (some keys) :: later →
    earlier.countP isBatched = earlier.countP isEnded + 1

section Bus

variable {bus : RecordChanges ε} {history : List (Entry ρ err ι)}

theorem Dispatched.concat {key : Key} (h : Dispatched key history) (entry : Entry ρ err ι) :
    Dispatched key (history ++ [entry]) := by
  obtain ⟨keys, hmem, hkey⟩ := h
  exact ⟨keys, mem_append_left _ hmem, hkey⟩

theorem kept_set (h : BusInv bus history) (event : RecordChangeEvent ε) (key : Key) :
    Kept { bus with bufferedEvents := bus.bufferedEvents.set (eventKey event.key) event } key ↔
      event.key = key ∨ Kept bus key := by
  simp only [Kept, EntryMap.mem_values, EntryMap.get?_set]
  constructor
  · rintro ⟨event', ⟨k, hk⟩, rfl⟩
    split at hk
    · cases hk
      exact .inl rfl
    · exact .inr ⟨event', ⟨k, hk⟩, rfl⟩
  · rintro (rfl | ⟨event', ⟨k, hk⟩, rfl⟩)
    · exact ⟨event, ⟨eventKey event.key, if_pos rfl⟩, rfl⟩
    · by_cases hsame : k = eventKey event.key
      · refine ⟨event, ⟨k, if_pos hsame⟩, eventKey_inj ?_⟩
        rw [← hsame]
        exact h.keyed k event' hk
      · exact ⟨event', ⟨k, (if_neg hsame).trans hk⟩, rfl⟩

theorem BusInv.concat {bus' : RecordChanges ε} {entry : Entry ρ err ι} (h : BusInv bus history)
    (hempty : bus'.batchDepth = 0 → bus'.bufferedEvents = .empty)
    (hkeyed : ∀ k event, bus'.bufferedEvents.get? k = some event → k = eventKey event.key)
    (hkept : ∀ key, Kept bus key → Kept bus' key)
    (hentry : ∀ key, entry = .emitted key true → Kept bus' key)
    (hended : ∀ keys, entry ≠ .ended (some keys))
    (hdepth : [entry].countP isBatched + bus.batchDepth =
      [entry].countP isEnded + bus'.batchDepth) : BusInv bus' (history ++ [entry]) := by
  refine ⟨hempty, hkeyed, fun key => ?_, fun keys hmem => ?_, ?_, fun earlier keys later hsplit => ?_⟩
  · refine after_concat (h.buffered key) (fun later hlater => ?_) fun heq => .inr (hentry key heq.symm)
    exact hlater.imp (fun hdispatched => hdispatched.concat entry) (hkept key)
  · rcases mem_append.1 hmem with hmem | hmem
    · exact h.once keys hmem
    · exact absurd (mem_singleton.1 hmem).symm (hended keys)
  · rw [countP_append, countP_append, h.depth]
    omega
  · rcases eq_nil_or_concat later with rfl | ⟨later', last, rfl⟩
    · have hlast := (append_inj' hsplit rfl).2
      exact absurd (List.cons.inj hlast).1 (hended keys)
    · rw [concat_eq_append, ← cons_append, ← append_assoc] at hsplit
      exact h.outermost earlier keys later' (append_inj' hsplit rfl).1

theorem nodup_keys_values {events : EntryMap String (RecordChangeEvent ε)}
    (h : ∀ k event, events.get? k = some event → k = eventKey event.key) :
    (events.values.map RecordChangeEvent.key).Nodup := by
  have hkeys : events.keys = (events.values.map RecordChangeEvent.key).map eventKey := by
    rw [EntryMap.values, map_map, map_map]
    exact map_congr_left fun entry hentry =>
      h entry.1 entry.2 (EntryMap.get?_of_mem hentry)
  exact List.Nodup.of_map eventKey (hkeys ▸ events.nodup_keys)

theorem BusInv.flush (h : BusInv bus history) (hdepth : bus.batchDepth = 1) :
    BusInv (⟨0, .empty⟩ : RecordChanges ε)
      (history ++ [.ended (some (bus.bufferedEvents.values.map RecordChangeEvent.key))]) := by
  refine ⟨fun _ => rfl, fun k event hevent => (by cases hevent), fun key => ?_, fun keys hmem => ?_,
    ?_, fun earlier keys later hsplit => ?_⟩
  · refine after_concat (h.buffered key) (fun later hlater => .inl ?_) fun heq => by cases heq
    rcases hlater with hdispatched | ⟨event, hevent, rfl⟩
    · exact hdispatched.concat _
    · exact ⟨_, by simp, mem_map_of_mem hevent⟩
  · rcases mem_append.1 hmem with hmem | hmem
    · exact h.once keys hmem
    · cases mem_singleton.1 hmem
      exact nodup_keys_values h.keyed
  · rw [countP_append, countP_append, h.depth, hdepth]
    rfl
  · rcases eq_nil_or_concat later with rfl | ⟨later', last, rfl⟩
    · obtain ⟨rfl, -⟩ := append_inj' hsplit rfl
      rw [h.depth, hdepth]
    · rw [concat_eq_append, ← cons_append, ← append_assoc] at hsplit
      exact h.outermost earlier keys later' (append_inj' hsplit rfl).1

end Bus

/-! ## A query -/

variable [DecidableEq ι]

/-- The newest run of a query, and the changes since it was started. -/
structure QueryInv (bus : RecordChanges ε) (history : List (Entry ρ err ι)) (q : ι)
    (query : LiveQuery ρ err) : Prop where
  increasing : ((deliveries history q).map Prod.fst).Pairwise (· < ·)
  delivered_le : ∀ d ∈ deliveries history q, d.1 ≤ query.requestId
  delivered_lt : query.requestId ∈ query.running → ∀ d ∈ deliveries history q, d.1 < query.requestId
  running_le : ∀ requestId ∈ query.running, requestId ≤ query.requestId
  running_nodup : query.running.Nodup
  closed : After history (.closed q) fun later => deliveries later q = []
  closed_of_mem : .closed q ∈ history → query.closed = true
  newest : query.started → query.closed = false → query.requestId ∈ query.running ∨
    ∃ outcome, (deliveries history q).getLast? = some (query.requestId, outcome) ∧
      query.state.Holds outcome
  fresh : query.started → query.closed = false → query.runScheduled = true ∨
    (∃ event ∈ bus.bufferedEvents.values, observes query.subscriptions event.key = true) ∨
      Since history (.ran q query.requestId) (Entry.IsChange query.subscriptions)

section Queries

variable {bus bus' : RecordChanges ε} {history : List (Entry ρ err ι)} {q : ι}
  {query : LiveQuery ρ err} {entry : Entry ρ err ι}

theorem deliveries_concat (history : List (Entry ρ err ι)) (entry : Entry ρ err ι) (q : ι) :
    deliveries (history ++ [entry]) q = deliveries history q ++ deliveries [entry] q :=
  filterMap_append ..

section
variable (h : QueryInv bus history q query)
include h

theorem QueryInv.schedule {scheduled : Bool}
    (hdelivered : deliveries [entry] q = []) (hclosed : entry ≠ .closed q)
    (hfresh : query.started → query.closed = false → scheduled = true ∨
      (∃ event ∈ bus'.bufferedEvents.values, observes query.subscriptions event.key = true) ∨
        Since (history ++ [entry]) (.ran q query.requestId) (Entry.IsChange query.subscriptions)) :
    QueryInv bus' (history ++ [entry]) q { query with runScheduled := scheduled } := by
  have hsame : deliveries (history ++ [entry]) q = deliveries history q := by
    rw [deliveries_concat, hdelivered, append_nil]
  refine ⟨?_, ?_, ?_, h.running_le, h.running_nodup, ?_, fun hmem => ?_, ?_, hfresh⟩
  · rw [hsame]
    exact h.increasing
  · rw [hsame]
    exact h.delivered_le
  · rw [hsame]
    exact h.delivered_lt
  · refine after_concat h.closed (fun later hlater => ?_) fun heq => absurd heq.symm hclosed
    rw [deliveries_concat, hlater, hdelivered, append_nil]
  · rcases mem_append.1 hmem with hmem | hmem
    · exact h.closed_of_mem hmem
    · exact absurd (mem_singleton.1 hmem).symm hclosed
  · rw [hsame]
    exact h.newest

theorem QueryInv.frame (hdelivered : deliveries [entry] q = [])
    (hclosed : entry ≠ .closed q) (hchange : ¬ entry.IsChange query.subscriptions)
    (hkept : ∀ key, Kept bus key → Kept bus' key) : QueryInv bus' (history ++ [entry]) q query := by
  refine h.schedule hdelivered hclosed fun hstarted hopen => ?_
  rcases h.fresh hstarted hopen with hscheduled | ⟨event, hevent, hobserves⟩ | hsince
  · exact .inl hscheduled
  · obtain ⟨event', hevent', heq⟩ := hkept event.key ⟨event, hevent, rfl⟩
    exact .inr (.inl ⟨event', hevent', heq ▸ hobserves⟩)
  · exact .inr (.inr (hsince.concat hchange))

theorem QueryInv.run {started scheduled : Bool} :
    QueryInv bus (history ++ [.ran q (query.requestId + 1)]) q
      { query with started, runScheduled := scheduled }.run := by
  have hsame : deliveries (history ++ [.ran q (query.requestId + 1)]) q = deliveries history q := by
    rw [deliveries_concat]
    exact append_nil _
  refine ⟨?_, ?_, ?_, ?_, ?_, ?_, fun hmem => ?_, fun _ _ => .inl mem_cons_self,
    fun _ _ => .inr (.inr since_concat_self)⟩
  · rw [hsame]
    exact h.increasing
  · rw [hsame]
    exact fun d hd => Nat.le_succ_of_le (h.delivered_le d hd)
  · rw [hsame]
    exact fun _ d hd => Nat.lt_succ_of_le (h.delivered_le d hd)
  · intro requestId hmem
    rcases mem_cons.1 hmem with rfl | hmem
    · exact le_rfl
    · exact Nat.le_succ_of_le (h.running_le requestId hmem)
  · refine nodup_cons.2 ⟨fun hmem => ?_, h.running_nodup⟩
    have hle : query.requestId + 1 ≤ query.requestId := h.running_le _ hmem
    omega
  · refine after_concat h.closed (fun later hlater => ?_) fun heq => by cases heq
    rw [deliveries_concat, hlater]
    rfl
  · rcases mem_append.1 hmem with hmem | hmem
    · exact h.closed_of_mem hmem
    · cases mem_singleton.1 hmem

theorem QueryInv.ignore {requestId : ℕ}
    (hignored : query.closed = true ∨ requestId ≠ query.requestId) :
    QueryInv bus history q { query with running := query.running.erase requestId } := by
  refine ⟨h.increasing, h.delivered_le, fun hmem => h.delivered_lt (mem_of_mem_erase hmem),
    fun id hmem => h.running_le id (mem_of_mem_erase hmem), h.running_nodup.erase _, h.closed,
    h.closed_of_mem, fun hstarted hopen => ?_, h.fresh⟩
  rcases hignored with hclosed | hne
  · cases hopen.symm.trans hclosed
  · exact (h.newest hstarted hopen).imp_left (mem_erase_of_ne hne.symm).2

theorem QueryInv.deliver (hmem : query.requestId ∈ query.running) (hopen : query.closed = false)
    (outcome : Outcome ρ err) :
    QueryInv bus (history ++ [.delivered q query.requestId outcome]) q
      ({ query with running := query.running.erase query.requestId }.setState outcome) := by
  have hdeliveries : deliveries (history ++ [.delivered q query.requestId outcome]) q =
      deliveries history q ++ [(query.requestId, outcome)] := by
    simp [deliveries]
  have hnotMem : query.requestId ∉ query.running.erase query.requestId :=
    h.running_nodup.not_mem_erase
  have hnotClosed : .closed q ∉ history ++ [Entry.delivered q query.requestId outcome] := by
    intro hclosed
    rcases mem_append.1 hclosed with hclosed | hclosed
    · cases hopen.symm.trans (h.closed_of_mem hclosed)
    · cases mem_singleton.1 hclosed
  have hset : ∃ state : LiveQueryState ρ err, state.Holds outcome ∧
      { query with running := query.running.erase query.requestId }.setState outcome =
        { query with running := query.running.erase query.requestId, state } := by
    cases outcome with
    | resolved results => exact ⟨_, rfl, rfl⟩
    | rejected error => exact ⟨⟨some error, false, query.state.results⟩, ⟨rfl, rfl⟩, rfl⟩
  obtain ⟨state, hstate, hset⟩ := hset
  rw [hset]
  refine ⟨?_, ?_, fun hrunning => absurd hrunning hnotMem,
    fun id hid => h.running_le id (mem_of_mem_erase hid), h.running_nodup.erase _,
    after_of_not_mem hnotClosed, fun hclosed => absurd hclosed hnotClosed,
    fun _ _ => .inr ⟨outcome, ?_, hstate⟩, fun hstarted _ => ?_⟩
  · rw [hdeliveries, map_append, pairwise_append]
    refine ⟨h.increasing, by simp, ?_⟩
    intro id hid id' hid'
    obtain ⟨d, hd, rfl⟩ := mem_map.1 hid
    rw [mem_singleton.1 hid']
    exact h.delivered_lt hmem d hd
  · intro d hd
    rw [hdeliveries] at hd
    rcases mem_append.1 hd with hd | hd
    · exact h.delivered_le d hd
    · rw [mem_singleton.1 hd]
  · rw [hdeliveries]
    simp
  · rcases h.fresh hstarted hopen with hscheduled | hkept | hsince
    · exact .inl hscheduled
    · exact .inr (.inl hkept)
    · exact .inr (.inr (hsince.concat id))

theorem QueryInv.close :
    QueryInv bus (history ++ [.closed q]) q query.close := by
  have hsame : deliveries (history ++ [.closed q]) q = deliveries history q := by
    rw [deliveries_concat]
    exact append_nil _
  refine ⟨?_, ?_, ?_, h.running_le, h.running_nodup, ?_, fun _ => rfl,
    fun _ hopen => (by cases hopen), fun _ hopen => (by cases hopen)⟩
  · rw [hsame]
    exact h.increasing
  · rw [hsame]
    exact h.delivered_le
  · rw [hsame]
    exact h.delivered_lt
  · refine after_concat h.closed (fun later hlater => ?_) fun _ => rfl
    rw [deliveries_concat, hlater]
    rfl

end

omit [DecidableEq ι] in
theorem dispatch_apply (queries : ι → LiveQuery ρ err) (events : List (RecordChangeEvent ε)) (q : ι) :
    dispatch queries events q =
      { queries q with
        runScheduled := (queries q).runScheduled || ((queries q).started && !(queries q).closed &&
          events.any fun event => observes (queries q).subscriptions event.key) } := by
  have hfold (events : List (RecordChangeEvent ε)) (query : LiveQuery ρ err) :
      events.foldl (fun query event => query.onRecordChange event.key) query =
        { query with
          runScheduled := query.runScheduled || (query.started && !query.closed &&
            events.any fun event => observes query.subscriptions event.key) } := by
    induction events generalizing query with
    | nil => simp
    | cons event events ih =>
      rw [foldl_cons, ih, LiveQuery.onRecordChange]
      split_ifs with hobserves
      · simp only [Bool.and_eq_true] at hobserves
        simp [LiveQuery.scheduleRun, hobserves.1.1, hobserves.2, hobserves.1.2]
      · simp only [Bool.and_eq_true, not_and, Bool.not_eq_true] at hobserves
        cases hstarted : query.started <;> cases hclosed : query.closed <;> simp_all
  exact hfold events (queries q)

end Queries

/-! ## Runs -/

section Runs

variable {s s' : State ρ err ε ι}

def Inv (s : State ρ err ε ι) : Prop :=
  BusInv s.bus s.history ∧ ∀ q, QueryInv s.bus s.history q (s.queries q)

theorem emit_inv (h : Inv s) (event : RecordChangeEvent ε) : Inv (emit s event) := by
  rw [emit]
  split_ifs with hdepth
  · have hkept := fun key => (kept_set h.1 event key).2
    refine ⟨h.1.concat (fun hzero => absurd hzero hdepth.ne') (fun k event' hevent => ?_)
      (fun key hk => hkept key (.inr hk)) (fun key heq => ?_) (fun keys heq => by cases heq) rfl,
      fun q => ?_⟩
    · change (s.bus.bufferedEvents.set (eventKey event.key) event).get? k = some event' at hevent
      rw [EntryMap.get?_set] at hevent
      split at hevent
      · next hk =>
        cases hevent
        exact hk
      · exact h.1.keyed k event' hevent
    · cases heq
      exact hkept _ (.inl rfl)
    · refine (h.2 q).schedule rfl (fun heq => by cases heq) fun hstarted hopen => ?_
      by_cases hobserves : observes (s.queries q).subscriptions event.key = true
      · obtain ⟨event', hevent', heq⟩ := hkept event.key (.inl rfl)
        exact .inr (.inl ⟨event', hevent', heq ▸ hobserves⟩)
      · rcases (h.2 q).fresh hstarted hopen with hscheduled | ⟨event', hevent', hobs⟩ | hsince
        · exact .inl hscheduled
        · obtain ⟨event'', hevent'', heq⟩ := hkept event'.key (.inr ⟨event', hevent', rfl⟩)
          exact .inr (.inl ⟨event'', hevent'', heq ▸ hobs⟩)
        · exact .inr (.inr (hsince.concat hobserves))
  · refine ⟨h.1.concat h.1.empty h.1.keyed (fun _ hk => hk) (fun key heq => by cases heq)
      (fun keys heq => by cases heq) rfl, fun q => ?_⟩
    show QueryInv s.bus _ q (dispatch s.queries [event] q)
    rw [dispatch_apply]
    refine (h.2 q).schedule rfl (fun heq => by cases heq) fun hstarted hopen => ?_
    by_cases hobserves : observes (s.queries q).subscriptions event.key = true
    · exact .inl (by simp [hstarted, hopen, hobserves])
    · rcases (h.2 q).fresh hstarted hopen with hscheduled | hkept | hsince
      · exact .inl (by simp [hscheduled])
      · exact .inr (.inl hkept)
      · exact .inr (.inr (hsince.concat hobserves))

theorem endBatch_inv (h : Inv s) (hdepth : s.bus.batchDepth ≠ 0) : Inv (endBatch s) := by
  rw [endBatch]
  split_ifs with hlast
  · refine ⟨h.1.flush (by omega), fun q => ?_⟩
    show QueryInv _ _ q (dispatch s.queries s.bus.bufferedEvents.values q)
    rw [dispatch_apply]
    refine (h.2 q).schedule rfl (fun heq => by cases heq) fun hstarted hopen => ?_
    rcases (h.2 q).fresh hstarted hopen with hscheduled | ⟨event, hevent, hobserves⟩ | hsince
    · exact .inl (by simp [hscheduled])
    · have hany : (s.bus.bufferedEvents.values.any fun event =>
          observes (s.queries q).subscriptions event.key) = true :=
        any_eq_true.2 ⟨event, hevent, hobserves⟩
      exact .inl (by simp [hstarted, hopen, hany])
    · exact .inr (.inr (hsince.concat id))
  · refine ⟨h.1.concat (fun hzero => absurd hzero hlast) h.1.keyed (fun _ hk => hk)
      (fun key heq => by cases heq) (fun keys heq => by cases heq) ?_, fun q => ?_⟩
    · show 0 + s.bus.batchDepth = 1 + (s.bus.batchDepth - 1)
      omega
    · exact (h.2 q).frame rfl (fun heq => by cases heq) id fun _ hk => hk

theorem setQuery_inv (h : Inv s) {q : ι} {query : LiveQuery ρ err} {entry : Entry ρ err ι}
    (hquery : QueryInv s.bus (s.history ++ [entry]) q query)
    (hothers : ∀ q', q' ≠ q → deliveries [entry] q' = [] ∧ entry ≠ .closed q')
    (hentry : ∀ key buffered, entry ≠ .emitted key buffered) (hbatched : isBatched entry = false)
    (hended : isEnded entry = false) : Inv ((s.setQuery q query).record entry) := by
  refine ⟨h.1.concat h.1.empty h.1.keyed (fun _ hk => hk) (fun key heq => absurd heq (hentry key true))
    (fun keys heq => by rw [heq] at hended; cases hended) (by simp [hbatched, hended]; rfl),
    fun q' => ?_⟩
  by_cases hq : q' = q
  · subst hq
    show QueryInv _ _ q' (Function.update s.queries q' query q')
    rw [Function.update_self]
    exact hquery
  · show QueryInv _ _ q' (Function.update s.queries q query q')
    rw [Function.update_of_ne hq]
    refine (h.2 q').frame (hothers q' hq).1 (hothers q' hq).2 (fun hchange => ?_) fun _ hk => hk
    cases entry with
    | emitted key buffered => exact hentry key buffered rfl
    | batched => exact hchange
    | ended => exact hchange
    | ran => exact hchange
    | delivered => exact hchange
    | closed => exact hchange

theorem setQuery_same_history (h : Inv s) {q : ι} {query : LiveQuery ρ err}
    (hquery : QueryInv s.bus s.history q query) : Inv (s.setQuery q query) := by
  refine ⟨h.1, fun q' => ?_⟩
  show QueryInv _ _ q' (Function.update s.queries q query q')
  by_cases hq : q' = q
  · subst hq
    rw [Function.update_self]
    exact hquery
  · rw [Function.update_of_ne hq]
    exact h.2 q'

theorem runQuery_inv (h : Inv s) (q : ι) {started scheduled : Bool} :
    Inv (runQuery s q { s.queries q with started, runScheduled := scheduled }) :=
  setQuery_inv h (h.2 q).run (fun _ _ => ⟨rfl, fun heq => by cases heq⟩) (fun _ _ heq => by cases heq)
    rfl rfl

theorem step_inv (s : State ρ err ε ι) (a : Action ρ err ε ι) (s' : State ρ err ε ι) (h : Inv s)
    (hstep : step s a = some s') : Inv s' := by
  cases a with
  | emit event =>
    cases hstep
    exact emit_inv h event
  | batch =>
    cases hstep
    refine ⟨h.1.concat (fun hzero => by cases hzero) h.1.keyed (fun _ hk => hk)
      (fun key heq => by cases heq) (fun keys heq => by cases heq) ?_, fun q => ?_⟩
    · show 1 + s.bus.batchDepth = 0 + (s.bus.batchDepth + 1)
      omega
    · exact (h.2 q).frame rfl (fun heq => by cases heq) id fun _ hk => hk
  | endBatch =>
    rw [step] at hstep
    split_ifs at hstep with hdepth
    cases hstep
    exact endBatch_inv h hdepth
  | start q =>
    rw [step] at hstep
    split_ifs at hstep with hstarted
    · cases hstep
      exact h
    · cases hstep
      exact runQuery_inv h q
  | tick q =>
    rw [step] at hstep
    split_ifs at hstep with hscheduled hclosed
    · cases hstep
      rw [Bool.and_eq_true] at hclosed
      have hq := h.2 q
      refine setQuery_same_history h ⟨hq.1, hq.2, hq.3, hq.4, hq.5, hq.6, hq.7,
        fun _ hopen => ?_, fun _ hopen => ?_⟩
      · cases hopen.symm.trans hclosed.1
      · cases hopen.symm.trans hclosed.1
    · cases hstep
      exact runQuery_inv h q
  | finish q requestId outcome =>
    rw [step] at hstep
    split_ifs at hstep with hrunning
    simp only [Bool.or_eq_true, decide_eq_true_eq] at hstep
    split_ifs at hstep with hignored
    · cases hstep
      exact setQuery_same_history h ((h.2 q).ignore hignored)
    · cases hstep
      simp only [not_or, Bool.not_eq_true, not_not] at hignored
      obtain ⟨hopen, rfl⟩ := hignored
      exact setQuery_inv h ((h.2 q).deliver hrunning hopen outcome)
        (fun q' hq' => ⟨by simp [deliveries, hq'.symm], fun heq => by cases heq⟩)
        (fun _ _ heq => by cases heq) rfl rfl
  | close q =>
    rw [step] at hstep
    split_ifs at hstep with hclosed
    · cases hstep
      exact h
    · cases hstep
      exact setQuery_inv h (h.2 q).close
        (fun q' hq' => ⟨rfl, fun heq => hq' (by cases heq; rfl)⟩) (fun _ _ heq => by cases heq) rfl
        rfl

theorem inv_initial (debounced : ι → Bool) (subscriptions : ι → List Subscription) :
    Inv (initial debounced subscriptions : State ρ err ε ι) := by
  refine ⟨⟨fun _ => rfl, fun k event hevent => (by cases hevent), fun key => after_nil,
    fun keys hmem => (by cases hmem), rfl, fun earlier keys later hsplit => ?_⟩, fun q => ?_⟩
  · cases earlier <;> cases hsplit
  · exact ⟨List.Pairwise.nil, fun d hd => (by cases hd), fun hmem => (by cases hmem),
      fun requestId hmem => (by cases hmem), nodup_nil, after_nil,
      fun hmem => (by cases hmem), fun hstarted => (by cases hstarted),
      fun hstarted => (by cases hstarted)⟩

end Runs

/-! ## The history and the actions -/

/-- What the history of a run says of its actions: a change for each `emit`, kept where a batch is
    open, a start and an end for each batch, the first `close` of a query, and what a query's own
    steps start and deliver. -/
inductive Logged : List (Action ρ err ε ι) → List (Entry ρ err ι) → Prop where
  | nil : Logged [] []
  | emit {as es} (event : RecordChangeEvent ε) : Logged as es → Logged (as ++ [.emit event])
      (es ++ [.emitted event.key (es.countP isEnded < es.countP isBatched)])
  | batch {as es} : Logged as es → Logged (as ++ [.batch]) (es ++ [.batched])
  | endBatch {as es} (flushed : Option (List Key)) : Logged as es →
      Logged (as ++ [.endBatch]) (es ++ [.ended flushed])
  | close {as es} (q : ι) : Logged as es → .closed q ∉ es →
      Logged (as ++ [.close q]) (es ++ [.closed q])
  | closeAgain {as es} (q : ι) : Logged as es → .closed q ∈ es → Logged (as ++ [.close q]) es
  | start {as es} (q : ι) (requestId : ℕ) : Logged as es →
      Logged (as ++ [.start q]) (es ++ [.ran q requestId])
  | tick {as es} (q : ι) (requestId : ℕ) : Logged as es →
      Logged (as ++ [.tick q]) (es ++ [.ran q requestId])
  | deliver {as es} (q : ι) (requestId : ℕ) (outcome : Outcome ρ err) : Logged as es →
      Logged (as ++ [.finish q requestId outcome]) (es ++ [.delivered q requestId outcome])
  | notStarted {as es} (q : ι) : Logged as es → Logged (as ++ [.start q]) es
  | notRun {as es} (q : ι) : Logged as es → Logged (as ++ [.tick q]) es
  | notDelivered {as es} (q : ι) (requestId : ℕ) (outcome : Outcome ρ err) : Logged as es →
      Logged (as ++ [.finish q requestId outcome]) es

/-- The history logs the actions, and knows of every query that is closed. -/
structure LogInv (as : List (Action ρ err ε ι)) (s : State ρ err ε ι) : Prop where
  logged : Logged as s.history
  closed : ∀ q, (s.queries q).closed = true → .closed q ∈ s.history

section Log

variable {s s' : State ρ err ε ι} {as : List (Action ρ err ε ι)}

omit [DecidableEq ι] in
theorem closed_dispatch (queries : ι → LiveQuery ρ err) (events : List (RecordChangeEvent ε))
    (q : ι) : (dispatch queries events q).closed = (queries q).closed := by
  rw [dispatch_apply]

/-- A step of a query that leaves it open or closed as it was. -/
theorem closed_setQuery (hclosed : ∀ q, (s.queries q).closed = true → .closed q ∈ s.history) {q : ι}
    {query : LiveQuery ρ err} (hquery : query.closed = (s.queries q).closed) (q' : ι)
    (h : ((s.setQuery q query).queries q').closed = true) : .closed q' ∈ s.history := by
  have h : (Function.update s.queries q query q').closed = true := h
  by_cases hq : q' = q
  · subst hq
    rw [Function.update_self, hquery] at h
    exact hclosed q' h
  · rw [Function.update_of_ne hq] at h
    exact hclosed q' h

theorem LogInv.step {a : Action ρ err ε ι} (h : LogInv as s) (hinv : Inv s)
    (hstep : LiveQueries.step s a = some s') : LogInv (as ++ [a]) s' := by
  have hconcat : ∀ (entry : Entry ρ err ι) q, (s.queries q).closed = true →
      .closed q ∈ s.history ++ [entry] := fun entry q hq => mem_append_left _ (h.closed q hq)
  cases a with
  | emit event =>
    cases hstep
    have hopen : decide (s.history.countP isEnded < s.history.countP isBatched) =
        decide (0 < s.bus.batchDepth) := by
      rw [hinv.1.depth]
      simp
    have hlogged := Logged.emit event h.logged
    rw [hopen] at hlogged
    unfold emit
    split
    · next hdepth =>
      rw [decide_eq_true hdepth] at hlogged
      exact ⟨hlogged, hconcat _⟩
    · next hdepth =>
      rw [decide_eq_false hdepth] at hlogged
      exact ⟨hlogged, fun q hq => hconcat _ q (closed_dispatch s.queries [event] q ▸ hq)⟩
  | batch =>
    cases hstep
    exact ⟨.batch h.logged, hconcat _⟩
  | endBatch =>
    rw [LiveQueries.step] at hstep
    split_ifs at hstep with hdepth
    cases hstep
    unfold endBatch
    split
    · exact ⟨.endBatch _ h.logged, fun q hq => hconcat _ q (closed_dispatch s.queries _ q ▸ hq)⟩
    · exact ⟨.endBatch _ h.logged, hconcat _⟩
  | start q =>
    rw [LiveQueries.step] at hstep
    split_ifs at hstep with hstarted
    · cases hstep
      exact ⟨.notStarted q h.logged, h.closed⟩
    · cases hstep
      exact ⟨.start q _ h.logged, fun q' hq' =>
        mem_append_left _ (closed_setQuery h.closed (by rfl) q' hq')⟩
  | tick q =>
    rw [LiveQueries.step] at hstep
    split_ifs at hstep with hscheduled hclosed
    · cases hstep
      exact ⟨.notRun q h.logged, fun q' hq' => closed_setQuery h.closed (by rfl) q' hq'⟩
    · cases hstep
      exact ⟨.tick q _ h.logged, fun q' hq' =>
        mem_append_left _ (closed_setQuery h.closed (by rfl) q' hq')⟩
  | finish q requestId outcome =>
    rw [LiveQueries.step] at hstep
    split_ifs at hstep with hrunning
    dsimp only at hstep
    split_ifs at hstep with hignored
    · cases hstep
      exact ⟨.notDelivered q requestId outcome h.logged, fun q' hq' =>
        closed_setQuery h.closed (by rfl) q' hq'⟩
    · cases hstep
      exact ⟨.deliver q requestId outcome h.logged, fun q' hq' =>
        mem_append_left _ (closed_setQuery h.closed (by cases outcome <;> rfl) q' hq')⟩
  | close q =>
    rw [LiveQueries.step] at hstep
    split_ifs at hstep with hclosed
    · cases hstep
      exact ⟨.closeAgain q h.logged (h.closed q hclosed), h.closed⟩
    · cases hstep
      refine ⟨.close q h.logged fun hmem => hclosed ((hinv.2 q).closed_of_mem hmem),
        fun q' hq' => ?_⟩
      by_cases hq : q' = q
      · subst hq
        exact mem_append_right _ mem_cons_self
      · have hq' : (Function.update s.queries q (s.queries q).close q').closed = true := hq'
        rw [Function.update_of_ne hq] at hq'
        exact hconcat _ q' hq'

end Log

/-- What is promised of the bus and of each query; the history says what the actions did. -/
structure Converges (actions : List (Action ρ err ε ι)) (s : State ρ err ε ι) : Prop where
  logged : Logged actions s.history
  /-- an older run never replaces a newer one -/
  newer : ∀ q, ((deliveries s.history q).map Prod.fst).Pairwise (· < ·)
  closed : ∀ q, After s.history (.closed q) fun later => deliveries later q = []
  dispatched : ∀ key, After s.history (.emitted key true) fun later =>
    Dispatched key later ∨ 0 < s.bus.batchDepth
  once : ∀ keys, .ended (some keys) ∈ s.history → keys.Nodup
  /-- all other batches have ended before -/
  outermost : ∀ earlier keys later, s.history = earlier ++ .ended (some keys) :: later →
    earlier.countP isBatched = earlier.countP isEnded + 1
  /-- the state is the outcome of a run that was started after the last change -/
  quiescent : ∀ q, Quiescent s q → ∃ requestId outcome,
    (deliveries s.history q).getLast? = some (requestId, outcome) ∧
      (s.queries q).state.Holds outcome ∧
      Since s.history (.ran q requestId) (Entry.IsChange (s.queries q).subscriptions)

/-- **Live queries converge**, in every state of every run. -/
theorem live_queries_converge {debounced : ι → Bool} {subscriptions : ι → List Subscription}
    {actions : List (Action ρ err ε ι)} {s : State ρ err ε ι}
    (h : runActions step (initial debounced subscriptions) actions = some s) :
    Converges actions s := by
  obtain ⟨⟨hbus, hqueries⟩, hlog⟩ : Inv s ∧ LogInv actions s :=
    runActions_history (I := fun as s => Inv s ∧ LogInv as s)
      (fun as s a s' hs hstep => ⟨step_inv s a s' hs.1 hstep, hs.2.step hs.1 hstep⟩)
      ⟨inv_initial debounced subscriptions, .nil, fun q hq => (by cases hq)⟩ h
  refine ⟨hlog.logged, fun q => (hqueries q).increasing, fun q => (hqueries q).closed, fun key => ?_,
    hbus.once, hbus.outermost, fun q hq => ?_⟩
  · refine (hbus.buffered key).mono fun later hlater => hlater.imp_right ?_
    rintro ⟨event, hevent, -⟩
    refine Nat.pos_of_ne_zero fun hzero => ?_
    rw [hbus.empty hzero] at hevent
    cases hevent
  · have hempty := hbus.empty hq.batchDepth
    rcases (hqueries q).newest hq.started hq.closed with hrunning | ⟨outcome, hlast, hstate⟩
    · rw [hq.running] at hrunning
      cases hrunning
    · refine ⟨_, outcome, hlast, hstate, ?_⟩
      rcases (hqueries q).fresh hq.started hq.closed with hscheduled | ⟨event, hevent, -⟩ | hsince
      · cases hq.runScheduled.symm.trans hscheduled
      · rw [hempty] at hevent
        cases hevent
      · exact hsince

/-- A query of tasks runs again for a change in a batch; its older run returns last. -/
def overlappingRuns : List (Action String String Unit Unit) :=
  [.start (), .batch, .emit ⟨⟨"Task", "default"⟩, ()⟩, .endBatch, .tick (),
    .finish () 2 (.resolved ["new"]), .finish () 1 (.resolved ["old"])]

def taskQueries : State String String Unit Unit :=
  initial (fun _ => false) fun _ => [⟨"Task", some "default"⟩]

theorem live_queries_converge_overlapping :
    ∃ s, runActions step taskQueries overlappingRuns = some s ∧ Converges overlappingRuns s := by
  have hruns : (runActions step taskQueries overlappingRuns).isSome := rfl
  obtain ⟨s, hs⟩ := Option.isSome_iff_exists.mp hruns
  exact ⟨s, hs, live_queries_converge hs⟩

/-- The older run does not replace the newer one. -/
example : (runActions step taskQueries overlappingRuns).map
    (fun s => (s.queries ()).state.results) = some ["new"] := rfl

end Velocious.LiveQueries
