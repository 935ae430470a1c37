/-
  Convergence of the realtime bridge (src/sync/sync-realtime-bridge.js).

  Every sync row of a scope is held by the local copy, or on its way as a push,
  or due to be pulled (`Ok.due`); a cursor has passed only rows that are held.
  When the client is connected and quiescent nothing is on its way or due.
-/
import Velocious.Sync.RealtimeBridge

namespace Velocious

open Foundation List

variable {ς ρ α : Type}

/-! ## Changes and rows -/

/-- A history of changes, in sequence order; a sync row is about one resource. -/
structure ChangeHistory (history : List (ServerChange ρ α)) : Prop where
  ordered : history.Pairwise fun x y => x.sequence < y.sequence
  positive : ∀ x ∈ history, 0 < x.sequence
  rows : ∀ x ∈ history, ∀ y ∈ history, x.rowId = y.rowId → x.resource = y.resource

variable {x : ServerChange ρ α}

theorem mem_syncRows {history : List (ServerChange ρ α)} : x ∈ syncRows history ↔
      x ∈ history ∧ ∀ y ∈ history, y.rowId = x.rowId → y.sequence ≤ x.sequence := by
  simp [syncRows, ← imp_iff_not_or]

theorem mem_scopedQuery {config : RealtimeConfig ς ρ} {history : List (ServerChange ρ α)}
    {scope : ς} :
    x ∈ scopedQuery config history scope ↔
      x ∈ syncRows history ∧ config.covers scope x.resource = true :=
  mem_filter

theorem mem_cursorFilteredQuery {config : RealtimeConfig ς ρ}
    {history : List (ServerChange ρ α)} {scope : ς} {after upTo : ℕ} :
    x ∈ cursorFilteredQuery config history scope after upTo ↔
      x ∈ scopedQuery config history scope ∧ after < x.sequence ∧ x.sequence ≤ upTo := by
  simp [cursorFilteredQuery]

theorem syncRows_concat {history : List (ServerChange ρ α)} {y : ServerChange ρ α}
    (h : y ∈ syncRows (history ++ [x])) : y = x ∨ y ∈ syncRows history := by
  obtain ⟨hy, hlast⟩ := mem_syncRows.mp h
  obtain hy | hy := mem_append.mp hy
  · exact .inr (mem_syncRows.mpr ⟨hy, fun z hz => hlast z (mem_append_left _ hz)⟩)
  · exact .inl (mem_singleton.mp hy)

namespace ChangeHistory

variable {history : List (ServerChange ρ α)}

variable {x : ServerChange ρ α}

theorem eq_of_sequence (h : ChangeHistory history) {y : ServerChange ρ α} (hx : x ∈ history)
    (hy : y ∈ history) (hxy : x.sequence = y.sequence) : x = y := by
  have hnodup : (history.map (·.sequence)).Nodup :=
    nodup_iff_pairwise_ne.mpr (pairwise_map.mpr (h.ordered.imp fun hlt => ne_of_lt hlt))
  exact inj_on_of_nodup_map hnodup hx hy hxy

theorem le_getLast {l : List (ServerChange ρ α)} (h : l.Pairwise fun x y => x.sequence < y.sequence)
    {last : ServerChange ρ α} (hx : x ∈ l) (hlast : l.getLast? = some last) :
    x.sequence ≤ last.sequence := by
  obtain ⟨l, rfl⟩ := getLast?_eq_some_iff.mp hlast
  obtain hx | hx := mem_append.mp hx
  · exact le_of_lt ((pairwise_append.mp h).2.2 x hx last mem_cons_self)
  · exact le_of_eq (congrArg _ (mem_singleton.mp hx))

theorem concat (h : ChangeHistory history) (hpos : 0 < x.sequence)
    (hlater : ∀ y ∈ history, y.sequence < x.sequence)
    (hrow : ∀ y ∈ history, y.rowId = x.rowId → y.resource = x.resource) :
    ChangeHistory (history ++ [x]) where
  ordered := pairwise_append.mpr ⟨h.ordered, pairwise_singleton _ _, fun y hy z hz =>
    mem_singleton.mp hz ▸ hlater y hy⟩
  positive y hy := by
    obtain hy | hy := mem_append.mp hy
    · exact h.positive y hy
    · exact mem_singleton.mp hy ▸ hpos
  rows y hy z hz hyz := by
    rw [mem_append, mem_singleton] at hy hz
    obtain hy | rfl := hy
    · obtain hz | rfl := hz
      · exact h.rows y hy z hz hyz
      · exact hrow y hy hyz
    · obtain hz | rfl := hz
      · exact (hrow z hz hyz.symm).symm
      · rfl

theorem latest_syncRows [DecidableEq ρ] (h : ChangeHistory history) {r : ρ}
    (hx : (history.filter (·.resource = r)).getLast? = some x) :
    x ∈ syncRows history ∧ x.resource = r ∧
      ∀ y ∈ history, y.resource = r → y.sequence ≤ x.sequence := by
  obtain ⟨hmem, hr⟩ := mem_filter.mp (mem_of_mem_getLast? hx)
  have hle : ∀ y ∈ history, y.resource = r → y.sequence ≤ x.sequence := fun y hy hyr =>
    le_getLast (h.ordered.filter _) (mem_filter.mpr ⟨hy, decide_eq_true hyr⟩) hx
  refine ⟨mem_syncRows.mpr ⟨hmem, fun y hy hrow => hle y hy ?_⟩, of_decide_eq_true hr, hle⟩
  rw [h.rows y hy x hmem hrow]
  exact of_decide_eq_true hr

end ChangeHistory

section
variable {config : RealtimeConfig ς ρ} {history : List (ServerChange ρ α)} {scope : ς}

theorem scopedQuery_ordered (h : ChangeHistory history) :
    (scopedQuery config history scope).Pairwise fun x y => x.sequence < y.sequence :=
  (h.ordered.filter _).filter _

theorem le_resolveUpToCursor (h : ChangeHistory history) {x : ServerChange ρ α} {upTo : Option ℕ}
    (hx : x ∈ scopedQuery config history scope) (hupTo : ∀ bound ∈ upTo, x.sequence ≤ bound) :
    x.sequence ≤ resolveUpToCursor config history scope upTo := by
  cases upTo with
  | some bound => exact hupTo bound rfl
  | none =>
    rw [resolveUpToCursor]
    cases hlast : (scopedQuery config history scope).getLast? with
    | none =>
      rw [getLast?_eq_none_iff.mp hlast] at hx
      exact absurd hx not_mem_nil
    | some last => exact ChangeHistory.le_getLast (scopedQuery_ordered h) hx hlast

theorem pageQuery_eq_nil (hlimit : config.batchSize ≤ config.maxLimit) {after upTo : ℕ}
    (h : pageQuery config history scope after upTo = []) :
    cursorFilteredQuery config history scope after upTo = [] := by
  rw [pageQuery, min_eq_left hlimit, take_eq_nil_iff] at h
  exact h.resolve_left config.batchSize_pos.ne'

theorem mem_pageQuery (h : ChangeHistory history) (hlimit : config.batchSize ≤ config.maxLimit)
    {after upTo : ℕ} {x last : ServerChange ρ α}
    (hx : x ∈ cursorFilteredQuery config history scope after upTo)
    (hlast : (pageQuery config history scope after upTo).getLast? = some last)
    (hle : x.sequence ≤ last.sequence ∨
      (pageQuery config history scope after upTo).length < config.batchSize) :
    x ∈ pageQuery config history scope after upTo := by
  rw [pageQuery, min_eq_left hlimit] at hlast hle ⊢
  have hordered : (cursorFilteredQuery config history scope after upTo).Pairwise
      fun x y => x.sequence < y.sequence := (scopedQuery_ordered h).filter _
  rw [← take_append_drop config.batchSize (cursorFilteredQuery ..)] at hx hordered
  obtain hx | hx := mem_append.mp hx
  · exact hx
  · have hlt := (pairwise_append.mp hordered).2.2 last (mem_of_mem_getLast? hlast) x hx
    obtain hle | hshort := hle
    · omega
    · rw [length_take] at hshort
      rw [drop_of_length_le (by omega)] at hx
      exact absurd hx not_mem_nil

end

/-! ## What is held, on its way and due -/

/-- The local copy is from this change or from a later one. -/
def Held (source : ρ → Option (ServerChange ρ α)) (x : ServerChange ρ α) : Prop :=
  ∃ y ∈ source x.resource, x.sequence ≤ y.sequence

/-- No later than the last change. -/
def Reached (history : List (ServerChange ρ α)) (n : ℕ) : Prop :=
  n = 0 ∨ ∃ x ∈ history, n ≤ x.sequence

/-- All rows of a scope up to `n` are held, except for some. -/
def HeldUpTo (config : RealtimeConfig ς ρ) (history : List (ServerChange ρ α))
    (source : ρ → Option (ServerChange ρ α)) (scope : ς) (n : ℕ)
    (except : List (ServerChange ρ α)) : Prop :=
  ∀ x ∈ scopedQuery config history scope, x.sequence ≤ n → Held source x ∨ x ∈ except

/-- A page of which some rows are still to be applied. -/
structure PageOk (config : RealtimeConfig ς ρ) (history : List (ServerChange ρ α))
    (source : ρ → Option (ServerChange ρ α)) (scope : ς) (page : PullPage ρ α)
    (rest : List (ServerChange ρ α)) : Prop where
  logged : rest ⊆ history
  reached : Reached history page.upTo
  le : page.next ≤ page.upTo
  held : HeldUpTo config history source scope (if page.last then page.upTo else page.next) rest

/-- What a running pull knows. -/
def StageOk (config : RealtimeConfig ς ρ) (history : List (ServerChange ρ α))
    (source : ρ → Option (ServerChange ρ α)) (scope : ς) : PullStage ρ α → Prop
  | .requesting after upTo => Reached history after ∧ (∀ bound ∈ upTo, Reached history bound) ∧
      HeldUpTo config history source scope after []
  | .applying page => PageOk config history source scope page page.rows
  | .writing row _ page => PageOk config history source scope page (row :: page.rows)

/-- A pull still has to read a row of a scope. -/
def PullFlight.WillPull (flight : PullFlight ς ρ α) (scope : ς) (x : ServerChange ρ α) : Prop :=
  scope ∈ flight.todo ∨ scope = flight.scope ∧ match flight.stage with
    | .requesting _ upTo => ∀ bound ∈ upTo, x.sequence ≤ bound
    | .applying page | .writing _ _ page => x.sequence ≤ page.upTo

section
variable {config : RealtimeConfig ς ρ} {history : List (ServerChange ρ α)}
  {source source' : ρ → Option (ServerChange ρ α)} {scope : ς}

variable {n : ℕ}

theorem Reached.le {m : ℕ} (h : Reached history n) (hm : m ≤ n) : Reached history m := by
  obtain rfl | ⟨x, hx, hn⟩ := h
  · exact .inl (Nat.le_zero.mp hm)
  · exact .inr ⟨x, hx, hm.trans hn⟩

theorem Reached.concat (h : Reached history n) (x : ServerChange ρ α) :
    Reached (history ++ [x]) n := by
  obtain h | ⟨y, hy, hn⟩ := h
  · exact .inl h
  · exact .inr ⟨y, mem_append_left _ hy, hn⟩

theorem reached_resolveUpToCursor {upTo : Option ℕ} (h : ∀ bound ∈ upTo, Reached history bound) :
    Reached history (resolveUpToCursor config history scope upTo) := by
  cases upTo with
  | some bound => exact h bound rfl
  | none =>
    rw [resolveUpToCursor]
    cases hlast : (scopedQuery config history scope).getLast? with
    | none => exact .inl rfl
    | some last =>
      have hmem := (mem_scopedQuery.mp (mem_of_mem_getLast? hlast)).1
      exact .inr ⟨last, (mem_syncRows.mp hmem).1, le_rfl⟩

variable {x : ServerChange ρ α}

theorem Reached.lt (h : Reached history n) (hpos : 0 < x.sequence)
    (hlater : ∀ y ∈ history, y.sequence < x.sequence) : n < x.sequence := by
  obtain rfl | ⟨y, hy, hn⟩ := h
  · exact hpos
  · exact hn.trans_lt (hlater y hy)

theorem HeldUpTo.concat {rest : List (ServerChange ρ α)}
    (h : HeldUpTo config history source scope n rest) (hn : Reached history n) (hpos : 0 < x.sequence)
    (hlater : ∀ y ∈ history, y.sequence < x.sequence) :
    HeldUpTo config (history ++ [x]) source scope n rest := by
  intro y hy hle
  obtain ⟨hrow, hcovers⟩ := mem_scopedQuery.mp hy
  obtain rfl | hrow := syncRows_concat hrow
  · exact absurd hle (not_le.mpr (hn.lt hpos hlater))
  · exact h y (mem_scopedQuery.mpr ⟨hrow, hcovers⟩) hle

theorem HeldUpTo.mono {rest rest' : List (ServerChange ρ α)}
    (h : HeldUpTo config history source scope n rest)
    (hheld : ∀ x, Held source x → Held source' x)
    (hrest : ∀ x ∈ rest, Held source' x ∨ x ∈ rest') :
    HeldUpTo config history source' scope n rest' := by
  intro x hx hle
  obtain hx | hx := h x hx hle
  · exact .inl (hheld x hx)
  · exact hrest x hx

section
variable {stage : PullStage ρ α} (h : StageOk config history source scope stage)
include h

theorem StageOk.concat (hpos : 0 < x.sequence)
    (hlater : ∀ y ∈ history, y.sequence < x.sequence) :
    StageOk config (history ++ [x]) source scope stage := by
  have hpage : ∀ {page : PullPage ρ α} {rest}, PageOk config history source scope page rest →
      PageOk config (history ++ [x]) source scope page rest := by
    intro page rest hp
    refine ⟨fun y hy => mem_append_left _ (hp.logged hy), hp.reached.concat x, hp.le, ?_⟩
    refine hp.held.concat ?_ hpos hlater
    split
    · exact hp.reached
    · exact hp.reached.le hp.le
  cases stage with
  | requesting after upTo =>
    exact ⟨h.1.concat x, fun bound hb => (h.2.1 bound hb).concat x,
      h.2.2.concat h.1 hpos hlater⟩
  | applying page => exact hpage h
  | writing row loaded page => exact hpage h

theorem StageOk.mono (hheld : ∀ x, Held source x → Held source' x) :
    StageOk config history source' scope stage := by
  cases stage with
  | requesting after upTo => exact ⟨h.1, h.2.1, h.2.2.mono hheld fun x hx => .inr hx⟩
  | applying page => exact ⟨h.logged, h.reached, h.le, h.held.mono hheld fun x hx => .inr hx⟩
  | writing row loaded page =>
    exact ⟨h.logged, h.reached, h.le, h.held.mono hheld fun x hx => .inr hx⟩

end

end

namespace RealtimeWorld

def Coming (w : RealtimeWorld ς ρ α) (x : ServerChange ρ α) : Prop :=
  x ∈ w.inFlight ∨ x ∈ w.applyQueue ∨ ∃ loaded, w.applying = some (x, loaded)

/-- A row of a scope is still to be pulled. -/
def Due (w : RealtimeWorld ς ρ α) (scope : ς) (x : ServerChange ρ α) : Prop :=
  w.link ≠ .connected ∨ w.scheduled = true ∨
    ∃ flight ∈ w.flight, flight.scheduled = true ∧ flight.WillPull scope x

/-- A local copy is that of the change it was taken from. -/
def CopyOk (w : RealtimeWorld ς ρ α) (r : ρ) : Prop :=
  match w.source r with
  | none => w.copy r = none
  | some x => x ∈ w.history ∧ x.resource = r ∧ w.copy r = x.target

/-- The invariant. -/
structure Ok (config : RealtimeConfig ς ρ) (w : RealtimeWorld ς ρ α) : Prop where
  history : ChangeHistory w.history
  coming : ∀ x, w.Coming x → x ∈ w.history
  copies : ∀ r, w.CopyOk r
  cursors : ∀ scope, Reached w.history (w.cursor scope) ∧
    HeldUpTo config w.history w.source scope (w.cursor scope) []
  flight : ∀ flight ∈ w.flight, StageOk config w.history w.source flight.scope flight.stage
  due : ∀ scope ∈ config.scopes, ∀ x ∈ scopedQuery config w.history scope,
    Held w.source x ∨ w.Coming x ∨ w.Due scope x

variable {config : RealtimeConfig ς ρ} {w : RealtimeWorld ς ρ α}

theorem ok_init : Ok config (init : RealtimeWorld ς ρ α) where
  history := ⟨.nil, fun _ h => absurd h not_mem_nil, fun _ h => absurd h not_mem_nil⟩
  coming x h := by
    obtain h | h | ⟨loaded, h⟩ := h
    · exact h
    · exact h
    · cases h
  copies _ := rfl
  cursors _ := ⟨.inl rfl, fun _ h => absurd h not_mem_nil⟩
  flight _ h := absurd h (Option.not_mem_none _)
  due _ _ _ h := absurd h not_mem_nil

theorem Ok.moved (hw : Ok config w) {w' : RealtimeWorld ς ρ α} (hhistory : w'.history = w.history)
    (hcopy : w'.copy = w.copy) (hsource : w'.source = w.source) (hcursor : w'.cursor = w.cursor)
    (hcoming : ∀ x, w'.Coming x → w.Coming x)
    (hflight : ∀ flight ∈ w'.flight,
      StageOk config w.history w.source flight.scope flight.stage)
    (hdue : ∀ scope ∈ config.scopes, ∀ x ∈ scopedQuery config w.history scope,
      w.Coming x ∨ w.Due scope x → Held w.source x ∨ w'.Coming x ∨ w'.Due scope x) :
    Ok config w' where
  history := hhistory ▸ hw.history
  coming x hx := hhistory ▸ hw.coming x (hcoming x hx)
  copies r := by
    have h := hw.copies r
    unfold CopyOk at h ⊢
    rw [hhistory, hcopy, hsource]
    exact h
  cursors := by
    rw [hhistory, hsource, hcursor]
    exact hw.cursors
  flight := by
    rw [hhistory, hsource]
    exact hflight
  due := by
    rw [hhistory, hsource]
    intro scope hscope x hx
    obtain h | h := hw.due scope hscope x hx
    · exact .inl h
    · exact hdue scope hscope x hx h

section
variable [DecidableEq ρ] [DecidableEq α]

theorem held_write {row : ServerChange ρ α} {loaded raced : Option α}
    (hlatest : w.Latest row loaded) {x : ServerChange ρ α}
    (hx : Held w.source x ∨ x = row) : Held (w.write row loaded raced).source x := by
  by_cases hr : x.resource = row.resource
  · refine ⟨row, ?_, ?_⟩
    · rw [hr]
      exact Function.update_self ..
    · obtain ⟨y, hy, hle⟩ | rfl := hx
      · exact hle.trans (hlatest.2 y (hr ▸ hy))
      · exact le_rfl
  · obtain ⟨y, hy, hle⟩ | rfl := hx
    · refine ⟨y, ?_, hle⟩
      have hne : (w.write row loaded raced).source x.resource = w.source x.resource :=
        Function.update_of_ne hr ..
      rw [hne]
      exact hy
    · exact absurd rfl hr

theorem Ok.write (hw : Ok config w) {row : ServerChange ρ α} {loaded raced : Option α}
    (hrow : row ∈ w.history) (hlatest : w.Latest row loaded) :
    Ok config (w.write row loaded raced) where
  __ := hw
  copies r := by
    by_cases hr : r = row.resource
    · subst hr
      simp only [CopyOk, RealtimeWorld.write, Function.update_self, if_pos hlatest.1]
      exact ⟨hrow, trivial, trivial⟩
    · have h := hw.copies r
      simp only [CopyOk, RealtimeWorld.write, Function.update_of_ne hr]
      exact h
  cursors scope := ⟨(hw.cursors scope).1,
    (hw.cursors scope).2.mono (fun _ hx => held_write hlatest (.inl hx)) fun _ hx => .inr hx⟩
  flight flight hf := (hw.flight flight hf).mono fun _ hx => held_write hlatest (.inl hx)
  due scope hscope x hx := by
    obtain h | h := hw.due scope hscope x hx
    · exact .inl (held_write hlatest (.inl h))
    · exact .inr h

end

theorem Ok.change (hw : Ok config w) {x : ServerChange ρ α} (hpos : 0 < x.sequence)
    (hlater : ∀ y ∈ w.history, y.sequence < x.sequence)
    (hrow : ∀ y ∈ w.history, y.rowId = x.rowId → y.resource = x.resource) :
    Ok config { w with
      history := w.history ++ [x]
      inFlight := if w.link = .offline then w.inFlight else
        w.inFlight ++ (config.scopes.filter fun s => config.covers s x.resource).map fun _ => x } where
  history := hw.history.concat hpos hlater hrow
  coming y hy := by
    obtain hy | hy := hy
    · split at hy
      · exact mem_append_left _ (hw.coming y (.inl hy))
      · obtain hy | hy := mem_append.mp hy
        · exact mem_append_left _ (hw.coming y (.inl hy))
        · obtain ⟨-, -, rfl⟩ := mem_map.mp hy
          exact mem_append_right _ mem_cons_self
    · exact mem_append_left _ (hw.coming y (.inr hy))
  copies r := by
    have h := hw.copies r
    unfold CopyOk at h ⊢
    cases hs : w.source r with
    | none =>
      rw [hs] at h
      exact h
    | some y =>
      rw [hs] at h
      exact ⟨mem_append_left _ h.1, h.2⟩
  cursors scope := ⟨(hw.cursors scope).1.concat x,
    (hw.cursors scope).2.concat (hw.cursors scope).1 hpos hlater⟩
  flight flight hf := (hw.flight flight hf).concat hpos hlater
  due scope hscope y hy := by
    obtain ⟨hyrow, hcovers⟩ := mem_scopedQuery.mp hy
    obtain rfl | hyrow := syncRows_concat hyrow
    · by_cases hlink : w.link = .offline
      · refine .inr (.inr (.inl fun h => ?_))
        rw [hlink] at h
        cases h
      · refine .inr (.inl (.inl ?_))
        rw [if_neg hlink]
        exact mem_append_right _ (mem_map.mpr
          ⟨scope, mem_filter.mpr ⟨hscope, hcovers⟩, rfl⟩)
    · obtain h | (h | h) | h := hw.due scope hscope y (mem_scopedQuery.mpr ⟨hyrow, hcovers⟩)
      · exact .inl h
      · refine .inr (.inl (.inl ?_))
        split
        · exact h
        · exact mem_append_left _ h
      · exact .inr (.inl (.inr h))
      · exact .inr (.inr h)

theorem Ok.unconnected (hw : Ok config w) {w' : RealtimeWorld ς ρ α}
    (hlink : w'.link ≠ .connected) (hhistory : w'.history = w.history) (hcopy : w'.copy = w.copy)
    (hsource : w'.source = w.source) (hcursor : w'.cursor = w.cursor)
    (hcoming : ∀ x, w'.Coming x → w.Coming x)
    (hflight : ∀ flight ∈ w'.flight, flight ∈ w.flight) : Ok config w' :=
  hw.moved hhistory hcopy hsource hcursor hcoming (fun f hf => hw.flight f (hflight f hf))
    fun _ _ _ _ _ => .inr (.inr (.inl hlink))

theorem Ok.resume (hw : Ok config w)
    (hfolded : ∀ flight ∈ w.flight, flight.scheduled = true →
      flight.scope :: flight.todo = config.scopes ∧
        ∃ after, flight.stage = .requesting after none) :
    Ok config { w with link := .connected }.schedulePull := by
  unfold schedulePull
  split
  · rename_i hscheduled
    refine hw.moved rfl rfl rfl rfl (fun _ h => h) hw.flight fun scope hscope x _ _ => ?_
    refine .inr (.inr (.inr ?_))
    obtain h | h := Bool.or_eq_true_iff.mp hscheduled
    · exact .inl h
    · obtain ⟨flight, hf, hflight⟩ := (Option.any_eq_true _ _).mp h
      obtain ⟨hscopes, after, hstage⟩ := hfolded flight hf hflight
      refine .inr ⟨flight, hf, hflight, ?_⟩
      rw [← hscopes] at hscope
      obtain rfl | h := mem_cons.mp hscope
      · refine .inr ⟨rfl, ?_⟩
        rw [hstage]
        exact fun _ h => absurd h (Option.not_mem_none _)
      · exact .inl h
  · exact hw.moved rfl rfl rfl rfl (fun _ h => h) hw.flight fun _ _ _ _ _ =>
      .inr (.inr (.inr (.inl rfl)))

/-! ## Pulls -/

section
variable [DecidableEq ς]

variable {scheduled : Bool} {flight : PullFlight ς ρ α}

omit [DecidableEq ς] in
theorem stageOk_pullScopes (hw : Ok config w) {scopes : List ς}
    (h : flight ∈ pullScopes scheduled w.cursor scopes) :
    StageOk config w.history w.source flight.scope flight.stage := by
  cases scopes with
  | nil => exact absurd h (Option.not_mem_none _)
  | cons scope todo =>
    cases h
    exact ⟨(hw.cursors scope).1, fun _ h => absurd h (Option.not_mem_none _),
      (hw.cursors scope).2⟩

omit [DecidableEq ς] in
theorem willPull_pullScopes {cursor : ς → ℕ} {scopes : List ς} {scope : ς}
    (h : scope ∈ scopes) (x : ServerChange ρ α) :
    ∃ flight ∈ pullScopes scheduled cursor scopes, flight.scheduled = scheduled ∧
      flight.WillPull scope x := by
  cases scopes with
  | nil => exact absurd h not_mem_nil
  | cons first todo =>
    refine ⟨_, rfl, rfl, ?_⟩
    obtain rfl | h := mem_cons.mp h
    · exact .inr ⟨rfl, fun _ h => absurd h (Option.not_mem_none _)⟩
    · exact .inl h

omit [DecidableEq ς] in
theorem Ok.restage (hw : Ok config w) {flight' : PullFlight ς ρ α}
    (hflight : w.flight = some flight) (hscheduled : flight'.scheduled = flight.scheduled)
    (hstage : StageOk config w.history w.source flight'.scope flight'.stage)
    (hwill : ∀ scope, ∀ x ∈ scopedQuery config w.history scope, flight.WillPull scope x →
      flight'.WillPull scope x) : Ok config { w with flight := some flight' } := by
  refine hw.moved rfl rfl rfl rfl (fun _ h => h) (fun f hf => ?_) fun scope _ x hx h => ?_
  · cases hf
    exact hstage
  · obtain h | h | h | ⟨f, hf, hs, hw'⟩ := h
    · exact .inr (.inl h)
    · exact .inr (.inr (.inl h))
    · exact .inr (.inr (.inr (.inl h)))
    · cases hflight.symm.trans hf
      exact .inr (.inr (.inr (.inr ⟨_, rfl, hscheduled.trans hs, hwill scope x hx hw'⟩)))

variable {after : ℕ}

theorem Ok.saveCursor (hw : Ok config w) (hreached : Reached w.history after)
    (hheld : HeldUpTo config w.history w.source flight.scope after [])
    (hdue : ∀ scope ∈ config.scopes, ∀ x ∈ scopedQuery config w.history scope, w.Due scope x →
      Held w.source x ∨ w.link ≠ .connected ∨ w.scheduled = true ∨
        flight.scheduled = true ∧ scope ∈ flight.todo) :
    Ok config (w.saveCursor flight after) := by
  have hcursors : Ok config { w with
      cursor := if after = 0 then w.cursor else Function.update w.cursor flight.scope after } := by
    refine ⟨hw.history, hw.coming, hw.copies, fun scope => ?_, hw.flight, hw.due⟩
    dsimp only
    split
    · exact hw.cursors scope
    · by_cases hs : scope = flight.scope
      · subst hs
        rw [Function.update_self]
        exact ⟨hreached, hheld⟩
      · rw [Function.update_of_ne hs]
        exact hw.cursors scope
  refine hcursors.moved rfl rfl rfl rfl (fun _ h => h)
    (fun f hf => stageOk_pullScopes hcursors hf) fun scope hscope x hx h => ?_
  obtain h | h := h
  · exact .inr (.inl h)
  · obtain h | h | h | ⟨hscheduled, htodo⟩ := hdue scope hscope x hx h
    · exact .inl h
    · exact .inr (.inr (.inl h))
    · exact .inr (.inr (.inr (.inl h)))
    · obtain ⟨f, hf, hsf, hwill⟩ := willPull_pullScopes htodo x
      exact .inr (.inr (.inr (.inr ⟨f, hf, hsf.trans hscheduled, hwill⟩)))

omit [DecidableEq ς] in
theorem pageOk_pageQuery (hhistory : ChangeHistory w.history)
    (hlimit : config.batchSize ≤ config.maxLimit) {scope : ς} {upTo : Option ℕ}
    (hstage : StageOk config w.history w.source scope (.requesting after upTo))
    {bound : ℕ} (hbound : bound = resolveUpToCursor config w.history scope upTo)
    {rows : List (ServerChange ρ α)}
    (hrows : rows = pageQuery config w.history scope after bound) {last : ServerChange ρ α}
    (hlast : rows.getLast? = some last) :
    PageOk config w.history w.source scope
      ⟨rows, last.sequence, bound, rows.length < config.batchSize⟩ rows := by
  obtain ⟨-, hreached, hheld⟩ := hstage
  have hfiltered : ∀ x ∈ rows, x ∈ cursorFilteredQuery config w.history scope after bound :=
    fun x hx => mem_of_mem_take (hrows ▸ hx)
  have hle : last.sequence ≤ bound :=
    (mem_cursorFilteredQuery.mp (hfiltered last (mem_of_mem_getLast? hlast))).2.2
  refine ⟨fun x hx => ?_, hbound ▸ reached_resolveUpToCursor hreached, hle, fun x hx hupper => ?_⟩
  · have hscoped := (mem_cursorFilteredQuery.mp (hfiltered x hx)).1
    exact (mem_syncRows.mp (mem_scopedQuery.mp hscoped).1).1
  · by_cases hafter : x.sequence ≤ after
    · exact .inl ((hheld x hx hafter).resolve_right not_mem_nil)
    · have hpage : (x.sequence ≤ last.sequence ∨ rows.length < config.batchSize) ∧
          x.sequence ≤ bound := by
        dsimp only at hupper
        split at hupper
        · rename_i hshort
          exact ⟨.inr (of_decide_eq_true hshort), hupper⟩
        · exact ⟨.inl hupper, hupper.trans hle⟩
      subst hrows
      exact .inr (mem_pageQuery hhistory hlimit
        (mem_cursorFilteredQuery.mpr ⟨hx, by omega, hpage.2⟩) hlast hpage.1)

theorem Ok.receivePage (hw : Ok config w) (hlimit : config.batchSize ≤ config.maxLimit)
    {scope : ς} {todo : List ς} {upTo : Option ℕ}
    (hflight : w.flight = some ⟨scheduled, scope, todo, .requesting after upTo⟩) :
    Ok config (w.receivePage config ⟨scheduled, scope, todo, .requesting after upTo⟩ after upTo) := by
  have hstage : StageOk config w.history w.source scope (.requesting after upTo) :=
    hw.flight _ hflight
  have hbound : ∀ x ∈ scopedQuery config w.history scope, (∀ bound ∈ upTo, x.sequence ≤ bound) →
      x.sequence ≤ resolveUpToCursor config w.history scope upTo := fun x hx h =>
    le_resolveUpToCursor hw.history hx h
  unfold RealtimeWorld.receivePage
  dsimp only
  split
  · rename_i hnone
    have hempty := pageQuery_eq_nil hlimit (getLast?_eq_none_iff.mp hnone)
    refine hw.saveCursor hstage.1 hstage.2.2 fun s _ x hx hdue => ?_
    obtain h | h | ⟨f, hf, hscheduled, hwill⟩ := hdue
    · exact .inr (.inl h)
    · exact .inr (.inr (.inl h))
    · cases hflight.symm.trans hf
      obtain htodo | ⟨rfl, hupTo⟩ := hwill
      · exact .inr (.inr (.inr ⟨hscheduled, htodo⟩))
      · -- no row is between the cursor and the bound
        have hle : x.sequence ≤ after := by
          by_contra hlt
          have hmem := mem_cursorFilteredQuery.mpr ⟨hx, not_le.mp hlt, hbound x hx hupTo⟩
          rw [hempty] at hmem
          exact absurd hmem not_mem_nil
        exact .inl ((hstage.2.2 x hx hle).resolve_right not_mem_nil)
  · rename_i last hlast
    refine hw.restage hflight rfl (pageOk_pageQuery hw.history hlimit hstage rfl rfl hlast) ?_
    rintro s x hx (htodo | ⟨rfl, hupTo⟩)
    · exact .inl htodo
    · exact .inr ⟨rfl, hbound x hx hupTo⟩

end

section
variable [DecidableEq ς] [DecidableEq ρ] [DecidableEq α]

theorem Ok.step (hw : Ok config w) {w' : RealtimeWorld ς ρ α} {a : RealtimeAction ρ α}
    (hsteady : Steady config w a) (h : step config w a = some w') : Ok config w' := by
  cases a with
  | change x =>
    dsimp only [RealtimeWorld.step] at h
    split at h
    · rename_i hnew
      cases h
      simp only [Bool.and_eq_true, decide_eq_true_eq, all_eq_true, Bool.or_eq_true,
        ← imp_iff_not_or] at hnew
      exact hw.change hnew.1 (fun y hy => (hnew.2 y hy).1) fun y hy => (hnew.2 y hy).2
    · cases h
  | disconnect =>
    cases h
    refine hw.unconnected (fun h => nomatch h) rfl rfl rfl rfl (fun x hx => ?_) fun _ hf => hf
    obtain hx | hx := hx
    · exact absurd hx not_mem_nil
    · exact .inr hx
  | subscribe =>
    dsimp only [RealtimeWorld.step] at h
    split at h
    · cases h
      exact hw.unconnected (fun h => nomatch h) rfl rfl rfl rfl (fun _ h => h) fun _ hf => hf
    · cases h
  | resume =>
    dsimp only [RealtimeWorld.step] at h
    split at h
    · cases h
      exact hw.resume hsteady
    · cases h
  | deliver =>
    dsimp only [RealtimeWorld.step] at h
    split at h
    · rename_i x inFlight hin
      cases h
      have hcoming : ∀ y, Coming { w with inFlight, applyQueue := w.applyQueue ++ [x] } y ↔
          w.Coming y := by
        intro y
        simp only [Coming, hin, mem_append, mem_cons, not_mem_nil, or_false]
        tauto
      exact hw.moved rfl rfl rfl rfl (fun y hy => (hcoming y).mp hy) hw.flight
        fun _ _ y _ hy => .inr (hy.imp (hcoming y).mpr id)
    · cases h
  | beginApply =>
    dsimp only [RealtimeWorld.step] at h
    split at h
    · rename_i x applyQueue hqueue hnone
      cases h
      have hcoming : ∀ y,
          Coming { w with applyQueue, applying := some (x, w.copy x.resource) } y ↔ w.Coming y := by
        intro y
        simp only [Coming, hqueue, hnone, mem_cons, Option.some.injEq, Prod.mk.injEq,
          eq_comm]
        tauto
      exact hw.moved rfl rfl rfl rfl (fun y hy => (hcoming y).mp hy) hw.flight
        fun _ _ y _ hy => .inr (hy.imp (hcoming y).mpr id)
    · cases h
  | finishApply raced =>
    dsimp only [RealtimeWorld.step] at h
    split at h
    · rename_i x loaded happlying
      cases h
      have hlatest := hsteady x loaded happlying
      have hwrite : Ok config (w.write x loaded raced) :=
        hw.write (hw.coming x (.inr (.inr ⟨loaded, happlying⟩))) hlatest
      refine hwrite.moved rfl rfl rfl rfl (fun y hy => ?_) hwrite.flight fun _ _ y _ hy => ?_
      · obtain hy | hy | ⟨loaded, hy⟩ := hy
        · exact .inl hy
        · exact .inr (.inl hy)
        · cases hy
      · obtain (hy | hy | ⟨loaded', hy⟩) | hy := hy
        · exact .inr (.inl (.inl hy))
        · exact .inr (.inl (.inr (.inl hy)))
        · obtain ⟨rfl, -⟩ := Prod.mk.inj (Option.some.inj (happlying.symm.trans hy))
          exact .inl (held_write hlatest (.inr rfl))
        · exact .inr (.inr hy)
    · cases h
  | failApply =>
    dsimp only [RealtimeWorld.step] at h
    split at h
    · cases h
      refine hw.unconnected hsteady rfl rfl rfl rfl (fun x hx => ?_) fun _ hf => hf
      obtain hx | hx | ⟨loaded, hx⟩ := hx
      · exact .inl hx
      · exact .inr (.inl hx)
      · cases hx
    · cases h
  | pull =>
    dsimp only [RealtimeWorld.step] at h
    split at h
    · rename_i hnone
      cases h
      refine hw.moved rfl rfl rfl rfl (fun _ h => h) (fun f hf => stageOk_pullScopes hw hf)
        fun _ _ y _ hy => ?_
      obtain hy | hy | hy | ⟨f, hf, -⟩ := hy
      · exact .inr (.inl hy)
      · exact .inr (.inr (.inl hy))
      · exact .inr (.inr (.inr (.inl hy)))
      · rw [hnone] at hf
        exact absurd hf (Option.not_mem_none _)
    · cases h
  | beginScheduled =>
    dsimp only [RealtimeWorld.step] at h
    split at h
    · cases h
      refine hw.moved rfl rfl rfl rfl (fun _ h => h) (fun f hf => stageOk_pullScopes hw hf)
        fun _ hscope y _ _ => ?_
      exact .inr (.inr (.inr (.inr (willPull_pullScopes hscope y))))
    · cases h
  | skipScheduled =>
    dsimp only [RealtimeWorld.step] at h
    split at h
    · cases h
      exact hw.unconnected hsteady rfl rfl rfl rfl (fun _ h => h) fun _ hf => hf
    · cases h
  | fetch =>
    dsimp only [RealtimeWorld.step] at h
    split at h
    · rename_i scheduled scope todo after upTo hflight
      cases h
      exact hw.receivePage hsteady hflight
    · cases h
  | beginRow =>
    dsimp only [RealtimeWorld.step] at h
    split at h
    · rename_i scheduled scope todo row rows next upTo last hflight
      cases h
      have hpage : PageOk config w.history w.source scope ⟨row :: rows, next, upTo, last⟩
          (row :: rows) := hw.flight _ hflight
      exact hw.restage hflight rfl ⟨hpage.logged, hpage.reached, hpage.le, hpage.held⟩
        fun _ _ _ hwill => hwill
    · cases h
  | finishRow raced =>
    dsimp only [RealtimeWorld.step] at h
    split at h
    · rename_i scheduled scope todo row loaded page hflight
      cases h
      have hlatest := hsteady _ hflight row loaded page rfl
      have hpage : PageOk config w.history w.source scope page (row :: page.rows) :=
        hw.flight _ hflight
      have hwrite : Ok config (w.write row loaded raced) :=
        hw.write (hpage.logged mem_cons_self) hlatest
      refine hwrite.restage hflight rfl ?_ fun _ _ _ hwill => hwill
      refine ⟨fun y hy => hpage.logged (mem_cons_of_mem _ hy), hpage.reached, hpage.le, ?_⟩
      refine hpage.held.mono (fun _ hy => held_write hlatest (.inl hy)) fun y hy => ?_
      obtain rfl | hy := mem_cons.mp hy
      · exact .inl (held_write hlatest (.inr rfl))
      · exact .inr hy
    · cases h
  | endPage =>
    dsimp only [RealtimeWorld.step] at h
    split at h
    · rename_i scheduled scope todo next upTo last hflight
      have hpage : PageOk config w.history w.source scope ⟨[], next, upTo, last⟩ [] :=
        hw.flight _ hflight
      have hreached := hpage.reached.le hpage.le
      split at h
      · rename_i hlast
        cases h
        have hheld : HeldUpTo config w.history w.source scope upTo [] := by
          have hupper := hpage.held
          rwa [if_pos hlast] at hupper
        refine hw.saveCursor hreached (fun x hx hle => hheld x hx (hle.trans hpage.le))
          fun s _ x hx hdue => ?_
        obtain h | h | ⟨f, hf, hscheduled, hwill⟩ := hdue
        · exact .inr (.inl h)
        · exact .inr (.inr (.inl h))
        · cases hflight.symm.trans hf
          obtain htodo | ⟨rfl, hle⟩ := hwill
          · exact .inr (.inr (.inr ⟨hscheduled, htodo⟩))
          · exact .inl ((hheld x hx hle).resolve_right not_mem_nil)
      · rename_i hlast
        cases h
        refine hw.restage hflight rfl ⟨hreached, ?_, ?_⟩ ?_
        · rintro bound hb
          cases hb
          exact hpage.reached
        · have hupper := hpage.held
          rwa [if_neg hlast] at hupper
        · rintro s x - (htodo | ⟨rfl, hle⟩)
          · exact .inl htodo
          · refine .inr ⟨rfl, fun bound hb => ?_⟩
            cases hb
            exact hle
    · cases h
  | failPull =>
    dsimp only [RealtimeWorld.step] at h
    split at h
    · cases h
      refine hw.moved rfl rfl rfl rfl (fun _ h => h) (fun _ h => absurd h (Option.not_mem_none _))
        fun _ _ y _ hy => ?_
      obtain hy | hy | hy | ⟨f, hf, hscheduled, -⟩ := hy
      · exact .inr (.inl hy)
      · exact .inr (.inr (.inl hy))
      · exact .inr (.inr (.inr (.inl hy)))
      · exact .inr (.inr (.inl (hsteady f hf hscheduled)))
    · cases h

omit [DecidableEq ς] [DecidableEq α] in
theorem Ok.copy_latest (hw : Ok config w) (hquiet : w.Quiescent) {scope : ς}
    (hscope : scope ∈ config.scopes) {r : ρ} (hr : config.covers scope r = true) :
    w.copy r = (w.latest r).bind (·.target) ∧
      ∀ x ∈ w.history, x.resource = r → Held w.source x := by
  have hcopy := hw.copies r
  unfold CopyOk at hcopy
  cases hlatest : w.latest r with
  | none =>
    have hnone : ∀ x ∈ w.history, x.resource ≠ r := fun x hx hxr => by
      have hmem : x ∈ w.history.filter (·.resource = r) :=
        mem_filter.mpr ⟨hx, decide_eq_true hxr⟩
      rw [getLast?_eq_none_iff.mp hlatest] at hmem
      exact absurd hmem not_mem_nil
    refine ⟨?_, fun x hx hxr => absurd hxr (hnone x hx)⟩
    cases hsource : w.source r with
    | none =>
      rw [hsource] at hcopy
      exact hcopy
    | some y =>
      rw [hsource] at hcopy
      exact absurd hcopy.2.1 (hnone y hcopy.1)
  | some x =>
    obtain ⟨hrow, rfl, hle⟩ := hw.history.latest_syncRows hlatest
    have hheld : Held w.source x := by
      obtain h | h | h := hw.due scope hscope x (mem_scopedQuery.mpr ⟨hrow, hr⟩)
      · exact h
      · obtain h | h | ⟨loaded, h⟩ := h
        · rw [hquiet.inFlight] at h
          exact absurd h not_mem_nil
        · rw [hquiet.applyQueue] at h
          exact absurd h not_mem_nil
        · rw [hquiet.applying] at h
          cases h
      · obtain h | h | ⟨f, hf, -⟩ := h
        · exact absurd hquiet.connected h
        · rw [hquiet.scheduled] at h
          cases h
        · rw [hquiet.flight] at hf
          exact absurd hf (Option.not_mem_none _)
    obtain ⟨y, hy, hxy⟩ := hheld
    rw [hy] at hcopy
    obtain ⟨hlogged, hyr, hcopy⟩ := hcopy
    obtain rfl := hw.history.eq_of_sequence hlogged (mem_syncRows.mp hrow).1
      (le_antisymm (hle y hlogged hyr) hxy)
    exact ⟨hcopy, fun z hz hzr => ⟨y, hzr ▸ hy, hle z hz hzr⟩⟩

/-- **Quiescent copies converge.** In every steady run, whenever the client is
    connected and quiescent, the local copy of each resource in scope is that of
    its latest change, and no saved cursor has passed a change that is not
    applied; while the client is busy, no cursor has passed a sync row that is
    not. -/
theorem quiescent_copies_converge {actions : List (RealtimeAction ρ α)}
    {w : RealtimeWorld ς ρ α}
    (hsteady : Along (RealtimeWorld.step config) (Steady config) init actions)
    (hrun : runActions (RealtimeWorld.step config) init actions = some w) :
    (w.Quiescent → ∀ scope ∈ config.scopes,
      (∀ r, config.covers scope r = true → w.copy r = (w.latest r).bind (·.target)) ∧
      ∀ x ∈ w.history, config.covers scope x.resource = true →
        x.sequence ≤ w.cursor scope → Held w.source x) ∧
    ∀ scope, ∀ x ∈ scopedQuery config w.history scope,
      x.sequence ≤ w.cursor scope → Held w.source x := by
  have hw : Ok config w := runActions_invariant (I := Ok config)
    (fun _ _ _ hs hok h => hs.step hok h) actions ok_init hsteady hrun
  refine ⟨fun hquiet scope hscope => ⟨fun r hr => ?_, fun x hx hcovers _ => ?_⟩,
    fun scope x hx hle => ?_⟩
  · exact (hw.copy_latest hquiet hscope hr).1
  · exact (hw.copy_latest hquiet hscope hcovers).2 x hx rfl
  · exact ((hw.cursors scope).2 x hx hle).resolve_right not_mem_nil

end

end RealtimeWorld

/-! ## A folded resume and an older page -/

/-- One scope that covers every resource. -/
def oneScope : RealtimeConfig Unit ℕ := ⟨[()], fun _ _ => true, 100, 1000, by decide⟩

/-- The change of resource 1 with this sequence, and the value it has then. -/
def changeOfOne (sequence : ℕ) : ServerChange ℕ ℕ := ⟨1, 1, sequence, some sequence⟩

/-- A change, and a connection whose pull has read its page. -/
def pageRead : List (RealtimeAction ℕ ℕ) :=
  [.change (changeOfOne 1), .subscribe, .resume, .beginScheduled, .fetch]

def pageWritten : List (RealtimeAction ℕ ℕ) := [.beginRow, .finishRow none, .endPage]

def pushWritten : List (RealtimeAction ℕ ℕ) :=
  [.change (changeOfOne 2), .deliver, .beginApply, .finishApply none]

/-- A change while the client is away, which resumes before its pull has ended. -/
def changeWhileAway : List (RealtimeAction ℕ ℕ) :=
  [.disconnect, .change (changeOfOne 2), .subscribe, .resume]

theorem pushAfterPage_steady :
    Along (RealtimeWorld.step oneScope) (RealtimeWorld.Steady oneScope) .init
      (pageRead ++ pageWritten ++ pushWritten) := by
  refine ⟨trivial, trivial, ?_, trivial, ?_, trivial, ?_, trivial, trivial, trivial, trivial, ?_,
    trivial⟩
  · rintro _ ⟨⟩
  · exact (by decide : 100 ≤ 1000)
  · rintro _ ⟨⟩ _ _ _ ⟨⟩
    exact ⟨rfl, fun _ h => nomatch h⟩
  · rintro _ _ ⟨⟩
    refine ⟨rfl, ?_⟩
    rintro _ ⟨⟩
    exact (by decide : 1 ≤ 2)

theorem quiescent_copies_converge_push :
    ∃ w, runActions (RealtimeWorld.step oneScope) .init (pageRead ++ pageWritten ++ pushWritten) =
        some w ∧
      w.Quiescent ∧ w.copy 1 = some 2 ∧
      (w.Quiescent → ∀ scope ∈ oneScope.scopes,
        (∀ r, oneScope.covers scope r = true → w.copy r = (w.latest r).bind (·.target)) ∧
        ∀ x ∈ w.history, oneScope.covers scope x.resource = true →
          x.sequence ≤ w.cursor scope → Held w.source x) ∧
      ∀ scope, ∀ x ∈ scopedQuery oneScope w.history scope,
        x.sequence ≤ w.cursor scope → Held w.source x :=
  ⟨_, rfl, ⟨rfl, rfl, rfl, rfl, rfl, rfl⟩, rfl,
    RealtimeWorld.quiescent_copies_converge pushAfterPage_steady rfl⟩

/-- **Stale when quiescent.** A resume that is folded into a pull behind its
    bound leaves out what was changed meanwhile; and a page that was read before
    a push overwrites it. -/
theorem stale_when_quiescent :
    (∃ w, runActions (RealtimeWorld.step oneScope) .init
        (pageRead ++ changeWhileAway ++ pageWritten) = some w ∧
      w.Quiescent ∧ w.copy 1 = some 1 ∧ (w.latest 1).bind (·.target) = some 2) ∧
    ∃ w, runActions (RealtimeWorld.step oneScope) .init (pageRead ++ pushWritten ++ pageWritten) =
        some w ∧
      w.Quiescent ∧ w.copy 1 = some 1 ∧ (w.latest 1).bind (·.target) = some 2 :=
  ⟨⟨_, rfl, ⟨rfl, rfl, rfl, rfl, rfl, rfl⟩, rfl, rfl⟩,
    _, rfl, ⟨rfl, rfl, rfl, rfl, rfl, rfl⟩, rfl, rfl⟩

end Velocious
