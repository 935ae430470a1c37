/-
  Resuming a paused websocket session
  (src/http-server/client/websocket-session.js and the registry of paused
  sessions in src/configuration.js).

  A session that loses its socket is paused and registered under its id, with a
  grace timer. A live session that gets `session-resume` looks the id up, checks
  identities across two awaits if a resolver is configured, and then takes the
  connections and subscriptions over. Entries are kept with the key they have in
  the session's maps; frames other than the answers to a resume are left out.
-/
import Velocious.Foundation.Javascript
import Velocious.Foundation.Machine

namespace Velocious

open Foundation

/-! ## The program -/

/-- `identitiesMatch`; `none` is `undefined`. -/
def identitiesMatch : Option Json → Option Json → Bool
  | none, none => true
  | some .null, some .null => true
  | some (.bool a), some (.bool b) => a = b
  | some (.num a), some (.num b) => a ≠ .nan && a = b
  | some (.str a), some (.str b) => a = b
  | some (.arr a), some (.arr b) => (Json.arr a).stringify = (Json.arr b).stringify
  | some (.obj a), some (.obj b) => (Json.obj a).stringify = (Json.obj b).stringify
  | _, _ => false

/-- The map an entry is in, and its id there. -/
inductive EntryKey where
  | connection (connectionId : String)
  | subscription (subscriptionId : String)
  deriving DecidableEq

/-- What a session is at. -/
inductive SessionPhase where
  | live
  | paused
  | closed
  deriving DecidableEq, Repr

/-- Where a session is with a `session-resume` message; while it handles one it
    handles no other message. -/
inductive ResumeStage (ι : Type) where
  | idle
  /-- awaits the identity captured when the session it looked up was paused -/
  | identifying (id : String) (paused : ι)
  | resolving (id : String) (paused : ι) (pausedIdentity : Option Json)
  | hooks

/-- The id and the session that a resume in progress has looked up. -/
def ResumeStage.target {ι : Type} : ResumeStage ι → Option (String × ι)
  | identifying id paused | resolving id paused _ => some (id, paused)
  | idle | hooks => none

/-- A session and its live connections and subscriptions. -/
structure WsSession (ι κ : Type) where
  sessionId : String
  phase : SessionPhase
  entries : List (EntryKey × κ)
  stage : ResumeStage ι

def WsSession.items {ι κ : Type} (s : WsSession ι κ) : List κ := s.entries.map Prod.snd

/-- The answer to a resume. -/
inductive ResumeReply where
  | sessionGone
  | sessionResumed (sessionId : String)
  deriving DecidableEq

/-- The state of `source` as it went to `target` under an id. -/
structure Handover (ι κ : Type) where
  source : ι
  target : ι
  sessionId : String
  entries : List (EntryKey × κ)

/-- The sessions, the registry of paused ones, and the history: everything that
    was opened, that was torn down, that was handed over, and the answers. -/
structure ResumeWorld (ι κ : Type) where
  session : ι → WsSession ι κ
  registry : String → Option ι
  opened : List κ
  tornDown : List κ
  handovers : List (Handover ι κ)
  replies : List (ι × ResumeReply)

/-- What happens next: a live session opens a connection or a subscription,
    loses its socket, or is dropped for its backlog; a grace timer fires; a
    `session-resume` message is handled, and what it awaits comes. -/
inductive ResumeAction (ι κ : Type) where
  | openEntry (i : ι) (key : EntryKey) (item : κ)
  | close (i : ι)
  | drop (i : ι)
  | expire (id : String)
  | resume (i : ι) (sessionId : Option String)
  | identify (i : ι) (pausedIdentity : Option Json)
  | resolve (i : ι) (freshIdentity : Option Json)
  | hooksDone (i : ι)

/-- The entries after `Map.set` of each moved one. -/
def setEntries {κ : Type} (own moved : List (EntryKey × κ)) : List (EntryKey × κ) :=
  (own.filter fun e => moved.all fun m => m.1 ≠ e.1) ++ moved

namespace ResumeWorld

variable {ι κ : Type} [DecidableEq ι]

def setSession (w : ResumeWorld ι κ) (i : ι) (s : WsSession ι κ) : ResumeWorld ι κ :=
  { w with session := Function.update w.session i s }

def reply (w : ResumeWorld ι κ) (i : ι) (r : ResumeReply) : ResumeWorld ι κ :=
  { w with replies := w.replies ++ [(i, r)] }

def clearPaused (w : ResumeWorld ι κ) (id : String) : ResumeWorld ι κ :=
  { w with registry := Function.update w.registry id none }

/-- `_finalizeGraceExpiry`, and every other teardown of a session. -/
def tearDown (w : ResumeWorld ι κ) (i : ι) : ResumeWorld ι κ :=
  { w.setSession i { w.session i with phase := .closed, entries := [] } with
    tornDown := w.tornDown ++ (w.session i).items }

/-- The transfer of `_handleSessionResume`, after which the shell is destroyed. -/
def handOver (w : ResumeWorld ι κ) (i : ι) (id : String) (paused : ι) : ResumeWorld ι κ :=
  let entries := (w.session paused).entries
  let taken := w.setSession i { w.session i with
    sessionId := id, entries := setEntries (w.session i).entries entries, stage := .hooks }
  let left := taken.setSession paused { taken.session paused with phase := .closed, entries := [] }
  { (left.clearPaused id).reply i (.sessionResumed id) with
    handovers := w.handovers ++ [⟨paused, i, id, entries⟩] }

def lookUp (w : ResumeWorld ι κ) (resolver : Bool) (i : ι) (sessionId : Option String) :
    ResumeWorld ι κ :=
  match orNull sessionId with
  | none => w.reply i .sessionGone
  | some id =>
    match w.registry id with
    | none => w.reply i .sessionGone
    | some paused =>
      if resolver then w.setSession i { w.session i with stage := .identifying id paused }
      else w.handOver i id paused

/-- One step; `resolver` says whether an identity resolver is configured. -/
def step [DecidableEq κ] (resolver : Bool) (w : ResumeWorld ι κ) :
    ResumeAction ι κ → Option (ResumeWorld ι κ)
  | .openEntry i key item =>
    let s := w.session i
    match s.phase, s.stage with
    | .live, .idle =>
      if s.entries.any (·.1 = key) || item ∈ w.opened then none
      else some { w.setSession i { s with entries := s.entries ++ [(key, item)] } with
        opened := w.opened ++ [item] }
    | _, _ => none
  | .close i =>
    let s := w.session i
    match s.phase with
    | .live =>
      if s.entries.isEmpty then some (w.tearDown i)
      else
        some { w.setSession i { s with phase := .paused } with
          registry := if (w.registry s.sessionId).isSome then w.registry
            else Function.update w.registry s.sessionId (some i) }
    | _ => none
  | .drop i =>
    match (w.session i).phase with
    | .live => some (w.tearDown i)
    | _ => none
  | .expire id =>
    match w.registry id with
    | some paused => some ((w.clearPaused id).tearDown paused)
    | none => none
  | .resume i sessionId =>
    match (w.session i).phase, (w.session i).stage with
    | .live, .idle => some (w.lookUp resolver i sessionId)
    | _, _ => none
  | .identify i pausedIdentity =>
    match (w.session i).stage with
    | .identifying id paused =>
      some (w.setSession i { w.session i with stage := .resolving id paused pausedIdentity })
    | _ => none
  | .resolve i freshIdentity =>
    match (w.session i).stage with
    | .resolving id paused pausedIdentity =>
      if identitiesMatch pausedIdentity freshIdentity then some (w.handOver i id paused)
      else
        let w' := (w.clearPaused id).tearDown paused
        some ((w'.setSession i { w'.session i with stage := .idle }).reply i .sessionGone)
    | _ => none
  | .hooksDone i =>
    match (w.session i).stage with
    | .hooks => some (w.setSession i { w.session i with stage := .idle })
    | _ => none

/-- Sessions that have just connected, under ids of their own. -/
def init (sessionId : ι → String) : ResumeWorld ι κ where
  session i := ⟨sessionId i, .live, [], .idle⟩
  registry _ := none
  opened := []
  tornDown := []
  handovers := []
  replies := []

/-- When the identities match, the session that was looked up is still the one
    registered under the id. -/
def StillPaused (w : ResumeWorld ι κ) : ResumeAction ι κ → Prop
  | .resolve i freshIdentity => ∀ id paused pausedIdentity,
      (w.session i).stage = .resolving id paused pausedIdentity →
        identitiesMatch pausedIdentity freshIdentity = true → w.registry id = some paused
  | _ => True

section
omit [DecidableEq ι]

/-- Everything opened is in one session at most, and there only while it has not
    been torn down. -/
structure Placed (items : ι → List κ) (tornDown opened : List κ) : Prop where
  known : ∀ i, ∀ x ∈ items i, x ∈ opened
  torn_known : ∀ x ∈ tornDown, x ∈ opened
  apart : ∀ x ∈ tornDown, ∀ i, x ∉ items i
  disjoint : ∀ i j x, x ∈ items i → x ∈ items j → i = j

variable {items items' : ι → List κ} {tornDown opened : List κ}

section
variable (h : Placed items tornDown opened)
include h

theorem Placed.mono (hsub : ∀ i, ∀ x ∈ items' i, x ∈ items i) :
    Placed items' tornDown opened where
  known i x hx := h.known i x (hsub i x hx)
  torn_known := h.torn_known
  apart x hx i hi := h.apart x hx i (hsub i x hi)
  disjoint i j x hi hj := h.disjoint i j x (hsub i x hi) (hsub j x hj)

theorem Placed.open {i : ι} {y : κ} (hy : y ∉ opened)
    (hi : ∀ x ∈ items' i, x ∈ items i ∨ x = y) (hother : ∀ j, j ≠ i → items' j = items j) :
    Placed items' tornDown (opened ++ [y]) := by
  have hnew : ∀ j x, x ∈ items' j → x ∈ items j ∨ x = y ∧ j = i := by
    intro j x hx
    by_cases hj : j = i
    · subst hj
      exact (hi x hx).imp_right fun h => ⟨h, rfl⟩
    · exact .inl (hother j hj ▸ hx)
  constructor
  · intro j x hx
    rcases hnew j x hx with h' | ⟨rfl, -⟩
    · exact List.mem_append_left _ (h.known j x h')
    · exact List.mem_append_right _ List.mem_cons_self
  · exact fun x hx => List.mem_append_left _ (h.torn_known x hx)
  · intro x hx j hj
    rcases hnew j x hj with h' | ⟨rfl, -⟩
    · exact h.apart x hx j h'
    · exact hy (h.torn_known x hx)
  · intro j k x hj hk
    rcases hnew j x hj with hj | ⟨rfl, rfl⟩
    · rcases hnew k x hk with hk | ⟨rfl, -⟩
      · exact h.disjoint j k x hj hk
      · exact absurd (h.known j x hj) hy
    · rcases hnew k x hk with hk | ⟨-, rfl⟩
      · exact absurd (h.known k x hk) hy
      · rfl

theorem Placed.tearDown {i : ι} (hi : items' i = [])
    (hother : ∀ j, j ≠ i → items' j = items j) : Placed items' (tornDown ++ items i) opened := by
  have hold : ∀ j x, x ∈ items' j → x ∈ items j ∧ j ≠ i := by
    intro j x hx
    by_cases hj : j = i
    · subst hj
      rw [hi] at hx
      exact absurd hx List.not_mem_nil
    · exact ⟨hother j hj ▸ hx, hj⟩
  constructor
  · exact fun j x hx => h.known j x (hold j x hx).1
  · intro x hx
    rcases List.mem_append.mp hx with hx | hx
    · exact h.torn_known x hx
    · exact h.known i x hx
  · intro x hx j hj
    obtain ⟨hj, hne⟩ := hold j x hj
    rcases List.mem_append.mp hx with hx | hx
    · exact h.apart x hx j hj
    · exact hne (h.disjoint j i x hj hx)
  · exact fun j k x hj hk => h.disjoint j k x (hold j x hj).1 (hold k x hk).1

theorem Placed.handOver {i p : ι} (hp : items' p = [])
    (hi : ∀ x ∈ items' i, x ∈ items i ∨ x ∈ items p)
    (hother : ∀ j, j ≠ i → j ≠ p → items' j = items j) : Placed items' tornDown opened := by
  -- what is in `j` afterwards was in `j`, or was in `p` and `j` is the target
  have hold : ∀ j x, x ∈ items' j → j ≠ p ∧ (x ∈ items j ∨ x ∈ items p ∧ j = i) := by
    intro j x hx
    have hne : j ≠ p := by
      rintro rfl
      rw [hp] at hx
      exact absurd hx List.not_mem_nil
    by_cases hj : j = i
    · subst hj
      exact ⟨hne, (hi x hx).imp_right fun h => ⟨h, rfl⟩⟩
    · exact ⟨hne, .inl (hother j hj hne ▸ hx)⟩
  constructor
  · intro j x hx
    rcases (hold j x hx).2 with hx | ⟨hx, -⟩
    · exact h.known j x hx
    · exact h.known p x hx
  · exact h.torn_known
  · intro x hx j hj
    rcases (hold j x hj).2 with hj | ⟨hj, -⟩
    · exact h.apart x hx j hj
    · exact h.apart x hx p hj
  · intro j k x hj hk
    obtain ⟨hjp, hj⟩ := hold j x hj
    obtain ⟨hkp, hk⟩ := hold k x hk
    rcases hj with hj | ⟨hj, rfl⟩
    · rcases hk with hk | ⟨hk, -⟩
      · exact h.disjoint j k x hj hk
      · exact absurd (h.disjoint j p x hj hk) hjp
    · rcases hk with hk | ⟨-, rfl⟩
      · exact absurd (h.disjoint k p x hk hj) hkp
      · rfl

end

end

/-! ## The invariant -/

def items (w : ResumeWorld ι κ) (i : ι) : List κ := (w.session i).items

/-- `i` awaits the outcome of looking `id` up. -/
def Awaits (w : ResumeWorld ι κ) (i : ι) (id : String) (paused : ι) : Prop :=
  (w.session i).stage.target = some (id, paused)

/-- The answers `session-resumed`. -/
def resumedReplies (w : ResumeWorld ι κ) : List (ι × ResumeReply) :=
  w.replies.filter fun r => r.2 ≠ .sessionGone

/-- The registry holds paused sessions, each under one id, with what they had;
    what was handed over came from sessions that are gone. -/
structure Ok (w : ResumeWorld ι κ) : Prop where
  placed : Placed w.items w.tornDown w.opened
  registered : ∀ id p, w.registry id = some p →
    (w.session p).phase = .paused ∧ (w.session p).entries ≠ []
  once : ∀ id id' p, w.registry id = some p → w.registry id' = some p → id = id'
  awaits : ∀ i id p, w.Awaits i id p → i ≠ p ∧ (w.session p).phase ≠ .live ∧
    ∀ id', w.registry id' = some p → id' = id
  handed : ∀ h ∈ w.handovers, h.entries ≠ [] ∧ (w.session h.source).phase = .closed
  sources : (w.handovers.map (·.source)).Nodup
  replies : w.resumedReplies =
    w.handovers.map fun h => (h.target, .sessionResumed h.sessionId)

section
variable {w w' : ResumeWorld ι κ} {i : ι} {resolver : Bool}

@[simp] theorem setSession_self (s : WsSession ι κ) : (w.setSession i s).session i = s := by
  simp [setSession]

@[simp] theorem setSession_ne (s : WsSession ι κ) {j : ι} (hj : j ≠ i) :
    (w.setSession i s).session j = w.session j := by
  simp [setSession, hj]

omit [DecidableEq ι] in
theorem ok_init (sessionId : ι → String) : Ok (init sessionId : ResumeWorld ι κ) where
  placed := ⟨fun _ _ h => absurd h List.not_mem_nil, fun _ h => absurd h List.not_mem_nil,
    fun _ h => absurd h List.not_mem_nil, fun _ _ _ h => absurd h List.not_mem_nil⟩
  registered := fun _ _ h => nomatch h
  once := fun _ _ _ h => nomatch h
  awaits := fun _ _ _ h => nomatch h
  handed := fun _ h => absurd h List.not_mem_nil
  sources := .nil
  replies := rfl

omit [DecidableEq ι] in
theorem Ok.not_registered (hw : Ok w) (hi : (w.session i).phase = .live) (id : String) :
    w.registry id ≠ some i := by
  intro h
  rw [(hw.registered id i h).1] at hi
  cases hi

theorem Ok.setStage (hw : Ok w) {stage : ResumeStage ι}
    (hstage : ∀ id p, stage.target = some (id, p) → i ≠ p ∧ (w.session p).phase ≠ .live ∧
      ∀ id', w.registry id' = some p → id' = id) :
    Ok (w.setSession i { w.session i with stage }) := by
  have hphase : ∀ j, ((w.setSession i { w.session i with stage }).session j).phase =
      (w.session j).phase := by
    intro j
    by_cases hj : j = i
    · rw [hj, setSession_self]
    · rw [setSession_ne _ hj]
  have hentries : ∀ j, ((w.setSession i { w.session i with stage }).session j).entries =
      (w.session j).entries := by
    intro j
    by_cases hj : j = i
    · rw [hj, setSession_self]
    · rw [setSession_ne _ hj]
  constructor
  · refine hw.placed.mono fun j x hx => ?_
    rwa [items, WsSession.items, hentries] at hx
  · intro id p hp
    rw [hphase, hentries]
    exact hw.registered id p hp
  · exact hw.once
  · intro j id p hj
    rw [hphase]
    by_cases hji : j = i
    · subst hji
      rw [Awaits, setSession_self] at hj
      exact hstage id p hj
    · rw [Awaits, setSession_ne _ hji] at hj
      exact hw.awaits j id p hj
  · intro h hh
    rw [hphase]
    exact hw.handed h hh
  · exact hw.sources
  · exact hw.replies

omit [DecidableEq ι] in
theorem Ok.reply_gone (hw : Ok w) : Ok (w.reply i .sessionGone) :=
  { hw with
    replies := by
      rw [resumedReplies, reply, List.filter_append]
      exact (List.append_nil _).trans hw.replies }

omit [DecidableEq ι] in
theorem Ok.clearPaused (hw : Ok w) (id : String) : Ok (w.clearPaused id) := by
  have hregistry : ∀ id' p, (w.clearPaused id).registry id' = some p → w.registry id' = some p := by
    intro id' p h
    by_cases hid : id' = id
    · subst hid
      simp [ResumeWorld.clearPaused] at h
    · simpa [ResumeWorld.clearPaused, hid] using h
  exact {
    placed := hw.placed
    registered := fun id' p h => hw.registered id' p (hregistry id' p h)
    once := fun id₁ id₂ p h₁ h₂ => hw.once id₁ id₂ p (hregistry id₁ p h₁) (hregistry id₂ p h₂)
    awaits := fun j id' p h => by
      obtain ⟨hne, hlive, hid⟩ := hw.awaits j id' p h
      exact ⟨hne, hlive, fun id₁ h₁ => hid id₁ (hregistry id₁ p h₁)⟩
    handed := hw.handed
    sources := hw.sources
    replies := hw.replies }

omit [DecidableEq ι] in
theorem cleared_not_registered {id : String} {p : ι}
    (honly : ∀ id', w.registry id' = some p → id' = id) (id' : String) :
    (w.clearPaused id).registry id' ≠ some p := by
  intro h
  by_cases hid : id' = id
  · subst hid
    simp [ResumeWorld.clearPaused] at h
  · exact hid (honly id' (by simpa [ResumeWorld.clearPaused, hid] using h))

theorem Ok.tearDown (hw : Ok w) (hi : ∀ id, w.registry id ≠ some i) : Ok (w.tearDown i) := by
  have hself : (w.tearDown i).session i = { w.session i with phase := .closed, entries := [] } := by
    exact setSession_self _
  have hother : ∀ j, j ≠ i → (w.tearDown i).session j = w.session j := fun j hj => by
    exact setSession_ne _ hj
  constructor
  · refine hw.placed.tearDown ?_ fun j hj => ?_
    · rw [items, hself]
      rfl
    · rw [items, hother j hj]
      rfl
  · intro id p hp
    have hpi : p ≠ i := by
      rintro rfl
      exact hi id hp
    rw [hother p hpi]
    exact hw.registered id p hp
  · exact hw.once
  · intro j id p hj
    have hstage : w.Awaits j id p := by
      by_cases hji : j = i
      · subst hji
        rwa [Awaits, hself] at hj
      · rwa [Awaits, hother j hji] at hj
    obtain ⟨hne, hlive, hid⟩ := hw.awaits j id p hstage
    refine ⟨hne, ?_, hid⟩
    by_cases hpi : p = i
    · subst hpi
      rw [hself]
      nofun
    · rwa [hother p hpi]
  · intro h hh
    obtain ⟨hne, hclosed⟩ := hw.handed h hh
    refine ⟨hne, ?_⟩
    by_cases hsource : h.source = i
    · rw [hsource, hself]
    · rwa [hother _ hsource]
  · exact hw.sources
  · exact hw.replies

theorem Ok.openEntry (hw : Ok w) (hi : (w.session i).phase = .live) {key : EntryKey} {item : κ}
    (hitem : item ∉ w.opened) :
    Ok { w.setSession i { w.session i with entries := (w.session i).entries ++ [(key, item)] } with
      opened := w.opened ++ [item] } := by
  constructor
  · refine hw.placed.open (i := i) hitem (fun x hx => ?_) fun j hj => ?_
    · simpa [items, WsSession.items] using hx
    · simp [items, hj]
  · intro id p hp
    have hpi : p ≠ i := by
      rintro rfl
      exact hw.not_registered hi id hp
    simpa [hpi] using hw.registered id p hp
  · exact hw.once
  · intro j id p hj
    have hstage : w.Awaits j id p := by
      by_cases hji : j = i
      · subst hji
        simpa [Awaits] using hj
      · simpa [Awaits, hji] using hj
    obtain ⟨hne, hlive, hid⟩ := hw.awaits j id p hstage
    have hpi : p ≠ i := by
      rintro rfl
      exact hlive hi
    exact ⟨hne, by simpa [hpi] using hlive, hid⟩
  · intro h hh
    obtain ⟨hne, hclosed⟩ := hw.handed h hh
    have hsource : h.source ≠ i := by
      intro hs
      rw [hs, hi] at hclosed
      cases hclosed
    exact ⟨hne, by simpa [hsource] using hclosed⟩
  · exact hw.sources
  · exact hw.replies

theorem Ok.pause (hw : Ok w) (hi : (w.session i).phase = .live) (hne : (w.session i).entries ≠ [])
    (id : String) :
    Ok { w.setSession i { w.session i with phase := .paused } with
      registry := if (w.registry id).isSome then w.registry
        else Function.update w.registry id (some i) } := by
  have hregistry : ∀ id' p, (if (w.registry id).isSome then w.registry
      else Function.update w.registry id (some i)) id' = some p →
      w.registry id' = some p ∨ id' = id ∧ p = i := by
    intro id' p h
    split at h
    · exact .inl h
    · by_cases hid : id' = id
      · subst hid
        exact .inr ⟨rfl, by simpa using h.symm⟩
      · exact .inl (by simpa [hid] using h)
  have hlive : ∀ j, (w.session j).phase ≠ .live →
      ((w.setSession i { w.session i with phase := .paused }).session j).phase =
        (w.session j).phase := by
    intro j hj
    have hji : j ≠ i := by
      rintro rfl
      exact hj hi
    rw [setSession_ne _ hji]
  constructor
  · refine hw.placed.mono fun j x hx => ?_
    by_cases hj : j = i
    · subst hj
      simpa [items, WsSession.items] using hx
    · simpa [items, hj] using hx
  · intro id' p hp
    by_cases hpi : p = i
    · subst hpi
      simpa using hne
    · rcases hregistry id' p hp with h | ⟨-, rfl⟩
      · simpa [hpi] using hw.registered id' p h
      · exact absurd rfl hpi
  · intro id₁ id₂ p h₁ h₂
    rcases hregistry id₁ p h₁ with hold₁ | ⟨rfl, rfl⟩
    · rcases hregistry id₂ p h₂ with hold₂ | ⟨rfl, rfl⟩
      · exact hw.once id₁ id₂ p hold₁ hold₂
      · exact absurd hold₁ (hw.not_registered hi id₁)
    · rcases hregistry id₂ p h₂ with hold₂ | ⟨rfl, -⟩
      · exact absurd hold₂ (hw.not_registered hi id₂)
      · rfl
  · intro j id' p hj
    have hstage : w.Awaits j id' p := by
      by_cases hji : j = i
      · subst hji
        simpa [Awaits] using hj
      · simpa [Awaits, hji] using hj
    obtain ⟨hjp, hphase, hid⟩ := hw.awaits j id' p hstage
    refine ⟨hjp, ?_, fun id₁ h₁ => ?_⟩
    · rw [hlive p hphase]
      exact hphase
    · rcases hregistry id₁ p h₁ with h₁ | ⟨-, rfl⟩
      · exact hid id₁ h₁
      · exact absurd hi hphase
  · intro h hh
    obtain ⟨hentries, hclosed⟩ := hw.handed h hh
    refine ⟨hentries, ?_⟩
    rw [← hclosed]
    exact hlive h.source (by rw [hclosed]; nofun)
  · exact hw.sources
  · exact hw.replies

omit [DecidableEq ι] in
theorem mem_setEntries {own moved : List (EntryKey × κ)} {x : κ}
    (hx : x ∈ (setEntries own moved).map Prod.snd) :
    x ∈ own.map Prod.snd ∨ x ∈ moved.map Prod.snd := by
  rw [setEntries, List.map_append, List.mem_append] at hx
  refine hx.imp_left fun h => ?_
  obtain ⟨e, he, rfl⟩ := List.mem_map.mp h
  exact List.mem_map_of_mem (List.mem_filter.mp he).1

theorem Ok.handOver (hw : Ok w) {id : String} {p : ι} (hp : w.registry id = some p)
    (hip : i ≠ p) : Ok (w.handOver i id p) := by
  obtain ⟨hpaused, hentries⟩ := hw.registered id p hp
  have hsource : (w.handOver i id p).session p =
      { w.session p with phase := .closed, entries := [] } := by
    simp [ResumeWorld.handOver, ResumeWorld.clearPaused, reply, hip.symm]
  have htarget : (w.handOver i id p).session i =
      { w.session i with
        sessionId := id
        entries := setEntries (w.session i).entries (w.session p).entries
        stage := .hooks } := by
    simp [ResumeWorld.handOver, ResumeWorld.clearPaused, reply, hip]
  have hother : ∀ j, j ≠ i → j ≠ p → (w.handOver i id p).session j = w.session j := by
    intro j hi hp
    simp [ResumeWorld.handOver, ResumeWorld.clearPaused, reply, hi, hp]
  have hphase : ∀ j, j ≠ p → ((w.handOver i id p).session j).phase = (w.session j).phase := by
    intro j hj
    by_cases hji : j = i
    · rw [hji, htarget]
    · rw [hother j hji hj]
  have hregistry : ∀ id' q, (w.handOver i id p).registry id' = some q →
      w.registry id' = some q ∧ q ≠ p := by
    intro id' q h
    by_cases hid : id' = id
    · subst hid
      simp [ResumeWorld.handOver, ResumeWorld.clearPaused, reply] at h
    · have hq : w.registry id' = some q := by
        simpa [ResumeWorld.handOver, ResumeWorld.clearPaused, reply, setSession, hid] using h
      refine ⟨hq, ?_⟩
      rintro rfl
      exact hid (hw.once id' id q hq hp)
  constructor
  · refine hw.placed.handOver (i := i) (p := p) ?_ (fun x hx => ?_) fun j hi hp => ?_
    · rw [items, hsource]
      rfl
    · rw [items, htarget] at hx
      exact mem_setEntries hx
    · rw [items, hother j hi hp]
      rfl
  · intro id' q hq
    obtain ⟨hq, hqp⟩ := hregistry id' q hq
    obtain ⟨hqpaused, hqentries⟩ := hw.registered id' q hq
    refine ⟨(hphase q hqp).trans hqpaused, ?_⟩
    by_cases hqi : q = i
    · rw [hqi, htarget]
      simp [setEntries, hentries]
    · rw [hother q hqi hqp]
      exact hqentries
  · intro id₁ id₂ q h₁ h₂
    exact hw.once id₁ id₂ q (hregistry id₁ q h₁).1 (hregistry id₂ q h₂).1
  · intro j id' q hj
    have hji : j ≠ i := by
      rintro rfl
      rw [Awaits, htarget] at hj
      cases hj
    have hstage : w.Awaits j id' q := by
      by_cases hjp : j = p
      · rw [Awaits, hjp, hsource] at hj
        rw [hjp]
        exact hj
      · rwa [Awaits, hother j hji hjp] at hj
    obtain ⟨hjq, hlive, hid⟩ := hw.awaits j id' q hstage
    refine ⟨hjq, ?_, fun id₁ h₁ => hid id₁ (hregistry id₁ q h₁).1⟩
    by_cases hqp : q = p
    · rw [hqp, hsource]
      nofun
    · rwa [hphase q hqp]
  · intro h hh
    rcases List.mem_append.mp hh with hh | hh
    · obtain ⟨hne, hclosed⟩ := hw.handed h hh
      refine ⟨hne, ?_⟩
      by_cases hs : h.source = p
      · rw [hs, hsource]
      · rwa [hphase _ hs]
    · obtain rfl := List.mem_singleton.mp hh
      exact ⟨hentries, by rw [hsource]⟩
  · show ((w.handovers ++ [_]).map Handover.source).Nodup
    rw [List.map_append, List.nodup_append]
    refine ⟨hw.sources, List.nodup_singleton _, ?_⟩
    rintro _ hq _ hmem rfl
    obtain ⟨h, hh, rfl⟩ := List.mem_map.mp hq
    have hclosed := (hw.handed h hh).2
    rw [List.mem_singleton.mp hmem, hpaused] at hclosed
    cases hclosed
  · show (w.replies ++ [(i, ResumeReply.sessionResumed id)]).filter _ =
      (w.handovers ++ [_]).map _
    rw [List.filter_append, List.map_append]
    exact congrArg₂ _ hw.replies rfl

theorem Ok.lookUp (hw : Ok w) (hi : (w.session i).phase = .live)
    (sessionId : Option String) : Ok (w.lookUp resolver i sessionId) := by
  unfold ResumeWorld.lookUp
  split
  · exact hw.reply_gone
  · rename_i id _
    split
    · exact hw.reply_gone
    · rename_i p hp
      have hpaused := (hw.registered id p hp).1
      have hip : i ≠ p := by
        rintro rfl
        exact hw.not_registered hi id hp
      split
      · refine hw.setStage fun id' q hq => ?_
        obtain ⟨rfl, rfl⟩ := Prod.mk.inj (Option.some.inj hq)
        exact ⟨hip, by rw [hpaused]; nofun, fun id₁ h₁ => hw.once id₁ _ _ h₁ hp⟩
      · exact hw.handOver hp hip

theorem Ok.step [DecidableEq κ] (hw : Ok w) {a : ResumeAction ι κ} (hok : StillPaused w a)
    (h : step resolver w a = some w') : Ok w' := by
  cases a with
  | openEntry i key item =>
    dsimp only [ResumeWorld.step] at h
    split at h
    · rename_i hlive _
      split at h
      · cases h
      · rename_i hnew
        cases h
        refine hw.openEntry hlive fun hmem => hnew ?_
        simp [hmem]
    · cases h
  | close i =>
    dsimp only [ResumeWorld.step] at h
    split at h
    · rename_i hlive
      split at h
      · cases h
        exact hw.tearDown (hw.not_registered hlive)
      · rename_i hentries
        cases h
        exact hw.pause hlive (by simpa using hentries) _
    · cases h
  | drop i =>
    dsimp only [ResumeWorld.step] at h
    split at h
    · rename_i hlive
      cases h
      exact hw.tearDown (hw.not_registered hlive)
    · cases h
  | expire id =>
    dsimp only [ResumeWorld.step] at h
    split at h
    · rename_i p hp
      cases h
      refine (hw.clearPaused id).tearDown fun id' hid' => ?_
      exact cleared_not_registered (fun id₁ h₁ => hw.once id₁ id p h₁ hp) id' hid'
    · cases h
  | resume i sessionId =>
    dsimp only [ResumeWorld.step] at h
    split at h
    · rename_i hlive _
      cases h
      exact hw.lookUp hlive sessionId
    · cases h
  | identify i pausedIdentity =>
    dsimp only [ResumeWorld.step] at h
    split at h
    · rename_i id p hi
      cases h
      refine hw.setStage fun id' q hq => hw.awaits i id' q ?_
      rw [Awaits, hi]
      exact hq
    · cases h
  | resolve i freshIdentity =>
    dsimp only [ResumeWorld.step] at h
    split at h
    · rename_i id p pausedIdentity hi
      obtain ⟨hip, -, honly⟩ := hw.awaits i id p (by rw [Awaits, hi]; rfl)
      split at h
      · rename_i hmatch
        cases h
        exact hw.handOver (hok id p pausedIdentity hi hmatch) hip
      · cases h
        have hdown : Ok ((w.clearPaused id).tearDown p) :=
          (hw.clearPaused id).tearDown (cleared_not_registered honly)
        refine Ok.reply_gone (hdown.setStage ?_)
        exact fun _ _ hq => nomatch hq
    · cases h
  | hooksDone i =>
    dsimp only [ResumeWorld.step] at h
    split at h
    · cases h
      exact hw.setStage fun _ _ hq => nomatch hq
    · cases h

/-- **State is handed over at most once.** In every interleaving in which each
    resume whose identities match still finds the session it looked up
    registered under the id:
    - no session is handed over twice;
    - the answers `session-resumed` are one for each handover, to the session
      that received the state, and there was state to receive;
    - nothing that was torn down is live on any session. -/
theorem handed_over_at_most_once [DecidableEq κ] {sessionId : ι → String}
    {actions : List (ResumeAction ι κ)}
    (hok : Along (step resolver) StillPaused (init sessionId) actions)
    (hrun : runActions (step resolver) (init sessionId) actions = some w) :
    (∀ p, (w.handovers.filter fun h => h.source = p).length ≤ 1) ∧
      w.resumedReplies = (w.handovers.map fun h => (h.target, .sessionResumed h.sessionId)) ∧
      (∀ h ∈ w.handovers, h.entries ≠ []) ∧
      ∀ x ∈ w.tornDown, ∀ i, x ∉ w.items i := by
  have hw : Ok w := runActions_invariant (I := Ok) (fun _ _ _ hs ha h => hs.step ha h) actions
    (ok_init sessionId) hok hrun
  refine ⟨fun p => ?_, hw.replies, fun h hh => (hw.handed h hh).1, hw.placed.apart⟩
  have hcount := List.nodup_iff_count_le_one.mp hw.sources p
  rw [List.count, List.countP_map, List.countP_eq_length_filter] at hcount
  refine le_of_eq_of_le (congrArg List.length (List.filter_congr fun h _ => ?_)) hcount
  simp [beq_eq_decide]

end

end ResumeWorld

/-- Session `0` with a subscription loses its socket, and `1` looks it up. -/
def pauseAndLookUp : List (ResumeAction ℕ ℕ) :=
  [.openEntry 0 (.subscription "s") 7, .close 0, .resume 1 (some "0"), .identify 1 (some (.str "u"))]

/-- The second socket resumes the session while the first awaits its identity. -/
def resumeTwice : List (ResumeAction ℕ ℕ) :=
  pauseAndLookUp ++ [.resume 2 (some "0"), .identify 2 (some (.str "u")),
    .resolve 2 (some (.str "u")), .resolve 1 (some (.str "u"))]

theorem pauseAndLookUp_ok :
    Along (ResumeWorld.step true) ResumeWorld.StillPaused
      (ResumeWorld.init fun i => toString i) (pauseAndLookUp ++ [.resolve 1 (some (.str "u"))]) := by
  refine ⟨trivial, trivial, trivial, trivial, ?_, trivial⟩
  rintro _ _ _ ⟨⟩ -
  rfl

theorem handed_over_at_most_once_alone :
    ∃ w : ResumeWorld ℕ ℕ, runActions (ResumeWorld.step true) (.init fun i => toString i)
        (pauseAndLookUp ++ [.resolve 1 (some (.str "u"))]) = some w ∧
      w.items 1 = [7] ∧
      ((∀ p, (w.handovers.filter fun h => h.source = p).length ≤ 1) ∧
        w.resumedReplies = (w.handovers.map fun h => (h.target, .sessionResumed h.sessionId)) ∧
        (∀ h ∈ w.handovers, h.entries ≠ []) ∧ ∀ x ∈ w.tornDown, ∀ i, x ∉ w.items i) :=
  ⟨_, rfl, rfl, @ResumeWorld.handed_over_at_most_once ℕ ℕ _ _ true _ (fun i => toString i)
    (pauseAndLookUp ++ [.resolve 1 (some (.str "u"))]) pauseAndLookUp_ok rfl⟩

/-- **Both sockets are told that they resumed.** The first to look the session up
    gets none of its state. -/
theorem resumed_without_state :
    ∃ w : ResumeWorld ℕ ℕ, runActions (ResumeWorld.step true) (.init fun i => toString i)
        resumeTwice = some w ∧
      w.resumedReplies = [(2, .sessionResumed "0"), (1, .sessionResumed "0")] ∧
      w.items 2 = [7] ∧ w.items 1 = [] ∧ (w.handovers.map fun h => h.entries.length) = [1, 0] :=
  ⟨_, rfl, rfl, rfl, rfl, rfl⟩

end Velocious
