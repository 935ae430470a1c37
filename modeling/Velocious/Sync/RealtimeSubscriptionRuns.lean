/-
  What every run of subscribes and unsubscribes leaves.

  `SubscriptionBridge.Ok` holds on any run: one attempt at a time, and what is open
  is what the bridge has or what that attempt waits for. `Steady` is what the steps
  of a run that `Respects` the later calls keep; `subscriptions_settle` reads it off
  when all promises have settled.
-/
import Velocious.Sync.RealtimeSubscriptions

namespace Velocious

open Foundation List

namespace SubscriptionBridge

variable {b b' : SubscriptionBridge} {attempt : SubscribeAttempt} {a : ℕ}

/-! ## One attempt at a time -/

/-- The attempt whose subscriptions are open and not yet the bridge's. -/
def waiting (b : SubscriptionBridge) : List ℕ :=
  (b.attempt.toList.filter fun attempt => attempt.stage = .waitForReady).map (·.id)

/-- The invariant of a bridge. -/
structure Ok (b : SubscriptionBridge) : Prop where
  attempt : ∀ attempt, b.attempt = some attempt →
    attempt.id < b.nextAttempt ∧ attempt.generation ≤ b.generation ∧
      b.outcome attempt.id = none
  outcome : ∀ a, b.nextAttempt ≤ a → b.outcome a = none
  subscribed : b.state = .subscribed ↔ b.channels.isSome = true
  unfinished : ∀ attempt, b.attempt = some attempt → attempt.stage ≠ .settled true →
    b.channels = none
  finished : ∀ attempt, b.attempt = some attempt → attempt.stage = .settled true →
    attempt.generation = b.generation → b.state = .subscribed
  stale : ∀ attempt, b.attempt = some attempt → attempt.stage = .teardown false →
    attempt.generation ≠ b.generation
  opened : b.opened = b.waiting ++ b.channels.toList

theorem initial_ok : Ok initial where
  attempt _ h := by cases h
  outcome _ _ := rfl
  subscribed := by simp [initial]
  unfinished _ h := by cases h
  finished _ h := by cases h
  stale _ h := by cases h
  opened := rfl

theorem subscribe_of_subscribed (h : b.state = .subscribed) : b.subscribe = (b, none) := if_pos h

theorem subscribe_join (h : b.state ≠ .subscribed) (hattempt : b.attempt = some attempt) :
    b.subscribe = (b, some attempt.id) := by
  simp only [subscribe, h, if_false, hattempt]

theorem subscribe_start (h : b.state ≠ .subscribed) (hattempt : b.attempt = none) :
    b.subscribe =
      ({ b with
        state := .subscribing
        attempt := some ⟨b.nextAttempt, b.generation, .channelDescriptors⟩
        nextAttempt := b.nextAttempt + 1 }, some b.nextAttempt) := by
  simp only [subscribe, h, if_false, hattempt]

theorem subscribe_cases (b : SubscriptionBridge) :
    (b.state = .subscribed ∧ b.subscribe = (b, none)) ∨
      (b.state ≠ .subscribed ∧ ∃ attempt, b.attempt = some attempt ∧
        b.subscribe = (b, some attempt.id)) ∨
      (b.state ≠ .subscribed ∧ b.attempt = none ∧ b.subscribe =
        ({ b with
          state := .subscribing
          attempt := some ⟨b.nextAttempt, b.generation, .channelDescriptors⟩
          nextAttempt := b.nextAttempt + 1 }, some b.nextAttempt)) := by
  by_cases h : b.state = .subscribed
  · exact .inl ⟨h, subscribe_of_subscribed h⟩
  · cases hattempt : b.attempt with
    | none => exact .inr (.inr ⟨h, rfl, subscribe_start h hattempt⟩)
    | some attempt => exact .inr (.inl ⟨h, attempt, rfl, subscribe_join h hattempt⟩)

theorem channels_none (hb : b.Ok) (h : b.state ≠ .subscribed) : b.channels = none := by
  cases hchannels : b.channels with
  | none => rfl
  | some a => exact absurd (hb.subscribed.mpr (by simp [hchannels])) h

theorem subscribe_ok (hb : b.Ok) : b.subscribe.1.Ok := by
  rcases subscribe_cases b with ⟨-, h⟩ | ⟨-, attempt, -, h⟩ | ⟨hstate, hattempt, h⟩
  · rw [h]
    exact hb
  · rw [h]
    exact hb
  · have hchannels := channels_none hb hstate
    rw [h]
    constructor
    · rintro _ ⟨⟩
      exact ⟨Nat.lt_succ_self _, Nat.le_refl _, hb.outcome _ (Nat.le_refl _)⟩
    · intro a ha
      exact hb.outcome a (Nat.le_of_succ_le ha)
    · simp [hchannels]
    · intro _ _ _
      exact hchannels
    · rintro _ ⟨⟩ ⟨⟩
    · rintro _ ⟨⟩ ⟨⟩
    · have hopened := hb.opened
      rw [waiting, hattempt] at hopened
      exact hopened

theorem unsubscribe_ok (hb : b.Ok) : b.unsubscribe.Ok := by
  constructor
  · intro attempt h
    obtain ⟨hid, hgeneration, houtcome⟩ := hb.attempt attempt h
    exact ⟨hid, Nat.le_succ_of_le hgeneration, houtcome⟩
  · exact hb.outcome
  · simp [unsubscribe]
  · intro _ _ _
    rfl
  · intro attempt h _ hcurrent
    have := (hb.attempt attempt h).2.1
    simp only [unsubscribe] at hcurrent
    omega
  · intro attempt h _
    have := (hb.attempt attempt h).2.1
    simp only [unsubscribe]
    omega
  · have hopened := hb.opened
    cases hchannels : b.channels with
    | none =>
      simp only [unsubscribe, hchannels, hopened, ne_eq, reduceCtorEq, not_false_eq_true,
        decide_true, filter_true, Option.toList_none, append_nil]
      rfl
    | some a =>
      have hwaiting : b.waiting = [] := by
        rw [waiting]
        cases hattempt : b.attempt with
        | none => rfl
        | some attempt =>
          have hstage : attempt.stage ≠ .waitForReady := by
            intro h
            have hnone := hb.unfinished attempt hattempt (by rw [h]; decide)
            rw [hchannels] at hnone
            cases hnone
          simp [hstage]
      rw [hwaiting] at hopened
      have hwaiting' : b.unsubscribe.waiting = [] := hwaiting
      simp [unsubscribe, hchannels, hopened]
      exact hwaiting'

/-- What `_subscribe` does when what it awaits is settled. -/
inductive Continues (b : SubscriptionBridge) (attempt : SubscribeAttempt) :
    SubscriptionBridge → Prop where
  | teardown (failed : Bool) : attempt.stage.goes = true →
      (failed = false → attempt.generation ≠ b.generation) →
      Continues b attempt (b.startTeardown attempt failed)
  | leave : attempt.stage = .channelDescriptors → attempt.generation ≠ b.generation →
      Continues b attempt (b.setStage attempt (.settled true))
  | advance (stage : SubscribeStage) : attempt.stage.goes = true →
      attempt.stage ≠ .waitForReady → attempt.generation = b.generation → stage.goes = true →
      stage ≠ .waitForReady → Continues b attempt (b.setStage attempt stage)
  | opens : attempt.stage = .authenticationToken → attempt.generation = b.generation →
      Continues b attempt
        { b.setStage attempt .waitForReady with opened := b.opened ++ [attempt.id] }
  | install : attempt.stage = .waitForReady → attempt.generation = b.generation →
      Continues b attempt
        { b.setStage attempt (.settled true) with
          channels := some attempt.id, state := .subscribed }
  | again : attempt.stage = .teardown false → Continues b attempt (b.setStage attempt (.teardown true))
  | reject : attempt.stage = .teardown true → Continues b attempt (b.setStage attempt (.settled false))
  | fail : attempt.stage = .teardown true → attempt.generation = b.generation →
      Continues b attempt { b.setStage attempt (.settled false) with state := .unsubscribed }
  | left : attempt.stage = .teardown false → Continues b attempt (b.setStage attempt (.settled true))

theorem continueSubscribe_cases {shared resolved : Bool}
    (h : b.continueSubscribe shared attempt resolved = some b') : b.Continues attempt b' := by
  obtain ⟨id, generation, stage⟩ := attempt
  cases stage with
  | channelDescriptors =>
    simp only [continueSubscribe] at h
    split at h
    · cases h
      exact .teardown true rfl (by simp)
    split at h
    · rename_i hstale
      cases h
      exact .leave rfl (by simpa using hstale)
    · rename_i hstale
      cases h
      refine .advance _ rfl (by simp) (by simpa using hstale) ?_ ?_ <;> cases shared <;> decide
  | createClient =>
    simp only [continueSubscribe, Option.some.injEq] at h
    split at h
    · subst h
      exact .teardown true rfl (by simp)
    split at h
    · rename_i hstale
      subst h
      exact .teardown false rfl fun _ => by simpa using hstale
    · rename_i hstale
      subst h
      exact .advance _ rfl (by simp) (by simpa using hstale) rfl (by decide)
  | connect =>
    simp only [continueSubscribe, Option.some.injEq] at h
    split at h
    · subst h
      exact .teardown true rfl (by simp)
    split at h
    · rename_i hstale
      subst h
      exact .teardown false rfl fun _ => by simpa using hstale
    · rename_i hstale
      subst h
      exact .advance _ rfl (by simp) (by simpa using hstale) rfl (by decide)
  | authenticationToken =>
    simp only [continueSubscribe] at h
    split at h
    · rename_i hopens
      cases h
      refine .opens rfl ?_
      simp at hopens
      exact hopens.2
    · rename_i hopens
      simp only [Option.some.injEq] at h
      split at h
      · subst h
        exact .teardown true rfl (by simp)
      · rename_i hresolved
        have hstale : generation ≠ b.generation := by
          intro hcurrent
          simp [hcurrent] at hopens hresolved
          rw [hopens] at hresolved
          cases hresolved
        rw [if_pos (by simpa using hstale)] at h
        subst h
        exact .teardown false rfl fun _ => hstale
  | waitForReady =>
    simp only [continueSubscribe] at h
    split at h
    · rename_i hready
      cases h
      refine .install rfl ?_
      simp at hready
      exact hready.2
    · rename_i hready
      simp only [Option.some.injEq] at h
      split at h
      · subst h
        exact .teardown true rfl (by simp)
      · rename_i hresolved
        have hstale : generation ≠ b.generation := by
          intro hcurrent
          simp [hcurrent] at hready hresolved
          rw [hready] at hresolved
          cases hresolved
        rw [if_pos (by simpa using hstale)] at h
        subst h
        exact .teardown false rfl fun _ => hstale
  | teardown failed =>
    simp only [continueSubscribe] at h
    split at h
    · split at h
      · cases h
      · cases h
        cases failed with
        | false => exact .again rfl
        | true => exact .reject rfl
    split at h
    · rename_i hfailed
      subst hfailed
      cases h
      by_cases hcurrent : generation = b.generation
      · rw [if_neg (not_not_intro hcurrent)]
        exact .fail rfl hcurrent
      · rw [if_pos hcurrent]
        exact .reject rfl
    · rename_i hfailed
      rw [Bool.not_eq_true] at hfailed
      subst hfailed
      cases h
      exact .left rfl
  | settled ok => cases h

theorem Continues.attempt_eq (h : b.Continues attempt b') :
    ∃ stage, b'.attempt = some { attempt with stage } ∧ b'.generation = b.generation ∧
      b'.nextAttempt = b.nextAttempt ∧ b'.outcome = b.outcome := by
  cases h <;> exact ⟨_, rfl, rfl, rfl, rfl⟩

theorem waiting_some (hattempt : b.attempt = some attempt) :
    b.waiting = if attempt.stage = .waitForReady then [attempt.id] else [] := by
  rw [waiting, hattempt, Option.toList_some, filter_cons]
  simp only [decide_eq_true_eq]
  split <;> rfl

section
variable (hb : b.Ok) (hattempt : b.attempt = some attempt) (h : b.Continues attempt b')
include hb hattempt h

theorem Continues.ok_of (hsubscribed : b'.state = .subscribed ↔ b'.channels.isSome = true)
    (hunfinished : ∀ attempt, b'.attempt = some attempt → attempt.stage ≠ .settled true →
      b'.channels = none)
    (hfinished : ∀ attempt, b'.attempt = some attempt → attempt.stage = .settled true →
      attempt.generation = b.generation → b'.state = .subscribed)
    (hstale : ∀ attempt, b'.attempt = some attempt → attempt.stage = .teardown false →
      attempt.generation ≠ b.generation)
    (hopened : b'.opened = b'.waiting ++ b'.channels.toList) : b'.Ok := by
  obtain ⟨stage, hnew, hgeneration, hnext, houtcome⟩ := h.attempt_eq
  refine ⟨?_, ?_, hsubscribed, hunfinished, ?_, ?_, hopened⟩
  · intro attempt' h'
    cases hnew.symm.trans h'
    rw [hgeneration, hnext, houtcome]
    exact hb.attempt attempt hattempt
  · rw [hnext, houtcome]
    exact hb.outcome
  · rw [hgeneration]
    exact hfinished
  · rw [hgeneration]
    exact hstale

theorem Continues.ok :
    b'.Ok := by
  have hchannels : attempt.stage ≠ .settled true → b.channels = none :=
    hb.unfinished attempt hattempt
  have hopened : attempt.stage ≠ .settled true →
      b.opened = if attempt.stage = .waitForReady then [attempt.id] else [] := by
    intro hstage
    rw [hb.opened, waiting_some hattempt, hchannels hstage, Option.toList_none, append_nil]
  have hof := h.ok_of hb hattempt
  cases h with
  | teardown failed hgoes hstale =>
    have hstage : attempt.stage ≠ .settled true := by
      intro h
      rw [h] at hgoes
      cases hgoes
    refine hof hb.subscribed (fun _ _ _ => hchannels hstage) ?_ ?_ ?_
    · rintro _ ⟨⟩ ⟨⟩
    · rintro _ ⟨⟩ hfailed
      exact hstale (by simpa using hfailed)
    · rw [waiting_some rfl]
      simp only [startTeardown, setStage, hopened hstage, hchannels hstage]
      split <;> simp
  | leave hstage hstale =>
    have hnot : attempt.stage ≠ .settled true := by simp [hstage]
    refine hof hb.subscribed (fun _ _ _ => hchannels hnot) ?_ ?_ ?_
    · rintro _ ⟨⟩ _ hcurrent
      exact absurd hcurrent hstale
    · rintro _ ⟨⟩ ⟨⟩
    · rw [waiting_some rfl]
      simp [setStage, hopened hnot, hchannels hnot, hstage]
  | advance stage hgoes hwait hcurrent hgoes' hwait' =>
    have hnot : attempt.stage ≠ .settled true := by
      intro h
      rw [h] at hgoes
      cases hgoes
    refine hof hb.subscribed (fun _ _ _ => hchannels hnot) ?_ ?_ ?_
    · rintro _ ⟨⟩ hdone
      rw [show stage = .settled true from hdone] at hgoes'
      cases hgoes'
    · rintro _ ⟨⟩ hdown
      rw [show stage = .teardown false from hdown] at hgoes'
      cases hgoes'
    · rw [waiting_some rfl]
      simp [setStage, hopened hnot, hchannels hnot, hwait, hwait']
  | opens hstage hcurrent =>
    have hnot : attempt.stage ≠ .settled true := by simp [hstage]
    refine hof hb.subscribed (fun _ _ _ => hchannels hnot) ?_ ?_ ?_
    · rintro _ ⟨⟩ ⟨⟩
    · rintro _ ⟨⟩ ⟨⟩
    · rw [waiting_some rfl]
      simp [setStage, hopened hnot, hchannels hnot, hstage]
  | install hstage hcurrent =>
    have hnot : attempt.stage ≠ .settled true := by simp [hstage]
    refine hof (by simp) ?_ (fun _ _ _ _ => rfl) ?_ ?_
    · rintro _ ⟨⟩ hdone
      exact absurd rfl hdone
    · rintro _ ⟨⟩ ⟨⟩
    · rw [waiting_some rfl]
      simp [setStage, hopened hnot, hstage]
  | again hstage =>
    have hnot : attempt.stage ≠ .settled true := by simp [hstage]
    refine hof hb.subscribed (fun _ _ _ => hchannels hnot) ?_ ?_ ?_
    · rintro _ ⟨⟩ ⟨⟩
    · rintro _ ⟨⟩ ⟨⟩
    · rw [waiting_some rfl]
      simp [setStage, hopened hnot, hchannels hnot, hstage]
  | reject hstage =>
    have hnot : attempt.stage ≠ .settled true := by simp [hstage]
    refine hof hb.subscribed (fun _ _ _ => hchannels hnot) ?_ ?_ ?_
    · rintro _ ⟨⟩ ⟨⟩
    · rintro _ ⟨⟩ ⟨⟩
    · rw [waiting_some rfl]
      simp [setStage, hopened hnot, hchannels hnot, hstage]
  | fail hstage hcurrent =>
    have hnot : attempt.stage ≠ .settled true := by simp [hstage]
    refine hof (by simp [setStage, hchannels hnot]) (fun _ _ _ => hchannels hnot) ?_ ?_ ?_
    · rintro _ ⟨⟩ ⟨⟩
    · rintro _ ⟨⟩ ⟨⟩
    · rw [waiting_some rfl]
      simp [setStage, hopened hnot, hchannels hnot, hstage]
  | left hstage =>
    have hnot : attempt.stage ≠ .settled true := by simp [hstage]
    refine hof hb.subscribed (fun _ _ _ => hchannels hnot) ?_ ?_ ?_
    · rintro _ ⟨⟩ _ hcurrent
      exact absurd hcurrent (hb.stale attempt hattempt hstage)
    · rintro _ ⟨⟩ ⟨⟩
    · rw [waiting_some rfl]
      simp [setStage, hopened hnot, hchannels hnot, hstage]

end

theorem clearSubscribe_eq (h : b.clearSubscribe = some b') :
    ∃ attempt resolved, b.attempt = some attempt ∧ attempt.stage = .settled resolved ∧
      b' = { b with
        attempt := none
        outcome := fun a => if a = attempt.id then some resolved else b.outcome a } := by
  unfold clearSubscribe at h
  split at h
  · rename_i id generation resolved hattempt
    cases h
    exact ⟨_, resolved, hattempt, rfl, rfl⟩
  · cases h

theorem clearSubscribe_ok (hb : b.Ok) (h : b.clearSubscribe = some b') : b'.Ok := by
  obtain ⟨attempt, resolved, hattempt, hstage, rfl⟩ := clearSubscribe_eq h
  have hopened := hb.opened
  rw [waiting_some hattempt, hstage] at hopened
  refine ⟨?_, ?_, hb.subscribed, ?_, ?_, ?_, hopened⟩
  · rintro _ ⟨⟩
  · intro a ha
    have hid := (hb.attempt attempt hattempt).1
    dsimp only at ha ⊢
    rw [if_neg (by omega)]
    exact hb.outcome a ha
  · rintro _ ⟨⟩
  · rintro _ ⟨⟩
  · rintro _ ⟨⟩

/-! ## What is kept -/

/-- Nothing that was subscribed, or was to be, is lost. -/
def Keeps (b b' : SubscriptionBridge) : Prop :=
  (b.state = .subscribed → b'.state = .subscribed) ∧ ∀ a, b.Sound a → b'.Sound a

theorem Keeps.refl (b : SubscriptionBridge) : Keeps b b := ⟨id, fun _ => id⟩

theorem subscribe_keeps : Keeps b b.subscribe.1 := by
  rcases subscribe_cases b with ⟨-, h⟩ | ⟨-, attempt, -, h⟩ | ⟨hstate, hattempt, h⟩
  · rw [h]
    exact ⟨id, fun _ => id⟩
  · rw [h]
    exact ⟨id, fun _ => id⟩
  · rw [h]
    refine ⟨fun h => absurd h hstate, fun a ha => ⟨?_, ?_⟩⟩
    · rintro _ ⟨⟩ _
      exact .inl rfl
    · intro houtcome
      exact absurd (ha.2 houtcome) hstate

theorem subscribe_awaited (b : SubscriptionBridge) (attempt : SubscribeAttempt)
    (h : b.subscribe.1.attempt = some attempt) :
    b.attempt = some attempt ∨ b.subscribe.2 = some attempt.id := by
  rcases subscribe_cases b with ⟨-, hb⟩ | ⟨-, joined, -, hb⟩ | ⟨-, -, hb⟩
  · rw [hb] at h
    exact .inl h
  · rw [hb] at h
    exact .inl h
  · rw [hb] at h ⊢
    cases h
    exact .inr rfl

theorem subscribe_sound (hb : b.Ok) (hstale : b.NoStale) :
    b.subscribe.1.SoundRun (.subscribeRealtime b.subscribe.2) := by
  rcases subscribe_cases b with ⟨hstate, h⟩ | ⟨hstate, attempt, hattempt, h⟩ | ⟨-, -, h⟩
  · rw [h]
    exact hstate
  · rw [h]
    refine ⟨fun attempt' h' _ => .inl (hstale attempt' h' hstate), fun houtcome => ?_⟩
    rw [(hb.attempt attempt hattempt).2.2] at houtcome
    cases houtcome
  · rw [h]
    refine ⟨?_, fun houtcome => ?_⟩
    · rintro _ ⟨⟩ _
      exact .inl rfl
    · rw [show _ = none from hb.outcome _ (Nat.le_refl _)] at houtcome
      cases houtcome

theorem Continues.keeps (hb : b.Ok) (hattempt : b.attempt = some attempt)
    (h : b.Continues attempt b') : Keeps b b' := by
  have hstate : b.state = .subscribed → b'.state = .subscribed := by
    intro hstate
    cases h with
    | fail hstage =>
      have hchannels := hb.unfinished attempt hattempt (by simp [hstage])
      have hsome := hb.subscribed.mp hstate
      rw [hchannels] at hsome
      cases hsome
    | install => rfl
    | _ => exact hstate
  obtain ⟨-, -, hgeneration, -, houtcome⟩ := h.attempt_eq
  refine ⟨hstate, fun a ha => ⟨?_, fun h => hstate (ha.2 (by rwa [houtcome] at h))⟩⟩
  intro attempt' hnew hid
  rw [hgeneration]
  have hsame : attempt'.id = attempt.id ∧ attempt'.generation = attempt.generation := by
    obtain ⟨stage, hstage, -⟩ := h.attempt_eq
    cases hstage.symm.trans hnew
    exact ⟨rfl, rfl⟩
  rw [hsame.2]
  rcases ha.1 attempt hattempt (hsame.1.symm.trans hid) with hcurrent | hfails
  · exact .inl hcurrent
  · right
    cases h with
    | teardown failed hgoes =>
      cases hstage : attempt.stage <;> simp [hstage, SubscribeStage.goes, SubscribeStage.fails] at hgoes hfails
    | advance stage hgoes =>
      cases hstage : attempt.stage <;> simp [hstage, SubscribeStage.goes, SubscribeStage.fails] at hgoes hfails
    | leave hstage => rw [hstage] at hfails; cases hfails
    | opens hstage => rw [hstage] at hfails; cases hfails
    | install hstage => rw [hstage] at hfails; cases hfails
    | again hstage => rw [hstage] at hfails; cases hfails
    | left hstage => rw [hstage] at hfails; cases hfails
    | reject => cases hnew; rfl
    | fail => cases hnew; rfl

theorem clearSubscribe_keeps (hb : b.Ok) (h : b.clearSubscribe = some b') : Keeps b b' := by
  obtain ⟨attempt, resolved, hattempt, hstage, rfl⟩ := clearSubscribe_eq h
  refine ⟨id, fun a ha => ⟨?_, ?_⟩⟩
  · rintro _ ⟨⟩
  · intro houtcome
    dsimp only at houtcome
    split at houtcome
    · rename_i hid
      cases houtcome
      rcases ha.1 attempt hattempt hid.symm with hcurrent | hfails
      · exact hb.finished attempt hattempt hstage hcurrent
      · rw [hstage] at hfails
        cases hfails
    · exact ha.2 houtcome

theorem unsubscribe_sound (h : ¬ b.Counts a) : b.unsubscribe.Sound a := by
  constructor
  · intro attempt hattempt hid
    right
    by_contra hfails
    exact h (.inl ⟨attempt, hattempt, hid, by simpa using hfails⟩)
  · intro houtcome
    exact absurd (.inr houtcome) h

/-! ## What becomes live -/

theorem Continues.live (hattempt : b.attempt = some attempt) (h : b.Continues attempt b')
    (hlive : b'.Live) : b.Live := by
  have hgoing : attempt.generation = b.generation → attempt.stage.goes = true → b.Live :=
    fun hcurrent hgoes => .inr ⟨attempt, hattempt, hcurrent, hgoes⟩
  cases h with
  | advance stage hgoes _ hcurrent => exact hgoing hcurrent hgoes
  | opens hstage hcurrent => exact hgoing hcurrent (by rw [hstage]; rfl)
  | install hstage hcurrent => exact hgoing hcurrent (by rw [hstage]; rfl)
  | _ =>
    rcases hlive with hstate | ⟨_, ⟨⟩, -, ⟨⟩⟩
    first
    | exact .inl hstate
    | cases hstate

theorem clearSubscribe_live (h : b.clearSubscribe = some b') (hlive : b'.Live) : b.Live := by
  obtain ⟨attempt, resolved, hattempt, hstage, rfl⟩ := clearSubscribe_eq h
  rcases hlive with hstate | ⟨_, ⟨⟩, -⟩
  exact .inl hstate

theorem unsubscribe_not_live (hb : b.Ok) : ¬ b.unsubscribe.Live := by
  rintro (hstate | ⟨attempt, hattempt, hcurrent, -⟩)
  · cases hstate
  · have := (hb.attempt attempt hattempt).2.1
    simp only [unsubscribe] at hcurrent
    omega

end SubscriptionBridge

namespace SubscriptionBridge

theorem Keeps.soundRun {b b' : SubscriptionBridge} (h : Keeps b b') {stage : UserScopeStage}
    (hstage : b.SoundRun stage) : b'.SoundRun stage := by
  unfold SoundRun at hstage ⊢
  split <;> first | trivial | exact h.1 hstage | exact h.2 _ hstage

theorem unsubscribe_soundRun {b : SubscriptionBridge} {stage : UserScopeStage}
    (h : ¬ b.CountsRun stage) : b.unsubscribe.SoundRun stage := by
  unfold SoundRun
  split <;> first | trivial | exact unsubscribe_sound h | exact absurd trivial h

/-- If a call that awaits this resolves, the bridge is subscribed. -/
def SoundCall (b : SubscriptionBridge) (runs : List UserScopeStage) :
    SubscriptionCallStage → Prop
  | .attempt attempt => b.Sound attempt
  | .userScopeRun run => ∀ stage, runs[run]? = some stage → b.SoundRun stage
  | .settled resolved => resolved = true → b.state = .subscribed
  | .userScope | .deactivate | .disconnect => True

theorem Keeps.soundCall {b b' : SubscriptionBridge} (h : Keeps b b')
    {runs : List UserScopeStage} {stage : SubscriptionCallStage}
    (hstage : b.SoundCall runs stage) : b'.SoundCall runs stage := by
  cases stage with
  | attempt attempt => exact h.2 _ hstage
  | userScopeRun run => exact fun stage hrun => h.soundRun (hstage stage hrun)
  | settled resolved => exact fun hresolved => h.1 (hstage hresolved)
  | userScope | deactivate | disconnect => trivial

end SubscriptionBridge

/-- Only an unsubscribe awaits what an unsubscribe awaits. -/
def SubscriptionCall.Fits (c : SubscriptionCall) : Prop :=
  match c.stage with
  | .userScope | .deactivate | .disconnect => c.kind.subscribes = false
  | .attempt _ | .userScopeRun _ => c.kind.subscribes = true
  | .settled _ => True

namespace SubscriptionWorld

open SubscriptionBridge

/-- The invariant of the runs. -/
structure Steady (w : SubscriptionWorld) : Prop where
  ok : w.bridge.Ok
  sound : ∀ i c, w.calls[i]? = some c → c.kind.subscribes = true → w.Fresh i →
    w.bridge.SoundCall w.runs c.stage
  spent : w.Spent → ¬ w.bridge.Live
  fits : ∀ c ∈ w.calls, c.Fits
  awaited : ∀ attempt, w.bridge.attempt = some attempt →
    (∃ c ∈ w.calls, c.stage = .attempt attempt.id) ∨
      .subscribeRealtime (some attempt.id) ∈ w.runs
  running : ∀ (run : ℕ) (stage : UserScopeStage), w.runs[run]? = some stage →
    (∀ resolved, stage ≠ .done resolved) → ∃ c ∈ w.calls, c.stage = .userScopeRun run
  started : ∀ c ∈ w.calls, ∀ run, c.stage = .userScopeRun run → run < w.runs.length
  promised : ∀ run, w.subscribeUserScopePromise = some run → run < w.runs.length

theorem initial_steady (shared : Bool) : (initial shared).Steady where
  ok := initial_ok
  sound i c h := by simp [initial] at h
  spent _ := by
    rintro (h | ⟨attempt, h, -⟩)
    · cases h
    · cases h
  fits c h := absurd h not_mem_nil
  awaited _ h := by cases h
  running run stage h := by simp [initial] at h
  started c h := absurd h not_mem_nil
  promised run h := by cases h

variable {w w' : SubscriptionWorld} {b' : SubscriptionBridge}

/-! ### Calls -/

section
variable {kind : SubscriptionCallKind} {stage : SubscriptionCallStage}
  (hcalls : w'.calls = w.calls ++ [⟨kind, stage⟩]) {i : ℕ}
include hcalls

theorem fresh_add (hi : i < w.calls.length)
    (h : w'.Fresh i) : w.Fresh i ∧ kind.subscribes = true := by
  constructor
  · intro j c hij hc
    exact h j c hij (by rw [hcalls, List.getElem?_append_left (List.getElem?_eq_some_iff.mp hc).1, hc])
  · exact h w.calls.length ⟨kind, stage⟩ hi (by rw [hcalls, getElem?_concat_length])

theorem getElem?_add {c : SubscriptionCall}
    (h : w'.calls[i]? = some c) :
    (i < w.calls.length ∧ w.calls[i]? = some c) ∨ c = ⟨kind, stage⟩ := by
  rw [hcalls, getElem?_append] at h
  split at h
  · exact .inl ⟨‹_›, h⟩
  · rw [getElem?_singleton] at h
    split at h
    · exact .inr (Option.some.inj h).symm
    · cases h

end

section
variable (h : w.Steady)
include h

theorem Steady.add {kind : SubscriptionCallKind} {stage : SubscriptionCallStage}
    (hcalls : w'.calls = w.calls ++ [⟨kind, stage⟩]) (hkind : kind.subscribes = true)
    (hok : w'.bridge.Ok) (hkeeps : Keeps w.bridge w'.bridge)
    (hruns : ∀ run, run < w.runs.length → w'.runs[run]? = w.runs[run]?)
    (hlength : w.runs.length ≤ w'.runs.length)
    (hnew : ∀ run, w.runs.length ≤ run → run < w'.runs.length → stage = .userScopeRun run)
    (hpromised : ∀ run, w'.subscribeUserScopePromise = some run → run < w'.runs.length)
    (hfits : SubscriptionCall.Fits ⟨kind, stage⟩)
    (hsound : w'.bridge.SoundCall w'.runs stage)
    (hspent : stage = .settled false → ¬ w'.bridge.Live)
    (hawaited : ∀ attempt, w'.bridge.attempt = some attempt →
      w.bridge.attempt = some attempt ∨ stage = .attempt attempt.id)
    (hstarted : ∀ run, stage = .userScopeRun run → run < w'.runs.length) : w'.Steady := by
  have hmem : ∀ c, c ∈ w'.calls ↔ c ∈ w.calls ∨ c = ⟨kind, stage⟩ := by
    intro c
    rw [hcalls, mem_append, mem_singleton]
  refine ⟨hok, ?_, ?_, ?_, ?_, ?_, ?_, hpromised⟩
  · intro i c hc hsub hfresh
    rcases getElem?_add hcalls hc with ⟨hi, hc⟩ | rfl
    · have hold := hkeeps.soundCall (h.sound i c hc hsub (fresh_add hcalls hi hfresh).1)
      cases hstage : c.stage with
      | userScopeRun run =>
        rw [hstage] at hold
        intro stage' hrun
        have hlt := h.started c (mem_of_getElem? hc) run hstage
        exact hold stage' (by rw [← hruns run hlt, hrun])
      | _ =>
        rw [hstage] at hold
        exact hold
    · exact hsound
  · intro hspent'
    have hlast := hspent' ⟨kind, stage⟩ (by rw [hcalls, getLast?_concat])
    rcases hlast with hlast | ⟨hlast, -⟩
    · exact hspent hlast
    · rw [show kind.subscribes = false from hlast] at hkind
      cases hkind
  · intro c hc
    rcases (hmem c).mp hc with hc | rfl
    · exact h.fits c hc
    · exact hfits
  · intro attempt hattempt
    rcases hawaited attempt hattempt with hold | hnew
    · rcases h.awaited attempt hold with ⟨c, hc, hcs⟩ | hrun
      · exact .inl ⟨c, (hmem c).mpr (.inl hc), hcs⟩
      · obtain ⟨run, hrun⟩ := List.mem_iff_getElem?.mp hrun
        have hlt := (List.getElem?_eq_some_iff.mp hrun).1
        exact .inr (mem_of_getElem? ((hruns run hlt).trans hrun))
    · exact .inl ⟨_, (hmem _).mpr (.inr rfl), hnew⟩
  · intro run stage' hrun hdone
    rcases Nat.lt_or_ge run w.runs.length with hlt | hge
    · rw [hruns run hlt] at hrun
      obtain ⟨c, hc, hcs⟩ := h.running run stage' hrun hdone
      exact ⟨c, (hmem c).mpr (.inl hc), hcs⟩
    · exact ⟨_, (hmem _).mpr (.inr rfl), hnew run hge (List.getElem?_eq_some_iff.mp hrun).1⟩
  · intro c hc run hcs
    rcases (hmem c).mp hc with hc | rfl
    · exact Nat.lt_of_lt_of_le (h.started c hc run hcs) hlength
    · exact hstarted run hcs

theorem Steady.addCall {kind : SubscriptionCallKind}
    {stage : SubscriptionCallStage} (hkind : kind.subscribes = true) (hok : b'.Ok)
    (hkeeps : Keeps w.bridge b') (hfits : SubscriptionCall.Fits ⟨kind, stage⟩)
    (hsound : b'.SoundCall w.runs stage) (hspent : stage = .settled false → ¬ b'.Live)
    (hawaited : ∀ attempt, b'.attempt = some attempt →
      w.bridge.attempt = some attempt ∨ stage = .attempt attempt.id)
    (hstarted : ∀ run, stage = .userScopeRun run → run < w.runs.length) :
    ({ w with bridge := b' }.addCall kind stage).Steady :=
  h.add rfl hkind hok hkeeps (fun _ _ => rfl) (Nat.le_refl _)
    (fun _ hge hlt => absurd hlt (Nat.not_lt.mpr hge)) h.promised hfits hsound hspent hawaited
    hstarted

theorem Steady.subscribe {tenantReady : Bool}
    (hr : w.Respects (.subscribe tenantReady)) : (w.subscribe tenantReady).Steady := by
  cases tenantReady with
  | false =>
    exact h.addCall rfl h.ok (Keeps.refl _) trivial
      (fun hresolved => absurd hresolved Bool.false_ne_true) (fun _ => hr)
      (fun _ => .inl) (fun run hrun => by cases hrun)
  | true =>
    have hok := subscribe_ok h.ok
    have hkeeps := subscribe_keeps (b := w.bridge)
    have hsound := subscribe_sound h.ok hr
    have hattempt := subscribe_awaited w.bridge
    unfold SubscriptionWorld.subscribe
    generalize w.bridge.subscribe = next at hok hkeeps hsound hattempt ⊢
    obtain ⟨b', attempt⟩ := next
    cases attempt with
    | none =>
      refine h.addCall rfl hok hkeeps trivial (fun _ => hsound)
        (fun hrejected => by cases hrejected) ?_ (fun run hrun => by cases hrun)
      intro attempt h'
      rcases hattempt attempt h' with hold | ⟨⟨⟩⟩
      exact .inl hold
    | some a =>
      refine h.addCall rfl hok hkeeps rfl hsound
        (fun hrejected => by cases hrejected) ?_ (fun run hrun => by cases hrun)
      intro attempt h'
      rcases hattempt attempt h' with hold | hnew
      · exact .inl hold
      · right
        rw [Option.some.inj hnew]

theorem Steady.subscribeUserScope (hr : w.Respects .subscribeUserScope) :
    w.subscribeUserScope.Steady := by
  unfold SubscriptionWorld.subscribeUserScope
  unfold Respects at hr
  split
  · rename_i hflag
    rw [if_pos hflag] at hr
    exact h.addCall rfl h.ok (Keeps.refl _) trivial (fun _ => hr)
      (fun hrejected => by cases hrejected) (fun _ => .inl) (fun run hrun => by cases hrun)
  · rename_i hflag
    rw [if_neg hflag] at hr
    split
    · rename_i run hpromise
      exact h.addCall rfl h.ok (Keeps.refl _) rfl
        (fun stage hrun => hr run stage hpromise hrun) (fun hrejected => by cases hrejected)
        (fun _ => .inl) (fun run' hrun => by cases hrun; exact h.promised run hpromise)
    · have hlength : (w.runs ++ [UserScopeStage.userScope]).length = w.runs.length + 1 := by simp
      refine h.add rfl rfl h.ok (Keeps.refl _) (fun run hlt => ?_) ?_ ?_ ?_ rfl ?_
        (fun hrejected => by cases hrejected) (fun _ => .inl) ?_
      · exact getElem?_append_left hlt
      · exact hlength ▸ Nat.le_succ _
      · intro run hge hlt
        have : run < w.runs.length + 1 := hlength ▸ hlt
        rw [show run = w.runs.length by omega]
      · rintro _ ⟨⟩
        exact hlength ▸ Nat.lt_succ_self _
      · intro stage hrun
        have hlast : (w.runs ++ [UserScopeStage.userScope])[w.runs.length]? = some stage := hrun
        rw [getElem?_concat_length] at hlast
        cases hlast
        trivial
      · rintro _ ⟨⟩
        exact hlength ▸ Nat.lt_succ_self _

theorem Steady.addUnsubscribe {kind : SubscriptionCallKind}
    {stage : SubscriptionCallStage} (hkind : kind.subscribes = false)
    (hfits : SubscriptionCall.Fits ⟨kind, stage⟩)
    (hstage : ∀ run, stage ≠ .userScopeRun run) (hok : b'.Ok)
    (hattempt : b'.attempt = w.bridge.attempt)
    (hspent : SubscriptionCall.Spent ⟨kind, stage⟩ → ¬ b'.Live) :
    ({ w with bridge := b' }.addCall kind stage).Steady := by
  have hmem : ∀ c ∈ w.calls, c ∈ w.calls ++ [⟨kind, stage⟩] := fun _ => mem_append_left _
  refine ⟨hok, ?_, ?_, ?_, ?_, ?_, ?_, h.promised⟩
  · intro i c hc hsub hfresh
    rcases getElem?_add (w := w) rfl hc with ⟨hi, -⟩ | rfl
    · have hfalse := (fresh_add (w := w) rfl hi hfresh).2
      rw [hkind] at hfalse
      cases hfalse
    · rw [show kind.subscribes = true from hsub] at hkind
      cases hkind
  · intro hspent'
    exact hspent (hspent' _ getLast?_concat)
  · intro c hc
    rcases mem_append.mp hc with hc | hc
    · exact h.fits c hc
    · obtain rfl := mem_singleton.mp hc
      exact hfits
  · intro attempt h'
    rcases h.awaited attempt (hattempt ▸ h') with ⟨c, hc, hcs⟩ | hrun
    · exact .inl ⟨c, hmem c hc, hcs⟩
    · exact .inr hrun
  · intro run stage' hrun hdone
    obtain ⟨c, hc, hcs⟩ := h.running run stage' hrun hdone
    exact ⟨c, hmem c hc, hcs⟩
  · intro c hc run hcs
    rcases mem_append.mp hc with hc | hc
    · exact h.started c hc run hcs
    · obtain rfl := List.mem_singleton.mp hc
      exact absurd hcs (hstage run)

theorem Steady.unsubscribe :
    ({ w with bridge := w.bridge.unsubscribe }.addCall .unsubscribe .disconnect).Steady :=
  h.addUnsubscribe rfl rfl (fun _ => by simp) (unsubscribe_ok h.ok) rfl
    fun _ => unsubscribe_not_live h.ok

theorem Steady.unsubscribeUserScope :
    (w.addCall .unsubscribeUserScope .userScope).Steady := by
  refine h.addUnsubscribe rfl rfl (fun _ => by simp) h.ok rfl ?_
  rintro (hspent | ⟨-, hspent | hspent⟩) <;> cases hspent

theorem Steady.bridge (hok : b'.Ok) (hkeeps : Keeps w.bridge b')
    (hlive : b'.Live → w.bridge.Live)
    (hattempt : ∀ attempt, b'.attempt = some attempt →
      ∃ old, w.bridge.attempt = some old ∧ old.id = attempt.id) :
    { w with bridge := b' }.Steady := by
  refine ⟨hok, fun i c hc hsub hfresh => hkeeps.soundCall (h.sound i c hc hsub hfresh),
    fun hspent hl => h.spent hspent (hlive hl), h.fits, ?_, h.running, h.started, h.promised⟩
  intro attempt hnew
  obtain ⟨old, hold, hid⟩ := hattempt attempt hnew
  rw [← hid]
  exact h.awaited old hold

theorem Steady.continueSubscribe {attempt : SubscribeAttempt}
    (hattempt : w.bridge.attempt = some attempt) {resolved : Bool}
    (hstep : w.bridge.continueSubscribe w.shared attempt resolved = some b') :
    { w with bridge := b' }.Steady := by
  have hcases := continueSubscribe_cases hstep
  refine h.bridge (hcases.ok h.ok hattempt) (hcases.keeps h.ok hattempt) (hcases.live hattempt) ?_
  intro attempt' hnew
  obtain ⟨stage, hstage, -⟩ := hcases.attempt_eq
  cases hstage.symm.trans hnew
  exact ⟨attempt, hattempt, rfl⟩

theorem Steady.clearSubscribe (hstep : w.bridge.clearSubscribe = some b') :
    { w with bridge := b' }.Steady := by
  refine h.bridge (clearSubscribe_ok h.ok hstep) (clearSubscribe_keeps h.ok hstep)
    (clearSubscribe_live hstep) ?_
  obtain ⟨attempt, resolved, -, -, rfl⟩ := clearSubscribe_eq hstep
  rintro _ ⟨⟩

end

variable {run : ℕ} {stage stage' : UserScopeStage}

theorem Steady.setRun (h : w.Steady) (hrun : w.runs[run]? = some stage) (hok : b'.Ok)
    (hkeeps : Keeps w.bridge b') (hlive : b'.Live → w.Spent → w.bridge.Live)
    (hundone : ∀ resolved, stage ≠ .done resolved)
    (hsound : (∃ i c, w.calls[i]? = some c ∧ c.kind.subscribes = true ∧ w.Fresh i ∧
      c.stage = .userScopeRun run) → w.bridge.SoundRun stage → b'.SoundRun stage')
    (hattempt : ∀ attempt, b'.attempt = some attempt →
      (w.bridge.attempt = some attempt ∧ stage ≠ .subscribeRealtime (some attempt.id)) ∨
        stage' = .subscribeRealtime (some attempt.id)) :
    ({ w with bridge := b' }.setRun run stage').Steady := by
  have hlt := (List.getElem?_eq_some_iff.mp hrun).1
  have hset : ∀ i, (w.runs.set run stage')[i]? = if i = run then some stage' else w.runs[i]? := by
    intro i
    rw [getElem?_set]
    split
    · rename_i heq
      subst heq
      simp
    · rename_i hne
      rw [if_neg (Ne.symm hne)]
  have hlength : (w.runs.set run stage').length = w.runs.length := length_set
  refine ⟨hok, ?_, fun hspent hl => h.spent hspent (hlive hl hspent), h.fits, ?_, ?_, ?_, ?_⟩
  · intro i c hc hsub hfresh
    have hold := h.sound i c hc hsub hfresh
    cases hcs : c.stage with
    | userScopeRun run' =>
      rw [hcs] at hold
      intro s hs
      have hs' : (w.runs.set run stage')[run']? = some s := hs
      rw [hset] at hs'
      split at hs'
      · rename_i heq
        subst heq
        cases hs'
        exact hsound ⟨i, c, hc, hsub, hfresh, hcs⟩ (hold stage hrun)
      · exact hkeeps.soundRun (hold s hs')
    | attempt attempt =>
      rw [hcs] at hold
      exact hkeeps.2 _ hold
    | settled resolved =>
      rw [hcs] at hold
      exact fun hresolved => hkeeps.1 (hold hresolved)
    | userScope | deactivate | disconnect => trivial
  · intro attempt h'
    rcases hattempt attempt h' with ⟨hold, hne⟩ | hnew
    · rcases h.awaited attempt hold with hcall | hmem
      · exact .inl hcall
      · right
        obtain ⟨i, hi⟩ := mem_iff_getElem?.mp hmem
        have hir : i ≠ run := by
          rintro rfl
          rw [hrun] at hi
          exact hne (Option.some.inj hi)
        exact mem_of_getElem? ((hset i).trans ((if_neg hir).trans hi))
    · right
      rw [← hnew]
      exact mem_of_getElem? ((hset run).trans (if_pos rfl))
  · intro i s hs hdone
    have hs' : (w.runs.set run stage')[i]? = some s := hs
    rw [hset] at hs'
    split at hs'
    · rename_i heq
      subst heq
      exact h.running i stage hrun hundone
    · exact h.running i s hs' hdone
  · intro c hc i hcs
    exact hlength ▸ h.started c hc i hcs
  · intro i hi
    exact hlength ▸ h.promised i hi

theorem Steady.continueRun (h : w.Steady) {resolved : Bool}
    (hr : w.Respects (.continueRun run resolved))
    (hstep : w.continueRun run resolved = some w') : w'.Steady := by
  have hsame := Keeps.refl w.bridge
  have hlive : w.bridge.Live → w.Spent → w.bridge.Live := fun hl _ => hl
  obtain ⟨stage, hrun, hstep⟩ := Option.bind_eq_some_iff.mp hstep
  have hawaits : stage ≠ .subscribeRealtime none → (∀ a, stage ≠ .subscribeRealtime (some a)) →
      ∀ (stage' : UserScopeStage) (attempt : SubscribeAttempt), w.bridge.attempt = some attempt →
        (w.bridge.attempt = some attempt ∧ stage ≠ .subscribeRealtime (some attempt.id)) ∨
          stage' = .subscribeRealtime (some attempt.id) :=
    fun _ hne _ attempt hattempt => .inl ⟨hattempt, hne _⟩
  cases stage with
  | userScope =>
    cases hstep
    refine h.setRun hrun h.ok hsame hlive (by simp) (fun _ _ => ?_)
      (hawaits (by simp) (by simp) _)
    cases resolved <;> trivial
  | findOrCreateScope =>
    cases resolved with
    | false =>
      cases hstep
      exact h.setRun hrun h.ok hsame hlive (by simp) (fun _ _ => trivial)
        (hawaits (by simp) (by simp) _)
    | true =>
      obtain ⟨hspent, hstale⟩ := hr hrun rfl
      cases hstep
      refine h.setRun hrun (subscribe_ok h.ok) subscribe_keeps (fun _ hs => absurd hs hspent)
        (by simp) (fun hcall _ => subscribe_sound h.ok (hstale hcall)) fun attempt hattempt => ?_
      rcases subscribe_awaited w.bridge attempt hattempt with hold | hnew
      · exact .inl ⟨hold, by simp⟩
      · exact .inr (congrArg UserScopeStage.subscribeRealtime hnew)
  | subscribeRealtime attempt =>
    cases attempt with
    | none =>
      cases hstep
      exact h.setRun hrun h.ok hsame hlive (by simp) (fun _ hs => hs)
        fun attempt hattempt => .inl ⟨hattempt, by simp⟩
    | some a =>
      obtain ⟨subscribed, houtcome, hstep⟩ := Option.map_eq_some_iff.mp hstep
      cases hstep
      refine h.setRun hrun h.ok hsame hlive (by simp) (fun _ hs => ?_) fun attempt hattempt => ?_
      · cases subscribed with
        | false => trivial
        | true => exact hs.2 houtcome
      · refine .inl ⟨hattempt, fun heq => ?_⟩
        have hnone := (h.ok.attempt attempt hattempt).2.2
        obtain rfl : a = attempt.id := by simpa using heq
        rw [houtcome] at hnone
        cases hnone
  | pull =>
    cases resolved with
    | false =>
      cases hstep
      exact h.setRun hrun h.ok hsame hlive (by simp) (fun _ _ => trivial)
        (hawaits (by simp) (by simp) _)
    | true =>
      cases hstep
      have hflag : { w with userScopeState := .subscribed }.Steady :=
        ⟨h.ok, h.sound, h.spent, h.fits, h.awaited, h.running, h.started, h.promised⟩
      exact hflag.setRun hrun h.ok hsame hlive (by simp) (fun _ hs => hs)
        (hawaits (by simp) (by simp) _)
  | settled resolved => cases hstep
  | done resolved => cases hstep

theorem Steady.clearRun (h : w.Steady) (hstep : w.clearRun run = some w') : w'.Steady := by
  unfold SubscriptionWorld.clearRun at hstep
  split at hstep
  · rename_i resolved hrun
    cases hstep
    have hpromise : { w with subscribeUserScopePromise := none }.Steady :=
      ⟨h.ok, h.sound, h.spent, h.fits, h.awaited, h.running, h.started, fun _ h => by cases h⟩
    refine hpromise.setRun hrun h.ok (Keeps.refl _) (fun hl _ => hl) (by simp) (fun _ hs => ?_)
      fun attempt hattempt => .inl ⟨hattempt, by simp⟩
    cases resolved with
    | false => trivial
    | true => exact hs
  · cases hstep

/-! ### Promises that settle -/

variable {call : ℕ} {c : SubscriptionCall} {next : SubscriptionCallStage}

theorem getElem?_setCall (w : SubscriptionWorld) (call i : ℕ) (next : SubscriptionCallStage) :
    (w.setCall call next).calls[i]? =
      if call = i then w.calls[i]?.map fun c => { c with stage := next } else w.calls[i]? := by
  rw [setCall, getElem?_modify]
  split <;> cases w.calls[i]? <;> rfl

theorem fresh_setCall {i : ℕ} (h : (w.setCall call next).Fresh i) : w.Fresh i := by
  intro j d hij hd
  by_cases hj : call = j
  · have hnew : (w.setCall call next).calls[j]? = some { d with stage := next } := by
      rw [getElem?_setCall, if_pos hj, hd]
      rfl
    have hkind := h j _ hij hnew
    exact hkind
  · exact h j d hij (by rw [getElem?_setCall, if_neg hj, hd])

section
variable (hcall : w.calls[call]? = some c)
include hcall

theorem getElem?_setCall_cases {i : ℕ} {d : SubscriptionCall}
    (h : (w.setCall call next).calls[i]? = some d) :
    (i = call ∧ d = { c with stage := next }) ∨ (i ≠ call ∧ w.calls[i]? = some d) := by
  rw [getElem?_setCall] at h
  split at h
  · rename_i heq
    subst heq
    rw [hcall] at h
    exact .inl ⟨rfl, (Option.some.inj h).symm⟩
  · rename_i hne
    exact .inr ⟨Ne.symm hne, h⟩

theorem mem_setCall {d : SubscriptionCall} (hd : d ∈ w.calls)
    (hne : d.stage ≠ c.stage) : d ∈ (w.setCall call next).calls := by
  obtain ⟨i, hi⟩ := mem_iff_getElem?.mp hd
  refine List.mem_of_getElem? (i := i) ?_
  rw [getElem?_setCall, if_neg, hi]
  rintro rfl
  rw [hcall] at hi
  exact hne (by rw [Option.some.inj hi])

theorem getLast?_setCall {d : SubscriptionCall}
    (h : w.calls.getLast? = some d) :
    (call + 1 = w.calls.length ∧
        (w.setCall call next).calls.getLast? = some { c with stage := next }) ∨
      (w.setCall call next).calls.getLast? = some d := by
  have hlength : (w.setCall call next).calls.length = w.calls.length := length_modify ..
  rw [List.getLast?_eq_getElem?, hlength, getElem?_setCall]
  have hlt := (List.getElem?_eq_some_iff.mp hcall).1
  split
  · rename_i heq
    rw [← heq, hcall]
    exact .inl ⟨by omega, rfl⟩
  · exact .inr (by rw [← getLast?_eq_getElem?, h])

end

theorem Steady.setCall (h : w.Steady) (hcall : w.calls[call]? = some c) (hok : b'.Ok)
    (hsounds : ∀ i d, w.calls[i]? = some d → d.kind.subscribes = true → w.Fresh i →
      b'.SoundCall w.runs d.stage)
    (hsound : c.kind.subscribes = true → w.Fresh call → b'.SoundCall w.runs next)
    (hlive : b'.Live → w.bridge.Live)
    (hspent : call + 1 = w.calls.length → SubscriptionCall.Spent ⟨c.kind, next⟩ → ¬ b'.Live)
    (hfits : SubscriptionCall.Fits ⟨c.kind, next⟩)
    (hattempt : b'.attempt = w.bridge.attempt)
    (hawaited : ∀ attempt, w.bridge.attempt = some attempt → c.stage ≠ .attempt attempt.id)
    (hrunning : ∀ run, c.stage = .userScopeRun run → ∃ ok, w.runs[run]? = some (.done ok))
    (hnext : ∀ run, next ≠ .userScopeRun run) :
    ({ w with bridge := b' }.setCall call next).Steady := by
  refine ⟨hok, ?_, ?_, ?_, ?_, ?_, ?_, h.promised⟩
  · intro i d hd hsub hfresh
    have hfresh' : w.Fresh i := fresh_setCall (w := w) hfresh
    rcases getElem?_setCall_cases (w := w) hcall hd with ⟨rfl, rfl⟩ | ⟨-, hd⟩
    · exact hsound hsub hfresh'
    · exact hsounds i d hd hsub hfresh'
  · intro hs hl
    obtain ⟨d, hd⟩ : ∃ d, w.calls.getLast? = some d := by
      exact ⟨_, getLast?_eq_some_getLast (ne_nil_of_mem (mem_of_getElem? hcall))⟩
    have hlast : (call + 1 = w.calls.length ∧
        (w.setCall call next).calls.getLast? = some { c with stage := next }) ∨
          (w.setCall call next).calls.getLast? = some d := getLast?_setCall hcall hd
    rcases hlast with ⟨hlast, hnew⟩ | hold
    · exact hspent hlast (hs _ hnew) hl
    · refine h.spent (fun d' hd' => ?_) (hlive hl)
      cases hd.symm.trans hd'
      exact hs d hold
  · intro d hd
    obtain ⟨i, hi⟩ := mem_iff_getElem?.mp hd
    rcases getElem?_setCall_cases (w := w) hcall hi with ⟨-, rfl⟩ | ⟨-, hi⟩
    · exact hfits
    · exact h.fits d (mem_of_getElem? hi)
  · intro attempt hnew
    rcases h.awaited attempt (hattempt ▸ hnew) with ⟨d, hd, hds⟩ | hrun
    · have hne : d.stage ≠ c.stage := by
        rw [hds]
        exact (hawaited attempt (hattempt ▸ hnew)).symm
      exact .inl ⟨d, mem_setCall (w := w) hcall hd hne, hds⟩
    · exact .inr hrun
  · intro run stage hrun hdone
    obtain ⟨d, hd, hds⟩ := h.running run stage hrun hdone
    refine ⟨d, mem_setCall (w := w) hcall hd ?_, hds⟩
    intro heq
    obtain ⟨ok, hok⟩ := hrunning run (heq.symm.trans hds)
    exact hdone ok (Option.some.inj (hrun.symm.trans hok))
  · intro d hd run hds
    obtain ⟨i, hi⟩ := mem_iff_getElem?.mp hd
    rcases getElem?_setCall_cases (w := w) hcall hi with ⟨-, rfl⟩ | ⟨-, hi⟩
    · exact absurd hds (hnext run)
    · exact h.started d (mem_of_getElem? hi) run hds

theorem Steady.moveCall (h : w.Steady) (hcall : w.calls[call]? = some c)
    (hsound : c.kind.subscribes = true → w.Fresh call → w.bridge.SoundCall w.runs next)
    (hspent : call + 1 = w.calls.length → SubscriptionCall.Spent ⟨c.kind, next⟩ →
      ¬ w.bridge.Live)
    (hfits : SubscriptionCall.Fits ⟨c.kind, next⟩)
    (hawaited : ∀ attempt, w.bridge.attempt = some attempt → c.stage ≠ .attempt attempt.id)
    (hrunning : ∀ run, c.stage = .userScopeRun run → ∃ ok, w.runs[run]? = some (.done ok))
    (hnext : ∀ run, next ≠ .userScopeRun run) : (w.setCall call next).Steady := by
  have hset : ({ w with bridge := w.bridge }.setCall call next).Steady :=
    h.setCall hcall h.ok h.sound hsound id hspent hfits rfl hawaited hrunning hnext
  exact hset

theorem unsubscribe_soundCall {stage : SubscriptionCallStage} (h : ¬ w.Counts stage) :
    w.bridge.unsubscribe.SoundCall w.runs stage := by
  cases stage with
  | attempt attempt => exact unsubscribe_sound h
  | userScopeRun run =>
    intro stage hrun
    exact unsubscribe_soundRun fun hcounts => h ⟨stage, hrun, hcounts⟩
  | settled resolved => exact fun hresolved => absurd hresolved h
  | userScope | deactivate | disconnect => trivial

theorem spent_of_last (hcall : w.calls[call]? = some c) (hlast : call + 1 = w.calls.length)
    (hspent : c.Spent) : w.Spent := by
  intro d hd
  rw [getLast?_eq_getElem?, ← hlast, Nat.add_sub_cancel, hcall] at hd
  exact Option.some.inj hd ▸ hspent

section
variable (h : w.Steady)
include h

theorem Steady.continueCall {resolved : Bool}
    (hr : w.Respects (.continueCall call resolved))
    (hstep : w.continueCall call resolved = some w') : w'.Steady := by
  obtain ⟨c, hcall, hstep⟩ := Option.bind_eq_some_iff.mp hstep
  obtain ⟨hundo, hreject⟩ := hr c hcall
  have hcfits := h.fits c (mem_of_getElem? hcall)
  have hcsound := h.sound call c hcall
  obtain ⟨kind, stage⟩ := c
  cases stage with
  | attempt attempt =>
    have hkind : kind.subscribes = true := hcfits
    obtain ⟨subscribed, houtcome, hstep⟩ := Option.map_eq_some_iff.mp hstep
    cases hstep
    refine h.moveCall hcall (fun hsub hfresh hresolved => ?_) (fun hlast hspent => ?_) trivial
      (fun attempt' h' => ?_) (fun run hrun => by cases hrun) (by simp)
    · exact (hcsound hsub hfresh).2 (hresolved ▸ houtcome)
    · refine hreject hlast ?_
      rcases hspent with hspent | ⟨hun, -⟩
      · cases hspent
        exact houtcome
      · rw [show kind.subscribes = false from hun] at hkind
        cases hkind
    · rintro ⟨⟩
      rw [(h.ok.attempt attempt' h').2.2] at houtcome
      cases houtcome
  | userScopeRun run =>
    have hkind : kind.subscribes = true := hcfits
    dsimp only at hstep
    split at hstep
    · rename_i subscribed hrun
      cases hstep
      refine h.moveCall hcall (fun hsub hfresh hresolved => ?_) (fun hlast hspent => ?_) trivial
        (fun _ _ => by simp) (fun run' hrun' => ?_) (by simp)
      · have hdone := hcsound hsub hfresh _ hrun
        rw [hresolved] at hdone
        exact hdone
      · refine hreject hlast ?_
        rcases hspent with hspent | ⟨hun, -⟩
        · cases hspent
          exact hrun
        · rw [show kind.subscribes = false from hun] at hkind
          cases hkind
      · cases hrun'
        exact ⟨subscribed, hrun⟩
    · cases hstep
  | userScope =>
    have hkind : kind.subscribes = false := hcfits
    cases hstep
    refine h.moveCall hcall (fun hsub _ => ?_) (fun hlast hspent => ?_) ?_ (fun _ _ => by simp)
      (fun run hrun => by cases hrun) (fun run => by cases resolved <;> simp)
    · rw [show kind.subscribes = true from hsub] at hkind
      cases hkind
    · refine hreject hlast ?_
      cases resolved with
      | false => rfl
      | true =>
        rcases hspent with hspent | ⟨-, hspent | hspent⟩
        · cases hspent
        · cases hspent
        · cases hspent
    · cases resolved with
      | false => trivial
      | true => exact hkind
  | deactivate =>
    have hkind : kind.subscribes = false := hcfits
    cases resolved with
    | true =>
      cases hstep
      refine h.setCall hcall (unsubscribe_ok h.ok) (fun i d hd hsub hfresh => ?_) (fun _ _ => trivial)
        (fun hl => absurd hl (unsubscribe_not_live h.ok)) (fun _ _ => unsubscribe_not_live h.ok)
        hkind rfl (fun _ _ => by simp) (fun run hrun => by cases hrun) (by simp)
      exact unsubscribe_soundCall (hundo rfl rfl i d hd hsub hfresh)
    | false =>
      cases hstep
      exact h.moveCall hcall (fun _ _ hresolved => absurd hresolved Bool.false_ne_true)
        (fun hlast _ => hreject hlast rfl) trivial (fun _ _ => by simp)
        (fun run hrun => by cases hrun) (by simp)
  | disconnect =>
    have hkind : kind.subscribes = false := hcfits
    have hsettle : ∀ ok, (w.setCall call (.settled ok)).Steady := by
      intro ok
      refine h.moveCall hcall (fun hsub _ => ?_) (fun hlast _ => ?_) trivial (fun _ _ => by simp)
        (fun run hrun => by cases hrun) (by simp)
      · rw [show kind.subscribes = true from hsub] at hkind
        cases hkind
      · exact h.spent (spent_of_last hcall hlast (.inr ⟨hkind, .inl rfl⟩))
    dsimp only at hstep
    split at hstep
    · split at hstep
      · cases hstep
      · cases hstep
        exact hsettle false
    split at hstep
    · cases hstep
      have hdone := hsettle true
      exact ⟨hdone.ok, hdone.sound, hdone.spent, hdone.fits, hdone.awaited, hdone.running,
        hdone.started, fun _ h => by cases h⟩
    · cases hstep
      exact hsettle true
  | settled resolved => cases hstep

theorem Steady.step {action : SubscriptionAction} (hr : w.Respects action)
    (hstep : w.step action = some w') : w'.Steady := by
  cases action with
  | subscribe tenantReady =>
    cases hstep
    exact h.subscribe hr
  | unsubscribe =>
    cases hstep
    exact h.unsubscribe
  | subscribeUserScope =>
    cases hstep
    exact h.subscribeUserScope hr
  | unsubscribeUserScope =>
    cases hstep
    exact h.unsubscribeUserScope
  | continueSubscribe resolved =>
    obtain ⟨attempt, hattempt, hstep⟩ := Option.bind_eq_some_iff.mp hstep
    obtain ⟨bridge, hbridge, rfl⟩ := Option.map_eq_some_iff.mp hstep
    exact h.continueSubscribe hattempt hbridge
  | clearSubscribe =>
    obtain ⟨bridge, hbridge, rfl⟩ := Option.map_eq_some_iff.mp hstep
    exact h.clearSubscribe hbridge
  | continueRun run resolved => exact h.continueRun hr hstep
  | clearRun run => exact h.clearRun hstep
  | continueCall call resolved => exact h.continueCall hr hstep

theorem Steady.runActions {actions : List SubscriptionAction}
    (hr : Along SubscriptionWorld.step Respects w actions)
    (hrun : Foundation.runActions SubscriptionWorld.step w actions = some w') : w'.Steady :=
  runActions_invariant (fun _ _ _ hs ha hstep => hs.step ha hstep) actions h hr hrun

/-! ## When all promises have settled -/

theorem Steady.attempt_none (hquiet : w.Quiescent) : w.bridge.attempt = none := by
  cases hattempt : w.bridge.attempt with
  | none => rfl
  | some attempt =>
    rcases h.awaited attempt hattempt with ⟨c, hc, hcs⟩ | hrun
    · obtain ⟨resolved, hsettled⟩ := hquiet c hc
      rw [hcs] at hsettled
      cases hsettled
    · obtain ⟨run, hrun⟩ := mem_iff_getElem?.mp hrun
      obtain ⟨c, hc, hcs⟩ := h.running run _ hrun (by simp)
      obtain ⟨resolved, hsettled⟩ := hquiet c hc
      rw [hcs] at hsettled
      cases hsettled

theorem Steady.resolved (hcall : w.calls[call]? = some c)
    (hsub : c.kind.subscribes = true) (hfresh : w.Fresh call) (hstage : c.stage = .settled true) :
    w.bridge.state = .subscribed := by
  have hsound := h.sound call c hcall hsub hfresh
  rw [hstage] at hsound
  exact hsound rfl

section
variable (hquiet : w.Quiescent)
include hquiet

theorem Steady.opened :
    w.bridge.opened = w.bridge.channels.toList := by
  have hopened := h.ok.opened
  rw [waiting, h.attempt_none hquiet] at hopened
  exact hopened

theorem Steady.subscribed (hstate : w.bridge.state = .subscribed) : w.Subscribed := by
  obtain ⟨a, ha⟩ := Option.isSome_iff_exists.mp (h.ok.subscribed.mp hstate)
  exact ⟨hstate, a, ha, by rw [h.opened hquiet, ha]; rfl⟩

theorem Steady.unsubscribed (hstate : w.bridge.state ≠ .subscribed) : w.Unsubscribed := by
  refine ⟨hstate, ?_⟩
  rw [h.opened hquiet, channels_none h.ok hstate]
  rfl

theorem Steady.last (hlast : ¬ w.LastSubscribed) :
    w.bridge.state ≠ .subscribed := by
  intro hstate
  refine h.spent (fun c hc => ?_) (.inl hstate)
  obtain ⟨resolved, hstage⟩ := hquiet c (mem_of_getLast? hc)
  cases resolved with
  | false => exact .inl hstage
  | true =>
    refine .inr ⟨?_, .inr hstage⟩
    by_contra hsub
    exact hlast ⟨c, hc, by simpa using hsub, hstage⟩

end

end

/-- **A run that undoes nothing that was asked for later leaves what was asked for.** -/
theorem subscriptions_settle {shared : Bool} {actions : List SubscriptionAction}
    (hr : Along SubscriptionWorld.step Respects (initial shared) actions)
    (hrun : Foundation.runActions SubscriptionWorld.step (initial shared) actions = some w) :
    w.Honoured := by
  have h := (initial_steady shared).runActions hr hrun
  constructor
  · intro i c hcall hsub hfresh hstage
    exact h.resolved hcall hsub hfresh hstage
  · rintro hquiet ⟨c, hc, hsub, hstage⟩
    refine h.subscribed hquiet ?_
    rw [getLast?_eq_getElem?] at hc
    refine h.resolved hc hsub (fun i d hi hd => ?_) hstage
    have := (List.getElem?_eq_some_iff.mp hd).1
    omega
  · intro hquiet hlast
    exact h.unsubscribed hquiet (h.last hquiet hlast)

/-- Two calls share an attempt and are undone; the next attempt becomes stale while it connects, and
a third one is left. -/
def subscribing : List SubscriptionAction :=
  [.subscribe true, .subscribe true, .continueSubscribe true, .continueSubscribe true,
    .continueSubscribe true, .continueSubscribe true, .continueSubscribe true, .clearSubscribe,
    .continueCall 0 true, .continueCall 1 true, .unsubscribe, .continueCall 2 true,
    .subscribe true, .continueSubscribe true, .continueSubscribe true, .unsubscribe,
    .continueSubscribe true, .continueSubscribe true, .clearSubscribe, .continueCall 3 true,
    .continueCall 4 true, .subscribe true, .continueSubscribe true, .continueSubscribe true,
    .continueSubscribe true, .continueSubscribe true, .continueSubscribe true, .clearSubscribe,
    .continueCall 5 true]

theorem subscriptions_settle_subscribing :
    ∃ w, Foundation.runActions SubscriptionWorld.step (initial false) subscribing = some w ∧
      w.bridge.opened = [2] ∧ w.bridge.channels = some 2 ∧ w.Honoured := by
  have hnone : ∀ {b : SubscriptionBridge}, b.attempt = none → b.NoStale :=
    fun h attempt hattempt => by rw [h] at hattempt; cases hattempt
  have hcall : ∀ {w : SubscriptionWorld} {call : ℕ} {c : SubscriptionCall},
      w.calls[call]? = some c → c.stage ≠ .deactivate → ¬ w.Rejects true c.stage →
      w.Respects (.continueCall call true) := by
    intro w call c hc hdeactivate hrejects d hd
    cases hc.symm.trans hd
    exact ⟨fun h => absurd h hdeactivate, fun _ h => absurd h hrejects⟩
  have hr : Along SubscriptionWorld.step Respects (initial false) subscribing := by
    refine ⟨hnone rfl, ?_, trivial, trivial, trivial, trivial, trivial, trivial,
      hcall rfl (by decide) nofun, hcall rfl (by decide) nofun, trivial,
      hcall rfl (by decide) nofun, hnone rfl, trivial, trivial, trivial, trivial, trivial, trivial,
      hcall rfl (by decide) nofun, hcall rfl (by decide) nofun, hnone rfl, trivial, trivial,
      trivial, trivial, trivial, trivial, hcall rfl (by decide) nofun, trivial⟩
    rintro attempt ⟨⟩ -
    rfl
  have hsome : (Foundation.runActions SubscriptionWorld.step (initial false)
    subscribing).isSome = true := rfl
  obtain ⟨w, hrun⟩ := Option.isSome_iff_exists.mp hsome
  have hopened : w.bridge.opened = [2] ∧ w.bridge.channels = some 2 := by
    cases hrun
    exact ⟨rfl, rfl⟩
  exact ⟨w, hrun, hopened.1, hopened.2, subscriptions_settle hr hrun⟩

def joiningStale : List SubscriptionAction :=
  [.subscribe true, .continueSubscribe true, .unsubscribe, .subscribe true,
    .continueSubscribe true, .continueSubscribe true, .clearSubscribe, .continueCall 0 true,
    .continueCall 1 true, .continueCall 2 true]

theorem joiningStale_unsubscribed :
    ¬ ∀ (shared : Bool) (actions : List SubscriptionAction) (w : SubscriptionWorld),
      Foundation.runActions SubscriptionWorld.step (initial shared) actions = some w →
        w.Honoured := by
  intro h
  have hstate := (h false joiningStale _ rfl).resolved 2 ⟨.subscribe, .settled true⟩ rfl rfl
    (fun i c hi hc => ?_) rfl
  · cases hstate
  · have hlt := (List.getElem?_eq_some_iff.mp hc).1
    have hlength : i < 3 := hlt
    omega

end SubscriptionWorld

end Velocious
