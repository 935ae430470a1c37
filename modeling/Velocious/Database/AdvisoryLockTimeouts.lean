/-
  When an acquire of an advisory lock returns `false`.

  `AllPatient` is kept by the steps that are `Orderly`: a resolved call with a timeout finds its
  name free, or its timeout has elapsed. In `overtakenRun` a call takes the name between a release
  and the next step of the waiter it resolved, and that waiter returns `false` at once.
-/
import Velocious.Database.AdvisoryLocks

namespace Velocious.AdvisoryLocks

open Foundation List

namespace World

variable {w w' : World} {i j : ℕ} {call c d : Call} {name : String} {driver : ℕ}

/-- What the timeout of a call says about where the call is. -/
def Patient (w : World) (call : Call) : Prop :=
  call.startedAt ≤ w.now ∧
    match call.state with
    | .waiting due => ∀ ms, call.request.timeout = some ms →
        ∃ time, due = some time ∧ Elapsed ms (time - call.startedAt)
    | .resolved => ∀ ms, call.request.timeout = some ms →
        Elapsed ms (w.now - call.startedAt) ∨ w.ownersByName.get? call.name = none
    | .refused time => call.request = .tryAcquire ∨
        ∃ ms, call.request.timeout = some ms ∧ Elapsed ms (time - call.startedAt)
    | .acquired | .released => True

def AllPatient (w : World) : Prop := ∀ (j : ℕ) (c : Call), w.calls[j]? = some c → w.Patient c

/-- All calls but call `i` are patient. -/
def PatientBut (w : World) (i : ℕ) : Prop :=
  ∀ (j : ℕ) (c : Call), j ≠ i → w.calls[j]? = some c → w.Patient c

theorem Patient.mono (h : w.Patient c) (hnow : w.now ≤ w'.now)
    (hname : c.state = .resolved → w.ownersByName.get? c.name = none →
      w'.ownersByName.get? c.name = none ∨
        ∀ ms, c.request.timeout = some ms → Elapsed ms (w'.now - c.startedAt)) :
    w'.Patient c := by
  obtain ⟨hstarted, hstate⟩ := h
  refine ⟨hstarted.trans hnow, ?_⟩
  cases hs : c.state with
  | waiting due | acquired | released | refused time =>
    rw [hs] at hstate
    exact hstate
  | resolved =>
    rw [hs] at hstate
    intro ms hms
    rcases hstate ms hms with helapsed | hfree
    · exact .inl (helapsed.mono (Nat.sub_le_sub_right hnow _))
    · exact (hname hs hfree).symm.imp (fun helapsed => helapsed ms hms) id

section
variable (h : w.PatientBut i) (hi : w.calls[i]? = some call)
include h hi

theorem PatientBut.setState {state : CallState} (howners : w'.ownersByName = w.ownersByName)
    (hnow : w'.now = w.now)
    (hcalls : w'.calls = (w.setState i state).calls)
    (hpatient : w.Patient { call with state }) : w'.AllPatient := by
  intro j c hj
  have hmono : ∀ {c : Call}, w.Patient c → w'.Patient c := fun hc =>
    hc.mono hnow.ge fun _ hfree => .inl (howners ▸ hfree)
  rw [hcalls] at hj
  rcases modify_cases hj hi with ⟨-, rfl⟩ | ⟨hji, hj⟩
  · exact hmono hpatient
  · exact hmono (h j c hji hj)

theorem PatientBut.own (hstarted : call.startedAt ≤ w.now) (hfree : w.isAdvisoryLockHeld call.name = false)
    (hordered : w.Uncontended i call.name) :
    (w.own i call.driver call.name).AllPatient := by
  intro j c hj
  rcases modify_cases hj hi with ⟨-, rfl⟩ | ⟨hji, hj⟩
  · exact ⟨hstarted, trivial⟩
  · refine (h j c hji hj).mono le_rfl fun hresolved hnone => ?_
    by_cases hname : c.name = call.name
    · exact .inr fun ms hms => hordered hfree j c ms hji hj hname hresolved hms
    · refine .inl (Eq.trans ?_ hnone)
      exact (EntryMap.get?_set c.name).trans (if_neg hname)

theorem PatientBut.loop (hstarted : call.startedAt ≤ w.now) (hordered : w.Uncontended i call.name)
    (hdelay : ∀ ms, call.request.timeout = some ms → w.isAdvisoryLockHeld call.name →
      isNonpos ms = false → Elapsed ms (timerDelay ms)) :
    (w.loop i call).AllPatient := by
  unfold World.loop
  split
  · next hheld =>
    split
    · next ms hms =>
      split
      · next hnonpos =>
        exact h.setState hi rfl rfl rfl
          ⟨hstarted, .inr ⟨ms, hms, elapsed_of_isNonpos hnonpos _⟩⟩
      · next hpos =>
        refine h.setState hi rfl rfl rfl ⟨hstarted, fun ms' hms' => ⟨_, rfl, ?_⟩⟩
        cases hms.symm.trans hms'
        refine (hdelay ms hms hheld (Bool.eq_false_iff.mpr hpos)).mono ?_
        show timerDelay ms ≤ w.now + timerDelay ms - call.startedAt
        omega
    · next hnone =>
      refine h.setState hi rfl rfl rfl ⟨hstarted, fun ms hms => ?_⟩
      cases hnone.symm.trans hms
  · next hfree => exact h.own hi hstarted (Bool.eq_false_iff.mpr hfree) hordered

end

theorem AllPatient.enter {new : Call} (h : w.AllPatient) :
    (w.enter new).PatientBut w.calls.length := by
  intro j c hji hj
  rcases append_cases hj with ⟨rfl, -⟩ | hj
  · exact absurd rfl hji
  · exact (h j c hj).mono le_rfl fun _ hfree => .inl hfree

theorem uncontended_enter {new : Call} (h : w.Uncontended w.calls.length name) :
    (w.enter new).Uncontended w.calls.length name := by
  intro hfree j c ms hji hj
  rcases append_cases hj with ⟨rfl, -⟩ | hj
  · exact absurd rfl hji
  · exact h hfree j c ms hji hj

theorem AllPatient.release (h : w.AllPatient) (hinv : w.Inv) (driver : ℕ) (name : String) :
    (w.releaseAdvisoryLock driver name).1.AllPatient := by
  have hfreed : (w.freed driver name).AllPatient := by
    intro j c hj
    by_cases hreleased : c.state = .released
    · obtain ⟨call, hcall, rfl⟩ := Option.map_eq_some_iff.mp (getElem?_map.symm.trans hj)
      refine ⟨?_, by rw [hreleased]; trivial⟩
      have hstarted : (settle driver name call).startedAt = call.startedAt := by
        unfold settle
        split <;> rfl
      rw [hstarted]
      exact (h j call hcall).1
    · refine (h j c (freed_get hj hreleased)).mono le_rfl fun _ hfree => .inl ?_
      show (w.ownersByName.delete name).get? c.name = none
      rw [EntryMap.get?_delete, hfree, ite_self]
  rcases release_cases w driver name with ⟨-, heq⟩ | ⟨howner, ⟨hnil, heq⟩ | ⟨next, others, hcons, heq⟩⟩
  · rw [heq]
    exact h
  · rw [heq]
    exact hfreed
  · rw [heq]
    obtain ⟨call, due, hi, rfl, hstate⟩ := (hinv.toCore.freed howner).waiting
      (show next ∈ (w.freed driver name).waiters name from hcons ▸ mem_cons_self)
    have hbut : (w.freed driver call.name).PatientBut next := fun j c _ hj => hfreed j c hj
    refine hbut.setState hi rfl rfl rfl ⟨(hfreed next call hi).1, fun _ _ => .inr ?_⟩
    exact EntryMap.get?_delete_self

theorem AllPatient.step {a : LockAction} (h : w.AllPatient) (hinv : w.Inv) (hok : w.Orderly a)
    (hstep : w.step a = some w') : w'.AllPatient := by
  rcases step_cases hstep with ⟨driver, name, timeoutMs, rfl, rfl⟩ | ⟨driver, name, rfl, rfl⟩ |
    ⟨driver, name, rfl, rfl⟩ | ⟨i, call, due, rfl, hi, hstate, hdue, rfl⟩ |
    ⟨i, call, rfl, hi, hstate, rfl⟩ | ⟨ms, rfl, rfl⟩
  · exact h.enter.loop getElem?_concat_length le_rfl
      (uncontended_enter hok.1) hok.2
  · unfold tryAcquireAdvisoryLock
    split
    · exact h.enter.setState getElem?_concat_length rfl rfl rfl
        ⟨le_rfl, .inl rfl⟩
    · next hfree =>
      have hnew : (w.enter (w.call driver name .tryAcquire)).calls[w.calls.length]? =
          some (w.call driver name .tryAcquire) := getElem?_concat_length
      exact h.enter.own hnew le_rfl (Bool.eq_false_iff.mpr hfree) (uncontended_enter hok)
  · exact h.release hinv driver name
  · have hbut : w.PatientBut i := fun j c _ hj => h j c hj
    obtain ⟨hstarted, hwaits⟩ := h i call hi
    rw [hstate] at hwaits
    refine hbut.setState hi rfl rfl rfl ⟨hstarted, fun ms hms => .inl ?_⟩
    obtain ⟨time, htime, helapsed⟩ := hwaits ms hms
    cases htime
    exact helapsed.mono (Nat.sub_le_sub_right hdue _)
  · have hbut : w.PatientBut i := fun j c _ hj => h j c hj
    obtain ⟨hstarted, hresolved⟩ := h i call hi
    rw [hstate] at hresolved
    unfold World.resume
    split
    · next hcond =>
      obtain ⟨htimed, hheld⟩ := Bool.and_eq_true_iff.mp hcond
      obtain ⟨ms, hms⟩ := Option.isSome_iff_exists.mp htimed
      refine hbut.setState hi rfl rfl rfl ⟨hstarted, .inr ⟨ms, hms, ?_⟩⟩
      obtain ⟨owner, howner⟩ := held_iff.mp hheld
      refine (hresolved ms hms).resolve_right ?_
      rw [howner]
      nofun
    · next hcond =>
      refine hbut.loop hi hstarted (hok call hi) fun ms hms hheld _ => ?_
      rw [hms, hheld] at hcond
      exact absurd rfl hcond
  · exact fun j c hj => (h j c hj).mono (Nat.le_add_right _ _) fun _ hfree => .inl hfree

/-- **Advisory locks.** After every run, at most one acquisition of a name is outstanding, a
    release by a driver that does not own the name changes nothing, and when no resolved call has
    yet to run on, whoever waits for a name waits for its holder. In the runs in which nobody
    overtakes a resolved call with a timeout, and no timer fires before the timeout it was set for,
    an acquire returns `false` only after its timeout. -/
theorem advisory_locks {as : List LockAction} (hrun : runActions World.step init as = some w) :
    w.Sound ∧ (Along World.step World.Orderly init as → w.Patience) := by
  refine ⟨(runActions_keeps (fun _ _ _ h => h.step) inv_init hrun).sound, fun hok => ?_⟩
  have hpatient := (runActions_invariant
    (I := fun w => w.Inv ∧ w.AllPatient)
    (fun _ _ _ h hok hstep => ⟨h.1.step hstep, h.2.step h.1 hok hstep⟩) as
    ⟨inv_init, fun _ _ hj => by cases hj⟩ hok hrun).2
  intro call hmem timeoutMs time hrequest hrefused
  obtain ⟨i, hi⟩ := mem_iff_getElem?.mp hmem
  obtain ⟨-, hstate⟩ := hpatient i call hi
  rw [hrefused] at hstate
  rcases hstate with htry | ⟨ms, hms, helapsed⟩
  · cases hrequest.symm.trans htry
  · rw [hrequest] at hms
    exact ⟨ms, (Option.filter_eq_some_iff.mp hms).1, helapsed⟩

/-- A driver takes a name, one waits for it, a third one is refused after its timeout, and the name
    is handed on. -/
def handedOnRun : List LockAction :=
  [.acquire 0 "n" none, .acquire 1 "n" none, .acquire 2 "n" (some (.int 50)), .release 2 "n",
    .tick 50, .timer 2, .resume 2, .release 0 "n", .resume 1]

theorem advisory_locks_handed_on : ∃ w, runActions World.step init handedOnRun = some w ∧
    w.calls.map Call.state = [.released, .acquired, .refused 50] ∧ w.Sound ∧ w.Patience := by
  obtain ⟨w, hw⟩ : ∃ w, runActions World.step init handedOnRun = some w := ⟨_, rfl⟩
  obtain ⟨hsound, hpatience⟩ := advisory_locks hw
  refine ⟨w, hw, ?_, hsound, hpatience ?_⟩
  · cases hw
    rfl
  · refine ⟨⟨fun _ _ _ _ _ hj => ?_, fun ms hms => ?_⟩, ⟨fun hfree => ?_, fun ms hms => ?_⟩,
      ⟨fun hfree => ?_, fun ms hms _ _ => ?_⟩, trivial, trivial, trivial, fun call hi => ?_, trivial,
      fun call hi => ?_, trivial⟩
    · cases hj
    · cases hms
    · cases hfree
    · cases hms
    · cases hfree
    · cases hms
      decide
    · cases hi
      intro hfree
      cases hfree
    · rintro - j c ms hji hj - hresolved
      match j, hj with
      | 0, hj => cases (Option.some.inj hj) ▸ hresolved
      | 2, hj => cases (Option.some.inj hj) ▸ hresolved

/-- A waiter with a timeout is resolved by a release, and another driver takes the name before it
    runs on. -/
def overtakenRun : List LockAction :=
  [.acquire 0 "n" none, .acquire 1 "n" (some (.int 100)), .release 0 "n", .tryAcquire 2 "n",
    .resume 1]

/-- The waiter returns `false` although no time has passed. -/
theorem overtaken : ∃ w, runActions World.step init overtakenRun = some w ∧ ¬w.Patience := by
  obtain ⟨w, hw⟩ : ∃ w, runActions World.step init overtakenRun = some w := ⟨_, rfl⟩
  refine ⟨w, hw, fun h => ?_⟩
  cases hw
  obtain ⟨ms, hms, helapsed⟩ := h ⟨1, "n", .acquire (some (.int 100)), 0, .refused 0⟩
    (.tail _ (.head _)) (some (.int 100)) 0 rfl rfl
  cases hms
  revert helapsed
  decide

end World

end Velocious.AdvisoryLocks
