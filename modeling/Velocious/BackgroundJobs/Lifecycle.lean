/-
  What the SQL and the local background-jobs store share beside the option
  semantics: the statuses of a job, and the events its life is judged by.
-/
import Mathlib.Data.List.Count
import Mathlib.Tactic
import Velocious.Foundation.Steps

namespace Velocious

open Foundation

/-- `status` of a job. -/
inductive JobStatus where
  | queued | handedOff | completed | failed | orphaned | cancelled
  deriving DecidableEq, Repr

/-- The statuses no transition leaves. -/
def JobStatus.terminal : JobStatus → Bool
  | queued | handedOff => false
  | completed | failed | orphaned | cancelled => true

/-- What happened to a job. -/
inductive Event where
  | inserted (jobId : String)
  | granted (jobId handoffId : String)
  | ended (jobId : String) (handoffId : Option String)
  | withdrawn (jobId : String)
  | deleted
  deriving DecidableEq, Repr

/-! ## Granted and ended leases -/

def grantedLeases (events : List Event) : List String :=
  events.filterMap fun
    | .granted _ handoffId => some handoffId
    | _ => none

/-- The leases ended by accepted transitions in a history. -/
def endedLeases (events : List Event) : List String :=
  events.filterMap fun
    | .ended _ handoffId => handoffId
    | _ => none

@[simp] theorem grantedLeases_append (es es' : List Event) :
    grantedLeases (es ++ es') = grantedLeases es ++ grantedLeases es' :=
  List.filterMap_append

@[simp] theorem endedLeases_append (es es' : List Event) :
    endedLeases (es ++ es') = endedLeases es ++ endedLeases es' :=
  List.filterMap_append

/-- A lease leaves its holder for each time it is ended: the account of one step. -/
def LeaseAccount {σ : Type} (held : σ → String → ℕ) (s : σ) (es : List Event) (s' : σ) : Prop :=
  ∀ h, (endedLeases es).count h + held s' h ≤ held s h + (grantedLeases es).count h

theorem Steps.leases {σ : Type} {step : σ → List Event → σ → Prop} {held : σ → String → ℕ}
    (hstep : ∀ s es s', step s es s' → LeaseAccount held s es s') {s s' : σ} {es : List Event}
    (h : Steps step s es s') : LeaseAccount held s es s' := by
  intro l
  induction h with
  | nil => simp [endedLeases]
  | cons hm _ ih =>
    have := hstep _ _ _ hm l
    simp only [endedLeases_append, grantedLeases_append, List.count_append]
    omega

theorem LeaseAccount.ended_once {σ : Type} {held : σ → String → ℕ} {s s' : σ} {es : List Event}
    (h : LeaseAccount held s es s') (h₀ : ∀ l, held s l = 0) (hfresh : (grantedLeases es).Nodup)
    (l : String) : (endedLeases es).count l ≤ 1 := by
  have := h l
  have := h₀ l
  have := List.nodup_iff_count_le_one.mp hfresh l
  omega

end Velocious
