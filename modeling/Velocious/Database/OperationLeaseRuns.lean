/-
  Runs of a connection with operation leases: who executes while a lease is installed.

  * `work_step`: the steps that need no caller come to an end.
  * `outlivesRun`: a statement is on the connection when the next lease is installed.
-/
import Velocious.Database.OperationLease

namespace Velocious.OperationLease

open Foundation List

/-! ## What is asked of a run -/

/-- A statement that is neither refused nor part of a transaction action. -/
def CallKind.isStatement : CallKind → Bool
  | .query writable | .affectedRows writable => writable
  | _ => false

def Stage.isRunning : Stage → Bool
  | .admitted | .executing _ | .backoff _ => true
  | _ => false

namespace Call

def acts (call : Call) : Bool := call.kind = .startTransaction && call.stage.isRunning

def isOpen (call : Call) : Bool :=
  call.kind = .startTransaction &&
    (call.stage = .opened || call.ending.isSome && call.stage ≠ .finished)

def openCount (call : Call) : ℕ := if call.isOpen then 1 else 0

/-- Where a call of a kind can be. -/
def Ok (call : Call) : Prop :=
  (∀ tries, call.stage = .backoff tries → tries < maxTries) ∧
  match call.kind with
  | .operation => (call.stage = .queued ∨ call.stage = .installed ∨ call.stage = .finished) ∧
      call.ending = none
  | .startTransaction => call.stage ≠ .installed ∧ (call.stage = .opened → call.ending = none)
  | _ => call.stage ≠ .queued ∧ call.stage ≠ .opened ∧ call.stage ≠ .installed ∧
      call.ending = none ∧ ∀ tries, call.stage = .executing tries ∨ call.stage = .backoff tries →
        call.kind.isStatement = true

end Call

namespace World

/-- A call that nothing holds back any more: past its lease check, or waiting for a lease that was
    released. -/
def inFlight (w : World) (call : Call) : Bool :=
  match call.stage with
  | .waiting lease => w.released lease
  | stage => stage.isRunning

/-- The steps a call can take before it awaits something from outside. -/
def callWork (w : World) (call : Call) : ℕ :=
  match call.stage with
  | .waiting lease => if w.released lease then 12 else 0
  | .queued => 11
  | .admitted => 10
  | .executing tries => 2 * (maxTries - tries) + 1
  | .backoff tries => 2 * (maxTries - tries)
  | .opened | .installed | .finished => 0

def work (w : World) : ℕ := (w.calls.map w.callWork).sum

/-- A lease is installed when no statement of another caller is in flight. -/
def Orderly (w : World) : LeaseAction → Prop
  | .enterMutex i => ∀ operation, w.calls[i]? = some operation → operation.kind = .operation →
      w.operationLease = none → w.transactionsCount = 0 →
        ∀ call ∈ w.calls, call.kind.isStatement → w.inFlight call →
          call.operationOwner = operation.operationOwner
  | _ => True

/-- While a lease is installed, the statements on the connection are its owner's. -/
def StatementsOwned (w : World) : Prop :=
  ∀ lease, w.operationLease = some lease → ∀ call ∈ w.calls, ∀ tries,
    call.stage = .executing tries → call.operationOwner = w.leaseOwner lease

/-- What holds after every run: while a lease is installed the open transactions are its owner's;
    the steps that need no caller come to an end, and then whoever has not finished, opened a
    transaction or installed a lease waits for the installed lease of another owner. -/
structure Sound (w : World) : Prop where
  transactions : ∀ lease, w.operationLease = some lease → ∀ call ∈ w.calls, call.isOpen →
    call.operationOwner = w.leaseOwner lease
  finite : ∀ (as : List LeaseAction) (w' : World), (∀ a ∈ as, a.isInternal) →
    runActions step w as = some w' → as.length ≤ w.work
  rest : (∀ a, a.isInternal → w.step a = none) → ∀ call ∈ w.calls,
    call.stage = .finished ∨ call.stage = .opened ∨ call.stage = .installed ∨
      ∃ lease, call.stage = .waiting lease ∧ w.operationLease = some lease ∧
        call.operationOwner ≠ w.leaseOwner lease

/-! ## What is kept -/

/-- What every step keeps. -/
structure Inv (w : World) : Prop where
  ok : ∀ call ∈ w.calls, call.Ok
  installed : ∀ {lease : ℕ}, w.operationLease = some lease →
    ∃ operation, w.calls[lease]? = some operation ∧ operation.stage = .installed
  lease : ∀ {i : ℕ} {call : Call}, w.calls[i]? = some call → call.stage = .installed →
    w.operationLease = some i
  waits : ∀ {call : Call} {lease : ℕ}, call ∈ w.calls → call.stage = .waiting lease →
    w.released lease = true ∨
      w.operationLease = some lease ∧ call.operationOwner ≠ w.leaseOwner lease
  mutex : ∀ {i : ℕ}, w.mutex = some i ↔ ∃ call, w.calls[i]? = some call ∧ call.acts = true
  count : w.transactionsCount = (w.calls.map Call.openCount).sum
  owners : ∀ {lease : ℕ}, w.operationLease = some lease → ∀ call ∈ w.calls,
    call.isOpen || call.acts → call.operationOwner = w.leaseOwner lease

variable {w w' : World} {i j lease : ℕ} {call c : Call}

theorem released_eq (h : w.calls[lease]? = some c) :
    w.released lease = decide (c.stage = .finished) := by
  rw [released, h]
  rfl

theorem leaseOwner_eq (h : w.calls[lease]? = some c) : w.leaseOwner lease = c.operationOwner := by
  rw [leaseOwner, h]
  rfl

variable {f : Call → Call}

section
variable (hcalls : w'.calls = w.calls.modify i f) (hi : w.calls[i]? = some call)
include hcalls hi

theorem leaseOwner_modify (howner : (f call).operationOwner = call.operationOwner)
    (lease : ℕ) : w'.leaseOwner lease = w.leaseOwner lease := by
  by_cases hl : lease = i
  · subst hl
    rw [leaseOwner_eq hi, leaseOwner_eq (hcalls ▸ modify_self hi), howner]
  · rw [leaseOwner, leaseOwner, hcalls, getElem?_modify_ne _ _ fun heq => hl heq.symm]

theorem released_modify (hlive : call.stage ≠ .finished)
    (h : w.released lease = true) : w'.released lease = true := by
  have hl : i ≠ lease := by
    rintro rfl
    rw [released_eq hi, decide_eq_true_eq] at h
    exact hlive h
  rwa [released, hcalls, getElem?_modify_ne _ _ hl]

end

theorem Inv.change (h : w.Inv) (hi : w.calls[i]? = some call)
    (hcalls : w'.calls = w.calls.modify i f) (hlease : w'.operationLease = w.operationLease)
    (hlive : call.stage ≠ .finished) (hbefore : call.stage ≠ .installed)
    (hafter : (f call).stage ≠ .installed)
    (howner : (f call).operationOwner = call.operationOwner) (hok : (f call).Ok)
    (hwait : ∀ lease, (f call).stage = .waiting lease →
      w.operationLease = some lease ∧ call.operationOwner ≠ w.leaseOwner lease)
    (hmutex : w'.mutex = if (f call).acts then some i else if call.acts then none else w.mutex)
    (hfree : (f call).acts = true → w.mutex = some i ∨ w.mutex = none)
    (hcount : w'.transactionsCount + call.openCount = w.transactionsCount + (f call).openCount)
    (howners : ∀ lease, w.operationLease = some lease → (f call).isOpen || (f call).acts →
      call.operationOwner = w.leaseOwner lease) : w'.Inv := by
  have hmem : ∀ c ∈ w'.calls, c = f call ∨ c ∈ w.calls := by
    intro c hc
    obtain ⟨j, hj⟩ := mem_iff_getElem?.mp hc
    rw [hcalls] at hj
    exact (modify_cases hj hi).imp And.right fun hj => mem_of_getElem? hj.2
  have hleaseOwner := leaseOwner_modify hcalls hi howner
  refine ⟨fun c hc => ?_, fun {lease} hl => ?_, fun {j c} hj hstage => ?_,
    fun {c lease} hc hstage => ?_, fun {j} => ⟨fun hj => ?_, ?_⟩, ?_, fun {lease} hl c hc hopen => ?_⟩
  · rcases hmem c hc with rfl | hc
    · exact hok
    · exact h.ok c hc
  · obtain ⟨operation, hoperation, hstage⟩ := h.installed (hlease ▸ hl)
    refine ⟨operation, hcalls ▸ modify_of_ne ?_ hoperation, hstage⟩
    rintro rfl
    cases hi.symm.trans hoperation
    exact hbefore hstage
  · rw [hcalls] at hj
    rw [hlease]
    rcases modify_cases hj hi with ⟨-, rfl⟩ | ⟨-, hj⟩
    · exact absurd hstage hafter
    · exact h.lease hj hstage
  · rw [hlease, hleaseOwner]
    rcases hmem c hc with rfl | hc
    · rw [howner]
      exact .inr (hwait lease hstage)
    · exact (h.waits hc hstage).imp_left (released_modify hcalls hi hlive)
  · rw [hmutex] at hj
    split at hj
    · next hacts =>
      cases hj
      exact ⟨f call, hcalls ▸ modify_self hi, hacts⟩
    · split at hj
      · cases hj
      · next hidle =>
        obtain ⟨c, hc, hacts⟩ := h.mutex.mp hj
        refine ⟨c, hcalls ▸ modify_of_ne ?_ hc, hacts⟩
        rintro rfl
        cases hi.symm.trans hc
        exact hidle hacts
  · rintro ⟨c, hj, hacts⟩
    rw [hcalls] at hj
    rw [hmutex]
    rcases modify_cases hj hi with ⟨rfl, rfl⟩ | ⟨hji, hj⟩
    · rw [if_pos hacts]
    · have hheld : w.mutex = some j := h.mutex.mpr ⟨c, hj, hacts⟩
      rw [if_neg, if_neg, hheld]
      · intro hcall
        exact hji (Option.some.inj (hheld.symm.trans (h.mutex.mpr ⟨call, hi, hcall⟩)))
      · intro hnew
        rcases hfree hnew with heq | heq
        · exact hji (Option.some.inj (hheld.symm.trans heq))
        · cases hheld.symm.trans heq
  · have hsum := sum_map_modify hi f Call.openCount
    rw [hcalls]
    have hbase := h.count
    omega
  · rw [hleaseOwner]
    rcases hmem c hc with rfl | hc
    · rw [howner]
      exact howners lease (hlease ▸ hl) hopen
    · exact h.owners (hlease ▸ hl) c hc hopen

theorem Inv.enter (h : w.Inv) {new : Call} (hok : new.Ok) (hstage : new.stage ≠ .installed)
    (hwait : ∀ lease, new.stage = .waiting lease →
      w.operationLease = some lease ∧ new.operationOwner ≠ w.leaseOwner lease)
    (hacts : new.acts = false) (hopen : new.isOpen = false) : (w.enter new).Inv := by
  have hmem : ∀ c ∈ (w.enter new).calls, c = new ∨ c ∈ w.calls := by
    intro c hc
    exact (mem_append.mp hc).symm.imp_left mem_singleton.mp
  have hsame : ∀ {l : ℕ}, l < w.calls.length → (w.enter new).calls[l]? = w.calls[l]? :=
    fun hlt => getElem?_append_left hlt
  have hleaseOwner : ∀ {lease : ℕ}, w.operationLease = some lease →
      (w.enter new).leaseOwner lease = w.leaseOwner lease := by
    intro lease hl
    obtain ⟨operation, hoperation, -⟩ := h.installed hl
    rw [leaseOwner, leaseOwner, hsame (List.getElem?_eq_some_iff.mp hoperation).1]
  refine ⟨fun c hc => ?_, fun {lease} hl => ?_, fun {j c} hj hinstalled => ?_,
    fun {c lease} hc hwaits => ?_, fun {j} => ⟨fun hj => ?_, ?_⟩, ?_, fun {lease} hl c hc hrest => ?_⟩
  · rcases hmem c hc with rfl | hc
    · exact hok
    · exact h.ok c hc
  · obtain ⟨operation, hoperation, hinstalled⟩ := h.installed hl
    exact ⟨operation, append_of_getElem? hoperation, hinstalled⟩
  · rcases append_cases hj with ⟨-, rfl⟩ | hj
    · exact absurd hinstalled hstage
    · exact h.lease hj hinstalled
  · rcases hmem c hc with rfl | hc
    · obtain ⟨hl, hne⟩ := hwait lease hwaits
      exact .inr ⟨hl, (hleaseOwner hl).symm ▸ hne⟩
    · refine (h.waits hc hwaits).imp (fun hreleased => ?_) fun ⟨hl, hne⟩ =>
        ⟨hl, (hleaseOwner hl).symm ▸ hne⟩
      have hlt : lease < w.calls.length := by
        by_contra hge
        rw [released, getElem?_eq_none (not_lt.mp hge)] at hreleased
        cases hreleased
      rwa [released, hsame hlt]
  · obtain ⟨c, hc, hacts⟩ := h.mutex.mp hj
    exact ⟨c, append_of_getElem? hc, hacts⟩
  · rintro ⟨c, hj, hacting⟩
    rcases append_cases hj with ⟨-, rfl⟩ | hj
    · cases hacts.symm.trans hacting
    · exact h.mutex.mpr ⟨c, hj, hacting⟩
  · show w.transactionsCount = ((w.calls ++ [new]).map Call.openCount).sum
    rw [map_append, sum_append, h.count, map_singleton, Call.openCount, hopen]
    rfl
  · rw [hleaseOwner hl]
    rcases hmem c hc with rfl | hc
    · rw [hopen, hacts] at hrest
      cases hrest
    · exact h.owners hl c hc hrest

variable {stage : Stage}

theorem Inv.setStage (h : w.Inv) (hi : w.calls[i]? = some call)
    (hcalls : w'.calls = (w.setStage i stage).calls) (hlease : w'.operationLease = w.operationLease)
    (hmutex : w'.mutex = w.mutex) (hcount : w'.transactionsCount = w.transactionsCount)
    (hlive : call.stage ≠ .finished) (hbefore : call.stage ≠ .installed)
    (hafter : stage ≠ .installed) (hwait : ∀ lease, stage ≠ .waiting lease)
    (hok : Call.Ok { call with stage }) (hacts : Call.acts { call with stage } = call.acts)
    (hopen : Call.isOpen { call with stage } = call.isOpen) : w'.Inv := by
  refine h.change hi hcalls hlease hlive hbefore hafter rfl hok
    (fun lease hstage => absurd hstage (hwait lease)) ?_ (fun hnew => ?_) ?_ fun lease hl hrest => ?_
  · rw [hmutex, hacts]
    split
    · next htrue => exact h.mutex.mpr ⟨call, hi, htrue⟩
    · rfl
  · exact .inl (h.mutex.mpr ⟨call, hi, hacts ▸ hnew⟩)
  · rw [hcount, Call.openCount, Call.openCount, hopen]
  · rw [hacts, hopen] at hrest
    exact h.owners hl call (mem_of_getElem? hi) hrest

theorem blocking_eq_some {operationOwner : Option ℕ} : w.blocking operationOwner = some lease ↔
    w.operationLease = some lease ∧ operationOwner ≠ w.leaseOwner lease := by
  simp [blocking]

theorem checked_cases (w : World) (operationOwner : Option ℕ) :
    (∃ lease, w.checked operationOwner = .waiting lease ∧
      w.blocking operationOwner = some lease) ∨
    w.checked operationOwner = .admitted ∧ w.blocking operationOwner = none := by
  unfold checked
  cases hblocking : w.blocking operationOwner with
  | none => exact .inr ⟨rfl, rfl⟩
  | some lease => exact .inl ⟨lease, rfl, rfl⟩

theorem Inv.enter_checked (h : w.Inv) {kind : CallKind} (operationOwner : Option ℕ)
    (hstart : kind ≠ .startTransaction) (hoperation : kind ≠ .operation) :
    (w.enter ⟨kind, operationOwner, w.checked operationOwner, none⟩).Inv := by
  have hkind : ∀ stage, Call.acts ⟨kind, operationOwner, stage, none⟩ = false ∧
      Call.isOpen ⟨kind, operationOwner, stage, none⟩ = false := by
    intro stage
    simp [Call.acts, Call.isOpen, hstart]
  have hok : ∀ stage, stage ≠ .queued → stage ≠ .opened → stage ≠ .installed →
      (∀ tries, stage ≠ .executing tries) → (∀ tries, stage ≠ .backoff tries) →
      Call.Ok ⟨kind, operationOwner, stage, none⟩ := by
    intro stage hqueued hopened hinstalled hexecuting hbackoff
    refine ⟨fun tries hstage => absurd hstage (hbackoff tries), ?_⟩
    have hidle : ∀ tries, stage = .executing tries ∨ stage = .backoff tries →
        kind.isStatement = true := by
      rintro tries (hstage | hstage)
      · exact absurd hstage (hexecuting tries)
      · exact absurd hstage (hbackoff tries)
    cases kind with
    | startTransaction => exact absurd rfl hstart
    | operation => exact absurd rfl hoperation
    | query | affectedRows | afterCommit => exact ⟨hqueued, hopened, hinstalled, rfl, hidle⟩
  rcases checked_cases w operationOwner with ⟨lease, hchecked, hblocking⟩ | ⟨hchecked, -⟩
  · rw [hchecked]
    refine h.enter (hok _ nofun nofun nofun nofun nofun) nofun (fun lease' hstage => ?_)
      (hkind _).1 (hkind _).2
    cases hstage
    exact blocking_eq_some.mp hblocking
  · rw [hchecked]
    exact h.enter (hok _ nofun nofun nofun nofun nofun) nofun nofun (hkind _).1 (hkind _).2

theorem Inv.congr (h : w.Inv) (hcalls : w'.calls = w.calls)
    (hlease : w'.operationLease = w.operationLease) (hmutex : w'.mutex = w.mutex)
    (hcount : w'.transactionsCount = w.transactionsCount) : w'.Inv := by
  obtain ⟨operationLease, transactionsCount, mutex, frames, ran, calls⟩ := w
  obtain ⟨operationLease', transactionsCount', mutex', frames', ran', calls'⟩ := w'
  obtain rfl : calls' = calls := hcalls
  obtain rfl : operationLease' = operationLease := hlease
  obtain rfl : mutex' = mutex := hmutex
  obtain rfl : transactionsCount' = transactionsCount := hcount
  exact ⟨h.ok, h.installed, h.lease, h.waits, h.mutex, h.count, h.owners⟩

theorem popFrame_frame (w : World) (committed : Bool) :
    (w.popFrame committed).calls = w.calls ∧
      (w.popFrame committed).operationLease = w.operationLease ∧
      (w.popFrame committed).mutex = w.mutex ∧
      (w.popFrame committed).transactionsCount = w.transactionsCount := by
  unfold popFrame
  split
  · exact ⟨rfl, rfl, rfl, rfl⟩
  · split
    · split <;> exact ⟨rfl, rfl, rfl, rfl⟩
    · exact ⟨rfl, rfl, rfl, rfl⟩

theorem registerAfterCommit_frame (w : World) (callback : ℕ) :
    (w.registerAfterCommit callback).calls = w.calls ∧
      (w.registerAfterCommit callback).operationLease = w.operationLease ∧
      (w.registerAfterCommit callback).mutex = w.mutex ∧
      (w.registerAfterCommit callback).transactionsCount = w.transactionsCount := by
  unfold registerAfterCommit
  split <;> exact ⟨rfl, rfl, rfl, rfl⟩

theorem Inv.install (h : w.Inv) (hi : w.calls[i]? = some call) (hstage : call.stage = .queued)
    (hkind : call.kind = .operation) (hmutex : w.mutex = none) (hlease : w.operationLease = none)
    (hcount : w.transactionsCount = 0) :
    ({ w with operationLease := some i }.setStage i .installed).Inv := by
  have hmem : ∀ c ∈ (w.setStage i .installed).calls, c = { call with stage := .installed } ∨
      c ∈ w.calls := by
    intro c hc
    obtain ⟨j, hj⟩ := mem_iff_getElem?.mp hc
    exact (modify_cases hj hi).imp And.right fun hj => mem_of_getElem? hj.2
  have hclosed : ∀ c ∈ w.calls, c.isOpen = false := by
    intro c hc
    by_contra hopen
    have hle := single_le_sum (l := w.calls.map Call.openCount) (fun _ _ => Nat.zero_le _)
      (Call.openCount c) (mem_map_of_mem hc)
    rw [← h.count, hcount, Call.openCount, if_pos (Bool.of_not_eq_false hopen)] at hle
    exact absurd hle (by decide)
  have hidle : ∀ c ∈ w.calls, c.acts = false := by
    intro c hc
    obtain ⟨j, hj⟩ := mem_iff_getElem?.mp hc
    by_contra hacts
    cases hmutex.symm.trans (h.mutex.mpr ⟨c, hj, Bool.of_not_eq_false hacts⟩)
  have hnew : Call.isOpen { call with stage := .installed } = false ∧
      Call.acts { call with stage := .installed } = false := by
    simp [Call.isOpen, Call.acts, hkind]
  refine ⟨fun c hc => ?_, fun {lease} hl => ?_, fun {j c} hj hinstalled => ?_,
    fun {c lease} hc hwaits => ?_, fun {j} => ⟨fun hj => ?_, ?_⟩, ?_, fun {lease} hl c hc hrest => ?_⟩
  · rcases hmem c hc with rfl | hc
    · have hok := (h.ok call (mem_of_getElem? hi)).2
      rw [hkind] at hok
      refine ⟨nofun, ?_⟩
      show match call.kind with
        | .operation => _
        | .startTransaction => _
        | _ => _
      rw [hkind]
      exact ⟨.inr (.inl rfl), hok.2⟩
    · exact h.ok c hc
  · cases hl
    exact ⟨_, modify_self hi, rfl⟩
  · rcases modify_cases hj hi with ⟨rfl, -⟩ | ⟨-, hj⟩
    · rfl
    · cases hlease.symm.trans (h.lease hj hinstalled)
  · rcases hmem c hc with rfl | hc
    · cases hwaits
    · rcases h.waits hc hwaits with hreleased | ⟨hl, -⟩
      · exact .inl (released_modify rfl hi (by rw [hstage]; nofun) hreleased)
      · cases hlease.symm.trans hl
  · cases hmutex.symm.trans hj
  · rintro ⟨c, hj, hacts⟩
    rcases hmem c (mem_of_getElem? hj) with rfl | hc
    · cases hnew.2.symm.trans hacts
    · cases (hidle c hc).symm.trans hacts
  · have hsum := sum_map_modify hi (fun call => { call with stage := .installed }) Call.openCount
    have hbase := h.count
    have hafter : Call.openCount { call with stage := .installed } = 0 :=
      if_neg (by rw [hnew.1]; nofun)
    show w.transactionsCount = ((w.calls.modify i fun call =>
      { call with stage := .installed }).map Call.openCount).sum
    omega
  · rcases hmem c hc with rfl | hc
    · rw [hnew.1, hnew.2] at hrest
      cases hrest
    · rw [hclosed c hc, hidle c hc] at hrest
      cases hrest

theorem Inv.releaseLease (h : w.Inv) (hi : w.calls[i]? = some call)
    (hstage : call.stage = .installed) : (w.releaseLease i).Inv := by
  have hlease := h.lease hi hstage
  have hnone : (w.releaseLease i).operationLease = none := if_pos hlease
  have hmem : ∀ c ∈ (w.releaseLease i).calls, c = { call with stage := .finished } ∨
      c ∈ w.calls := by
    intro c hc
    obtain ⟨j, hj⟩ := mem_iff_getElem?.mp hc
    exact (modify_cases hj hi).imp And.right fun hj => mem_of_getElem? hj.2
  have hcallOk := (h.ok call (mem_of_getElem? hi)).2
  have hkind : call.kind = .operation := by
    cases hk : call.kind with
    | operation => rfl
    | startTransaction =>
      rw [hk] at hcallOk
      exact absurd hstage hcallOk.1
    | query | affectedRows | afterCommit =>
      rw [hk] at hcallOk
      exact absurd hstage hcallOk.2.2.1
  have hacts : ∀ stage, Call.acts { call with stage } = false := by
    simp [Call.acts, hkind]
  have hopen : ∀ stage, Call.isOpen { call with stage } = false := by
    simp [Call.isOpen, hkind]
  refine ⟨fun c hc => ?_, fun {lease} hl => ?_, fun {j c} hj hinstalled => ?_,
    fun {c lease} hc hwaits => ?_, fun {j} => ⟨fun hj => ?_, ?_⟩, ?_, fun {lease} hl => ?_⟩
  · rcases hmem c hc with rfl | hc
    · rw [hkind] at hcallOk
      refine ⟨nofun, ?_⟩
      show match call.kind with
        | .operation => _
        | .startTransaction => _
        | _ => _
      rw [hkind]
      exact ⟨.inr (.inr rfl), hcallOk.2⟩
    · exact h.ok c hc
  · cases hnone.symm.trans hl
  · rcases modify_cases hj hi with ⟨-, rfl⟩ | ⟨hji, hj⟩
    · cases hinstalled
    · exact absurd (Option.some.inj ((h.lease hj hinstalled).symm.trans hlease)) hji
  · rcases hmem c hc with rfl | hc
    · cases hwaits
    · rcases h.waits hc hwaits with hreleased | ⟨hl, -⟩
      · have hne : i ≠ lease := by
          rintro rfl
          rw [released_eq hi, hstage] at hreleased
          cases hreleased
        refine .inl ?_
        show (((w.calls.modify i _)[lease]?).any _) = true
        rwa [getElem?_modify_ne _ _ hne]
      · cases hlease.symm.trans hl
        exact .inl ((released_eq (modify_self hi)).trans rfl)
  · obtain ⟨c, hc, hacting⟩ := h.mutex.mp hj
    refine ⟨c, modify_of_ne ?_ hc, hacting⟩
    rintro rfl
    cases hi.symm.trans hc
    cases (hacts call.stage).symm.trans hacting
  · rintro ⟨c, hj, hacting⟩
    rcases modify_cases hj hi with ⟨-, rfl⟩ | ⟨-, hj⟩
    · cases (hacts .finished).symm.trans hacting
    · exact h.mutex.mpr ⟨c, hj, hacting⟩
  · have hsum := sum_map_modify hi (fun call => { call with stage := .finished }) Call.openCount
    have hbase := h.count
    have hbefore : call.openCount = 0 := if_neg (by rw [hopen call.stage]; nofun)
    have hafter : Call.openCount { call with stage := .finished } = 0 :=
      if_neg (by rw [hopen .finished]; nofun)
    show w.transactionsCount = ((w.calls.modify i fun call =>
      { call with stage := .finished }).map Call.openCount).sum
    omega
  · cases hnone.symm.trans hl

/-! ### The other steps -/

theorem ok_finished (h : call.Ok) : Call.Ok { call with stage := .finished } := by
  obtain ⟨kind, operationOwner, stage, ending⟩ := call
  refine ⟨nofun, ?_⟩
  cases kind with
  | operation => exact ⟨.inr (.inr rfl), h.2.2⟩
  | startTransaction => exact ⟨nofun, nofun⟩
  | query | affectedRows | afterCommit => exact ⟨nofun, nofun, nofun, h.2.2.2.2.1, by simp⟩

theorem ok_running (h : call.Ok) (hkind : call.kind ≠ .operation)
    (hrunning : stage.isRunning = true)
    (htries : ∀ tries, stage = .backoff tries → tries < maxTries)
    (hstatement : call.kind ≠ .startTransaction → call.kind.isStatement = true) :
    Call.Ok { call with stage } := by
  obtain ⟨kind, operationOwner, before, ending⟩ := call
  have hqueued : stage ≠ .queued := by rintro rfl; cases hrunning
  have hopened : stage ≠ .opened := by rintro rfl; cases hrunning
  have hinstalled : stage ≠ .installed := by rintro rfl; cases hrunning
  refine ⟨htries, ?_⟩
  cases kind with
  | operation => exact absurd rfl hkind
  | startTransaction => exact ⟨hinstalled, fun heq => absurd heq hopened⟩
  | query | affectedRows | afterCommit =>
    exact ⟨hqueued, hopened, hinstalled, h.2.2.2.2.1, fun _ _ => hstatement nofun⟩

variable {tries : ℕ}

theorem isStatement_of_executing (h : call.Ok)
    (hstage : call.stage = .executing tries ∨ call.stage = .backoff tries)
    (hkind : call.kind ≠ .startTransaction) : call.kind.isStatement = true := by
  obtain ⟨kind, operationOwner, stage, ending⟩ := call
  cases kind with
  | operation =>
    rcases hstage with rfl | rfl <;> rcases h.2.1 with heq | heq | heq <;> cases heq
  | startTransaction => exact absurd rfl hkind
  | query | affectedRows | afterCommit => exact h.2.2.2.2.2 tries hstage

theorem kind_of_stage (h : call.Ok) (hqueued : call.stage ≠ .queued)
    (hinstalled : call.stage ≠ .installed) (hfinished : call.stage ≠ .finished) :
    call.kind ≠ .operation := by
  intro hkind
  have hok := h.2
  rw [hkind] at hok
  rcases hok.1 with heq | heq | heq
  · exact hqueued heq
  · exact hinstalled heq
  · exact hfinished heq

theorem acts_eq (hkind : call.kind ≠ .startTransaction) (stage : Stage) :
    Call.acts { call with stage } = false := by
  simp [Call.acts, hkind]

theorem isOpen_eq (hkind : call.kind ≠ .startTransaction) (stage : Stage) :
    Call.isOpen { call with stage } = false := by
  simp [Call.isOpen, hkind]

section
variable (h : w.Inv) (hi : w.calls[i]? = some call)
include h hi

theorem Inv.proceed (hstage : call.stage = .admitted ∨ ∃ lease, call.stage = .waiting lease) :
    (w.proceed i call).Inv := by
  have hok := h.ok call (mem_of_getElem? hi)
  have hlive : call.stage ≠ .finished := by
    rcases hstage with heq | ⟨lease, heq⟩ <;> rw [heq] <;> nofun
  have hbefore : call.stage ≠ .installed := by
    rcases hstage with heq | ⟨lease, heq⟩ <;> rw [heq] <;> nofun
  have hwaited : call.stage ≠ .queued := by
    rcases hstage with heq | ⟨lease, heq⟩ <;> rw [heq] <;> nofun
  have hoperation := kind_of_stage hok hwaited hbefore hlive
  have hgo : ∀ {w' : World} (stage : Stage), call.kind ≠ .startTransaction →
      w'.calls = (w.setStage i stage).calls → w'.operationLease = w.operationLease →
      w'.mutex = w.mutex → w'.transactionsCount = w.transactionsCount →
      (stage = .executing 1 ∧ call.kind.isStatement = true ∨ stage = .finished) → w'.Inv := by
    intro w' stage hkind hcalls hlease hmutex hcount hnext
    refine h.setStage hi hcalls hlease hmutex hcount hlive hbefore ?_ ?_ ?_
      ((acts_eq hkind stage).trans (acts_eq hkind call.stage).symm)
      ((isOpen_eq hkind stage).trans (isOpen_eq hkind call.stage).symm)
    · rcases hnext with ⟨rfl, -⟩ | rfl <;> nofun
    · rcases hnext with ⟨rfl, -⟩ | rfl <;> nofun
    · rcases hnext with ⟨rfl, hstatement⟩ | rfl
      · exact ok_running hok hoperation rfl nofun fun _ => hstatement
      · exact ok_finished hok
  unfold World.proceed
  cases hkind : call.kind with
  | operation => exact absurd hkind hoperation
  | query writable | affectedRows writable =>
    refine hgo _ (by rw [hkind]; nofun) rfl rfl rfl rfl ?_
    cases writable with
    | true => exact .inl ⟨rfl, by rw [hkind]; rfl⟩
    | false => exact .inr rfl
  | afterCommit callback =>
    obtain ⟨hcalls, hlease, hmutex, hcount⟩ := registerAfterCommit_frame w callback
    refine hgo .finished (by rw [hkind]; nofun) ?_ hlease hmutex hcount (.inr rfl)
    show (w.registerAfterCommit callback).calls.modify i _ = w.calls.modify i _
    rw [hcalls]
  | startTransaction =>
    rcases hstage with hadmitted | ⟨lease, hwaits⟩
    · -- it is in the mutex
      have hacts : call.acts = true := by simp [Call.acts, hkind, hadmitted, Stage.isRunning]
      have hmutex := h.mutex.mpr ⟨call, hi, hacts⟩
      rw [if_pos hmutex]
      refine h.setStage hi rfl rfl rfl rfl hlive hbefore nofun nofun
        (ok_running hok hoperation rfl nofun fun hne => absurd hkind hne) ?_ ?_
      · rw [hacts]
        simp [Call.acts, hkind, Stage.isRunning]
      · simp [Call.isOpen, hadmitted]
    · have hacts : call.acts = false := by simp [Call.acts, hwaits, Stage.isRunning]
      have hmutex : w.mutex ≠ some i := by
        intro hmutex
        obtain ⟨c, hc, hacting⟩ := h.mutex.mp hmutex
        cases hi.symm.trans hc
        cases hacts.symm.trans hacting
      rw [if_neg hmutex]
      refine h.setStage hi rfl rfl rfl rfl hlive hbefore nofun nofun ?_ ?_ ?_
      · refine ⟨nofun, ?_⟩
        rw [hkind]
        exact ⟨nofun, nofun⟩
      · rw [hacts]
        simp [Call.acts, Stage.isRunning]
      · simp [Call.isOpen, hwaits]

theorem Inv.enterMutex (hstage : call.stage = .queued)
    (hmutex : w.mutex = none) : (w.enterMutex i call).Inv := by
  have hmem := mem_of_getElem? hi
  have hok := h.ok call hmem
  have hlive : call.stage ≠ .finished := by rw [hstage]; nofun
  have hbefore : call.stage ≠ .installed := by rw [hstage]; nofun
  have hidle : call.acts = false := by simp [Call.acts, hstage, Stage.isRunning]
  unfold World.enterMutex
  cases hkind : call.kind with
  | query writable | affectedRows writable | afterCommit callback =>
    have hnot := hok.2
    rw [hkind] at hnot
    exact absurd hstage hnot.1
  | operation =>
    have hnot : call.kind ≠ .startTransaction := by rw [hkind]; nofun
    simp only
    unfold setOperationLease
    split
    · exact h.setStage hi rfl rfl rfl rfl hlive hbefore nofun nofun (ok_finished hok)
        ((acts_eq hnot _).trans (acts_eq hnot call.stage).symm)
        ((isOpen_eq hnot _).trans (isOpen_eq hnot call.stage).symm)
    · next hnone =>
      simp only [Bool.or_eq_true, decide_eq_true_eq, not_or, Bool.not_eq_true,
        Option.isSome_eq_false_iff, Option.isNone_iff_eq_none, not_lt, Nat.le_zero] at hnone
      exact h.install hi hstage hkind hmutex hnone.1 hnone.2
  | startTransaction =>
    have hstart : ∀ stage, stage ≠ .installed → stage ≠ .opened →
        (∀ tries, stage ≠ .backoff tries) → Call.Ok { call with stage } := by
      intro stage hinstalled hopened hbackoff
      refine ⟨fun tries heq => absurd heq (hbackoff tries), ?_⟩
      rw [hkind]
      exact ⟨hinstalled, fun heq => absurd heq hopened⟩
    have hadmit : (∀ lease, w.operationLease = some lease →
        call.operationOwner = w.leaseOwner lease) →
        ({ w with mutex := some i }.setStage i .admitted).Inv := by
      intro howned
      have hacts : Call.acts { call with stage := .admitted } = true := by
        simp [Call.acts, hkind, Stage.isRunning]
      refine h.change hi rfl rfl hlive hbefore nofun rfl (hstart _ nofun nofun nofun) nofun ?_
        (fun _ => .inr hmutex) ?_ fun lease hl _ => howned lease hl
      · rw [if_pos hacts]
        rfl
      · rw [Call.openCount, Call.openCount]
        simp [Call.isOpen, hstage, World.setStage]
    cases hending : call.ending with
    | none =>
      cases hblocking : w.blocking call.operationOwner with
      | none =>
        refine hadmit fun lease hl => ?_
        by_contra hne
        cases hblocking.symm.trans (blocking_eq_some.mpr ⟨hl, hne⟩)
      | some lease =>
        refine h.change hi rfl rfl hlive hbefore nofun rfl (hstart _ nofun nofun nofun)
          (fun lease' heq => ?_) ?_ (fun hacts => ?_) ?_ fun lease' hl hrest => ?_
        · cases heq
          exact blocking_eq_some.mp hblocking
        · rw [hidle]
          simp [Call.acts, Stage.isRunning, World.setStage]
        · simp [Call.acts, Stage.isRunning] at hacts
        · simp [Call.openCount, Call.isOpen, hstage, World.setStage]
        · simp [Call.isOpen, Call.acts, hending, Stage.isRunning] at hrest
    | some rollback =>
      have hopen : call.isOpen = true := by simp [Call.isOpen, hkind, hending, hstage]
      have howned : ∀ lease, w.operationLease = some lease →
          call.operationOwner = w.leaseOwner lease :=
        fun lease hl => h.owners hl call hmem (by rw [hopen]; rfl)
      rcases checked_cases w call.operationOwner with ⟨lease, -, hblocking⟩ | ⟨hchecked, -⟩
      · obtain ⟨hl, hne⟩ := blocking_eq_some.mp hblocking
        exact absurd (howned lease hl) hne
      · rw [hchecked]
        exact hadmit howned

theorem Inv.endTransaction (hstage : call.stage = .opened) (rollback : Bool) :
    World.Inv { w with
      calls := w.calls.modify i fun call =>
        { call with stage := .queued, ending := some rollback } } := by
  have hmem := mem_of_getElem? hi
  have hok := h.ok call hmem
  have hkind : call.kind = .startTransaction := by
    have hcases := hok.2
    cases hk : call.kind with
    | startTransaction => rfl
    | operation =>
      rw [hk] at hcases
      rcases hcases.1 with heq | heq | heq <;> cases hstage.symm.trans heq
    | query | affectedRows | afterCommit =>
      rw [hk] at hcases
      exact absurd hstage hcases.2.1
  have hopen : call.isOpen = true := by simp [Call.isOpen, hkind, hstage]
  refine h.change hi rfl rfl (by rw [hstage]; nofun) (by rw [hstage]; nofun) nofun rfl ⟨nofun, ?_⟩
    nofun ?_ (fun hacts => ?_) ?_ fun lease hl _ => h.owners hl call hmem (by rw [hopen]; rfl)
  · rw [hkind]
    exact ⟨nofun, nofun⟩
  · simp [Call.acts, Stage.isRunning, hstage]
  · simp [Call.acts, Stage.isRunning] at hacts
  · simp [Call.openCount, Call.isOpen, hstage]

theorem Inv.finish (hstage : call.stage = .executing tries) (ok : Bool) : (w.finish i call ok).Inv := by
  have hmem := mem_of_getElem? hi
  have hok := h.ok call hmem
  have hlive : call.stage ≠ .finished := by rw [hstage]; nofun
  have hbefore : call.stage ≠ .installed := by rw [hstage]; nofun
  unfold World.finish
  by_cases hkind : call.kind = .startTransaction
  · have hacts : call.acts = true := by simp [Call.acts, hkind, hstage, Stage.isRunning]
    have howned : ∀ lease, w.operationLease = some lease →
        call.operationOwner = w.leaseOwner lease :=
      fun lease hl => h.owners hl call hmem (by rw [hacts, Bool.or_true])
    have hdone : ∀ {w' : World} {f : Call → Call}, w'.calls = w.calls.modify i f →
        w'.operationLease = w.operationLease → w'.mutex = none →
        (f call).operationOwner = call.operationOwner → (f call).Ok →
        ((f call).stage = .opened ∨ (f call).stage = .finished) →
        w'.transactionsCount + call.openCount = w.transactionsCount + (f call).openCount →
        w'.Inv := by
      intro w' f hcalls hlease hmutex howner hokAfter hafter hcount
      have hidle : (f call).acts = false := by
        rcases hafter with heq | heq <;> simp [Call.acts, heq, Stage.isRunning]
      refine h.change hi hcalls hlease hlive hbefore ?_ howner hokAfter ?_ ?_ ?_ hcount
        fun lease hl _ => howned lease hl
      · rcases hafter with heq | heq <;> rw [heq] <;> nofun
      · rcases hafter with heq | heq <;> rw [heq] <;> nofun
      · rw [hmutex, hidle, hacts]
        rfl
      · rw [hidle]
        nofun
    rw [hkind]
    cases hending : call.ending with
    | none =>
      have hclosed : call.openCount = 0 := by
        simp [Call.openCount, Call.isOpen, hstage, hending]
      cases ok with
      | true =>
        refine hdone (f := fun call => { call with stage := .opened }) rfl rfl rfl rfl
          ⟨nofun, ?_⟩ (.inl rfl) ?_
        · rw [hkind]
          exact ⟨nofun, fun _ => hending⟩
        · have hopened : Call.openCount { call with stage := .opened } = 1 := by
            simp [Call.openCount, Call.isOpen, hkind]
          rw [hclosed, hopened]
          rfl
      | false =>
        refine hdone (f := fun call => { call with stage := .finished }) rfl rfl rfl rfl
          (ok_finished hok) (.inr rfl) ?_
        have hover : Call.openCount { call with stage := .finished } = 0 := by
          simp [Call.openCount, Call.isOpen]
        rw [hclosed, hover]
        rfl
    | some rollback =>
      have hopened : call.openCount = 1 := by
        simp [Call.openCount, Call.isOpen, hkind, hstage, hending]
      have hover : Call.openCount { call with stage := .finished } = 0 := by
        simp [Call.openCount, Call.isOpen]
      simp only
      split
      · refine hdone (f := fun call => { call with stage := .finished }) rfl rfl rfl rfl
          (ok_finished hok) (.inr rfl) ?_
        have hsum := sum_map_modify hi (fun call => { call with stage := .finished })
          Call.openCount
        have hbase := h.count
        show w.transactionsCount - 1 + call.openCount = w.transactionsCount + _
        omega
      · refine hdone (f := fun call => { call with stage := .opened, ending := none }) rfl rfl rfl
          rfl ⟨nofun, ?_⟩ (.inl rfl) ?_
        · rw [hkind]
          exact ⟨nofun, fun _ => rfl⟩
        · have hagain : Call.openCount { call with stage := .opened, ending := none } = 1 := by
            simp [Call.openCount, Call.isOpen, hkind]
          rw [hopened, hagain]
  · have hgo : (w.setStage i .finished).Inv :=
      h.setStage hi rfl rfl rfl rfl hlive hbefore nofun nofun (ok_finished hok)
        ((acts_eq hkind _).trans (acts_eq hkind call.stage).symm)
        ((isOpen_eq hkind _).trans (isOpen_eq hkind call.stage).symm)
    cases hk : call.kind with
    | startTransaction => exact absurd hk hkind
    | query | affectedRows | afterCommit | operation => exact hgo

theorem Inv.rerun (hbefore : call.stage.isRunning = true) (hafter : stage.isRunning = true)
    (htries : ∀ tries, stage = .backoff tries → tries < maxTries)
    (hstatement : call.kind ≠ .startTransaction → call.kind.isStatement = true) :
    (w.setStage i stage).Inv := by
  have hok := h.ok call (mem_of_getElem? hi)
  have hlive : call.stage ≠ .finished := by intro heq; rw [heq] at hbefore; cases hbefore
  have hinstalled : call.stage ≠ .installed := by intro heq; rw [heq] at hbefore; cases hbefore
  have hqueued : call.stage ≠ .queued := by intro heq; rw [heq] at hbefore; cases hbefore
  have hopened : call.stage ≠ .opened := by intro heq; rw [heq] at hbefore; cases hbefore
  have hopened' : stage ≠ .opened := by rintro rfl; cases hafter
  have hfinished' : stage ≠ .finished := by rintro rfl; cases hafter
  refine h.setStage hi rfl rfl rfl rfl hlive hinstalled ?_ ?_
    (ok_running hok (kind_of_stage hok hqueued hinstalled hlive) hafter htries hstatement) ?_ ?_
  · rintro rfl
    cases hafter
  · rintro lease rfl
    cases hafter
  · simp [Call.acts, hbefore, hafter]
  · simp [Call.isOpen, hopened, hopened', hlive, hfinished']

theorem Inv.settle (hstage : call.stage = .executing tries) (outcome : Outcome) :
    (w.settle i call tries outcome).Inv := by
  unfold World.settle
  split
  · exact h.finish hi hstage false
  · split
    · next hlt =>
      refine h.rerun hi (by rw [hstage]; rfl) rfl (fun tries' heq => ?_)
        (isStatement_of_executing (h.ok call (mem_of_getElem? hi)) (.inl hstage))
      cases heq
      exact hlt
    · exact h.finish hi hstage false
  · exact h.finish hi hstage true
  · exact h.finish hi hstage false

end

/-! ## Runs -/

/-- What an enabled step does. -/
inductive Happens (w : World) : LeaseAction → World → Prop
  | checked {a kind} (operationOwner : Option ℕ) (hinternal : a.isInternal = false)
      (hstart : kind ≠ CallKind.startTransaction) (hoperation : kind ≠ .operation) :
      Happens w a (w.enter ⟨kind, operationOwner, w.checked operationOwner, none⟩)
  | queued {a kind} (operationOwner : Option ℕ) (hinternal : a.isInternal = false)
      (hkind : kind = CallKind.startTransaction ∨ kind = .operation) :
      Happens w a (w.enter ⟨kind, operationOwner, .queued, none⟩)
  | endTransaction {i : ℕ} {call : Call} (rollback : Bool) (hi : w.calls[i]? = some call)
      (hstage : call.stage = .opened) : Happens w (.endTransaction i rollback) { w with
        calls := w.calls.modify i fun call =>
          { call with stage := .queued, ending := some rollback } }
  | release {i : ℕ} {call : Call} (hi : w.calls[i]? = some call)
      (hstage : call.stage = .installed) : Happens w (.releaseOperation i) (w.releaseLease i)
  | frames {a : LeaseAction} {w' : World} (hinternal : a.isInternal = false)
      (hcalls : w'.calls = w.calls) (hlease : w'.operationLease = w.operationLease)
      (hmutex : w'.mutex = w.mutex) (hcount : w'.transactionsCount = w.transactionsCount) :
      Happens w a w'
  | proceed {i : ℕ} {call : Call} (hi : w.calls[i]? = some call)
      (hstage : call.stage = .admitted ∨
        ∃ lease, call.stage = .waiting lease ∧ w.released lease = true) :
      Happens w (.resume i) (w.proceed i call)
  | enterMutex {i : ℕ} {call : Call} (hi : w.calls[i]? = some call)
      (hstage : call.stage = .queued) (hmutex : w.mutex = none) :
      Happens w (.enterMutex i) (w.enterMutex i call)
  | settle {i tries : ℕ} {call : Call} (outcome : Outcome) (hi : w.calls[i]? = some call)
      (hstage : call.stage = .executing tries) :
      Happens w (.settle i outcome) (w.settle i call tries outcome)
  | retry {i tries : ℕ} {call : Call} (hi : w.calls[i]? = some call)
      (hstage : call.stage = .backoff tries) (hlt : tries < maxTries) :
      Happens w (.retry i) (w.setStage i (.executing (tries + 1)))

variable {a : LeaseAction}

theorem happens_of_step (hstep : w.step a = some w') : w.Happens a w' := by
  cases a with
  | query operationOwner writable =>
    cases hstep
    exact .checked operationOwner rfl nofun nofun
  | affectedRows operationOwner writable =>
    cases hstep
    exact .checked operationOwner rfl nofun nofun
  | afterCommit operationOwner callback =>
    cases hstep
    exact .checked operationOwner rfl nofun nofun
  | startTransaction operationOwner =>
    cases hstep
    exact .queued operationOwner rfl (.inl rfl)
  | operation owner =>
    cases hstep
    exact .queued (some owner) rfl (.inr rfl)
  | endTransaction i rollback =>
    simp only [step] at hstep
    split at hstep
    · next hi =>
      cases hstep
      exact .endTransaction rollback hi rfl
    · cases hstep
  | releaseOperation i =>
    simp only [step] at hstep
    split at hstep
    · next hi =>
      cases hstep
      exact .release hi rfl
    · cases hstep
  | pushFrame =>
    cases hstep
    exact .frames rfl rfl rfl rfl rfl
  | popFrame committed =>
    cases hstep
    obtain ⟨hcalls, hlease, hmutex, hcount⟩ := popFrame_frame w committed
    exact .frames rfl hcalls hlease hmutex hcount
  | resume i =>
    simp only [step] at hstep
    split at hstep
    · next call hi =>
      split at hstep
      · next hadmitted =>
        cases hstep
        exact .proceed hi (.inl hadmitted)
      · next lease hwaits =>
        split at hstep
        · next hreleased =>
          cases hstep
          exact .proceed hi (.inr ⟨lease, hwaits, hreleased⟩)
        · cases hstep
      · cases hstep
    · cases hstep
  | enterMutex i =>
    simp only [step] at hstep
    split at hstep
    · next call hi =>
      split at hstep
      · next hcond =>
        cases hstep
        exact .enterMutex hi hcond.1 hcond.2
      · cases hstep
    · cases hstep
  | settle i outcome =>
    simp only [step] at hstep
    split at hstep
    · next call hi =>
      split at hstep
      · next tries hstage =>
        cases hstep
        exact .settle outcome hi hstage
      · cases hstep
    · cases hstep
  | retry i =>
    simp only [step] at hstep
    split at hstep
    · next call hi =>
      split at hstep
      · next tries hstage =>
        split at hstep
        · next hlt =>
          cases hstep
          exact .retry hi hstage hlt
        · cases hstep
      · cases hstep
    · cases hstep

theorem Inv.step {a : LeaseAction} (h : w.Inv) (hstep : w.step a = some w') : w'.Inv := by
  cases happens_of_step hstep with
  | checked operationOwner _ hstart hoperation =>
    exact h.enter_checked operationOwner hstart hoperation
  | queued operationOwner _ hkind =>
    refine h.enter ⟨nofun, ?_⟩ nofun nofun ?_ ?_
    · rcases hkind with rfl | rfl
      · exact ⟨nofun, nofun⟩
      · exact ⟨.inl rfl, rfl⟩
    · simp [Call.acts, Stage.isRunning]
    · simp [Call.isOpen]
  | endTransaction rollback hi hstage => exact h.endTransaction hi hstage rollback
  | release hi hstage => exact h.releaseLease hi hstage
  | frames _ hcalls hlease hmutex hcount => exact h.congr hcalls hlease hmutex hcount
  | proceed hi hstage =>
    exact h.proceed hi (hstage.imp_right fun ⟨lease, hwaits, _⟩ => ⟨lease, hwaits⟩)
  | enterMutex hi hstage hmutex => exact h.enterMutex hi hstage hmutex
  | settle outcome hi hstage => exact h.settle hi hstage outcome
  | retry hi hstage hlt =>
    refine h.rerun hi (by rw [hstage]; rfl) rfl nofun fun hkind => ?_
    exact isStatement_of_executing (h.ok _ (mem_of_getElem? hi)) (.inr hstage) hkind

theorem inv_init : init.Inv where
  ok := nofun
  installed := nofun
  lease := nofun
  waits := nofun
  mutex := ⟨nofun, fun ⟨_, hj, _⟩ => by cases hj⟩
  count := rfl
  owners := nofun

section
variable (h : w.Inv) (hcalls : w'.calls = w.calls.modify i f) (hi : w.calls[i]? = some call)
  (hlive : call.stage ≠ .finished) (hbefore : call.stage ≠ .installed) (hc : c ∈ w.calls)
include h hcalls hi hlive hbefore hc

theorem Inv.released_waits (hwaits : c.stage = .waiting lease) :
    w'.released lease = w.released lease := by
  have hne : i ≠ lease := by
    rintro rfl
    rcases h.waits hc hwaits with hreleased | ⟨hl, -⟩
    · rw [released_eq hi, decide_eq_true_eq] at hreleased
      exact hlive hreleased
    · obtain ⟨operation, hoperation, hstage⟩ := h.installed hl
      cases hi.symm.trans hoperation
      exact hbefore hstage
  rw [released, released, hcalls, getElem?_modify_ne _ _ hne]

theorem Inv.inFlight_others : w'.inFlight c = w.inFlight c := by
  unfold inFlight
  split
  · next lease hwaits => exact h.released_waits hcalls hi hlive hbefore hc hwaits
  · rfl

theorem Inv.callWork_others : w'.callWork c = w.callWork c := by
  unfold callWork
  split
  · next lease hwaits => rw [h.released_waits hcalls hi hlive hbefore hc hwaits]
  all_goals rfl

end

/-- A step that needs no caller takes one call further: it installs the call's lease, or puts no
    statement in flight, and less is left to do for the call. -/
structure Advances (w w' : World) (i : ℕ) (call : Call) (f : Call → Call) : Prop where
  calls : w'.calls = w.calls.modify i f
  kind : (f call).kind = call.kind
  owner : (f call).operationOwner = call.operationOwner
  live : call.stage ≠ .finished
  before : call.stage ≠ .installed
  lease : w'.operationLease = w.operationLease ∨
    call.kind = .operation ∧ w.operationLease = none ∧ w.transactionsCount = 0 ∧
      w'.operationLease = some i
  flight : call.kind.isStatement = true → w.inFlight call = true
  work : w'.callWork (f call) < w.callWork call

theorem work_executing (hstage : call.stage = .executing tries) :
    w.callWork call = 2 * (maxTries - tries) + 1 := by
  rw [callWork, hstage]

theorem Inv.proceed_advances (h : w.Inv) (hi : w.calls[i]? = some call)
    (hstage : call.stage = .admitted ∨
      ∃ lease, call.stage = .waiting lease ∧ w.released lease = true) :
    ∃ f, w.Advances (w.proceed i call) i call f := by
  have hflight : w.inFlight call = true := by
    unfold inFlight
    rcases hstage with heq | ⟨lease, heq, hreleased⟩
    · rw [heq]
      rfl
    · rw [heq]
      exact hreleased
  have hwork : 10 ≤ w.callWork call := by
    unfold callWork
    rcases hstage with heq | ⟨lease, heq, hreleased⟩
    · rw [heq]
    · rw [heq]
      simp [hreleased]
  have hlive : call.stage ≠ .finished := by
    rcases hstage with heq | ⟨lease, heq, -⟩ <;> rw [heq] <;> nofun
  have hbefore : call.stage ≠ .installed := by
    rcases hstage with heq | ⟨lease, heq, -⟩ <;> rw [heq] <;> nofun
  have hgo : ∀ {w' : World} (stage : Stage), w'.calls = (w.setStage i stage).calls →
      w'.operationLease = w.operationLease →
      w'.callWork { call with stage } < w.callWork call →
      ∃ f, w.Advances w' i call f := fun stage hcalls hlease hless =>
    ⟨_, hcalls, rfl, rfl, hlive, hbefore, .inl hlease, fun _ => hflight, hless⟩
  have hexecuting : ∀ w' : World, w'.callWork { call with stage := .executing 1 } <
      w.callWork call := fun _ => lt_of_lt_of_le (by decide : 9 < 10) hwork
  have hfinished : ∀ w' : World, w'.callWork { call with stage := .finished } <
      w.callWork call := fun _ => lt_of_lt_of_le (by decide : 0 < 10) hwork
  unfold World.proceed
  cases hkind : call.kind with
  | operation =>
    refine absurd hkind (kind_of_stage (h.ok call (mem_of_getElem? hi)) ?_ hbefore hlive)
    rcases hstage with heq | ⟨lease, heq, -⟩ <;> rw [heq] <;> nofun
  | query writable | affectedRows writable =>
    cases writable with
    | true => exact hgo (.executing 1) rfl rfl (hexecuting _)
    | false => exact hgo .finished rfl rfl (hfinished _)
  | afterCommit callback =>
    obtain ⟨hcalls, hlease, -, -⟩ := registerAfterCommit_frame w callback
    refine hgo .finished ?_ hlease (hfinished _)
    show (w.registerAfterCommit callback).calls.modify i _ = w.calls.modify i _
    rw [hcalls]
  | startTransaction =>
    by_cases hmutex : w.mutex = some i
    · simp only [if_pos hmutex]
      exact hgo _ rfl rfl (hexecuting _)
    · simp only [if_neg hmutex]
      refine hgo _ rfl rfl ?_
      rcases hstage with hadmitted | ⟨lease, hwaits, hreleased⟩
      · -- an admitted transaction action is in the mutex
        exact absurd (h.mutex.mpr ⟨call, hi, by simp [Call.acts, hkind, hadmitted,
          Stage.isRunning]⟩) hmutex
      · have htwelve : w.callWork call = 12 := by
          rw [callWork, hwaits]
          simp [hreleased]
        rw [htwelve]
        exact (by decide : 11 < 12)

theorem Inv.enterMutex_advances (h : w.Inv) (hi : w.calls[i]? = some call)
    (hstage : call.stage = .queued) : ∃ f, w.Advances (w.enterMutex i call) i call f := by
  have hok := h.ok call (mem_of_getElem? hi)
  have hlive : call.stage ≠ .finished := by rw [hstage]; nofun
  have hbefore : call.stage ≠ .installed := by rw [hstage]; nofun
  have hwork : w.callWork call = 11 := by rw [callWork, hstage]
  unfold World.enterMutex
  cases hkind : call.kind with
  | query writable | affectedRows writable | afterCommit callback =>
    have hnot := hok.2
    rw [hkind] at hnot
    exact absurd hstage hnot.1
  | operation =>
    have hstatement : call.kind.isStatement = true → w.inFlight call = true := by
      rw [hkind]
      nofun
    simp only
    unfold setOperationLease
    split
    · exact ⟨_, rfl, rfl, rfl, hlive, hbefore, .inl rfl, hstatement, hwork ▸ (by decide : 0 < 11)⟩
    · next hnone =>
      simp only [Bool.or_eq_true, decide_eq_true_eq, not_or, Bool.not_eq_true,
        Option.isSome_eq_false_iff, Option.isNone_iff_eq_none, not_lt, Nat.le_zero] at hnone
      exact ⟨_, rfl, rfl, rfl, hlive, hbefore, .inr ⟨hkind, hnone.1, hnone.2, rfl⟩, hstatement,
        hwork ▸ (by decide : 0 < 11)⟩
  | startTransaction =>
    have hstatement : call.kind.isStatement = true → w.inFlight call = true := by
      rw [hkind]
      nofun
    have hadmit : w.Advances ({ w with mutex := some i }.setStage i .admitted) i call
        fun call => { call with stage := .admitted } :=
      ⟨rfl, rfl, rfl, hlive, hbefore, .inl rfl, hstatement, hwork ▸ (by decide : 10 < 11)⟩
    have hwait : ∀ {w' : World} {lease : ℕ}, w.blocking call.operationOwner = some lease →
        w'.calls = (w.setStage i (.waiting lease)).calls → w'.operationLease = w.operationLease →
        w.Advances w' i call fun call => { call with stage := .waiting lease } := by
      intro w' lease hblocking hcalls hlease
      refine ⟨hcalls, rfl, rfl, hlive, hbefore, .inl hlease, hstatement, ?_⟩
      obtain ⟨operation, hoperation, hinstalled⟩ := h.installed (blocking_eq_some.mp hblocking).1
      have hne : lease ≠ i := by
        rintro rfl
        cases hi.symm.trans hoperation
        exact hbefore hinstalled
      have hreleased : w'.released lease = false := by
        have hsame : w'.calls[lease]? = some operation := by
          rw [hcalls]
          exact modify_of_ne hne hoperation
        rw [released_eq hsame, hinstalled]
        rfl
      rw [hwork]
      simp [callWork, hreleased]
    cases hending : call.ending with
    | none =>
      cases hblocking : w.blocking call.operationOwner with
      | none => exact ⟨_, hadmit⟩
      | some lease => exact ⟨_, hwait hblocking rfl rfl⟩
    | some rollback =>
      rcases checked_cases w call.operationOwner with ⟨lease, hchecked, hblocking⟩ | ⟨hchecked, -⟩
      · rw [hchecked]
        exact ⟨_, hwait hblocking rfl rfl⟩
      · rw [hchecked]
        exact ⟨_, hadmit⟩

theorem finish_advances (w : World) (hstage : call.stage = .executing tries)
    (ok : Bool) : ∃ f, w.Advances (w.finish i call ok) i call f := by
  have hlive : call.stage ≠ .finished := by rw [hstage]; nofun
  have hbefore : call.stage ≠ .installed := by rw [hstage]; nofun
  have hflight : w.inFlight call = true := by
    rw [inFlight, hstage]
    rfl
  have hgo : ∀ {w' : World} {f : Call → Call}, w'.calls = w.calls.modify i f →
      w'.operationLease = w.operationLease → (f call).kind = call.kind →
      (f call).operationOwner = call.operationOwner →
      ((f call).stage = .opened ∨ (f call).stage = .finished) →
      ∃ f, w.Advances w' i call f := by
    intro w' f hcalls hlease hkind howner hafter
    refine ⟨f, hcalls, hkind, howner, hlive, hbefore, .inl hlease, fun _ => hflight, ?_⟩
    have hzero : w'.callWork (f call) = 0 := by
      unfold callWork
      rcases hafter with heq | heq <;> rw [heq]
    rw [hzero, work_executing hstage]
    exact Nat.succ_pos _
  unfold World.finish
  split
  · split
    · exact hgo rfl rfl rfl rfl (.inl rfl)
    · exact hgo rfl rfl rfl rfl (.inr rfl)
  · split
    · exact hgo rfl rfl rfl rfl (.inr rfl)
    · exact hgo rfl rfl rfl rfl (.inl rfl)
  · exact hgo rfl rfl rfl rfl (.inr rfl)

theorem settle_advances (w : World) (hstage : call.stage = .executing tries)
    (outcome : Outcome) : ∃ f, w.Advances (w.settle i call tries outcome) i call f := by
  unfold World.settle
  split
  · exact finish_advances w hstage false
  · split
    · refine ⟨_, rfl, rfl, rfl, ?_, ?_, .inl rfl, fun _ => ?_, ?_⟩
      · rw [hstage]
        nofun
      · rw [hstage]
        nofun
      · rw [inFlight, hstage]
        rfl
      · rw [work_executing hstage]
        exact Nat.lt_succ_self _
    · exact finish_advances w hstage false
  · exact finish_advances w hstage true
  · exact finish_advances w hstage false

theorem retry_advances (w : World) (hstage : call.stage = .backoff tries) (hlt : tries < maxTries) :
    ∃ f, w.Advances (w.setStage i (.executing (tries + 1))) i call f := by
  refine ⟨_, rfl, rfl, rfl, ?_, ?_, .inl rfl, fun _ => ?_, ?_⟩
  · rw [hstage]
    nofun
  · rw [hstage]
    nofun
  · rw [inFlight, hstage]
    rfl
  · have hbackoff : w.callWork call = 2 * (maxTries - tries) := by rw [callWork, hstage]
    rw [hbackoff]
    show 2 * (maxTries - (tries + 1)) + 1 < 2 * (maxTries - tries)
    omega

theorem Inv.advances (h : w.Inv) (ha : a.isInternal = true) (hstep : w.step a = some w') :
    ∃ i call f, w.calls[i]? = some call ∧ w.Advances w' i call f ∧
      (w'.operationLease = w.operationLease ∨ a = .enterMutex i) := by
  cases happens_of_step hstep with
  | checked _ hinternal | queued _ hinternal | frames hinternal => cases ha.symm.trans hinternal
  | endTransaction | release => cases ha
  | proceed hi hstage =>
    obtain ⟨f, hf⟩ := h.proceed_advances hi hstage
    refine ⟨_, _, f, hi, hf, .inl (hf.lease.resolve_right ?_)⟩
    rintro ⟨hkind, -⟩
    refine kind_of_stage (h.ok _ (mem_of_getElem? hi)) ?_ hf.before hf.live hkind
    rcases hstage with heq | ⟨lease, heq, -⟩ <;> rw [heq] <;> nofun
  | enterMutex hi hstage hmutex =>
    obtain ⟨f, hf⟩ := h.enterMutex_advances hi hstage
    exact ⟨_, _, f, hi, hf, .inr rfl⟩
  | settle outcome hi hstage =>
    obtain ⟨f, hf⟩ := settle_advances w hstage outcome
    refine ⟨_, _, f, hi, hf, .inl (hf.lease.resolve_right ?_)⟩
    rintro ⟨hkind, -⟩
    exact kind_of_stage (h.ok _ (mem_of_getElem? hi)) (by rw [hstage]; nofun) hf.before
      hf.live hkind
  | retry hi hstage hlt =>
    obtain ⟨f, hf⟩ := retry_advances w hstage hlt
    exact ⟨_, _, f, hi, hf, .inl rfl⟩

theorem Inv.work_step (h : w.Inv) (ha : a.isInternal = true)
    (hstep : w.step a = some w') : w'.work < w.work := by
  obtain ⟨i, call, f, hi, hf, -⟩ := h.advances ha hstep
  have hsum := sum_map_modify hi f w'.callWork
  have hsame : w.calls.map w'.callWork = w.calls.map w.callWork :=
    map_congr_left fun c hc => h.callWork_others hf.calls hi hf.live hf.before hc
  have hcall := h.callWork_others hf.calls hi hf.live hf.before (mem_of_getElem? hi)
  have hless := hf.work
  rw [hsame] at hsum
  unfold work
  rw [hf.calls]
  omega

theorem Inv.work_run (as : List LeaseAction) : ∀ {w w' : World}, w.Inv →
    (∀ a ∈ as, a.isInternal = true) → runActions World.step w as = some w' →
    as.length ≤ w.work := by
  induction as with
  | nil => exact fun _ _ _ => Nat.zero_le _
  | cons a as ih =>
    intro w w' h hinternal hrun
    obtain ⟨w₁, hstep, hrest⟩ := runActions_cons.mp hrun
    have ha := hinternal a mem_cons_self
    have hless := h.work_step ha hstep
    have hlen := ih (h.step hstep) (fun b hb => hinternal b (mem_cons_of_mem a hb)) hrest
    rw [length_cons]
    omega

/-- While a lease is installed, the statements in flight are its owner's. -/
def Isolated (w : World) : Prop :=
  ∀ lease, w.operationLease = some lease → ∀ call ∈ w.calls, call.kind.isStatement = true →
    w.inFlight call = true → call.operationOwner = w.leaseOwner lease

theorem Isolated.step {a : LeaseAction} (h : w.Isolated) (hinv : w.Inv) (hok : w.Orderly a)
    (hstep : w.step a = some w') : w'.Isolated := by
  by_cases ha : a.isInternal = true
  · obtain ⟨i, call, f, hi, hf, hsame⟩ := hinv.advances ha hstep
    have hleaseOwner := leaseOwner_modify hf.calls hi hf.owner
    have hcases : ∀ c ∈ w'.calls, c.kind.isStatement = true → w'.inFlight c = true →
        ∃ c₀ ∈ w.calls, c₀.kind.isStatement = true ∧ w.inFlight c₀ = true ∧
          c₀.operationOwner = c.operationOwner := by
      intro c hc hstatement hflight
      obtain ⟨j, hj⟩ := mem_iff_getElem?.mp hc
      rw [hf.calls] at hj
      rcases modify_cases hj hi with ⟨-, rfl⟩ | ⟨-, hj⟩
      · rw [hf.kind] at hstatement
        exact ⟨call, mem_of_getElem? hi, hstatement, hf.flight hstatement, hf.owner.symm⟩
      · have hmem := mem_of_getElem? hj
        refine ⟨c, hmem, hstatement, ?_, rfl⟩
        rwa [← hinv.inFlight_others hf.calls hi hf.live hf.before hmem]
    intro lease hl c hc hstatement hflight
    obtain ⟨c₀, hc₀, hstatement₀, hflight₀, howner⟩ := hcases c hc hstatement hflight
    rw [← howner, hleaseOwner]
    rcases hf.lease with hlease | ⟨hkind, hnone, hcount, hinstalled⟩
    · exact h lease (hlease ▸ hl) c₀ hc₀ hstatement₀ hflight₀
    · -- the lease is installed by this step
      cases hinstalled.symm.trans hl
      rcases hsame with hsame | rfl
      · cases hnone.symm.trans (hsame.symm.trans hinstalled)
      · rw [leaseOwner_eq hi]
        exact hok call hi hkind hnone hcount c₀ hc₀ hstatement₀ hflight₀
  · have hnew : ∀ {new : Call}, new.stage = .queued ∨
        (∃ lease, new.stage = .waiting lease ∧ w.blocking new.operationOwner = some lease) ∨
        w.blocking new.operationOwner = none → (w.enter new).Isolated := by
      intro new hcase lease hl c hc hstatement hflight
      have hsame : ∀ {l : ℕ} {c : Call}, w.calls[l]? = some c →
          (w.enter new).calls[l]? = some c := append_of_getElem?
      obtain ⟨operation, hoperation, hstage⟩ := hinv.installed (show w.operationLease = _ from hl)
      have howner : (w.enter new).leaseOwner lease = w.leaseOwner lease := by
        rw [leaseOwner_eq hoperation, leaseOwner_eq (hsame hoperation)]
      rw [howner]
      rcases mem_append.mp hc with hc | hc
      · refine h lease hl c hc hstatement ?_
        unfold inFlight at hflight ⊢
        split at hflight
        · next l hwaits =>
          rcases hinv.waits hc hwaits with hreleased | ⟨hl', -⟩
          · exact hreleased
          · obtain ⟨operation', hoperation', hstage'⟩ := hinv.installed hl'
            rw [released_eq (hsame hoperation'), hstage'] at hflight
            cases hflight
        · exact hflight
      · obtain rfl := mem_singleton.mp hc
        rcases hcase with hqueued | ⟨l, hwaits, hblocking⟩ | hnone
        · rw [inFlight, hqueued] at hflight
          cases hflight
        · obtain ⟨hl', -⟩ := blocking_eq_some.mp hblocking
          obtain ⟨operation', hoperation', hstage'⟩ := hinv.installed hl'
          rw [inFlight, hwaits] at hflight
          simp only at hflight
          rw [released_eq (hsame hoperation'), hstage'] at hflight
          cases hflight
        · by_contra hne
          cases hnone.symm.trans (blocking_eq_some.mpr ⟨hl, hne⟩)
    cases happens_of_step hstep with
    | checked operationOwner =>
      refine hnew (.inr ?_)
      rcases checked_cases w operationOwner with ⟨lease, hchecked, hblocking⟩ | ⟨-, hblocking⟩
      · exact .inl ⟨lease, hchecked, hblocking⟩
      · exact .inr hblocking
    | queued operationOwner => exact hnew (.inl rfl)
    | endTransaction rollback hi hstage =>
      intro lease hl c hc hstatement hflight
      rw [leaseOwner_modify rfl hi rfl]
      obtain ⟨j, hj⟩ := mem_iff_getElem?.mp hc
      rcases modify_cases hj hi with ⟨-, rfl⟩ | ⟨-, hj⟩
      · cases hflight
      · have hmem := mem_of_getElem? hj
        refine h lease hl c hmem hstatement ?_
        exact (hinv.inFlight_others rfl hi (by rw [hstage]; nofun) (by rw [hstage]; nofun)
          hmem).symm.trans hflight
    | release hi hstage =>
      intro lease hl
      rw [show (w.releaseLease _).operationLease = none from if_pos (hinv.lease hi hstage)] at hl
      cases hl
    | frames _ hcalls hlease hmutex hcount =>
      intro lease hl c hc hstatement hflight
      have howner : w'.leaseOwner lease = w.leaseOwner lease := by
        rw [leaseOwner, leaseOwner, hcalls]
      rw [howner]
      refine h lease (hlease ▸ hl) c (hcalls ▸ hc) hstatement ?_
      unfold inFlight at hflight ⊢
      split at hflight
      · rw [released, hcalls] at hflight
        exact hflight
      · exact hflight
    | proceed | enterMutex | settle | retry => exact absurd rfl ha

theorem Inv.rest (h : w.Inv) (hquiet : ∀ a, a.isInternal = true → w.step a = none)
    (hc : call ∈ w.calls) : call.stage = .finished ∨ call.stage = .opened ∨
      call.stage = .installed ∨ ∃ lease, call.stage = .waiting lease ∧
        w.operationLease = some lease ∧ call.operationOwner ≠ w.leaseOwner lease := by
  have hrunning : ∀ {i : ℕ} {c : Call}, w.calls[i]? = some c → c.stage.isRunning = false := by
    intro i c hi
    cases hs : c.stage with
    | admitted =>
      have hnone := hquiet (.resume i) rfl
      simp [World.step, hi, hs] at hnone
    | executing tries =>
      have hnone := hquiet (.settle i .ok) rfl
      simp [World.step, hi, hs] at hnone
    | backoff tries =>
      have hlt := (h.ok c (mem_of_getElem? hi)).1 tries hs
      have hnone := hquiet (.retry i) rfl
      simp [World.step, hi, hs, hlt] at hnone
    | waiting | queued | opened | installed | finished => rfl
  have hmutex : w.mutex = none := by
    by_contra hne
    obtain ⟨i, hi⟩ := Option.ne_none_iff_exists'.mp hne
    obtain ⟨c, hc, hacts⟩ := h.mutex.mp hi
    rw [Call.acts, hrunning hc, Bool.and_false] at hacts
    cases hacts
  obtain ⟨i, hi⟩ := mem_iff_getElem?.mp hc
  have hidle := hrunning hi
  cases hs : call.stage with
  | admitted | executing tries | backoff tries =>
    rw [hs] at hidle
    cases hidle
  | queued =>
    have hnone := hquiet (.enterMutex i) rfl
    simp [World.step, hi, hs, hmutex] at hnone
  | waiting lease =>
    refine .inr (.inr (.inr ⟨lease, rfl, (h.waits hc hs).resolve_left fun hreleased => ?_⟩))
    have hnone := hquiet (.resume i) rfl
    simp [World.step, hi, hs, hreleased] at hnone
  | opened => exact .inr (.inl rfl)
  | installed => exact .inr (.inr (.inl rfl))
  | finished => exact .inl rfl

theorem Inv.sound (h : w.Inv) : w.Sound where
  transactions lease hl call hc hopen := h.owners hl call hc (by rw [hopen]; rfl)
  finite as _ := h.work_run as
  rest hquiet _ := h.rest hquiet

theorem Isolated.statementsOwned (h : w.Isolated) (hinv : w.Inv) : w.StatementsOwned := by
  intro lease hl call hc tries hstage
  by_cases hkind : call.kind = .startTransaction
  · refine hinv.owners hl call hc ?_
    simp [Call.acts, hkind, hstage, Stage.isRunning]
  · refine h lease hl call hc (isStatement_of_executing (hinv.ok call hc) (.inl hstage) hkind) ?_
    rw [inFlight, hstage]
    rfl

/-- **Operation leases.** After every run, the transactions open while a lease is installed are its
    owner's; the steps that need no caller come to an end; and then whoever is not done waits for
    the installed lease, so nobody waits once all leases are released. In the runs in which a lease
    is installed while no statement of another caller is in flight, the statements on the
    connection, too, are those of the owner of the installed lease. -/
theorem operation_leases {as : List LeaseAction} (hrun : runActions World.step init as = some w) :
    w.Sound ∧ (Along World.step World.Orderly init as → w.StatementsOwned) := by
  have hinv : w.Inv := runActions_keeps (fun _ _ _ h => h.step) inv_init hrun
  refine ⟨hinv.sound, fun hok => ?_⟩
  have hisolated : w.Inv ∧ w.Isolated := runActions_invariant (I := fun w => w.Inv ∧ w.Isolated)
    (fun _ _ _ h hok hstep => ⟨h.1.step hstep, h.2.step h.1 hok hstep⟩) as
    ⟨inv_init, nofun⟩ hok hrun
  exact hisolated.2.statementsOwned hinv

/-- The owner of a lease works in a transaction while an unrelated query waits. -/
def ownedRun : List LeaseAction :=
  [.operation 7, .enterMutex 0, .query none true, .query (some 7) true, .resume 2, .settle 2 .ok,
    .startTransaction (some 7), .enterMutex 3, .resume 3, .settle 3 .ok, .endTransaction 3 false,
    .enterMutex 3, .resume 3, .settle 3 .ok, .releaseOperation 0, .resume 1]

theorem operation_leases_owned : ∃ w, runActions World.step init ownedRun = some w ∧
    w.calls.map Call.stage = [.finished, .executing 1, .finished, .finished] ∧ w.Sound ∧
      w.StatementsOwned := by
  obtain ⟨w, hw⟩ : ∃ w, runActions World.step init ownedRun = some w := ⟨_, rfl⟩
  obtain ⟨hsound, howned⟩ := operation_leases hw
  refine ⟨w, hw, ?_, hsound, howned ?_⟩
  · cases hw
    rfl
  · refine ⟨trivial, ?_, trivial, trivial, trivial, trivial, trivial, ?_, trivial, trivial, trivial,
      ?_, trivial, trivial, trivial, trivial, trivial⟩
    · intro operation hi hkind _ _ call hc hstatement
      obtain rfl := mem_singleton.mp hc
      cases hstatement
    · intro operation hi hkind
      cases hi
      cases hkind
    · intro operation hi hkind
      cases hi
      cases hkind

/-- A query waits for a lease and goes on when it is released; its statement is on the connection
    when the next lease is installed. -/
def outlivesRun : List LeaseAction :=
  [.operation 7, .enterMutex 0, .query none true, .releaseOperation 0, .resume 1, .operation 8,
    .enterMutex 2]

theorem statement_outlives : ∃ w, runActions World.step init outlivesRun = some w ∧
    ¬w.StatementsOwned := by
  obtain ⟨w, hw⟩ : ∃ w, runActions World.step init outlivesRun = some w := ⟨_, rfl⟩
  refine ⟨w, hw, fun h => ?_⟩
  cases hw
  cases h 2 rfl ⟨.query true, none, .executing 1, none⟩ (.tail _ (.head _)) 1 rfl

end World

end Velocious.OperationLease
