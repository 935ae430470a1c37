/-
  What a client's outbound queue guarantees in every run.

  * `Inv` splits the accepted tasks into those that are done and those that are held.
  * `Base.drain` starts the next task, and `Inv.step` is the step lemma; `Inv.follows` is that of what
    the actions of a run say of its state.
  * `queue_sound` is about every reachable state and every step from it.
-/
import Velocious.HttpServer.ClientDeliveryQueue

namespace Velocious.ClientDeliveryQueue

open Foundation List

section
variable {ε : Type} {o : Options} {s s' : State ε} {a : Action ε} {task : DeliveryTask}

/-! ## The invariant -/

def frames (tasks : List DeliveryTask) : List DeliveryTask :=
  tasks.filter DeliveryTask.countedFrame

def bytes (tasks : List DeliveryTask) : ℕ := ((frames tasks).map DeliveryTask.byteLength).sum

/-- What holds before the next task is started, too. -/
structure Base (o : Options) (s : State ε) : Prop where
  ids : (s.accepted.map DeliveryTask.id).Nodup
  called : ∀ task ∈ s.accepted, task.id < s.calls
  done : ∃ done, s.accepted = done ++ s.queue.held
  started : ∃ done, s.started = done ++ s.queue.activeTask.toList ∧
    (s.queue.destroyed = false → s.accepted = done ++ s.queue.held)
  startedInOrder : s.started <+: s.accepted
  running : s.queue.destroyed = false → s.running = s.queue.activeTask.toList
  oneActive : s.running.length ≤ 1
  settledOnce : s.settledIds.Nodup
  settled : ∀ id, id ∈ s.settledIds ↔ id < s.calls ∧ id ∉ s.queue.held.map DeliveryTask.id
  pendingFrames : s.queue.pendingFrames = (frames s.queue.held).length
  pendingBytes : s.queue.pendingBytes = bytes s.queue.held
  withinFrames : s.queue.pendingFrames ≤ o.maxFrames
  withinBytes : s.queue.pendingBytes ≤ o.maxBytes
  released : s.queue.destroyed = true → s.queue.held = []

/-- The invariant of the runs. -/
structure Inv (o : Options) (s : State ε) : Prop extends Base o s where
  drained : s.queue.activeTask = none → s.queue.tasks = []

theorem inv_initial (o : Options) : Inv o (initial : State ε) := by
  constructor
  · constructor <;> simp [initial, Queue.held, State.settledIds, frames, bytes]
  · simp [initial]

theorem Base.unfinishedFrames (h : Base o s) : s.unfinishedFrames = frames s.queue.held := by
  obtain ⟨done, hdone⟩ := h.done
  have hids := h.ids
  rw [hdone, map_append, nodup_append] at hids
  have hsettled : ∀ task ∈ s.accepted, task.id ∈ s.settledIds ↔
      task.id ∉ s.queue.held.map DeliveryTask.id := fun task htask => by
    rw [h.settled]
    exact and_iff_right (h.called task htask)
  have hnone : done.filter (fun task => task.countedFrame && decide (task.id ∉ s.settledIds)) = [] := by
    refine filter_eq_nil_iff.mpr fun task htask => ?_
    have hmem : task ∈ s.accepted := hdone ▸ mem_append_left _ htask
    have hnot : task.id ∉ s.queue.held.map DeliveryTask.id := fun hheld =>
      hids.2.2 _ (mem_map_of_mem htask) _ hheld rfl
    simp [(hsettled task hmem).mpr hnot]
  rw [State.unfinishedFrames, hdone, filter_append, hnone]
  refine filter_congr fun task htask => ?_
  have hmem : task ∈ s.accepted := hdone ▸ mem_append_right _ htask
  have hnot : task.id ∉ s.settledIds := fun hsettle =>
    (hsettled task hmem).mp hsettle (mem_map_of_mem htask)
  simp [hnot]

theorem Inv.sound (h : Inv o s) : Sound o s where
  __ := h
  pendingFrames := by rw [h.toBase.unfinishedFrames, h.pendingFrames]
  pendingBytes := by rw [h.toBase.unfinishedFrames, h.pendingBytes, bytes]
  quiescent hquiet := by
    have hheld : s.queue.held = [] := by
      cases hdestroyed : s.queue.destroyed with
      | true => exact h.released hdestroyed
      | false =>
        have hrunning : s.running = [] := hquiet.resolve_right (by simp [hdestroyed])
        have hactive : s.queue.activeTask.toList = [] := (h.running hdestroyed).symm.trans hrunning
        rw [Option.toList_eq_nil_iff] at hactive
        rw [Queue.held, hactive, h.drained hactive]
        rfl
    refine ⟨hheld, fun id hid => (h.settled id).mpr ⟨hid, ?_⟩⟩
    rw [hheld]
    exact not_mem_nil

/-- **The next task is started**, if none is active; what is held stays. -/
theorem Base.drain (h : Base o s) : Inv o (drain s) := by
  unfold ClientDeliveryQueue.drain
  split
  · rename_i hidle
    refine ⟨h, fun hactive => ?_⟩
    have hdestroyed : s.queue.destroyed = true := by
      rcases hidle with hdestroyed | hsome
      · exact hdestroyed
      · rw [hactive] at hsome
        cases hsome
    exact (append_eq_nil_iff.mp (h.released hdestroyed)).2
  · rename_i hidle
    push Not at hidle
    obtain ⟨hopen, hactive⟩ := hidle
    have hopen : s.queue.destroyed = false := by simpa using hopen
    have hactive : s.queue.activeTask = none := by simpa using hactive
    split
    · rename_i htasks
      exact ⟨h, fun _ => htasks⟩
    · rename_i task tasks htasks
      have hheld : s.queue.held = task :: tasks := by rw [Queue.held, hactive, htasks]; rfl
      obtain ⟨done, hstarted, haccepted⟩ := h.started
      rw [hactive, Option.toList_none, append_nil] at hstarted
      have hsplit := haccepted hopen
      rw [hheld] at hsplit
      have hheld' : Queue.held { s.queue with tasks, activeTask := some task } = task :: tasks := rfl
      refine ⟨⟨h.ids, h.called, ?_, ?_, ?_, ?_, ?_, h.settledOnce, ?_, ?_, ?_, h.withinFrames,
        h.withinBytes, ?_⟩, fun hnone => by cases hnone⟩
      · exact ⟨done, by rw [hheld', hsplit]⟩
      · exact ⟨done, by rw [hstarted]; rfl, fun _ => by rw [hheld', hsplit]⟩
      · rw [hstarted, hsplit]
        exact ⟨tasks, by simp⟩
      · intro _
        rw [h.running hopen, hactive]
        rfl
      · rw [h.running hopen, hactive]
        exact Nat.le_refl 1
      · intro id
        rw [hheld', ← hheld]
        exact h.settled id
      · rw [hheld', ← hheld]
        exact h.pendingFrames
      · rw [hheld', ← hheld]
        exact h.pendingBytes
      · intro hdestroyed
        cases hopen.symm.trans hdestroyed

/-! ## The steps -/

theorem Base.held_lt (h : Base o s) {id : ℕ} (hid : id ∈ s.queue.held.map DeliveryTask.id) :
    id < s.calls := by
  obtain ⟨done, hdone⟩ := h.done
  obtain ⟨task, htask, rfl⟩ := mem_map.mp hid
  exact h.called task (hdone ▸ mem_append_right done htask)

theorem Base.held_nodup (h : Base o s) : (s.queue.held.map DeliveryTask.id).Nodup := by
  obtain ⟨done, hdone⟩ := h.done
  have hids := h.ids
  rw [hdone, map_append] at hids
  exact hids.of_append_right

section
variable (h : Inv o s)
include h

theorem Inv.settleCall (outcome : Outcome ε) : Inv o (settleCall s outcome) := by
  have hids : (ClientDeliveryQueue.settleCall s outcome).settledIds = s.settledIds ++ [s.calls] := by
    simp [ClientDeliveryQueue.settleCall, State.settledIds]
  refine ⟨{ h with called := ?_, settledOnce := ?_, settled := ?_ }, h.drained⟩
  · exact fun task htask => Nat.lt_succ_of_lt (h.called task htask)
  · rw [hids, nodup_append]
    refine ⟨h.settledOnce, nodup_singleton _, ?_⟩
    rintro id hid _ hcall rfl
    exact absurd ((h.settled id).mp hid).1 (by simp [mem_singleton.mp hcall])
  · intro id
    have hnew : s.calls ∉ s.queue.held.map DeliveryTask.id := fun hid =>
      absurd (h.toBase.held_lt hid) (Nat.lt_irrefl _)
    rw [hids, mem_append, mem_singleton, h.settled]
    show _ ↔ id < s.calls + 1 ∧ id ∉ s.queue.held.map DeliveryTask.id
    constructor
    · rintro (⟨hid, hheld⟩ | rfl)
      · exact ⟨Nat.lt_succ_of_lt hid, hheld⟩
      · exact ⟨Nat.lt_succ_self _, hnew⟩
    · rintro ⟨hid, hheld⟩
      rcases Nat.lt_succ_iff_lt_or_eq.mp hid with hid | hid
      · exact .inl ⟨hid, hheld⟩
      · exact .inr hid

/-- **A task is accepted**, with the counters that are right for it. -/
theorem Inv.enqueue (hopen : s.queue.destroyed = false) {byteLength : ℕ}
    {countedFrame : Bool} {pendingBytes pendingFrames : ℤ}
    (hframes : pendingFrames = (frames (s.queue.held ++ [⟨s.calls, byteLength, countedFrame⟩])).length)
    (hbytes : pendingBytes = bytes (s.queue.held ++ [⟨s.calls, byteLength, countedFrame⟩]))
    (hmaxFrames : pendingFrames ≤ o.maxFrames) (hmaxBytes : pendingBytes ≤ o.maxBytes) :
    Inv o (enqueue { s with queue := { s.queue with pendingBytes, pendingFrames } }
      byteLength countedFrame) := by
  set task : DeliveryTask := ⟨s.calls, byteLength, countedFrame⟩ with htask
  have hheld : Queue.held { s.queue with
      pendingBytes, pendingFrames, tasks := s.queue.tasks ++ [task] } = s.queue.held ++ [task] :=
    (append_assoc ..).symm
  have hlast : ∀ done, s.accepted = done ++ s.queue.held →
      s.accepted ++ [task] = done ++ (s.queue.held ++ [task]) := fun done hdone => by
    rw [hdone, append_assoc]
  refine Base.drain ?_
  refine { h.toBase with
    ids := ?_, called := ?_, done := ?_, started := ?_, startedInOrder := ?_, settled := ?_,
    pendingFrames := ?_, pendingBytes := ?_, withinFrames := hmaxFrames, withinBytes := hmaxBytes,
    released := fun hdestroyed => by cases hopen.symm.trans hdestroyed }
  · rw [map_append, nodup_append]
    refine ⟨h.ids, nodup_singleton _, ?_⟩
    rintro id hid _ hcall rfl
    obtain ⟨old, hold, rfl⟩ := mem_map.mp hid
    exact absurd (h.called old hold) (by simp [mem_singleton.mp hcall])
  · intro new hnew
    rcases mem_append.mp hnew with hold | hself
    · exact Nat.lt_succ_of_lt (h.called new hold)
    · rw [mem_singleton.mp hself]
      exact Nat.lt_succ_self _
  · obtain ⟨done, hdone⟩ := h.done
    exact ⟨done, (hlast done hdone).trans (congrArg _ hheld.symm)⟩
  · obtain ⟨done, hstarted, haccepted⟩ := h.started
    exact ⟨done, hstarted, fun _ => (hlast done (haccepted hopen)).trans (congrArg _ hheld.symm)⟩
  · exact h.startedInOrder.trans (prefix_append ..)
  · intro id
    rw [hheld, map_append, mem_append, not_or]
    refine (h.settled id).trans ⟨fun ⟨hid, hnot⟩ => ⟨Nat.lt_succ_of_lt hid, hnot, ?_⟩, ?_⟩
    · simpa using Nat.ne_of_lt hid
    · rintro ⟨hid, hnot, hne⟩
      exact ⟨Nat.lt_of_le_of_ne (Nat.le_of_lt_succ hid) (by simpa using hne), hnot⟩
  · rw [hheld]
    exact hframes
  · rw [hheld]
    exact hbytes

theorem Inv.enqueueFrame (byteLength : ℕ) : Inv o (enqueueFrame o s byteLength) := by
  simp only [ClientDeliveryQueue.enqueueFrame]
  split
  · exact h.settleCall _
  · rename_i hopen
    split
    · exact h.settleCall _
    · rename_i hwithin
      obtain ⟨hframes, hbytes⟩ := not_or.mp hwithin
      refine h.enqueue (by simpa using hopen) ?_ ?_ (Int.not_lt.mp hframes) (Int.not_lt.mp hbytes)
      · simp [frames, h.pendingFrames]
      · simp [frames, bytes, h.pendingBytes]

theorem Inv.enqueueControl : Inv o (enqueueControl s) := by
  unfold ClientDeliveryQueue.enqueueControl
  split
  · exact h.settleCall _
  · rename_i hopen
    refine h.enqueue (by simpa using hopen) ?_ ?_ h.withinFrames h.withinBytes
    · simp [frames, h.pendingFrames]
    · simp [frames, bytes, h.pendingBytes]

theorem Inv.destroy : Inv o (destroy s) := by
  unfold ClientDeliveryQueue.destroy
  split
  · exact h
  · have hids : State.settledIds { s with
        queue := ⟨[], none, 0, 0, true⟩
        settled := s.settled ++ s.queue.held.map fun task => (task.id, Outcome.resolved) } =
        s.settledIds ++ s.queue.held.map DeliveryTask.id := by
      simp [State.settledIds]
    refine ⟨{ h.toBase with
      done := ⟨s.accepted, by simp [Queue.held]⟩
      started := ⟨s.started, by simp, fun hdestroyed => by cases hdestroyed⟩
      running := fun hdestroyed => by cases hdestroyed
      settledOnce := ?_
      settled := fun id => ?_
      pendingFrames := rfl
      pendingBytes := rfl
      withinFrames := Int.natCast_nonneg _
      withinBytes := Int.natCast_nonneg _
      released := fun _ => rfl }, fun _ => rfl⟩
    · rw [hids, nodup_append]
      refine ⟨h.settledOnce, h.toBase.held_nodup, ?_⟩
      rintro id hid _ hheld rfl
      exact ((h.settled id).mp hid).2 hheld
    · rw [hids, mem_append, h.settled]
      show _ ↔ id < s.calls ∧ id ∉ []
      constructor
      · rintro (⟨hid, -⟩ | hheld)
        · exact ⟨hid, not_mem_nil⟩
        · exact ⟨h.toBase.held_lt hheld, not_mem_nil⟩
      · rintro ⟨hid, -⟩
        by_cases hheld : id ∈ s.queue.held.map DeliveryTask.id
        · exact .inr hheld
        · exact .inl ⟨hid, hheld⟩

theorem Inv.active (hopen : s.queue.destroyed = false) (hrunning : task ∈ s.running) :
    s.queue.activeTask = some task ∧ s.running.erase task = [] := by
  have hactive := h.running hopen
  rw [hactive] at hrunning
  have hsome := Option.mem_toList.mp hrunning
  exact ⟨hsome, by rw [hactive, hsome, Option.toList_some, erase_cons_head]⟩

/-- **A delivery ends** with or without an error; after `destroy` nothing is left of its task. -/
theorem Inv.finish (hrunning : task ∈ s.running) (error : Option ε) :
    Inv o (finish { s with running := s.running.erase task } task error) := by
  simp only [ClientDeliveryQueue.finish]
  cases hdestroyed : s.queue.destroyed with
  | true =>
    refine ⟨{ h.toBase with running := fun hopen => ?_, oneActive := ?_ }, h.drained⟩
    · cases hdestroyed.symm.trans hopen
    · exact Nat.le_trans length_erase_le h.oneActive
  | false =>
    obtain ⟨hactive, hnone⟩ := h.active hdestroyed hrunning
    have hheld : s.queue.held = task :: s.queue.tasks := by rw [Queue.held, hactive]; rfl
    have hframes := h.pendingFrames
    have hbytes := h.pendingBytes
    rw [hheld] at hframes hbytes
    have hids : (s.settled ++ [(task.id, error.elim Outcome.resolved Outcome.rejected)]).map
        Prod.fst = s.settledIds ++ [task.id] := by simp [State.settledIds]
    obtain ⟨done, hstarted, haccepted⟩ := h.started
    have hsplit : s.accepted = (done ++ [task]) ++ s.queue.tasks := by
      rw [haccepted hdestroyed, hheld, append_assoc]
      rfl
    have hnodup := h.toBase.held_nodup
    rw [hheld, map_cons, nodup_cons] at hnodup
    have hlt : task.id < s.calls := h.toBase.held_lt (by simp [hheld])
    -- the counters count what is left
    have hleft : ∀ pendingBytes pendingFrames : ℤ, pendingFrames = (frames s.queue.tasks).length →
        pendingBytes = bytes s.queue.tasks → Inv o (drain { s with
          queue := ⟨s.queue.tasks, none, pendingBytes, pendingFrames, false⟩
          running := s.running.erase task
          settled := s.settled ++ [(task.id, error.elim .resolved .rejected)] }) := by
      rintro _ _ rfl rfl
      refine Base.drain { h.toBase with
        done := ⟨_, hsplit⟩
        started := ⟨done ++ [task], ?_, fun _ => hsplit⟩
        running := fun _ => hnone
        oneActive := by simp [hnone]
        settledOnce := ?_
        settled := fun id => ?_
        pendingFrames := rfl
        pendingBytes := rfl
        withinFrames := ?_
        withinBytes := ?_
        released := fun hend => by cases hend }
      · simp [hstarted, hactive]
      · rw [State.settledIds, hids, nodup_append]
        refine ⟨h.settledOnce, nodup_singleton _, ?_⟩
        rintro id hid _ hend rfl
        rw [mem_singleton.mp hend] at hid
        exact ((h.settled _).mp hid).2 (by simp [hheld])
      · rw [State.settledIds, hids, mem_append, mem_singleton, h.settled, hheld]
        show _ ↔ id < s.calls ∧ id ∉ s.queue.tasks.map DeliveryTask.id
        rw [map_cons, mem_cons, not_or]
        constructor
        · rintro (⟨hid, -, hnot⟩ | rfl)
          · exact ⟨hid, hnot⟩
          · exact ⟨hlt, hnodup.1⟩
        · rintro ⟨hid, hnot⟩
          by_cases hself : id = task.id
          · exact .inr hself
          · exact .inl ⟨hid, hself, hnot⟩
      · refine Int.le_trans (Int.ofNat_le.mpr ?_) (hframes ▸ h.withinFrames)
        exact ((sublist_cons_self ..).filter _).length_le
      · refine Int.le_trans (Int.ofNat_le.mpr ?_) (hbytes ▸ h.withinBytes)
        rw [bytes, bytes, frames, frames, filter_cons]
        split
        · exact Nat.le_add_left ..
        · exact Nat.le_refl _
    rw [if_neg (by simp [hactive])]
    cases hcounted : task.countedFrame with
    | false =>
      refine hleft _ _ ?_ ?_
      · simp [hframes, frames, hcounted]
      · simp [hbytes, frames, bytes, hcounted]
    | true =>
      refine hleft _ _ ?_ ?_
      · simp [hframes, frames, hcounted]
      · simp [hbytes, frames, bytes, hcounted]

theorem Inv.step (hstep : step o s a = some s') : Inv o s' := by
  cases a with
  | enqueueFrame byteLength =>
    cases hstep
    exact h.enqueueFrame byteLength
  | enqueueControl =>
    cases hstep
    exact h.enqueueControl
  | destroy =>
    cases hstep
    exact h.destroy
  | delivered task error =>
    simp only [ClientDeliveryQueue.step, Option.ite_none_right_eq_some, Option.some.injEq] at hstep
    obtain ⟨hrunning, rfl⟩ := hstep
    exact h.finish hrunning error

end

@[simp]
theorem accepted_drain (s : State ε) : (drain s).accepted = s.accepted := by
  unfold drain
  repeat' split
  all_goals rfl

@[simp]
theorem settled_drain (s : State ε) : (drain s).settled = s.settled := by
  unfold drain
  repeat' split
  all_goals rfl

@[simp]
theorem calls_drain (s : State ε) : (drain s).calls = s.calls := by
  unfold drain
  repeat' split
  all_goals rfl

@[simp]
theorem destroyed_drain (s : State ε) : (drain s).queue.destroyed = s.queue.destroyed := by
  unfold drain
  repeat' split
  all_goals rfl

/-- What is started runs. -/
theorem started_drain (s : State ε) :
    ∃ new, (drain s).started = s.started ++ new ∧ (drain s).running = s.running ++ new := by
  unfold drain
  split
  · exact ⟨[], by simp⟩
  · split
    · exact ⟨[], by simp⟩
    · exact ⟨[_], rfl, rfl⟩

theorem drain_eq (hopen : s.queue.destroyed = false) (hactive : s.queue.activeTask = none) :
    (drain s).started = s.started ++ s.queue.tasks.head?.toList ∧
      (drain s).queue.activeTask = s.queue.tasks.head? := by
  unfold drain
  rw [if_neg (by simp [hopen, hactive])]
  cases htasks : s.queue.tasks with
  | nil => simp [hactive]
  | cons task tasks => simp

theorem Inv.proceeds (h : Inv o s) (hstep : ClientDeliveryQueue.step o s a = some s') :
    Proceeds o s s' a := by
  cases a with
  | enqueueFrame byteLength =>
    cases hstep
    refine ⟨?_, nofun, ?_, nofun, ?_, nofun⟩
    · rintro _ ⟨⟩ hopen
      constructor
      · rintro ⟨hframes, hbytes⟩
        have hroom : ¬ (s.queue.pendingFrames + 1 > o.maxFrames ∨
            s.queue.pendingBytes + byteLength > o.maxBytes) :=
          not_or.mpr ⟨Int.not_lt.mpr hframes, Int.not_lt.mpr hbytes⟩
        simp only [ClientDeliveryQueue.enqueueFrame]
        rw [if_neg (by simp [hopen]), if_neg hroom]
        exact ⟨accepted_drain _, settled_drain _⟩
      · intro hfull
        have hroom : s.queue.pendingFrames + 1 > o.maxFrames ∨
            s.queue.pendingBytes + byteLength > o.maxBytes := by
          by_contra hno
          rw [not_or, Int.not_lt, Int.not_lt] at hno
          exact hfull hno
        simp only [ClientDeliveryQueue.enqueueFrame]
        rw [if_neg (by simp [hopen]), if_pos hroom]
        exact ⟨rfl, rfl⟩
    · intro _ hdestroyed
      simp [ClientDeliveryQueue.enqueueFrame, ClientDeliveryQueue.settleCall, Declines, hdestroyed]
    · intro hdestroyed
      simp [ClientDeliveryQueue.enqueueFrame, ClientDeliveryQueue.settleCall, hdestroyed]
  | enqueueControl =>
    cases hstep
    refine ⟨nofun, ?_, ?_, nofun, ?_, nofun⟩
    · intro _ hopen
      simp [ClientDeliveryQueue.enqueueControl, ClientDeliveryQueue.enqueue, Accepts, hopen]
    · intro _ hdestroyed
      simp [ClientDeliveryQueue.enqueueControl, ClientDeliveryQueue.settleCall, Declines, hdestroyed]
    · intro hdestroyed
      simp [ClientDeliveryQueue.enqueueControl, ClientDeliveryQueue.settleCall, hdestroyed]
  | destroy =>
    cases hstep
    refine ⟨nofun, nofun, nofun, ?_, ?_, nofun⟩
    · intro _ hopen
      simp [ClientDeliveryQueue.destroy, hopen, Queue.held]
    · intro hdestroyed
      simp [ClientDeliveryQueue.destroy, hdestroyed]
  | delivered task error =>
    simp only [ClientDeliveryQueue.step, Option.ite_none_right_eq_some, Option.some.injEq] at hstep
    obtain ⟨hrunning, rfl⟩ := hstep
    refine ⟨nofun, nofun, nofun, nofun, ?_, ?_⟩
    · intro hdestroyed
      simp [ClientDeliveryQueue.finish, hdestroyed]
    · rintro _ _ ⟨⟩ hopen
      obtain ⟨hactive, -⟩ := h.active hopen hrunning
      simp only [ClientDeliveryQueue.finish]
      rw [if_neg (by simp [hopen, hactive])]
      cases hcounted : task.countedFrame
      · obtain ⟨hstarted, hnext⟩ := @drain_eq ε { s with
          running := s.running.erase task
          queue := { s.queue with activeTask := none }
          settled := s.settled ++ [(task.id, error.elim .resolved .rejected)] } hopen rfl
        exact ⟨settled_drain _, hstarted, hnext⟩
      · obtain ⟨hstarted, hnext⟩ := @drain_eq ε { s with
          running := s.running.erase task
          queue := { s.queue with
            activeTask := none
            pendingBytes := s.queue.pendingBytes - task.byteLength
            pendingFrames := s.queue.pendingFrames - 1 }
          settled := s.settled ++ [(task.id, error.elim .resolved .rejected)] } hopen rfl
        exact ⟨settled_drain _, hstarted, hnext⟩

/-! ## What a run's actions say of its state -/

section
variable {as : List (Action ε)}

theorem follows_initial : Follows [] (initial : State ε) := by
  constructor <;> simp [initial, State.settledIds]

theorem Follows.drain (h : Follows as s) : Follows as (drain s) where
  calls := by rw [calls_drain, h.calls]
  started := by
    obtain ⟨new, hstarted, hrunning⟩ := started_drain s
    rw [hstarted, hrunning, h.started, append_assoc]
  destroyed := by rw [destroyed_drain, h.destroyed]
  settled := by
    rw [State.settledIds, settled_drain, calls_drain]
    exact h.settled

/-- A call of `enqueueFrame` or `enqueueControl` that starts nothing yet. -/
theorem Follows.call (h : Follows as s) (ha : a.isEnqueue = true)
    (hcalls : s'.calls = s.calls + 1) (hstarted : s'.started = s.started)
    (hrunning : s'.running = s.running) (hdestroyed : s'.queue.destroyed = s.queue.destroyed)
    (hsettled : ∀ id ∈ s'.settledIds, id ∈ s.settledIds ∨ id = s.calls) :
    Follows (as ++ [a]) s' where
  calls := by simp [hcalls, h.calls, ha]
  started := by
    have hended : a.ended? = none := by
      cases a with
      | enqueueFrame byteLength => rfl
      | enqueueControl => rfl
      | destroy => cases ha
      | delivered task error => cases ha
    simp [hstarted, hrunning, h.started, hended]
  destroyed := by
    have hne : .destroy ≠ a := by rintro rfl; cases ha
    simp [hdestroyed, h.destroyed, hne]
  settled id hid := by
    rw [hcalls]
    rcases hsettled id hid with hold | rfl
    · exact Nat.lt_succ_of_lt (h.settled id hold)
    · exact Nat.lt_succ_self _

theorem Follows.settleCall (h : Follows as s) (ha : a.isEnqueue = true) (outcome : Outcome ε) :
    Follows (as ++ [a]) (settleCall s outcome) :=
  h.call ha rfl rfl rfl rfl fun id hid => by
    simpa [ClientDeliveryQueue.settleCall, State.settledIds, mem_append] using hid

theorem Follows.enqueue (h : Follows as s) (ha : a.isEnqueue = true) (q : Queue)
    (hq : q.destroyed = s.queue.destroyed) (byteLength : ℕ) (countedFrame : Bool) :
    Follows (as ++ [a]) (enqueue { s with queue := q } byteLength countedFrame) :=
  Follows.drain (h.call ha rfl rfl rfl hq fun _ hid => .inl hid)

theorem Inv.follows (h : Inv o s) (hfollows : Follows as s)
    (hstep : ClientDeliveryQueue.step o s a = some s') : Follows (as ++ [a]) s' := by
  cases a with
  | enqueueFrame byteLength =>
    cases hstep
    simp only [ClientDeliveryQueue.enqueueFrame]
    split
    · exact hfollows.settleCall rfl _
    · split
      · exact hfollows.settleCall rfl _
      · exact hfollows.enqueue (a := .enqueueFrame byteLength) rfl
          { s.queue with
            pendingFrames := s.queue.pendingFrames + 1
            pendingBytes := s.queue.pendingBytes + byteLength } rfl byteLength true
  | enqueueControl =>
    cases hstep
    unfold ClientDeliveryQueue.enqueueControl
    split
    · exact hfollows.settleCall rfl _
    · exact hfollows.enqueue rfl _ rfl _ _
  | destroy =>
    cases hstep
    unfold ClientDeliveryQueue.destroy
    split
    · next hdestroyed =>
      exact ⟨by simp [hfollows.calls, Action.isEnqueue],
        by simp [hfollows.started, Action.ended?], by simp [hdestroyed], hfollows.settled⟩
    · refine ⟨by simp [hfollows.calls, Action.isEnqueue],
        by simp [hfollows.started, Action.ended?], by simp, fun id hid => ?_⟩
      have hsplit : id ∈ s.settledIds ∨ id ∈ s.queue.held.map DeliveryTask.id := by
        simpa [State.settledIds] using hid
      rcases hsplit with hold | hheld
      · exact hfollows.settled id hold
      · exact h.toBase.held_lt hheld
  | delivered task error =>
    simp only [ClientDeliveryQueue.step, Option.ite_none_right_eq_some, Option.some.injEq] at hstep
    obtain ⟨hrunning, rfl⟩ := hstep
    -- one delivery runs at a time, so the one that ends is the last that started
    have hone : s.running = [task] := by
      have hone := h.oneActive
      match hrun : s.running, hrunning, hone with
      | [_], hmem, _ => rw [mem_singleton.mp hmem]
    have hended : s.started = as.filterMap Action.ended? ++ [task] := by
      rw [hfollows.started, hone]
    have hbase : ∀ (q : Queue) (settled : List (ℕ × Outcome ε)),
        q.destroyed = s.queue.destroyed → (∀ id ∈ settled.map Prod.fst, id < s.calls) →
        Follows (as ++ [.delivered task error])
          { s with running := s.running.erase task, queue := q, settled } := fun q settled hq hids =>
      ⟨by simp [hfollows.calls, Action.isEnqueue], by simp [hended, hone, Action.ended?],
        by simp [hq, hfollows.destroyed], hids⟩
    simp only [ClientDeliveryQueue.finish]
    split
    · exact hbase _ _ rfl hfollows.settled
    · next hactive =>
      rw [not_or, not_not] at hactive
      have hlt : task.id < s.calls := h.toBase.held_lt (by simp [Queue.held, hactive.2])
      refine Follows.drain (hbase _ _ ?_ ?_)
      · split <;> rfl
      · intro id hid
        rw [map_append, mem_append] at hid
        rcases hid with hold | hend
        · exact hfollows.settled id hold
        · rw [mem_singleton.mp hend]
          exact hlt

end

end

/-- **In every run the queue is sound and follows its actions, and every step proceeds as it
should.** -/
theorem queue_sound {ε : Type} (o : Options) (as : List (Action ε)) (s : State ε)
    (h : runActions (step o) initial as = some s) :
    Sound o s ∧ Follows as s ∧ ∀ a s', step o s a = some s' → Proceeds o s s' a := by
  have hinv : Inv o s ∧ Follows as s :=
    runActions_history (I := fun as s => Inv o s ∧ Follows as s) (fun _ _ _ _ hs hstep =>
      ⟨hs.1.step hstep, hs.1.follows hs.2 hstep⟩) ⟨inv_initial o, follows_initial⟩ h
  exact ⟨hinv.1.sound, hinv.2, fun _ _ hstep => hinv.1.proceeds hstep⟩

/-- A frame overflows, a delivery fails, and the client is destroyed while the next one runs. -/
def destroyedRun : List (Action String) :=
  [.enqueueFrame 3, .enqueueControl, .enqueueFrame 2, .delivered ⟨0, 3, true⟩ (some "lost"),
    .destroy, .enqueueFrame 1, .delivered ⟨1, 0, false⟩ none]

theorem queue_sound_destroyed :
    ∃ s, runActions (step ⟨1, 4, 2⟩) initial destroyedRun = some s ∧ Sound ⟨1, 4, 2⟩ s ∧
      Follows destroyedRun s ∧ s.settledIds = [2, 0, 1, 3] :=
  ⟨_, rfl, (queue_sound ⟨1, 4, 2⟩ destroyedRun _ rfl).1,
    (queue_sound ⟨1, 4, 2⟩ destroyedRun _ rfl).2.1, rfl⟩

end Velocious.ClientDeliveryQueue
